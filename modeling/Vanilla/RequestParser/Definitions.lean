import Vanilla.Http1.ChunkLine

/-!
# Request parser — the functions

`http1_1/request_parser/request_parser.v`, function by function.  A position into the buffer is a
`Nat`; a function that answers an offset or -1 is an `Option`; `!int` is a `Verdict`, with -1 its
`more`.  A slice `&buf[pos], len` handed to a helper is the list of its bytes.
-/

namespace Vanilla.RequestParser
open Scan Vanilla.Chunk

/-! ### Slices and requests -/

/-- `Slice`.  `len` is -1 where `line_header_value` finds whitespace behind the name. -/
structure Slice where
  start : Nat
  len : Int
  deriving DecidableEq

/-- The bytes of a slice. -/
def Slice.view (s : Slice) (buf : List UInt8) : List UInt8 :=
  (buf.drop s.start).take s.len.toNat

/-- `HttpRequest`. -/
structure HttpRequest where
  buffer : List UInt8
  method : Slice := ⟨0, 0⟩
  path : Slice := ⟨0, 0⟩
  version : Slice := ⟨0, 0⟩
  headerFields : Slice := ⟨0, 0⟩
  body : Slice := ⟨0, 0⟩
  deriving DecidableEq

/-! ### Decoding the head -/

/-- Why `request_line_end` rejects a request line: the `rl_*` codes. -/
inductive RlError where
  | tooShort
  | noSpaceAfterMethod
  | emptyMethod
  | noTarget
  | noSpaceAfterTarget
  | noCr
  | noLf
  deriving DecidableEq

/-- The end of `request_line_end`: the version, if the target ended in a space. -/
def requestLineVersion (req : HttpRequest) (pos spPos crPos : Nat) :
    Except RlError Nat × HttpRequest :=
  let buf := req.buffer
  let pathEnd := if spPos < crPos then pos + spPos else pos + crPos
  let req := { req with path := ⟨pos, pathEnd - pos⟩ }
  if crPos < spPos then
    -- the CR comes first: no version
    if buf[pathEnd + 1]? ≠ some lf then (.error .noLf, req)
    else (.ok (pathEnd + 2), { req with version := ⟨0, 0⟩ })
  else
    match findByteIdx (buf.drop (pathEnd + 1)) cr with
    | none => (.error .noCr, req)
    | some crAfterVersion =>
      let req := { req with version := ⟨pathEnd + 1, crAfterVersion⟩ }
      let endOfLine := pathEnd + 1 + crAfterVersion
      if buf[endOfLine + 1]? ≠ some lf then (.error .noLf, req)
      else (.ok (endOfLine + 2), req)

/-- `request_line_end`: the index just past the request line's CRLF, and the request with the
parts found so far. -/
def requestLineEnd (req : HttpRequest) : Except RlError Nat × HttpRequest :=
  let buf := req.buffer
  if buf.length < 12 then (.error .tooShort, req)
  else
    match findByteIdx buf sp with
    | none => (.error .noSpaceAfterMethod, req)
    | some 0 => (.error .emptyMethod, req)
    | some (m + 1) =>
      let req := { req with method := ⟨0, (m + 1 : Nat)⟩ }
      let pos := m + 2 + ((buf.drop (m + 2)).takeWhile (· == sp)).length
      if pos = buf.length then (.error .noTarget, req)
      else
        match findByteIdx (buf.drop pos) sp with
        | none => (.error .noSpaceAfterTarget, req)
        | some spPos =>
          match findByteIdx (buf.drop pos) cr with
          | none => (.error .noCr, req)
          | some crPos => requestLineVersion req pos spPos crPos

/-- `double_crlf`. -/
def doubleCrlf : List UInt8 := [cr, lf, cr, lf]

/-- `decode_into`. -/
def decodeInto (req : HttpRequest) : Bool × HttpRequest :=
  let buffer := req.buffer
  match requestLineEnd req with
  | (.error _, req) => (false, req)
  | (.ok headerStart, req) =>
    if buffer[headerStart]? = some cr ∧ buffer[headerStart + 1]? = some lf then
      -- an empty header section
      let bodyStart := headerStart + 2
      let body : Slice :=
        if bodyStart < buffer.length then ⟨bodyStart, (buffer.length - bodyStart : Nat)⟩
        else ⟨0, 0⟩
      (true, { req with headerFields := ⟨headerStart, 0⟩, body := body })
    else
      match findSequenceIdx doubleCrlf (buffer.drop headerStart) with
      | none => (false, req)
      | some headerLen =>
        let bodyStart := headerStart + headerLen + 4
        let body : Slice :=
          if headerLen + headerStart + 4 = buffer.length then ⟨0, 0⟩
          else ⟨bodyStart, (buffer.length - bodyStart : Nat)⟩
        (true, { req with headerFields := ⟨headerStart, headerLen⟩, body := body })

/-! ### Field lines -/

/-- `line_header_value` on the line `buf[line_start..line_start + line_len]`. -/
def lineHeaderValue (buf : List UInt8) (lineStart lineLen : Nat) (name : List UInt8) :
    Option Slice :=
  let l := (buf.drop lineStart).take lineLen
  if lineLen < name.length + 1 then none
  else if !asciiCiEq (l.take name.length) name then none
  else if l[name.length]? ≠ some colon then
    if l[name.length]? = some sp ∨ l[name.length]? = some htab then some ⟨lineStart, -1⟩
    else none
  else
    let value := l.drop (name.length + 1)
    let v := lineStart + name.length + 1 + (value.takeWhile isOws).length
    some ⟨v, (trim isOws value).length⟩

/-- `max_declared`. -/
def maxDeclared : Nat := 1 <<< 30

/-- The digit loop of `parse_content_length`. -/
def contentLengthDigits : List UInt8 → Nat → Except String Nat
  | [], n => .ok n
  | c :: r, n =>
    if c < 48 || c > 57 then .error "non-digit in Content-Length"
    else
      let n := n * 10 + (c.toNat - 48)
      if n > maxDeclared then .error "Content-Length exceeds 1073741824 bytes"
      else contentLengthDigits r n

/-- `parse_content_length`. -/
def parseContentLength (buf : List UInt8) (s : Slice) : Except String Nat :=
  if s.len ≤ 0 then .error "empty Content-Length"
  else contentLengthDigits (s.view buf) 0

/-- `field_line_len`. -/
def fieldLineLen (buf : List UInt8) (lineStart lfAt : Nat) : Nat :=
  if 0 < lfAt ∧ buf[lineStart + lfAt - 1]? = some cr then lfAt - 1 else lfAt

/-- One pass over the lines of a decoded header section, as `get_header_value_slice` and
`count_header` both make it: `onLine` is what a line does to the answer so far. -/
def sectionStep {α : Type} (req : HttpRequest) (onLine : Nat → Nat → α → Turn α α) (s : Nat × α) :
    Turn (Nat × α) α :=
  let sectionEnd := req.headerFields.start + req.headerFields.len.toNat
  let (pos, a) := s
  if sectionEnd < pos + 2 then .exit a
  else
    match findByteIdx ((req.buffer.drop pos).take (sectionEnd + 2 - pos)) lf with
    | none => .exit a
    | some lfAt =>
      let lineLen := fieldLineLen req.buffer pos lfAt
      if lineLen = 0 then .exit a
      else
        match onLine pos lineLen a with
        | .exit a => .exit a
        | .next a => .next (pos + lfAt + 1, a)

/-- What `get_header_value_slice` does with a line. -/
def getLine (buf name : List UInt8) (pos lineLen : Nat) (a : Option Slice) :
    Turn (Option Slice) (Option Slice) :=
  match lineHeaderValue buf pos lineLen name with
  | some v => if 0 ≤ v.len then .exit (some v) else .next a
  | none => .next a

/-- `get_header_value_slice`. -/
def getHeaderValueSlice (req : HttpRequest) (name : List UInt8) : Option Slice :=
  if req.headerFields.len ≤ 0 then none
  else
    loop (sectionStep req (getLine req.buffer name)) (fun s => req.buffer.length + 2 - s.1) none
      (req.headerFields.start, none)

/-- What `count_header` does with a line. -/
def countLine (buf name : List UInt8) (pos lineLen count : Nat) : Turn Nat Nat :=
  let line := (buf.drop pos).take lineLen
  if name.length < lineLen ∧ asciiCiEq (line.take name.length) name = true ∧
      buf[pos + name.length]? = some colon
  then .next (count + 1) else .next count

/-- `count_header`. -/
def countHeader (req : HttpRequest) (name : List UInt8) : Nat :=
  if req.headerFields.len ≤ 0 then 0
  else
    loop (sectionStep req (countLine req.buffer name)) (fun s => req.buffer.length + 2 - s.1) 0
      (req.headerFields.start, 0)

/-- `content_length`. -/
def contentLength (req : HttpRequest) : Int :=
  match getHeaderValueSlice req (ascii "Content-Length") with
  | none => -1
  | some s =>
    match parseContentLength req.buffer s with
    | .error _ => -1
    | .ok n => n

/-! ### Framing -/

/-- An `error_with_code`. -/
inductive VError where
  | error (msg : String) (code : Nat)
  deriving DecidableEq

/-- The loop of `te_fold`; the state is what is left of the value, whether the last coding was
chunked, and how many codings there were. -/
def teStep (s : List UInt8 × Bool × Nat) : Turn (List UInt8 × Bool × Nat) (Option Bool) :=
  match s with
  | ([], lastChunked, codings) => .exit (if codings = 0 then none else some lastChunked)
  | (c :: r, lastChunked, codings) =>
    if c == comma || isOws c then .next (r, lastChunked, codings)
    else
      let coding := ((c :: r).takeWhile (· != comma)).rdropWhile isOws
      if lastChunked then .exit none
      else
        .next ((c :: r).dropWhile (· != comma), asciiCiEq coding (ascii "chunked"), codings + 1)

/-- `te_fold`: `none` for its -1. -/
def teFold (buf : List UInt8) (v : Slice) (chunked : Bool) : Option Bool :=
  if !chunked && asciiCiEq (v.view buf) (ascii "chunked") then some true
  else loop teStep (fun s => s.1.length) none (v.view buf, chunked, 0)

/-- `request_line_is_http10`. -/
def requestLineIsHttp10 (buf : List UInt8) (rl : Nat) : Bool :=
  let e := if 0 < rl ∧ buf[rl - 1]? = some cr then rl - 1 else rl
  9 ≤ e && buf[e - 1]? == some 48 && buf[e - 9]? == some sp &&
    (buf.drop (e - 8)).take 8 == ascii "HTTP/1.0"

/-- One pass of `frame_trailer_section`; the state is `pos`. -/
def trailerStep (buf : List UInt8) (start : Nat) (maxHeader : Int) (pos : Nat) :
    Turn Nat (Verdict VError Nat) :=
  if 0 < maxHeader ∧ maxHeader < (pos - start : Int) then
    .exit (.refuse (.error "trailer section too large" 431))
  else if buf.length ≤ pos then .exit .more
  else if buf[pos]? = some cr ∧ buf.length ≤ pos + 1 then .exit .more
  else if buf[pos]? = some cr ∧ buf[pos + 1]? = some lf then .exit (.accept (pos + 2))
  else
    match findByteIdx (buf.drop pos) lf with
    | none =>
      if 0 < maxHeader ∧ maxHeader < (buf.length - start : Int) then
        .exit (.refuse (.error "trailer section too large" 431))
      else .exit .more
    | some lineLf =>
      if lineLf = 0 ∨ buf[pos + lineLf - 1]? ≠ some cr then
        .exit (.refuse (.error "trailer line not terminated by CRLF" 400))
      else if !trailerLineOk ((buf.drop pos).take (lineLf - 1)) then
        .exit (.refuse (.error "malformed trailer field" 400))
      else .next (pos + lineLf + 1)

/-- `frame_trailer_section`. -/
def frameTrailerSection (buf : List UInt8) (start : Nat) (maxHeader : Int) : Verdict VError Nat :=
  loop (trailerStep buf start maxHeader) (fun pos => buf.length - pos) .more start

/-- The errors of a chunk-size line. -/
def sizeError : SizeFault → VError
  | .tooLarge => .error "chunk size exceeds 1073741824 bytes" 400
  | .noSize => .error "invalid chunk size" 400
  | .badLine => .error "invalid chunk-size line" 400
  | .noCrlf => .error "chunk-size line not terminated by CRLF" 400

/-- The bound on a chunk's size: `size > max_declared` is refused. -/
def sizeBound (size _digits : Nat) : Bool := size ≤ maxDeclared

/-- The chunk-size line at `pos`, as `frame_chunked_total` reads it. -/
def chunkSizeAt (buf : List UInt8) (pos : Nat) : Verdict VError (Nat × Nat) :=
  (sizeLine sizeBound buf pos).mapErr sizeError

/-- One pass of `frame_chunked_total`; the state is `pos`. -/
def chunkedStep (buf : List UInt8) (maxHeader : Int) (pos : Nat) :
    Turn Nat (Verdict VError Nat) :=
  match chunkSizeAt buf pos with
  | .more => .exit .more
  | .refuse e => .exit (.refuse e)
  | .accept (dataStart, size) =>
    if size = 0 then .exit (frameTrailerSection buf dataStart maxHeader)
    else
      let crlfAt := dataStart + size
      if buf.length ≤ crlfAt + 1 then .exit .more
      else if buf[crlfAt]? ≠ some cr ∨ buf[crlfAt + 1]? ≠ some lf then
        .exit (.refuse (.error "chunk-data not terminated by CRLF" 400))
      else .next (crlfAt + 2)

/-- `frame_chunked_total`. -/
def frameChunkedTotal (buf : List UInt8) (bodyStart : Nat) (maxHeader maxBody : Int) :
    Verdict VError Nat :=
  if 0 < maxBody ∧ maxBody < (buf.length - bodyStart : Int) then
    .refuse (.error s!"body exceeds {maxBody} bytes" 413)
  else loop (chunkedStep buf maxHeader) (fun pos => buf.length - pos) .more bodyStart

/-- The framing sentinels `frame_err_*`. -/
inductive FrameErr where
  | malformed
  | body
  | header
  deriving DecidableEq

/-- The variables of the head walk. -/
structure HeadState where
  pos : Nat
  contentLength : Option Nat := none
  chunked : Bool := false
  teSeen : Bool := false
  deriving DecidableEq

/-- The framer's reading of one field line, `buf[line_start..line_start + line_len]`. -/
def fieldLine (buf : List UInt8) (maxBody : Int) (lineStart lineLen : Nat) (s : HeadState) :
    Except FrameErr HeadState :=
  match lineHeaderValue buf lineStart lineLen (ascii "Content-Length") with
  | some v =>
    if v.len < 0 then .error .malformed
    else
      match parseContentLength buf v with
      | .error _ => .error .malformed
      | .ok n =>
        if s.contentLength.isSome ∧ s.contentLength ≠ some n then .error .malformed
        else if 0 < maxBody ∧ maxBody < (n : Int) then .error .body
        else .ok { s with contentLength := some n }
  | none =>
    match lineHeaderValue buf lineStart lineLen (ascii "Transfer-Encoding") with
    | some v =>
      if v.len < 0 then .error .malformed
      else
        match teFold buf v s.chunked with
        | none => .error .malformed
        | some chunked => .ok { s with teSeen := true, chunked := chunked }
    | none => .ok s

/-- The codes of `frame_chunked_total` as the framer's sentinels. -/
def chunkedErr : VError → FrameErr
  | .error _ code => if code = 413 then .body else if code = 431 then .header else .malformed

/-- What the framer does at the blank line: the body by Transfer-Encoding, by Content-Length, or
none. -/
def bodyVerdict (buf : List UInt8) (rl : Nat) (maxHeader maxBody : Int) (bodyStart : Nat)
    (s : HeadState) : Verdict FrameErr Nat :=
  if s.teSeen && (!s.chunked || s.contentLength.isSome || requestLineIsHttp10 buf rl) then
    .refuse .malformed
  else if s.chunked then
    match frameChunkedTotal buf bodyStart maxHeader maxBody with
    | .more => .more
    | .refuse e => .refuse (chunkedErr e)
    | .accept total => .accept total
  else
    match s.contentLength with
    | some n =>
      let total := bodyStart + n
      if total ≤ buf.length then .accept total else .more
    | none => .accept bodyStart

/-- One pass of the head walk of `frame_request_length_lim_idx`. -/
def headStep (buf : List UInt8) (rl : Nat) (maxHeader maxBody : Int) (s : HeadState) :
    Turn HeadState (Verdict FrameErr Nat) :=
  if 0 < maxHeader ∧ maxHeader < (s.pos : Int) then .exit (.refuse .header)
  else if buf.length ≤ s.pos then .exit .more
  else if buf[s.pos]? = some cr ∧ buf.length ≤ s.pos + 1 then .exit .more
  else if buf[s.pos]? = some cr ∧ buf[s.pos + 1]? = some lf then
    .exit (bodyVerdict buf rl maxHeader maxBody (s.pos + 2) s)
  else
    match findByteIdx (buf.drop s.pos) lf with
    | none => .exit .more
    | some lineLf =>
      if buf[s.pos + lineLf - 1]? ≠ some cr then .exit (.refuse .malformed)
      else
        match fieldLine buf maxBody s.pos (lineLf - 1) s with
        | .error e => .exit (.refuse e)
        | .ok s' => .next { s' with pos := s.pos + lineLf + 1 }

/-- `frame_request_length_lim_idx`, before its answer is made an `int`. -/
def frameRequest (buf : List UInt8) (maxHeader maxBody : Int) : Verdict FrameErr Nat :=
  if buf.length < 4 then .more
  else
    match findByteIdx buf lf with
    | none => .more
    | some rl =>
      if rl = 0 ∨ buf[rl - 1]? ≠ some cr then .refuse .malformed
      else
        loop (headStep buf rl maxHeader maxBody) (fun s => buf.length - s.pos) .more
          { pos := rl + 1 }

/-- `frame_request_length_lim_idx`. -/
def frameRequestLengthLimIdx (buf : List UInt8) (maxHeader maxBody : Int) : Int :=
  match frameRequest buf maxHeader maxBody with
  | .more => -1
  | .accept total => total
  | .refuse .malformed => -400
  | .refuse .body => -413
  | .refuse .header => -431

/-- One pass of `frame_expected_total`; the state is `pos` and `content_length`. -/
def expectedStep (buf : List UInt8) (s : Nat × Option Nat) : Turn (Nat × Option Nat) Int :=
  let (pos, contentLength) := s
  if buf.length ≤ pos then .exit (-1)
  else if buf[pos]? = some cr ∧ buf.length ≤ pos + 1 then .exit (-1)
  else if buf[pos]? = some cr ∧ buf[pos + 1]? = some lf then
    match contentLength with
    | some n => .exit (pos + 2 + n : Nat)
    | none => .exit (-1)
  else
    match findByteIdx (buf.drop pos) lf with
    | none => .exit (-1)
    | some lineLf =>
      if buf[pos + lineLf - 1]? ≠ some cr then .exit (-1)
      else
        match lineHeaderValue buf pos (lineLf - 1) (ascii "Content-Length") with
        | none => .next (pos + lineLf + 1, contentLength)
        | some v =>
          match parseContentLength buf v with
          | .error _ => .exit (-1)
          | .ok n => .next (pos + lineLf + 1, some n)

/-- `frame_expected_total`. -/
def frameExpectedTotal (buf : List UInt8) : Int :=
  if buf.length < 4 then -1
  else
    match findByteIdx buf lf with
    | none => -1
    | some rl =>
      if rl = 0 ∨ buf[rl - 1]? ≠ some cr then -1
      else loop (expectedStep buf) (fun s => buf.length - s.1) (-1) (rl + 1, none)

/-- One pass of `frame_head_len`; the state is `pos`. -/
def headLenStep (buf : List UInt8) (pos : Nat) : Turn Nat (Option Nat) :=
  if buf.length ≤ pos then .exit none
  else if buf[pos]? = some cr ∧ buf.length ≤ pos + 1 then .exit none
  else if buf[pos]? = some cr ∧ buf[pos + 1]? = some lf then .exit (some (pos + 2))
  else
    match findByteIdx (buf.drop pos) lf with
    | none => .exit none
    | some lineLf => .next (pos + lineLf + 1)

/-- `frame_head_len`: `none` for its -1. -/
def frameHeadLen (buf : List UInt8) : Option Nat :=
  if buf.length < 4 then none
  else
    match findByteIdx buf lf with
    | none => none
    | some rl => loop (headLenStep buf) (fun pos => buf.length - pos) none (rl + 1)

end Vanilla.RequestParser

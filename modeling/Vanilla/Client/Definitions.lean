import Vanilla.Http1.ChunkLine

/-!
# Client — the functions

`http1_1/client/client.v` and `http1_1/client/framer.v`, function by function.  A position is a
`Nat`; a function that answers an offset or one of the negative codes is a `Verdict`, with
`incomplete` its `more`.  The client adds a chunk's start and its size in `i64`, where no sum of a
position and a size capped at 0x7fff0000 leaves the range, so the sums are those of `Nat`.
-/

namespace Vanilla.Client
open Scan Vanilla.Chunk

/-! ### Codes -/

/-- The codes other than `incomplete`. -/
inductive ClientErr where
  | malformed
  | untilClose
  | truncated
  deriving DecidableEq

/-- `incomplete`. -/
def incomplete : Int := -1

/-- `err_malformed`, `err_until_close`, `err_truncated`. -/
def ClientErr.code : ClientErr → Int
  | .malformed => -2
  | .untilClose => -4
  | .truncated => -5

/-! ### Lines -/

/-- `lf_idx`. -/
def lfIdx (buf : List UInt8) (start : Nat) : Option Nat :=
  (findByteIdx (buf.drop start) lf).map (start + ·)

/-- One pass of `head_len`; the state is `pos`. -/
def headLenStep (buf : List UInt8) (pos : Nat) : Turn Nat (Verdict ClientErr Nat) :=
  match lfIdx buf pos with
  | none => .exit .more
  | some lfAt =>
    if lfAt = 0 ∨ buf[lfAt - 1]? ≠ some cr then .exit (.refuse .malformed)
    else if lfAt - 1 = pos ∧ 0 < pos then .exit (.accept (lfAt + 1))
    else .next (lfAt + 1)

/-- `head_len`. -/
def headLen (buf : List UInt8) : Verdict ClientErr Nat :=
  loop (headLenStep buf) (fun pos => buf.length - pos) .more 0

/-- A decimal digit. -/
def isDigit (c : UInt8) : Bool := 48 ≤ c && c ≤ 57

/-- `status_at`. -/
def statusAt (buf : List UInt8) (p : Nat) : Int :=
  if buf.length - p < 12 then -1
  else
    let s := buf.drop p
    if s.take 7 ≠ ascii "HTTP/1." ∨ !isDigit (s.getD 7 0) ∨ s.getD 8 0 ≠ sp then -1
    else
      let d0 := s.getD 9 0
      let d1 := s.getD 10 0
      let d2 := s.getD 11 0
      if !(49 ≤ d0 && d0 ≤ 57) ∨ !isDigit d1 ∨ !isDigit d2 then -1
      else if 12 < s.length ∧ s.getD 12 0 ≠ sp ∧ s.getD 12 0 ≠ cr then -1
      else ((d0.toNat - 48) * 100 + (d1.toNat - 48) * 10 + (d2.toNat - 48) : Nat)

/-- `status_code`. -/
def statusCode (buf : List UInt8) : Int := statusAt buf 0

/-- `field_value` on the line `buf[line_start..line_end)`: `none` for its (-1, 0). -/
def fieldValue (buf : List UInt8) (lineStart lineEnd : Nat) (name : List UInt8) :
    Option (Nat × Nat) :=
  let l := (buf.drop lineStart).take (lineEnd - lineStart)
  if lineEnd - lineStart ≤ name.length then none
  else if (l.take name.length).map lower ≠ name then none
  else if l[name.length]? ≠ some colon then none
  else
    let value := l.drop (name.length + 1)
    some (lineStart + name.length + 1 + (value.takeWhile isOws).length, (trim isOws value).length)

/-- `buf[v..v + vlen)`. -/
def window (buf : List UInt8) (v : Nat × Nat) : List UInt8 := (buf.drop v.1).take v.2

/-- The cap on a Content-Length and on a chunk-size. -/
def maxLength : Nat := 0x7fff0000

/-- The digit loop of `parse_content_length`. -/
def contentLengthDigits : List UInt8 → Nat → Option Nat
  | [], n => some n
  | c :: r, n =>
    if c < 48 || c > 57 then none
    else
      let n := n * 10 + (c.toNat - 48)
      if n > maxLength then none else contentLengthDigits r n

/-- `parse_content_length` on the bytes of the value: `none` for its -1. -/
def parseContentLength (v : List UInt8) : Option Nat :=
  if v = [] then none else contentLengthDigits v 0

/-- `value_has_chunked` on the bytes of the value. -/
def valueHasChunked (v : List UInt8) : Bool :=
  let needle := ascii "chunked"
  if v.length < needle.length then false
  else if v.contains cr then false
  else if (v.drop (v.length - needle.length)).map lower ≠ needle then false
  else
    let before := (v.take (v.length - needle.length)).rdropWhile isOws
    before.isEmpty || before.getLast? == some comma

/-! ### Chunked bodies -/

/-- `trailer_line`: the offset past the line, and whether it is the empty line. -/
def trailerLine (buf : List UInt8) (pos : Nat) : Verdict ClientErr (Nat × Bool) :=
  if buf.length ≤ pos then .more
  else if buf[pos]? = some cr ∧ buf.length ≤ pos + 1 then .more
  else if buf[pos]? = some cr ∧ buf[pos + 1]? = some lf then .accept (pos + 2, true)
  else
    match lfIdx buf pos with
    | none => .more
    | some lfAt =>
      let lineEnd := lfAt - 1
      if lfAt = pos ∨ buf[lineEnd]? ≠ some cr then .refuse .malformed
      else if !trailerLineOk ((buf.drop pos).take (lineEnd - pos)) then .refuse .malformed
      else .accept (lfAt + 1, false)

/-- One pass of `frame_trailer_section`; the state is `pos`. -/
def trailerStep (buf : List UInt8) (pos : Nat) : Turn Nat (Verdict ClientErr Nat) :=
  match trailerLine buf pos with
  | .more => .exit .more
  | .refuse e => .exit (.refuse e)
  | .accept (next, last) => if last then .exit (.accept next) else .next next

/-- `frame_trailer_section`. -/
def frameTrailerSection (buf : List UInt8) (start : Nat) : Verdict ClientErr Nat :=
  loop (trailerStep buf) (fun pos => buf.length - pos) .more start

/-- The bound on a chunk's size: `size > 0x7fff_0000 || j - pos >= 16` is refused. -/
def sizeBound (size j : Nat) : Bool := size ≤ maxLength && j < 16

/-- `chunk_size_line`: where the chunk's data starts, and its size. -/
def chunkSizeLine (buf : List UInt8) (pos : Nat) : Verdict ClientErr (Nat × Nat) :=
  (sizeLine sizeBound buf pos).mapErr fun _ => .malformed

/-- One pass of `frame_chunked_body`; the state is `pos`. -/
def chunkedStep (buf : List UInt8) (pos : Nat) : Turn Nat (Verdict ClientErr Nat) :=
  match chunkSizeLine buf pos with
  | .more => .exit .more
  | .refuse e => .exit (.refuse e)
  | .accept (dataStart, size) =>
    if size = 0 then .exit (frameTrailerSection buf dataStart)
    else
      let crlfAt := dataStart + size
      if buf.length ≤ crlfAt + 1 then .exit .more
      else if buf[crlfAt]? ≠ some cr ∨ buf[crlfAt + 1]? ≠ some lf then .exit (.refuse .malformed)
      else .next (crlfAt + 2)

/-- `frame_chunked_body`. -/
def frameChunkedBody (buf : List UInt8) (bodyStart : Nat) : Verdict ClientErr Nat :=
  loop (chunkedStep buf) (fun pos => buf.length - pos) .more bodyStart

/-! ### The one-shot parser -/

/-- What the head walk of `frame_response` remembers of the field lines. -/
structure RespState where
  contentLength : Option Nat := none
  chunked : Bool := false
  deriving DecidableEq

/-- `frame_response`'s reading of the field line `buf[pos..line_end)`: `none` for its
`err_malformed`. -/
def responseField (buf : List UInt8) (pos lineEnd : Nat) (s : RespState) : Option RespState :=
  match fieldValue buf pos lineEnd (ascii "content-length") with
  | some v =>
    match parseContentLength (window buf v) with
    | none => none
    | some n =>
      if s.contentLength.isSome ∧ s.contentLength ≠ some n then none
      else some { s with contentLength := some n }
  | none =>
    match fieldValue buf pos lineEnd (ascii "transfer-encoding") with
    | some v => if !valueHasChunked (window buf v) then none else some { s with chunked := true }
    | none => some s

/-- What `frame_response` does behind the blank line, the head being `hl` bytes. -/
def responseBody (buf : List UInt8) (bodyless : Bool) (hl : Nat) (s : RespState) :
    Verdict ClientErr Nat :=
  if bodyless then .accept hl
  else if s.chunked then frameChunkedBody buf hl
  else
    match s.contentLength with
    | none => .refuse .untilClose
    | some n => if buf.length < hl + n then .more else .accept (hl + n)

/-- One pass over the field lines. -/
def responseStep (buf : List UInt8) (bodyless : Bool) (s : Nat × RespState) :
    Turn (Nat × RespState) (Verdict ClientErr Nat) :=
  let (pos, h) := s
  match lfIdx buf pos with
  | none => .exit .more
  | some lfAt =>
    if buf[lfAt - 1]? ≠ some cr then .exit (.refuse .malformed)
    else if lfAt - 1 = pos then .exit (responseBody buf bodyless (lfAt + 1) h)
    else if bodyless then .next (lfAt + 1, h)
    else
      match responseField buf pos (lfAt - 1) h with
      | none => .exit (.refuse .malformed)
      | some h => .next (lfAt + 1, h)

/-- `frame_response`. -/
def frameResponse (buf : List UInt8) : Verdict ClientErr Nat :=
  match lfIdx buf 0 with
  | none => .more
  | some lfAt =>
    if lfAt = 0 ∨ buf[lfAt - 1]? ≠ some cr then .refuse .malformed
    else
      let st := statusCode buf
      if st < 100 then .refuse .malformed
      else
        let bodyless := st < 200 || st = 204 || st = 304
        loop (responseStep buf bodyless) (fun s => buf.length - s.1) .more (lfAt + 1, {})

/-! ### The resumable framer -/

/-- The `fr_*` stages. -/
inductive Stage where
  | head
  | bodyLen
  | chunkSize
  | chunkData
  | trailers
  | untilClose
  | done
  | failed
  deriving DecidableEq

/-- `Framer`, without the two fields that only `body_in_place` uses.  `endAt` is its `end`. -/
structure Framer where
  stage : Stage := .head
  headRequest : Bool := false
  pos : Nat := 0
  scan : Nat := 0
  need : Nat := 0
  endAt : Int := 0
  contentLength : Option Nat := none
  te : Bool := false
  connClose : Bool := false
  connKa : Bool := false
  http10 : Bool := false
  bodyless : Bool := false
  start : Nat := 0
  headLen : Nat := 0
  status : Int := 0
  keepAlive : Bool := false
  deriving DecidableEq

namespace Framer

/-- `reset`. -/
def reset (headRequest : Bool) : Framer := { headRequest }

/-- `fail`: the framer, and the code returned. -/
def fail (f : Framer) (code : Int) : Framer × Int :=
  ({ f with stage := .failed, endAt := code, keepAlive := false }, code)

/-- `short`. -/
def short (f : Framer) (eof : Bool) : Framer × Int :=
  if eof then f.fail ClientErr.truncated.code else (f, incomplete)

/-- `status_line`. -/
def statusLine (f : Framer) (buf : List UInt8) : Framer :=
  let f := { f with status := statusAt buf f.start }
  if f.status < 0 then f
  else
    { f with
      http10 := buf[f.start + 7]? = some 48
      bodyless := f.headRequest || f.status < 200 || f.status = 204 || f.status = 304 }

/-- One option of a Connection value; the state is `conn_close` and `conn_ka`. -/
def connectionOption (s : Bool × Bool) (option : List UInt8) : Bool × Bool :=
  if option.map lower = ascii "close" then (true, s.2)
  else if option.map lower = ascii "keep-alive" then (s.1, true)
  else s

/-- What `connection_options` takes for the end of an option. -/
def optionEnd (c : UInt8) : Bool := c == comma || isOws c

/-- One pass of `connection_options`; the state is the two flags and what is left of the value. -/
def optionsStep (s : (Bool × Bool) × List UInt8) :
    Turn ((Bool × Bool) × List UInt8) (Bool × Bool) :=
  let (flags, v) := s
  if v = [] then .exit flags
  else
    let v := v.dropWhile optionEnd
    .next (connectionOption flags (v.takeWhile (!optionEnd ·)), v.dropWhile (!optionEnd ·))

/-- `connection_options` on the bytes of the value. -/
def connectionOptions (f : Framer) (v : List UInt8) : Framer :=
  let flags := (f.connClose, f.connKa)
  let (connClose, connKa) := loop optionsStep (fun s => s.2.length) flags (flags, v)
  { f with connClose, connKa }

/-- The last lines of `field_line`: a field that does not frame. -/
def connectionField (f : Framer) (buf : List UInt8) (lineEnd : Nat) : Framer :=
  match fieldValue buf f.pos lineEnd (ascii "connection") with
  | some v => f.connectionOptions (window buf v)
  | none => f

/-- `field_line`: `none` for its `false`, which leaves the framer as it was. -/
def fieldLine (f : Framer) (buf : List UInt8) (lineEnd : Nat) : Option Framer :=
  if f.bodyless then some (f.connectionField buf lineEnd)
  else
    match fieldValue buf f.pos lineEnd (ascii "content-length") with
    | some v =>
      match parseContentLength (window buf v) with
      | none => none
      | some n =>
        if f.contentLength.isSome ∧ f.contentLength ≠ some n then none
        else some { f with contentLength := some n }
    | none =>
      match fieldValue buf f.pos lineEnd (ascii "transfer-encoding") with
      | some v => if !valueHasChunked (window buf v) then none else some { f with te := true }
      | none => some (f.connectionField buf lineEnd)

/-- `head_done` where it settles the final response's framing and reuse. -/
def headFinal (f : Framer) (body : Nat) : Framer :=
  let keepAlive := if f.http10 then f.connKa && !f.connClose else !f.connClose
  let keepAlive :=
    if f.status = 101 ∨ (f.te ∧ (f.contentLength.isSome ∨ f.http10)) then false else keepAlive
  let f := { f with headLen := body - f.start, pos := body, keepAlive := keepAlive }
  if f.bodyless then { f with endAt := body, stage := .done }
  else if f.te then { f with stage := .chunkSize }
  else
    match f.contentLength with
    | some n => { f with need := body + n, stage := .bodyLen }
    | none => { f with keepAlive := false, stage := .untilClose }

/-- `head_done`. -/
def headDone (f : Framer) (body : Nat) : Framer :=
  if f.status < 200 ∧ f.status ≠ 101 then
    -- an interim response: the final one follows
    { f with
      start := body, pos := body, scan := body, status := 0, contentLength := none, te := false
      connClose := false, connKa := false, http10 := false, bodyless := false }
  else f.headFinal body

/-- `feed` in the stage `fr_head`. -/
def headStep (buf : List UInt8) (eof : Bool) (f : Framer) : Turn Framer (Framer × Int) :=
  match lfIdx buf f.scan with
  | none => .exit ({ f with scan := buf.length }.short eof)
  | some lfAt =>
    if lfAt = f.pos ∨ buf[lfAt - 1]? ≠ some cr then .exit (f.fail ClientErr.malformed.code)
    else
      let lineEnd := lfAt - 1
      if f.pos = f.start then
        let f := f.statusLine buf
        if f.status < 100 then .exit (f.fail ClientErr.malformed.code)
        else .next { f with pos := lfAt + 1, scan := lfAt + 1 }
      else if lineEnd = f.pos then .next (f.headDone (lfAt + 1))
      else
        match f.fieldLine buf lineEnd with
        | none => .exit (f.fail ClientErr.malformed.code)
        | some f => .next { f with pos := lfAt + 1, scan := lfAt + 1 }

/-- One pass of `feed`. -/
def feedStep (buf : List UInt8) (eof : Bool) (f : Framer) : Turn Framer (Framer × Int) :=
  match f.stage with
  | .head => headStep buf eof f
  | .bodyLen =>
    if buf.length < f.need then .exit (f.short eof)
    else .next { f with endAt := f.need, stage := .done }
  | .chunkSize =>
    match chunkSizeLine buf f.pos with
    | .more => .exit (f.short eof)
    | .refuse e => .exit (f.fail e.code)
    | .accept (data, size) =>
      if size = 0 then .next { f with pos := data, stage := .trailers }
      else .next { f with pos := data, need := data + size, stage := .chunkData }
  | .chunkData =>
    if buf.length ≤ f.need + 1 then .exit (f.short eof)
    else if buf[f.need]? ≠ some cr ∨ buf[f.need + 1]? ≠ some lf then
      .exit (f.fail ClientErr.malformed.code)
    else .next { f with pos := f.need + 2, stage := .chunkSize }
  | .trailers =>
    match trailerLine buf f.pos with
    | .more => .exit (f.short eof)
    | .refuse e => .exit (f.fail e.code)
    | .accept (next, last) =>
      if last then .next { f with pos := next, endAt := next, stage := .done }
      else .next { f with pos := next }
  | .untilClose =>
    if !eof then .exit (f, incomplete)
    else .next { f with endAt := buf.length, stage := .done }
  | .done | .failed => .exit (f, f.endAt)

/-- The passes `feed` can still make: one for each byte behind `pos`, and one to leave. -/
def passes (buf : List UInt8) (f : Framer) : Nat :=
  2 * (buf.length - f.pos) + if f.stage = .done ∨ f.stage = .failed then 0 else 1

/-- `feed`: the framer, and what it returns. -/
def feed (f : Framer) (buf : List UInt8) (eof : Bool) : Framer × Int :=
  loop (feedStep buf eof) (passes buf) (f, incomplete) f

end Framer

/-! ### What may be sent -/

/-- `valid_token`. -/
def validToken (s : List UInt8) : Bool := !s.isEmpty && s.all chunkTchar

/-- `valid_target`. -/
def validTarget (s : List UInt8) : Bool := !s.isEmpty && s.all fun c => 0x20 < c && c < 0x7f

/-- `valid_field_value`. -/
def validFieldValue (v : List UInt8) : Bool := v.all fun c => !isCtl c

end Vanilla.Client

import Vanilla.RequestParser.Definitions

/-!
# Request parser — the grammar of a message

What a request message is, stated on its bytes and without a parser: a head made of lines that
end in CRLF, and a body whose extent the head's Content-Length or Transfer-Encoding lines declare
(RFC 9112 §2, §6, §7.1).  `Head.Ok` is what a head must meet to be framed at all, `Head.Frames`
which bodies it then frames, and `Message` the two together.
-/

namespace Vanilla.RequestParser
open Scan Vanilla.Chunk

/-! ### Field lines -/

/-- `n` is `name` up to ASCII case. -/
def CiEq (n name : List UInt8) : Prop := n.map lower = name.map lower

instance (n name : List UInt8) : Decidable (CiEq n name) :=
  inferInstanceAs (Decidable (n.map lower = name.map lower))

/-- The line is a field `name` with value `v`: the name, a colon, and `v` between OWS. -/
def Field (name line v : List UInt8) : Prop :=
  ∃ n o₁ o₂, line = n ++ colon :: (o₁ ++ v ++ o₂) ∧ CiEq n name ∧ Bws o₁ ∧ Bws o₂ ∧
    Trimmed isOws v

/-- The line is a field `name`, whatever its value. -/
def Named (name line : List UInt8) : Prop := ∃ v, Field name line v

/-- The line is `name`, whitespace, and then a colon. -/
def SpacedColon (name line : List UInt8) : Prop :=
  ∃ n o r, line = n ++ (o ++ colon :: r) ∧ CiEq n name ∧ Bws o ∧ o ≠ []

/-- The line starts with `name` and whitespace, whatever follows. -/
def Spaced (name line : List UInt8) : Prop :=
  ∃ n c r, line = n ++ c :: r ∧ CiEq n name ∧ isOws c = true

/-- `vs` are the values of the fields `name` among the lines, in order. -/
inductive Values (name : List UInt8) : List (List UInt8) → List (List UInt8) → Prop where
  | nil : Values name [] []
  | named {l v : List UInt8} {ls vs : List (List UInt8)} (h : Field name l v)
      (t : Values name ls vs) : Values name (l :: ls) (v :: vs)
  | other {l : List UInt8} {ls vs : List (List UInt8)} (h : ¬ Named name l)
      (t : Values name ls vs) : Values name (l :: ls) vs

/-- The name of a Content-Length field. -/
def clName : List UInt8 := ascii "Content-Length"

/-- The name of a Transfer-Encoding field. -/
def teName : List UInt8 := ascii "Transfer-Encoding"

/-- `1*DIGIT`. -/
def Digits (v : List UInt8) : Prop := v ≠ [] ∧ ∀ c ∈ v, 48 ≤ c ∧ c ≤ 57

/-- The number a run of decimal digits denotes, read on from `acc`. -/
def decValue (acc : Nat) (v : List UInt8) : Nat :=
  v.foldl (fun n c => n * 10 + (c.toNat - 48)) acc

/-- The codings a Transfer-Encoding value names: its elements between commas, without the OWS
around them, empty ones skipped. -/
def codings (v : List UInt8) : List (List UInt8) :=
  ((v.splitOn comma).map (trim isOws)).filter (· ≠ [])

/-- The coding `chunked`, in any case. -/
def IsChunked (c : List UInt8) : Prop := CiEq c (ascii "chunked")

/-! ### Chunked bodies -/

/-- `chunked-body = *chunk last-chunk trailer-section CRLF` (RFC 9112 §7.1), with chunk sizes up
to `max_declared`. -/
inductive ChunkedBody : List UInt8 → Prop where
  | last {ds e t : List UInt8} (hd : HexSize ds 0) (he : ChunkExt e) (ht : TrailerSection t) :
      ChunkedBody (ds ++ (e ++ (crlf ++ t)))
  | chunk {ds e data r : List UInt8} (hd : HexSize ds data.length) (hpos : data ≠ [])
      (hmax : data.length ≤ maxDeclared) (he : ChunkExt e) (t : ChunkedBody r) :
      ChunkedBody (ds ++ (e ++ (crlf ++ (data ++ (crlf ++ r)))))

/-! ### Messages -/

/-- A head: the request line and the field lines, without their CRLF. -/
structure Head where
  requestLine : List UInt8
  fields : List (List UInt8)

/-- The head as it is sent: every line with its CRLF, then the empty line. -/
def Head.bytes (h : Head) : List UInt8 :=
  h.requestLine ++ (crlf ++ (unlines cr lf h.fields ++ crlf))

/-- Every line is one line: no LF inside, and no field line empty. -/
def Head.Lines (h : Head) : Prop := lf ∉ h.requestLine ∧ ∀ l ∈ h.fields, IsLine lf l

/-- The request line ends in ` HTTP/1.0`. -/
def Head.Http10 (h : Head) : Prop := ∃ p, h.requestLine = p ++ ascii " HTTP/1.0"

/-- The head can be framed: `vs` are the values of its Content-Length lines, `ws` those of its
Transfer-Encoding lines.  `bad name line` is what the two kinds of line must not be. -/
structure Head.Ok (bad : List UInt8 → List UInt8 → Prop) (h : Head)
    (vs ws : List (List UInt8)) : Prop where
  lines : h.Lines
  good : ∀ l ∈ h.fields, ¬ bad clName l ∧ ¬ bad teName l
  cl : Values clName h.fields vs
  te : Values teName h.fields ws
  digits : ∀ v ∈ vs, Digits v ∧ decValue 0 v ≤ maxDeclared
  same : ∀ v ∈ vs, ∀ v' ∈ vs, decValue 0 v = decValue 0 v'
  coded : ∀ w ∈ ws, codings w ≠ []
  final : ws ≠ [] → ∃ cs c, ws.flatMap codings = cs ++ [c] ∧ IsChunked c ∧
    ∀ x ∈ cs, ¬ IsChunked x
  alone : ws ≠ [] → vs = [] ∧ ¬ h.Http10

/-- The body such a head frames. -/
inductive Frames (vs ws : List (List UInt8)) : List UInt8 → Prop where
  | none (hv : vs = []) (hw : ws = []) : Frames vs ws []
  | length {v body : List UInt8} (hv : v ∈ vs) (hw : ws = []) (h : body.length = decValue 0 v) :
      Frames vs ws body
  | chunked {body : List UInt8} (hw : ws ≠ []) (h : ChunkedBody body) : Frames vs ws body

/-- A message, `bad` being what a Content-Length or Transfer-Encoding line must not be. -/
def MessageOf (bad : List UInt8 → List UInt8 → Prop) (m : List UInt8) : Prop :=
  ∃ (h : Head) (vs ws : List (List UInt8)) (body : List UInt8),
    m = h.bytes ++ body ∧ h.Ok bad vs ws ∧ Frames vs ws body

/-- A message: no Content-Length or Transfer-Encoding line has whitespace behind its name. -/
def Message (m : List UInt8) : Prop := MessageOf Spaced m

end Vanilla.RequestParser

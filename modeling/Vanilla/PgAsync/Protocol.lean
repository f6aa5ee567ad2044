import Vanilla.Http1.Basic
import Vanilla.Support.Framing
import Vanilla.Support.Words

/-!
# PostgreSQL — the wire protocol

`pg_async/protocol.v`: how messages are framed, what the client reads in them, and the messages it
writes.

A length field is a `u32` that is read into an `int` of 64 bits, so it is never negative and the
total behind it does not wrap.  The builders append to a buffer; here each of them is what it
appends.  What is held in memory has no bound: the count of bytes in a buffer is a `Nat`.

* `messageAt_spec`: which messages the framing finds.  A length below 4 is one that is not there
  yet, for good.
* `framing`: the messages of a stream, as a reader with a cursor finds them.
-/

namespace Vanilla.PgAsync

open Words (bytesOf number)
open Scan (Framing)

/-! ### Type bytes -/

/-- `bt_authentication`: `R`. -/
def btAuthentication : UInt8 := 82
/-- `bt_command_complete`: `C`. -/
def btCommandComplete : UInt8 := 67
/-- `bt_data_row`: `D`. -/
def btDataRow : UInt8 := 68
/-- `bt_empty_query_response`: `I`. -/
def btEmptyQueryResponse : UInt8 := 73
/-- `bt_error_response`: `E`. -/
def btErrorResponse : UInt8 := 69
/-- `bt_ready_for_query`: `Z`. -/
def btReadyForQuery : UInt8 := 90

/-- `tx_idle`: `I`. -/
def txIdle : UInt8 := 73

/-! ### Backend framing -/

/-- `binary.big_endian_u32_at`. -/
def bigEndianU32At (b : List UInt8) (i : Nat) : Nat := number ((b.drop i).take 4)

/-- `MsgHeader`. -/
structure MsgHeader where
  typ : UInt8
  total : Nat
  deriving DecidableEq, Repr

/-- `next_message_at`. -/
def nextMessageAt (buf : List UInt8) (pos : Nat) : Option MsgHeader :=
  if buf.length - pos < 5 then none
  else
    let msgLen := bigEndianU32At buf (pos + 1)
    if msgLen < 4 then none
    else
      let total := 1 + msgLen
      if buf.length - pos < total then none
      else some ⟨buf.getD pos 0, total⟩

/-- `Frame`, and the `Msg` of the blocking path: a type byte and a payload. -/
structure Msg where
  typ : UInt8
  payload : List UInt8
  deriving DecidableEq, Repr

namespace Msg

/-- A message on the wire: its type, its length with the four bytes of the length, its payload. -/
def bytes (m : Msg) : List UInt8 := m.typ :: bytesOf 4 (4 + m.payload.length) ++ m.payload

/-- How many bytes it takes: `hdr.total`. -/
def size (m : Msg) : Nat := 5 + m.payload.length

@[simp] theorem length_bytes (m : Msg) : m.bytes.length = m.size := by
  simp [bytes, size]
  omega

/-- The length is a `u32`. -/
def Fits (m : Msg) : Prop := 4 + m.payload.length < 2 ^ 32

end Msg

/-- The message at the cursor, as every reader of the driver takes it: its header, then the slice
`buf[pos + 5..pos + hdr.total]`, which is inside the buffer. -/
def messageAt (buf : List UInt8) (pos : Nat) : Option Msg :=
  match nextMessageAt buf pos with
  | none => none
  | some hdr => some ⟨hdr.typ, (buf.drop (pos + 5)).take (hdr.total - 5)⟩

theorem nextMessageAt_drop (buf : List UInt8) (pos : Nat) :
    nextMessageAt (buf.drop pos) 0 = nextMessageAt buf pos := by
  have hnum : bigEndianU32At (buf.drop pos) (0 + 1) = bigEndianU32At buf (pos + 1) := by
    simp [bigEndianU32At, List.drop_drop]
  have htyp : (buf.drop pos).getD 0 0 = buf.getD pos 0 := by simp [List.getD]
  unfold nextMessageAt
  rw [hnum, htyp, Nat.sub_zero, List.length_drop]

/-- A reader with a cursor sees what a reader of the rest sees. -/
theorem messageAt_drop (buf : List UInt8) (pos : Nat) :
    messageAt buf pos = messageAt (buf.drop pos) 0 := by
  unfold messageAt
  rw [nextMessageAt_drop]
  cases nextMessageAt buf pos with
  | none => rfl
  | some hdr => simp only [List.drop_drop, Nat.zero_add]

/-- **What the framing finds.**  Nothing where a header is not all there or its length is below 4,
and nothing where the message is not all there. -/
theorem messageAt_spec (b : List UInt8) :
    messageAt b 0 =
      if b.length < 5 ∨ bigEndianU32At b 1 < 4 ∨ b.length < 1 + bigEndianU32At b 1 then none
      else some ⟨b.getD 0 0, (b.drop 5).take (bigEndianU32At b 1 - 4)⟩ := by
  simp only [messageAt, nextMessageAt, Nat.sub_zero, Nat.zero_add]
  generalize bigEndianU32At b 1 = n
  have htotal : 1 + n - 5 = n - 4 := by omega
  by_cases h₁ : b.length < 5
  · simp [h₁]
  by_cases h₂ : n < 4
  · simp [h₁, h₂]
  by_cases h₃ : b.length < 1 + n
  · simp [h₁, h₂, h₃]
  · simp [h₁, h₂, h₃, htotal]

theorem u32At_lt (b : List UInt8) (i : Nat) : bigEndianU32At b i < 2 ^ 32 := by
  refine Nat.lt_of_lt_of_le (Words.number_lt _) ?_
  exact Nat.pow_le_pow_right (by decide) (List.length_take_le _ _)

theorem messageAt_eq_some_iff {b : List UInt8} {m : Msg} :
    messageAt b 0 = some m ↔ m.Fits ∧ m.bytes <+: b := by
  rw [messageAt_spec]
  constructor
  · intro h
    split at h
    · cases h
    · rename_i h₁
      cases h
      simp only [not_or, Nat.not_lt] at h₁
      obtain ⟨hlen, hge, hall⟩ := h₁
      have hlt := u32At_lt b 1
      generalize hn : bigEndianU32At b 1 = n at *
      have hpay : ((b.drop 5).take (n - 4)).length = n - 4 := by
        rw [List.length_take, List.length_drop]; omega
      refine ⟨by simp only [Msg.Fits, hpay]; omega, ?_⟩
      obtain ⟨t, b₁, b₂, b₃, b₄, r, rfl⟩ :
          ∃ t b₁ b₂ b₃ b₄ r, b = t :: b₁ :: b₂ :: b₃ :: b₄ :: r := by
        match b, hlen with
        | t :: b₁ :: b₂ :: b₃ :: b₄ :: r, _ => exact ⟨t, b₁, b₂, b₃, b₄, r, rfl⟩
      have hw : bytesOf 4 n = [b₁, b₂, b₃, b₄] := by
        rw [← hn]
        exact Words.bytesOf_number [b₁, b₂, b₃, b₄]
      simp only [Msg.bytes, hpay, Nat.add_sub_cancel' hge, hw]
      exact ⟨r.drop (n - 4), by simp⟩
  · rintro ⟨hfit, r, rfl⟩
    have hn : bigEndianU32At (m.bytes ++ r) 1 = 4 + m.payload.length := by
      have : ((m.bytes ++ r).drop 1).take 4 = bytesOf 4 (4 + m.payload.length) := by
        simp [Msg.bytes]
      rw [bigEndianU32At, this, Words.number_bytesOf]
      exact Nat.mod_eq_of_lt hfit
    rw [hn, List.length_append, Msg.length_bytes, Msg.size, if_neg (by omega)]
    have hp : ((m.bytes ++ r).drop 5).take (4 + m.payload.length - 4) = m.payload := by
      have : (m.bytes ++ r).drop 5 = m.payload ++ r := by
        simp [Msg.bytes]
      rw [this, Nat.add_sub_cancel_left, List.take_left]
    rw [hp]
    simp [Msg.bytes]

/-- The messages of a backend's stream. -/
def framing : Framing UInt8 Msg where
  next b := messageAt b 0
  enc := Msg.bytes
  Ok := Msg.Fits
  enc_pos _ := by simp only [Msg.length_bytes, Msg.size]; omega
  some_iff := messageAt_eq_some_iff

/-! ### Results -/

/-- `Result`. -/
structure Result where
  frames : List UInt8
  rowsAffected : Nat
  deriving DecidableEq, Repr

/-- `RowIter.next`, until it has none: the payloads of the DataRows from `pos` on. -/
def rowIter : Nat → List UInt8 → Nat → List (List UInt8)
  | 0, _, _ => []
  | n + 1, frames, pos =>
    match messageAt frames pos with
    | some m =>
      if m.typ = btDataRow then m.payload :: rowIter n frames (pos + m.size)
      else rowIter n frames (pos + m.size)
    | none => []

/-- `Result.rows`, walked to its end. -/
def Result.rows (res : Result) : List (List UInt8) :=
  rowIter (res.frames.length + 1) res.frames 0

/-- The DataRow payloads among some messages. -/
def dataRows (ms : List Msg) : List (List UInt8) :=
  (ms.filter fun m => m.typ = btDataRow).map Msg.payload

theorem dataRows_append (ms ms' : List Msg) :
    dataRows (ms ++ ms') = dataRows ms ++ dataRows ms' := by
  simp only [dataRows, List.filter_append, List.map_append]

theorem rowIter_encs {ms : List Msg} (h : ∀ m ∈ ms, m.Fits) :
    ∀ (n : Nat) (done : List UInt8), (framing.encs ms).length < n →
      rowIter n (done ++ framing.encs ms) done.length = dataRows ms := by
  induction ms with
  | nil =>
      intro n done hn
      obtain ⟨n, rfl⟩ : ∃ k, n = k + 1 := ⟨n - 1, by omega⟩
      rw [rowIter, messageAt_drop]
      simp [messageAt_spec, dataRows]
  | cons m ms ih =>
      intro n done hn
      obtain ⟨n, rfl⟩ : ∃ k, n = k + 1 := ⟨n - 1, by omega⟩
      obtain ⟨hm, hms⟩ := List.forall_mem_cons.mp h
      have hacc : messageAt (m.bytes ++ framing.encs ms) 0 = some m :=
        messageAt_eq_some_iff.mpr ⟨hm, List.prefix_append _ _⟩
      have henc : framing.encs (m :: ms) = m.bytes ++ framing.encs ms := framing.encs_cons m ms
      have hlen : m.size < n + 1 - (framing.encs ms).length := by
        rw [henc, List.length_append, Msg.length_bytes] at hn
        omega
      have := ih hms n (done ++ m.bytes) (by simp only [Msg.size] at hlen; omega)
      rw [List.append_assoc, List.length_append, Msg.length_bytes] at this
      rw [rowIter, messageAt_drop, List.drop_left, henc, hacc]
      simp only [this, dataRows, List.filter_cons]
      split <;> simp_all

theorem rows_encs {ms : List Msg} (h : ∀ m ∈ ms, m.Fits) (n : Nat) :
    (⟨framing.encs ms, n⟩ : Result).rows = dataRows ms :=
  rowIter_encs h _ [] (Nat.lt_succ_self _)

/-- The loop of `statements_done`. -/
def statementsDoneFrom : Nat → List UInt8 → Nat → Nat
  | 0, _, _ => 0
  | n + 1, frames, pos =>
    match nextMessageAt frames pos with
    | none => 0
    | some hdr =>
      let rest := statementsDoneFrom n frames (pos + hdr.total)
      if hdr.typ = btCommandComplete ∨ hdr.typ = btEmptyQueryResponse then rest + 1 else rest

/-- `statements_done`. -/
def statementsDone (frames : List UInt8) : Nat := statementsDoneFrom frames.length frames 0

/-! ### Backend message details -/

/-- `ErrorInfo`. -/
structure ErrorInfo where
  severity : List UInt8 := []
  code : List UInt8 := []
  message : List UInt8 := []
  deriving DecidableEq, Repr

/-- One field of an ErrorResponse. -/
def ErrorInfo.field (info : ErrorInfo) (ft : UInt8) (val : List UInt8) : ErrorInfo :=
  if ft = 83 ∨ ft = 86 then { info with severity := val }
  else if ft = 67 then { info with code := val }
  else if ft = 77 then { info with message := val }
  else info

/-- The loop of `parse_error_response`: a field's type, then its value up to a NUL. -/
def parseFields : Nat → List UInt8 → ErrorInfo → ErrorInfo
  | 0, _, info => info
  | _ + 1, [], info => info
  | n + 1, ft :: rest, info =>
    if ft = 0 then info
    else
      parseFields n ((rest.dropWhile (· != 0)).drop 1) (info.field ft (rest.takeWhile (· != 0)))

/-- `parse_error_response`. -/
def parseErrorResponse (payload : List UInt8) : ErrorInfo := parseFields payload.length payload {}

/-- `PgError`. -/
structure PgError where
  severity : List UInt8 := []
  sqlstate : List UInt8 := []
  message : List UInt8 := []
  statement : Nat := 0
  deriving DecidableEq, Repr

/-- `ends_session`. -/
def endsSession (severity : List UInt8) : Bool :=
  severity == ascii "FATAL" || severity == ascii "PANIC"

/-- The scan of a CommandComplete tag. -/
structure TagScan where
  last : Nat := 0
  cur : Nat := 0
  seen : Bool := false

def TagScan.step (s : TagScan) (c : UInt8) : TagScan :=
  if 48 ≤ c ∧ c ≤ 57 then { s with cur := (s.cur * 10 + (c.toNat - 48)) % 2 ^ 64, seen := true }
  else { last := if s.seen then s.cur else s.last, cur := 0, seen := false }

/-- `parse_command_complete`: the last integer of the tag, as a `u64`. -/
def parseCommandComplete (payload : List UInt8) : Nat :=
  let s := payload.foldl TagScan.step {}
  if s.seen then s.cur else s.last

/-! ### Frontend messages -/

/-- `put_u16`. -/
def putU16 (v : Nat) : List UInt8 := bytesOf 2 v

/-- `put_u32`. -/
def putU32 (v : Nat) : List UInt8 := bytesOf 4 v

/-- `put_cstr_s`. -/
def putCstrS (s : List UInt8) : List UInt8 := s ++ [0]

/-- `begin_msg`, a body, `finish_msg`: the length is patched in behind the type byte. -/
def message (typ : UInt8) (body : List UInt8) : List UInt8 :=
  typ :: putU32 (4 + body.length) ++ body

/-- `write_parse`. -/
def writeParse (stmtName queryText : List UInt8) : List UInt8 :=
  message 80 (putCstrS stmtName ++ putCstrS queryText ++ putU16 0)

/-- A parameter of a Bind: its length and its bytes, or -1 for SQL NULL. -/
def bindParam : Option (List UInt8) → List UInt8
  | some v => putU32 v.length ++ v
  | none => putU32 0xFFFFFFFF

/-- `write_bind`: the parameters as text, the results as binary. -/
def writeBind (portal stmtName : List UInt8) (params : List (Option (List UInt8))) : List UInt8 :=
  message 66 (putCstrS portal ++ putCstrS stmtName ++ putU16 0 ++ putU16 params.length ++
    params.flatMap bindParam ++ putU16 1 ++ putU16 1)

/-- `write_describe_portal`. -/
def writeDescribePortal (portal : List UInt8) : List UInt8 := message 68 (80 :: putCstrS portal)

/-- `write_execute`. -/
def writeExecute (portal : List UInt8) (maxRows : Nat) : List UInt8 :=
  message 69 (putCstrS portal ++ putU32 maxRows)

/-- `write_sync`. -/
def writeSync : List UInt8 := 83 :: putU32 4

/-- `Stmt`: one statement of a batch; a query is one statement. -/
structure Stmt where
  sql : List UInt8
  params : List (Option (List UInt8))
  deriving DecidableEq, Repr

/-- What `submit` and `submit_batch` serialize for one statement. -/
def Stmt.bytes (s : Stmt) : List UInt8 :=
  writeParse [] s.sql ++ writeBind [] [] s.params ++ writeDescribePortal [] ++ writeExecute [] 0

/-- The frame of a query or of a batch: its statements and one Sync. -/
def frameOf (stmts : List Stmt) : List UInt8 := stmts.flatMap Stmt.bytes ++ writeSync

end Vanilla.PgAsync

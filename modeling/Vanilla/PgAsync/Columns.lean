import Mathlib.Data.List.Forall2
import Vanilla.PgAsync.Rows

/-!
# PostgreSQL — statements and columns of a result

`pg_async/protocol.v`: a result is read back from the raw messages, each reader with its own walk:
over the messages to a statement's part, to its RowDescription, over the fields of that.

What a server sends for a statement is a `Reply`; messages of other kinds may stand anywhere
between.  Each walker is first a function of the list of messages, and then of the replies.

* `statementLoop_encs`: `statement` cuts the messages behind each completion.
* `segments_replies`: the parts are the replies, apart from the other messages.
* `columnsFrom_fields`: the fields of a RowDescription.
* `result_read_back`: a result gives back what the server sent.
-/

namespace Vanilla.PgAsync

open Words (bytesOf)

/-- `bt_row_description`: `T`. -/
def btRowDescription : UInt8 := 84

/-! ### The readers -/

/-- The loop of `Result.statement`. -/
def statementLoop (frames : List UInt8) (i : Int) :
    Nat → Nat → Nat → Nat → Except ReadError Result
  | 0, _, _, _ => .error .noSuchStatement
  | k + 1, pos, start, n =>
    match nextMessageAt frames pos with
    | none => .error .noSuchStatement
    | some hdr =>
      let stop := pos + hdr.total
      if hdr.typ ≠ btCommandComplete ∧ hdr.typ ≠ btEmptyQueryResponse then
        statementLoop frames i k stop start n
      else if n = i then
        .ok { frames := (frames.drop start).take (stop - start)
              rowsAffected :=
                if hdr.typ = btCommandComplete then
                  parseCommandComplete ((frames.drop (pos + 5)).take (hdr.total - 5))
                else 0 }
      else statementLoop frames i k stop stop (n + 1)

/-- `Result.statement`. -/
def Result.statement (res : Result) (i : Int) : Except ReadError Result :=
  statementLoop res.frames i (res.frames.length + 1) 0 0 0

/-- `Columns`. -/
structure Columns where
  n : Nat := 0
  payload : List UInt8 := []
  deriving DecidableEq, Repr

/-- `field_end`: behind the name's NUL and the 18 bytes after it, or -1. -/
def fieldEnd (p : List UInt8) (pos : Nat) : Int :=
  let i := pos + ((p.drop pos).takeWhile (· != 0)).length
  if p.length ≤ i ∨ (p.length : Int) - (i + 1) < 18 then -1 else i + 1 + 18

/-- The loop of `columns_from`. -/
def fieldsLoop (p : List UInt8) : Nat → Nat → Option Nat
  | 0, pos => some pos
  | k + 1, pos => if fieldEnd p pos < 0 then none else fieldsLoop p k (fieldEnd p pos).toNat

/-- `columns_from`. -/
def columnsFrom (payload : List UInt8) : Except ReadError Columns :=
  if payload.length < 2 then .error .columnsMalformed
  else
    let n := i16 (bigEndianU16At payload 0)
    if n < 0 then .error .columnsMalformed
    else
      match fieldsLoop payload n.toNat 2 with
      | none => .error .columnsMalformed
      | some pos =>
        if pos ≠ payload.length then .error .columnsMalformed else .ok ⟨n.toNat, payload⟩

/-- The loop of `Result.columns`. -/
def columnsLoop (frames : List UInt8) : Nat → Nat → Except ReadError Columns
  | 0, _ => .ok {}
  | k + 1, pos =>
    match nextMessageAt frames pos with
    | none => .ok {}
    | some hdr =>
      if hdr.typ = btRowDescription then
        columnsFrom ((frames.drop (pos + 5)).take (hdr.total - 5))
      else if hdr.typ = btDataRow then .ok {}
      else columnsLoop frames k (pos + hdr.total)

/-- `Result.columns`. -/
def Result.columns (res : Result) : Except ReadError Columns :=
  columnsLoop res.frames (res.frames.length + 1) 0

/-- The loop of `field_start`, over fields that `columns_from` has checked. -/
def fieldStartFrom (p : List UInt8) : Nat → Nat → Nat
  | 0, pos => pos
  | k + 1, pos => fieldStartFrom p k (fieldEnd p pos).toNat

namespace Columns

/-- `Columns.field_start`. -/
def fieldStart (c : Columns) (i : Nat) : Nat := fieldStartFrom c.payload i 2

/-- `Columns.name`. -/
def name (c : Columns) (i : Int) : Except ReadError (List UInt8) :=
  if i < 0 ∨ c.n ≤ i then .error .columnsRange
  else
    let start := c.fieldStart i.toNat
    .ok ((c.payload.drop start).take (fieldEnd c.payload start - 19 - start).toNat)

/-- `Columns.type_oid`. -/
def typeOid (c : Columns) (i : Int) : Except ReadError Nat :=
  if i < 0 ∨ c.n ≤ i then .error .columnsRange
  else .ok (bigEndianU32At c.payload (fieldEnd c.payload (c.fieldStart i.toNat) - 12).toNat)

/-- The loop of `Columns.index`. -/
def indexLoop (p nm : List UInt8) : Nat → Nat → Nat → Option Nat
  | 0, _, _ => none
  | k + 1, i, pos =>
    let stop := fieldEnd p pos
    if stop - 19 - pos = nm.length ∧ (p.drop pos).take nm.length = nm then some i
    else indexLoop p nm k (i + 1) stop.toNat

/-- `Columns.index`. -/
def index (c : Columns) (nm : List UInt8) : Option Nat := indexLoop c.payload nm c.n 0 2

end Columns

/-- `Row.col_by_name`. -/
def Row.colByName (r : Row) (cols : Columns) (nm : List UInt8) : Except ReadError DataValue :=
  match cols.index nm with
  | none => .error .columnsNoSuch
  | some i => r.col i

/-! ### What a server sends -/

/-- A field of a RowDescription. -/
structure Field where
  name : List UInt8
  tableOid : Nat
  column : Nat
  typeOid : Nat
  size : Nat
  modifier : Nat
  format : Nat
  nul : 0 ∉ name
  oid_lt : typeOid < 2 ^ 32

/-- A field on the wire: its name with a NUL behind it, and 18 bytes. -/
def Field.bytes (f : Field) : List UInt8 :=
  f.name ++ ([0] ++ (bytesOf 4 f.tableOid ++ (bytesOf 2 f.column ++ (bytesOf 4 f.typeOid ++
    (bytesOf 2 f.size ++ (bytesOf 4 f.modifier ++ bytesOf 2 f.format))))))

/-- The payload of a RowDescription. -/
def fieldsBytes (fs : List Field) : List UInt8 := putU16 fs.length ++ fs.flatMap Field.bytes

/-- The reply to one statement: a tag is a CommandComplete's, none an EmptyQueryResponse. -/
structure Reply where
  fields : Option (List Field)
  rows : List (List (Option (List UInt8)))
  tag : Option (List UInt8)
  few_fields : ∀ fs ∈ fields, fs.length ≤ 32767
  few_cells : ∀ cells ∈ rows, cells.length ≤ 32767

namespace Reply

/-- The messages before the completion. -/
def init (r : Reply) : List Msg :=
  (r.fields.map fun fs => ⟨btRowDescription, fieldsBytes fs⟩).toList ++
    r.rows.map fun cells => ⟨btDataRow, rowBytes cells⟩

/-- The completion. -/
def last (r : Reply) : Msg :=
  match r.tag with
  | some tag => ⟨btCommandComplete, tag⟩
  | none => ⟨btEmptyQueryResponse, []⟩

/-- The messages of a reply. -/
def msgs (r : Reply) : List Msg := r.init ++ [r.last]

end Reply

/-- Is this message a completion? -/
def Msg.completes (m : Msg) : Bool := m.typ = btCommandComplete ∨ m.typ = btEmptyQueryResponse

/-- Is it of one of the four kinds that replies consist of? -/
def Msg.inReply (m : Msg) : Bool :=
  m.typ = btRowDescription ∨ m.typ = btDataRow ∨ m.completes

/-! ### A walk over messages -/

theorem Msg.fits_of_size {m : Msg} (h : m.size < 2 ^ 31) : m.Fits := by
  rw [Msg.size] at h
  rw [Msg.Fits]
  omega

theorem header_at {m : Msg} (hm : m.Fits) (done rest : List UInt8) :
    nextMessageAt (done ++ (m.bytes ++ rest)) done.length = some ⟨m.typ, m.size⟩ := by
  have hlen : (m.bytes ++ rest).drop (0 + 1) =
      bytesOf 4 (4 + m.payload.length) ++ (m.payload ++ rest) := by simp [Msg.bytes]
  have hn := (u32At_of_drop hm hlen).1
  have htyp : (m.bytes ++ rest).getD 0 0 = m.typ := by simp [Msg.bytes]
  rw [← nextMessageAt_drop, List.drop_left, nextMessageAt, hn, htyp, List.length_append,
    Msg.length_bytes, Msg.size, if_neg (by omega), if_neg (by omega), if_neg (by omega)]
  congr 2
  omega

theorem header_end (done : List UInt8) : nextMessageAt done done.length = none := by
  rw [nextMessageAt, if_pos (by omega)]

/-- The payload behind the header. -/
theorem payload_at (m : Msg) (done rest : List UInt8) :
    ((done ++ (m.bytes ++ rest)).drop (done.length + 5)).take (m.size - 5) = m.payload := by
  have hdrop : (m.bytes ++ rest).drop 5 = m.payload ++ rest := by simp [Msg.bytes]
  rw [← List.drop_drop, List.drop_left, hdrop, Msg.size, Nat.add_sub_cancel_left, List.take_left]

/-- The messages from a completion's successor to the next completion, one list each; `acc` is what
stands before the first. -/
def segments : List Msg → List Msg → List (List Msg)
  | _, [] => []
  | acc, m :: ms =>
    if m.completes then (acc ++ [m]) :: segments [] ms else segments (acc ++ [m]) ms

/-- The `j`-th of a list, for any `j`. -/
def entry {α : Type} (l : List α) : Int → Option α
  | .ofNat n => l[n]?
  | .negSucc _ => none

theorem entry_nil {α : Type} (j : Int) : entry ([] : List α) j = none := by
  cases j <;> rfl

theorem entry_cons {α : Type} (a : α) (l : List α) (j : Int) :
    entry (a :: l) j = if j = 0 then some a else entry l (j - 1) := by
  match j with
  | .ofNat 0 => rfl
  | .ofNat (n + 1) =>
      have hpred : Int.ofNat (n + 1) - 1 = Int.ofNat n := by simp
      rw [if_neg (by simp only [Int.ofNat_eq_natCast]; omega), hpred]
      rfl
  | .negSucc n =>
      have hpred : Int.negSucc n - 1 = Int.negSucc (n + 1) := by omega
      rw [if_neg (by omega), hpred]
      rfl

/-- What `statement` answers for a part of the messages, or for none. -/
def Picks (res : Except ReadError Result) : Option (List Msg) → Prop
  | none => res = .error .noSuchStatement
  | some seg => ∃ n, res = .ok ⟨framing.encs seg, n⟩

theorem length_encs_lt (m : Msg) (ms : List Msg) :
    (framing.encs ms).length < (framing.encs (m :: ms)).length := by
  have hbytes : framing.encs (m :: ms) = m.bytes ++ framing.encs ms := framing.encs_cons m ms
  rw [hbytes, List.length_append, Msg.length_bytes, Msg.size]
  omega

/-- The loop of `statement`, with the messages `acc` behind it since the last completion. -/
theorem statementLoop_encs {ms : List Msg} (h : ∀ m ∈ ms, m.Fits) (i : Int) :
    ∀ (k n : Nat) (done : List UInt8) (acc : List Msg), (framing.encs ms).length < k →
      Picks (statementLoop (done ++ framing.encs acc ++ framing.encs ms) i k
          (done ++ framing.encs acc).length done.length n)
        (entry (segments acc ms) (i - n)) := by
  induction ms with
  | nil =>
      intro k n done acc hk
      obtain ⟨k, rfl⟩ : ∃ j, k = j + 1 := ⟨k - 1, by omega⟩
      rw [segments, entry_nil, framing.encs_nil, List.append_nil, statementLoop, header_end]
      rfl
  | cons m ms ih =>
      intro k n done acc hk
      obtain ⟨k, rfl⟩ : ∃ j, k = j + 1 := ⟨k - 1, by omega⟩
      obtain ⟨hm, hms⟩ := List.forall_mem_cons.mp h
      have henc : framing.encs (m :: ms) = m.bytes ++ framing.encs ms := framing.encs_cons m ms
      have hk' := Nat.lt_of_lt_of_le (length_encs_lt m ms) (Nat.le_of_lt_succ hk)
      have hnext : framing.encs (acc ++ [m]) = framing.encs acc ++ m.bytes := by
        rw [framing.encs_append, framing.encs_cons, framing.encs_nil, List.append_nil]
        rfl
      have hall : done ++ framing.encs acc ++ (m.bytes ++ framing.encs ms) =
          done ++ framing.encs (acc ++ [m]) ++ framing.encs ms := by
        rw [hnext]; simp only [List.append_assoc]
      have hstop : (done ++ framing.encs acc).length + m.size =
          (done ++ framing.encs (acc ++ [m])).length := by
        simp only [hnext, List.length_append, Msg.length_bytes]
        omega
      rw [segments, henc, statementLoop, header_at hm]
      dsimp only
      rw [hstop, hall]
      by_cases hc : m.completes = true
      · have hne : ¬ (m.typ ≠ btCommandComplete ∧ m.typ ≠ btEmptyQueryResponse) :=
          fun ⟨h₁, h₂⟩ => (of_decide_eq_true hc).elim h₁ h₂
        rw [if_neg hne, if_pos hc, entry_cons]
        by_cases hi : (n : Int) = i
        · rw [if_pos hi, if_pos (show i - ↑n = 0 by omega)]
          refine ⟨_, congrArg _ (congrArg (fun f => Result.mk f _) ?_)⟩
          rw [List.append_assoc, List.drop_left, List.length_append, Nat.add_sub_cancel_left,
            List.take_left]
        · rw [if_neg hi, if_neg (show ¬ i - ↑n = 0 by omega)]
          have hrest := ih hms k (n + 1) (done ++ framing.encs (acc ++ [m])) [] hk'
          rw [framing.encs_nil, List.append_nil] at hrest
          have hj : i - ↑(n + 1) = i - n - 1 := by omega
          rw [hj] at hrest
          exact hrest
      · have hne : m.typ ≠ btCommandComplete ∧ m.typ ≠ btEmptyQueryResponse := by
          simpa [Msg.completes] using hc
        rw [if_pos hne, if_neg hc]
        exact ih hms k n done (acc ++ [m]) hk'

/-- The loop of `columns`: the first RowDescription or DataRow decides. -/
theorem columnsLoop_encs {ms : List Msg} (h : ∀ m ∈ ms, m.Fits) :
    ∀ (k : Nat) (done : List UInt8), (framing.encs ms).length < k →
      columnsLoop (done ++ framing.encs ms) k done.length =
        match ms.find? fun m => m.typ = btRowDescription ∨ m.typ = btDataRow with
        | none => .ok {}
        | some m => if m.typ = btRowDescription then columnsFrom m.payload else .ok {} := by
  induction ms with
  | nil =>
      intro k done hk
      obtain ⟨k, rfl⟩ : ∃ j, k = j + 1 := ⟨k - 1, by omega⟩
      rw [framing.encs_nil, List.append_nil, columnsLoop, header_end]
      rfl
  | cons m ms ih =>
      intro k done hk
      obtain ⟨k, rfl⟩ : ∃ j, k = j + 1 := ⟨k - 1, by omega⟩
      obtain ⟨hm, hms⟩ := List.forall_mem_cons.mp h
      have henc : framing.encs (m :: ms) = m.bytes ++ framing.encs ms := framing.encs_cons m ms
      have hrest := ih hms k (done ++ m.bytes)
        (Nat.lt_of_lt_of_le (length_encs_lt m ms) (Nat.le_of_lt_succ hk))
      rw [List.append_assoc, List.length_append, Msg.length_bytes] at hrest
      rw [henc, columnsLoop, header_at hm]
      dsimp only
      rw [payload_at, hrest, List.find?_cons]
      by_cases hT : m.typ = btRowDescription
      · simp [hT]
      · by_cases hD : m.typ = btDataRow
        · simp [hD, btRowDescription, btDataRow]
        · simp [hT, hD]

/-- The loop of `statements_done` counts the parts. -/
theorem statementsDoneFrom_encs {ms : List Msg} (h : ∀ m ∈ ms, m.Fits) :
    ∀ (k : Nat) (done : List UInt8) (acc : List Msg), (framing.encs ms).length ≤ k →
      statementsDoneFrom k (done ++ framing.encs ms) done.length = (segments acc ms).length := by
  induction ms with
  | nil =>
      intro k done acc hk
      cases k with
      | zero => rfl
      | succ k => rw [framing.encs_nil, List.append_nil, statementsDoneFrom, header_end]; rfl
  | cons m ms ih =>
      intro k done acc hk
      obtain ⟨hm, hms⟩ := List.forall_mem_cons.mp h
      have henc : framing.encs (m :: ms) = m.bytes ++ framing.encs ms := framing.encs_cons m ms
      have hlt := length_encs_lt m ms
      obtain ⟨k, rfl⟩ : ∃ j, k = j + 1 := ⟨k - 1, by omega⟩
      have hrest := fun acc => ih hms k (done ++ m.bytes) acc (by omega)
      rw [List.append_assoc, List.length_append, Msg.length_bytes] at hrest
      rw [henc, statementsDoneFrom, header_at hm, segments]
      dsimp only
      by_cases hc : m.completes = true
      · rw [if_pos (by simpa [Msg.completes] using hc), if_pos hc, hrest [], List.length_cons]
      · rw [if_neg (by simpa [Msg.completes] using hc), if_neg hc, hrest (acc ++ [m])]

/-! ### The fields of a RowDescription -/

/-- A field at the cursor. -/
theorem field_at {p r : List UInt8} {pos : Nat} {f : Field} (h : p.drop pos = f.bytes ++ r) :
    fieldEnd p pos = (pos + f.name.length + 19 : Nat) ∧
      p.drop (pos + f.name.length + 19) = r ∧ pos + f.name.length + 19 ≤ p.length ∧
      (p.drop pos).take f.name.length = f.name ∧
      bigEndianU32At p (pos + f.name.length + 7) = f.typeOid := by
  have hlen : f.bytes.length = f.name.length + 19 := by simp [Field.bytes]
  have hroom := length_of_drop h (by omega)
  have hrest := drop_of_drop h
  rw [hlen, ← Nat.add_assoc] at hroom hrest
  rw [Field.bytes, List.append_assoc] at h
  have hname : (p.drop pos).takeWhile (· != 0) = f.name := by
    rw [h, List.takeWhile_append_of_pos]
    · simp
    · intro c hc
      exact bne_iff_ne.mpr fun h₀ => f.nul (h₀ ▸ hc)
  have hoid : p.drop (pos + f.name.length + 7) = bytesOf 4 f.typeOid ++
      (bytesOf 2 f.size ++ (bytesOf 4 f.modifier ++ bytesOf 2 f.format) ++ r) := by
    have hbefore : (f.name ++ ([0] ++ (bytesOf 4 f.tableOid ++ bytesOf 2 f.column))).length =
        f.name.length + 7 := by simp
    rw [Nat.add_assoc, ← hbefore]
    exact drop_of_drop (by rw [h]; simp only [List.append_assoc])
  refine ⟨?_, hrest, hroom, by rw [h, List.take_left], (u32At_of_drop f.oid_lt hoid).1⟩
  rw [fieldEnd, hname, if_neg (by omega)]
  omega

/-- The check of the fields. -/
theorem fieldsLoop_fields {p : List UInt8} {fs : List Field} {pos : Nat} (hpos : pos ≤ p.length)
    (h : p.drop pos = fs.flatMap Field.bytes) : fieldsLoop p fs.length pos = some p.length := by
  induction fs generalizing pos with
  | nil => rw [List.length_nil, fieldsLoop, Nat.le_antisymm hpos (List.drop_eq_nil_iff.mp h)]
  | cons f fs ih =>
      rw [List.flatMap_cons] at h
      obtain ⟨hend, hrest, hroom, -⟩ := field_at h
      rw [List.length_cons, fieldsLoop, hend, if_neg (by omega), Int.toNat_natCast, ih hroom hrest]

/-- The start of the `k`-th field. -/
theorem fieldStartFrom_fields {p : List UInt8} {fs : List Field} {k pos : Nat} {f : Field}
    (hk : fs[k]? = some f) (h : p.drop pos = fs.flatMap Field.bytes) :
    ∃ r, p.drop (fieldStartFrom p k pos) = f.bytes ++ r := by
  induction fs generalizing k pos with
  | nil => cases hk
  | cons f' fs ih =>
      rw [List.flatMap_cons] at h
      cases k with
      | zero =>
          cases hk
          exact ⟨_, h⟩
      | succ k =>
          obtain ⟨hend, hrest, -⟩ := field_at h
          rw [fieldStartFrom, hend, Int.toNat_natCast]
          exact ih hk hrest

/-- The search for a name finds the first field that has it. -/
theorem indexLoop_fields {p nm : List UInt8} {fs : List Field} {i pos : Nat}
    (h : p.drop pos = fs.flatMap Field.bytes) :
    Columns.indexLoop p nm fs.length i pos =
      (fs.findIdx? fun f => f.name = nm).map (· + i) := by
  induction fs generalizing i pos with
  | nil => rfl
  | cons f fs ih =>
      rw [List.flatMap_cons] at h
      obtain ⟨hend, hrest, -, hname, -⟩ := field_at h
      rw [List.length_cons, Columns.indexLoop, hend, Int.toNat_natCast,
        List.findIdx?_cons]
      have hlen : ((pos + f.name.length + 19 : Nat) : Int) - 19 - pos = f.name.length := by omega
      rw [hlen]
      by_cases hnm : f.name = nm
      · subst hnm
        rw [if_pos ⟨rfl, hname⟩]
        simp
      · have hno : ¬ ((f.name.length : Int) = nm.length ∧ (p.drop pos).take nm.length = nm) := by
          rintro ⟨heq, hbytes⟩
          rw [← Int.ofNat_inj.mp heq, hname] at hbytes
          exact hnm hbytes
        rw [if_neg hno, ih hrest]
        simp only [hnm, decide_false, Bool.false_eq_true, if_false, Option.map_map]
        congr 1
        funext j
        simp only [Function.comp_apply]
        omega

/-- The columns say these fields. -/
structure Columns.Says (c : Columns) (fs : List Field) : Prop where
  count : c.n = fs.length
  name : ∀ (k : Nat) (f : Field), fs[k]? = some f → c.name k = .ok f.name
  typeOid : ∀ (k : Nat) (f : Field), fs[k]? = some f → c.typeOid k = .ok f.typeOid
  index : ∀ nm, c.index nm = fs.findIdx? fun f => f.name = nm

/-- `columns_from` reads the fields that were written. -/
theorem columnsFrom_fields {fs : List Field} (hcount : fs.length ≤ 32767) :
    ∃ c, columnsFrom (fieldsBytes fs) = .ok c ∧ c.Says fs := by
  obtain ⟨hn, hle, hrest⟩ := u16At_of_drop (show fs.length < 2 ^ 16 by omega)
    (show (fieldsBytes fs).drop 0 = bytesOf 2 fs.length ++ _ from rfl)
  generalize fieldsBytes fs = p at hn hle hrest
  refine ⟨⟨fs.length, p⟩, ?_, rfl, fun k f hk => ?_, fun k f hk => ?_, fun nm => ?_⟩
  · rw [columnsFrom]
    dsimp only
    rw [if_neg (by omega), hn, i16_of_lt (by omega), if_neg (by omega), Int.toNat_natCast,
      fieldsLoop_fields (by omega) hrest]
    simp
  · have hlt := (List.getElem?_eq_some_iff.mp hk).1
    obtain ⟨r, hat⟩ := fieldStartFrom_fields hk hrest
    obtain ⟨hend, -, -, hname, -⟩ := field_at hat
    rw [Columns.name]
    dsimp only
    rw [if_neg (by omega), Columns.fieldStart, Int.toNat_natCast]
    dsimp only
    rw [hend, show ((fieldStartFrom p k 2 + f.name.length + 19 : Nat) : Int) - 19 -
      (fieldStartFrom p k 2 : Nat) = f.name.length by omega, Int.toNat_natCast, hname]
  · have hlt := (List.getElem?_eq_some_iff.mp hk).1
    obtain ⟨r, hat⟩ := fieldStartFrom_fields hk hrest
    obtain ⟨hend, -, -, -, hoid⟩ := field_at hat
    rw [Columns.typeOid]
    dsimp only
    rw [if_neg (by omega), Columns.fieldStart, Int.toNat_natCast]
    dsimp only
    rw [hend, show (((fieldStartFrom p k 2 + f.name.length + 19 : Nat) : Int) - 12).toNat =
      fieldStartFrom p k 2 + f.name.length + 7 by omega, hoid]
  · rw [Columns.index, indexLoop_fields hrest]
    simp

/-! ### Replies -/

theorem Reply.last_completes (r : Reply) : r.last.completes = true := by
  unfold Reply.last
  cases r.tag <;> rfl

theorem Reply.init_not_completes (r : Reply) : ∀ m ∈ r.init, m.completes = false := by
  intro m hm
  rcases List.mem_append.mp hm with hm | hm
  · cases hf : r.fields with
    | none => rw [hf] at hm; cases hm
    | some fs => rw [hf] at hm; rw [List.mem_singleton.mp hm]; rfl
  · obtain ⟨cells, -, rfl⟩ := List.mem_map.mp hm
    rfl

/-- Two lists that agree split alike at their first completion. -/
theorem split_at_completion {a b x y : List Msg} {c d : Msg}
    (ha : ∀ m ∈ a, m.completes = false) (hb : ∀ m ∈ b, m.completes = false)
    (hc : c.completes = true) (hd : d.completes = true) (h : a ++ c :: x = b ++ d :: y) :
    a = b ∧ c = d ∧ x = y := by
  induction a generalizing b with
  | nil =>
      cases b with
      | nil => exact ⟨rfl, List.cons.inj h⟩
      | cons m b =>
          have := hb m List.mem_cons_self
          rw [← (List.cons.inj h).1, hc] at this
          cases this
  | cons m a ih =>
      cases b with
      | nil =>
          have := ha m List.mem_cons_self
          rw [(List.cons.inj h).1, hd] at this
          cases this
      | cons m' b =>
          obtain ⟨hhead, htail⟩ := List.cons.inj h
          obtain ⟨hab, hrest⟩ := ih (fun z hz => ha z (List.mem_cons_of_mem _ hz))
            (fun z hz => hb z (List.mem_cons_of_mem _ hz)) htail
          exact ⟨by rw [hhead, hab], hrest⟩

/-- The parts of the messages are the replies, apart from the other messages in them. -/
theorem segments_replies {ms acc : List Msg} {replies : List Reply}
    (h : (acc ++ ms).filter Msg.inReply = replies.flatMap Reply.msgs)
    (hacc : ∀ m ∈ acc, m.completes = false) :
    List.Forall₂ (fun seg r => seg.filter Msg.inReply = r.msgs) (segments acc ms) replies := by
  induction ms generalizing acc replies with
  | nil =>
      cases replies with
      | nil => exact .nil
      | cons r rs =>
          have hlast : r.last ∈ (acc ++ []).filter Msg.inReply := by
            rw [h, List.flatMap_cons, Reply.msgs]
            simp
          have hfalse := hacc r.last (by simpa using (List.mem_filter.mp hlast).1)
          rw [r.last_completes] at hfalse
          cases hfalse
  | cons m ms ih =>
      rw [segments]
      by_cases hc : m.completes = true
      · have hin : m.inReply = true := by simp [Msg.inReply, hc]
        rw [if_pos hc]
        rw [List.filter_append, List.filter_cons_of_pos hin] at h
        cases replies with
        | nil => simp at h
        | cons r rs =>
            rw [List.flatMap_cons, Reply.msgs, List.append_assoc] at h
            obtain ⟨hinit, hlast, hrest⟩ := split_at_completion
              (fun z hz => hacc z (List.mem_filter.mp hz).1) r.init_not_completes hc
              r.last_completes h
            refine .cons ?_ (ih hrest (by simp))
            rw [List.filter_append, hinit, List.filter_cons_of_pos hin, hlast]
            rfl
      · rw [if_neg hc]
        refine ih (by rwa [List.append_assoc]) fun z hz => ?_
        rcases List.mem_append.mp hz with hz | hz
        · exact hacc z hz
        · rw [List.mem_singleton.mp hz]
          exact Bool.eq_false_iff.mpr hc

theorem dataRows_filter (ms : List Msg) : dataRows (ms.filter Msg.inReply) = dataRows ms := by
  rw [dataRows, dataRows, List.filter_filter]
  congr 1
  refine List.filter_congr fun m _ => ?_
  by_cases hD : m.typ = btDataRow <;> simp [hD, Msg.inReply]

theorem dataRows_msgs (r : Reply) : dataRows r.msgs = r.rows.map rowBytes := by
  have hfields : dataRows (r.fields.map fun fs =>
      (⟨btRowDescription, fieldsBytes fs⟩ : Msg)).toList = [] := by
    cases r.fields <;> rfl
  have hlast : dataRows [r.last] = [] := by
    unfold Reply.last
    cases r.tag <;> rfl
  have hrows : dataRows (r.rows.map fun cells => (⟨btDataRow, rowBytes cells⟩ : Msg)) =
      r.rows.map rowBytes := by
    rw [dataRows, List.filter_eq_self.mpr (by simp), List.map_map]
    rfl
  rw [Reply.msgs, Reply.init, dataRows_append, dataRows_append, hfields, hlast, hrows,
    List.nil_append, List.append_nil]

/-- The columns of a part that is a reply. -/
theorem columns_reply {seg : List Msg} {r : Reply} (hfit : ∀ m ∈ seg, m.Fits)
    (h : seg.filter Msg.inReply = r.msgs) (n : Nat) :
    ∃ c, (⟨framing.encs seg, n⟩ : Result).columns = .ok c ∧ c.Says (r.fields.getD []) := by
  have hfind : (seg.find? fun m => m.typ = btRowDescription ∨ m.typ = btDataRow) =
      r.msgs.find? fun m => m.typ = btRowDescription ∨ m.typ = btDataRow := by
    rw [← h, List.find?_filter]
    congr 1
    funext m
    by_cases hT : m.typ = btRowDescription
    · simp [hT, Msg.inReply]
    · by_cases hD : m.typ = btDataRow <;> simp [hT, hD, Msg.inReply]
  have hnone : (⟨0, []⟩ : Columns).Says [] :=
    ⟨rfl, fun _ _ hk => (nomatch hk), fun _ _ hk => (nomatch hk), fun _ => rfl⟩
  rw [Result.columns]
  have hwalk := columnsLoop_encs hfit _ [] (Nat.lt_succ_self _)
  rw [List.nil_append, List.length_nil] at hwalk
  rw [hwalk, hfind, Reply.msgs, Reply.init]
  cases hf : r.fields with
  | some fs =>
      obtain ⟨c, hc, hsays⟩ := columnsFrom_fields (r.few_fields fs hf)
      refine ⟨c, ?_, hsays⟩
      simp only [Option.map_some, Option.toList_some, List.cons_append, List.find?_cons, true_or,
        decide_true, if_true, hc]
  | none =>
      cases r.rows with
      | nil =>
          refine ⟨{}, ?_, hnone⟩
          unfold Reply.last
          cases r.tag <;> rfl
      | cons cells rows => exact ⟨{}, rfl, hnone⟩

/-- A value of a row is no longer than the row. -/
theorem length_cell {cells : List (Option (List UInt8))} {v : List UInt8} (h : some v ∈ cells) :
    v.length ≤ (rowBytes cells).length := by
  obtain ⟨l, r, rfl⟩ := List.mem_iff_append.mp h
  simp only [rowBytes, List.flatMap_append, List.flatMap_cons, bindParam, List.length_append]
  omega

/-- The messages of a part are messages of the whole. -/
theorem mem_segments {ms acc seg : List Msg} {m : Msg} (hseg : seg ∈ segments acc ms)
    (hm : m ∈ seg) : m ∈ acc ++ ms := by
  induction ms generalizing acc with
  | nil => cases hseg
  | cons m' ms ih =>
      rw [segments] at hseg
      split at hseg
      · rcases List.mem_cons.mp hseg with rfl | hseg
        · rw [List.append_cons]
          exact List.mem_append_left _ hm
        · exact List.mem_append_right _ (List.mem_cons_of_mem _ (ih hseg))
      · rw [List.append_cons]
        exact ih hseg

/-- What a part of a result gives back: the rows and the columns of one reply. -/
structure Result.GivesBack (part : Result) (r : Reply) : Prop where
  rows : part.rows = r.rows.map rowBytes
  columns : ∃ cols, part.columns = .ok cols ∧ cols.Says (r.fields.getD []) ∧
    ∀ cells ∈ r.rows, ∀ (nm : List UInt8) (k : Nat) (c : Option (List UInt8)),
      (r.fields.getD []).findIdx? (fun f => f.name = nm) = some k → cells[k]? = some c →
        (⟨rowBytes cells⟩ : Row).colByName cols nm = .ok (DataValue.of c)
  cells : ∀ cells ∈ r.rows, ∀ (j : Nat) (c : Option (List UInt8)), cells[j]? = some c →
    (⟨rowBytes cells⟩ : Row).col j = .ok (DataValue.of c)

theorem givesBack_reply {seg : List Msg} {r : Reply} (hsize : ∀ m ∈ seg, m.size < 2 ^ 31)
    (h : seg.filter Msg.inReply = r.msgs) (n : Nat) :
    (⟨framing.encs seg, n⟩ : Result).GivesBack r := by
  have hcells : ∀ cells ∈ r.rows, ∀ (j : Nat) (c : Option (List UInt8)), cells[j]? = some c →
      (⟨rowBytes cells⟩ : Row).col j = .ok (DataValue.of c) := by
    intro cells hmem j c hj
    have hmsg : (⟨btDataRow, rowBytes cells⟩ : Msg) ∈ seg := by
      have hin : (⟨btDataRow, rowBytes cells⟩ : Msg) ∈ r.msgs :=
        List.mem_append_left _ (List.mem_append_right _ (List.mem_map.mpr ⟨cells, hmem, rfl⟩))
      rw [← h] at hin
      exact (List.mem_filter.mp hin).1
    refine col_row (r.few_cells cells hmem) (fun v hv => ?_) hj
    have hlong := length_cell hv
    have hmax := hsize _ hmsg
    simp only [Msg.size] at hmax
    omega
  have hfit : ∀ m ∈ seg, m.Fits := fun m hm => Msg.fits_of_size (hsize m hm)
  obtain ⟨cols, hcols, hsays⟩ := columns_reply hfit h n
  refine ⟨?_, ⟨cols, hcols, hsays, fun cells hmem nm k c hk hc => ?_⟩, hcells⟩
  · rw [rows_encs hfit, ← dataRows_filter, h, dataRows_msgs]
  · rw [Row.colByName, hsays.index nm, hk]
    exact hcells cells hmem k c hc

/-- **A result gives back what the server sent.**  The messages are those of the replies, in order,
with any messages of other kinds between them and behind. -/
theorem result_read_back {replies : List Reply} {ms : List Msg} {res : Result}
    (hsize : ∀ m ∈ ms, m.size < 2 ^ 31) (hsent : ms.filter Msg.inReply = replies.flatMap Reply.msgs)
    (hres : res.frames = framing.encs ms) :
    (∀ (i : Nat) (r : Reply), replies[i]? = some r →
        ∃ part, res.statement i = .ok part ∧ part.GivesBack r) ∧
      (∀ i : Int, i < 0 ∨ replies.length ≤ i → res.statement i = .error .noSuchStatement) ∧
      res.rows = replies.flatMap (fun r => r.rows.map rowBytes) ∧
      statementsDone res.frames = replies.length := by
  obtain ⟨frames, n⟩ := res
  obtain rfl : frames = framing.encs ms := hres
  have hfit : ∀ m ∈ ms, m.Fits := fun m hm => Msg.fits_of_size (hsize m hm)
  have hsegs : List.Forall₂ _ (segments [] ms) replies :=
    segments_replies (by rwa [List.nil_append]) (by simp)
  have hpick : ∀ i, Picks ((⟨framing.encs ms, n⟩ : Result).statement i)
      (entry (segments [] ms) i) := by
    intro i
    have hwalk := statementLoop_encs hfit i _ 0 [] [] (Nat.lt_succ_self _)
    rwa [Int.natCast_zero, Int.sub_zero] at hwalk
  refine ⟨fun i r hr => ?_, fun i hi => ?_, ?_, ?_⟩
  · obtain ⟨hlt, rfl⟩ := List.getElem?_eq_some_iff.mp hr
    have hlt' : i < (segments [] ms).length := by rwa [hsegs.length_eq]
    have hseg := hsegs.get hlt' hlt
    have hp := hpick i
    rw [show entry (segments [] ms) i = some (segments [] ms)[i] from
      List.getElem?_eq_getElem hlt'] at hp
    obtain ⟨k, hk⟩ := hp
    refine ⟨_, hk, givesBack_reply (fun m hm => hsize m ?_) hseg k⟩
    exact mem_segments (List.getElem_mem hlt') hm
  · have hp := hpick i
    have hnone : entry (segments [] ms) i = none := by
      cases i with
      | ofNat k =>
          refine List.getElem?_eq_none ?_
          rw [hsegs.length_eq]
          simp only [Int.ofNat_eq_natCast] at hi
          omega
      | negSucc k => rfl
    rw [hnone] at hp
    exact hp
  · rw [rows_encs hfit, ← dataRows_filter, hsent]
    clear hsent hsegs
    induction replies with
    | nil => rfl
    | cons r rs ih => rw [List.flatMap_cons, List.flatMap_cons, dataRows_append, dataRows_msgs, ih]
  · rw [← hsegs.length_eq]
    exact statementsDoneFrom_encs hfit _ [] [] (Nat.le_refl _)

/-- One row of an `int4` and a NULL, in the columns `a` and `b`. -/
def oneRow : Reply where
  fields := some [⟨[97], 0, 0, 23, 4, 0, 1, by decide, by decide⟩,
    ⟨[98], 0, 0, 25, 0, 0, 1, by decide, by decide⟩]
  rows := [[some [0, 0, 0, 7], none]]
  tag := some (ascii "SELECT 1")
  few_fields := by simp
  few_cells := by simp

/-- That row behind a ParseComplete. -/
theorem result_read_back_row :
    ∃ part, (⟨framing.encs (⟨49, []⟩ :: oneRow.msgs), 0⟩ : Result).statement 0 = .ok part ∧
      part.rows = [rowBytes [some [0, 0, 0, 7], none]] := by
  have hsize : ∀ m ∈ (⟨49, []⟩ :: oneRow.msgs : List Msg), m.size < 2 ^ 31 := by
    decide
  obtain ⟨part, hpart, hback⟩ := (result_read_back hsize
    (show _ = [oneRow].flatMap Reply.msgs from rfl)
    (show (⟨_, 0⟩ : Result).frames = _ from rfl)).1 0 oneRow rfl
  exact ⟨part, hpart, hback.rows⟩

end Vanilla.PgAsync

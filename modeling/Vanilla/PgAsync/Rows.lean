import Vanilla.PgAsync.Protocol

/-!
# PostgreSQL — rows and their columns

`pg_async/protocol.v`: a DataRow is read by index, its cells walked from the first.

A cell is a length and that many bytes, or the length -1 for a NULL: `bindParam` writes one.  Rows,
arrays and the readers of arrays walk cells, each with its own checks; what they share is here, as
facts about what stands at a cursor.

* `null_at`, `value_at`: what a walker reads at a cell.
* `bindParam_none`, `bindParam_some`: what it read was a cell.
* `col_row`: `col` reads the cells of a row.
-/

namespace Vanilla.PgAsync

open Words (bytesOf number)

/-- The errors of the readers of a result. -/
inductive ReadError where
  | rowShort
  | rowRange
  | rowTruncated
  | rowNull
  | noSuchStatement
  | columnsMalformed
  | columnsRange
  | columnsNoSuch
  | int4Width
  | arrayMalformed
  | arrayDims
  | arrayNull
  | arrayElemType
  | numericMalformed
  | numericSpecial
  | numericPrecision
  | numericRange
  deriving DecidableEq, Repr

/-- A guard that was passed. -/
theorem of_guard {ε α : Type} {c : Prop} [Decidable c] {e : ε} {x : Except ε α} {a : α}
    (h : (if c then .error e else x) = .ok a) : ¬ c ∧ x = .ok a := by
  by_cases hc : c
  · rw [if_pos hc] at h
    cases h
  · rw [if_neg hc] at h
    exact ⟨hc, h⟩

/-- The `i32` with the low 32 bits of `x`. -/
def i32 (x : Int) : Int := (x + 2 ^ 31) % 2 ^ 32 - 2 ^ 31

theorem i32_of_lt {n : Nat} (h : n < 2 ^ 31) : i32 n = n := by
  unfold i32; omega

/-- The `i16` with the low 16 bits of `x`. -/
def i16 (x : Int) : Int := (x + 2 ^ 15) % 2 ^ 16 - 2 ^ 15

theorem i16_of_lt {n : Nat} (h : n < 2 ^ 15) : i16 n = n := by
  unfold i16; omega

/-- `binary.big_endian_u16_at`. -/
def bigEndianU16At (b : List UInt8) (i : Nat) : Nat := number ((b.drop i).take 2)

/-- `DataValue`. -/
structure DataValue where
  isNull : Bool := false
  bytes : List UInt8 := []
  deriving DecidableEq, Repr

/-- A cell, as a reader hands it out. -/
def DataValue.of : Option (List UInt8) → DataValue
  | none => { isNull := true }
  | some v => { bytes := v }

/-- `Row`: a DataRow's payload. -/
structure Row where
  payload : List UInt8
  deriving DecidableEq, Repr

/-- The loop of `Row.col`. -/
def colLoop (payload : List UInt8) (i : Int) : Nat → Nat → Nat → Except ReadError DataValue
  | 0, _, _ => .error .rowRange
  | n + 1, idx, pos =>
    if payload.length < pos + 4 then .error .rowTruncated
    else
      let clen := i32 (bigEndianU32At payload pos)
      let pos := pos + 4
      if clen < 0 then
        if idx = i then .ok { isNull := true } else colLoop payload i n (idx + 1) pos
      else if (payload.length : Int) - pos < clen then .error .rowTruncated
      else if idx = i then .ok { bytes := (payload.drop pos).take clen.toNat }
      else colLoop payload i n (idx + 1) (pos + clen.toNat)

/-- `Row.col`. -/
def Row.col (r : Row) (i : Int) : Except ReadError DataValue :=
  if r.payload.length < 2 then .error .rowShort
  else
    let ncols := i16 (bigEndianU16At r.payload 0)
    if i < 0 ∨ ncols ≤ i then .error .rowRange
    else colLoop r.payload i ncols.toNat 0 2

/-- `Row.require`. -/
def Row.require (r : Row) (i : Int) : Except ReadError (List UInt8) :=
  match r.col i with
  | .error e => .error e
  | .ok dv => if dv.isNull then .error .rowNull else .ok dv.bytes

/-! ### Numbers and cells at a cursor -/

theorem i32_bounds (x : Int) : -2 ^ 31 ≤ i32 x ∧ i32 x < 2 ^ 31 := by
  unfold i32; omega

section Cursor

variable {b r : List UInt8} {pos : Nat}

/-- A number that is not negative as an `i32`. -/
theorem u32At_of_i32 {n : Nat} (h : i32 (bigEndianU32At b pos) = n) :
    bigEndianU32At b pos = n ∧ n < 2 ^ 31 := by
  have hlt := u32At_lt b pos
  unfold i32 at h
  omega

theorem i32_u32At (b : List UInt8) (pos : Nat) :
    (i32 (bigEndianU32At b pos) % 2 ^ 32).toNat = bigEndianU32At b pos := by
  have hlt := u32At_lt b pos
  unfold i32
  omega

/-- What is read was written. -/
theorem drop_eq_u32At (h : pos + 4 ≤ b.length) :
    b.drop pos = bytesOf 4 (bigEndianU32At b pos) ++ b.drop (pos + 4) := by
  have hlen : ((b.drop pos).take 4).length = 4 := by rw [List.length_take, List.length_drop]; omega
  have hback := Words.bytesOf_number ((b.drop pos).take 4)
  rw [hlen] at hback
  rw [bigEndianU32At, hback, ← List.drop_drop, List.take_append_drop]

theorem length_of_drop {a : List UInt8} (h : b.drop pos = a ++ r) (ha : 0 < a.length) :
    pos + a.length ≤ b.length := by
  have := congrArg List.length h
  rw [List.length_drop, List.length_append] at this
  omega

theorem drop_of_drop {a : List UInt8} (h : b.drop pos = a ++ r) : b.drop (pos + a.length) = r := by
  rw [← List.drop_drop, h, List.drop_left]

/-- What was written in `w` bytes is read from them. -/
theorem number_of_drop {w n : Nat} (hw : 0 < w) (hn : n < 256 ^ w)
    (h : b.drop pos = bytesOf w n ++ r) :
    number ((b.drop pos).take w) = n ∧ pos + w ≤ b.length ∧ b.drop (pos + w) = r := by
  have hlen := Words.length_bytesOf w n
  refine ⟨?_, hlen ▸ length_of_drop h (by rwa [hlen]), hlen ▸ drop_of_drop h⟩
  rw [h, List.take_left' hlen, Words.number_bytesOf]
  exact Nat.mod_eq_of_lt hn

theorem u32At_of_drop {n : Nat} (hn : n < 2 ^ 32) (h : b.drop pos = bytesOf 4 n ++ r) :
    bigEndianU32At b pos = n ∧ pos + 4 ≤ b.length ∧ b.drop (pos + 4) = r :=
  number_of_drop (by decide) hn h

theorem u16At_of_drop {n : Nat} (hn : n < 2 ^ 16) (h : b.drop pos = bytesOf 2 n ++ r) :
    bigEndianU16At b pos = n ∧ pos + 2 ≤ b.length ∧ b.drop (pos + 2) = r :=
  number_of_drop (by decide) hn h

/-- A NULL at the cursor. -/
theorem null_at (h : b.drop pos = bindParam none ++ r) :
    i32 (bigEndianU32At b pos) = -1 ∧ pos + 4 ≤ b.length ∧ b.drop (pos + 4) = r := by
  obtain ⟨hn, hle, hr⟩ := u32At_of_drop (by decide) h
  exact ⟨by rw [hn]; decide, hle, hr⟩

/-- A value at the cursor. -/
theorem value_at {v : List UInt8} (hv : v.length < 2 ^ 31)
    (h : b.drop pos = bindParam (some v) ++ r) :
    i32 (bigEndianU32At b pos) = v.length ∧ pos + 4 + v.length ≤ b.length ∧
      (b.drop (pos + 4)).take v.length = v ∧ b.drop (pos + 4 + v.length) = r := by
  rw [bindParam, putU32, List.append_assoc] at h
  obtain ⟨hn, hle, hr⟩ := u32At_of_drop (by omega) h
  refine ⟨by rw [hn, i32_of_lt hv], ?_, by rw [hr, List.take_left], drop_of_drop hr⟩
  have := congrArg List.length hr
  rw [List.length_drop, List.length_append] at this
  omega

/-- What reads as a NULL is one. -/
theorem bindParam_none (h : pos + 4 ≤ b.length) (hn : i32 (bigEndianU32At b pos) = -1) :
    b.drop pos = bindParam none ++ b.drop (pos + 4) := by
  have hlt := u32At_lt b pos
  have hval : bigEndianU32At b pos = 0xFFFFFFFF := by unfold i32 at hn; omega
  rw [drop_eq_u32At h, hval]
  rfl

/-- What reads as a value is one. -/
theorem bindParam_some {n : Nat} (h : pos + 4 + n ≤ b.length)
    (hn : i32 (bigEndianU32At b pos) = n) :
    b.drop pos = bindParam (some ((b.drop (pos + 4)).take n)) ++ b.drop (pos + 4 + n) ∧
      ((b.drop (pos + 4)).take n).length = n ∧ n < 2 ^ 31 := by
  have hval := u32At_of_i32 hn
  have hlen : ((b.drop (pos + 4)).take n).length = n := by
    rw [List.length_take, List.length_drop]; omega
  refine ⟨?_, hlen, hval.2⟩
  have hrest : (b.drop (pos + 4)).take n ++ b.drop (pos + 4 + n) = b.drop (pos + 4) := by
    rw [← List.drop_drop (i := n), List.take_append_drop]
  rw [bindParam, putU32, hlen, List.append_assoc, hrest, ← hval.1]
  exact drop_eq_u32At (by omega)

end Cursor

/-! ### The columns of a row -/

/-- The payload of a DataRow. -/
def rowBytes (cells : List (Option (List UInt8))) : List UInt8 :=
  putU16 cells.length ++ cells.flatMap bindParam

/-- The walk from column `idx` to the `k`-th after it. -/
theorem colLoop_cells {p : List UInt8} {cells : List (Option (List UInt8))}
    (hsize : ∀ v, some v ∈ cells → v.length < 2 ^ 31) {k pos : Nat}
    {c : Option (List UInt8)} (idx : Nat) (hk : cells[k]? = some c)
    (h : p.drop pos = cells.flatMap bindParam) :
    colLoop p (idx + k : Nat) cells.length idx pos = .ok (DataValue.of c) := by
  induction cells generalizing idx k pos with
  | nil => cases hk
  | cons c' cells ih =>
      rw [List.flatMap_cons] at h
      -- behind this cell the walk is the one over the rest
      have hrest : ∀ k' q, k = k' + 1 → p.drop q = cells.flatMap bindParam →
          colLoop p (idx + k : Nat) cells.length (idx + 1) q = .ok (DataValue.of c) := by
        rintro k' q rfl hq
        have hidx : idx + (k' + 1) = idx + 1 + k' := by omega
        rw [hidx]
        exact ih (fun v hv => hsize v (List.mem_cons_of_mem _ hv)) (idx + 1) hk hq
      rw [List.length_cons, colLoop]
      cases c' with
      | none =>
          obtain ⟨hn, hle, hr⟩ := null_at h
          rw [if_neg (Nat.not_lt.mpr hle)]
          dsimp only
          rw [hn, if_pos (by decide)]
          cases k with
          | zero =>
              cases hk
              rw [if_pos (by omega), DataValue.of]
          | succ k' => rw [if_neg (by omega), hrest k' _ rfl hr]
      | some v =>
          obtain ⟨hn, hle, hv, hr⟩ := value_at (hsize v List.mem_cons_self) h
          rw [if_neg (by omega)]
          dsimp only
          rw [hn, if_neg (by omega), if_neg (by omega), Int.toNat_natCast, hv]
          cases k with
          | zero =>
              cases hk
              rw [if_pos (by omega), DataValue.of]
          | succ k' => rw [if_neg (by omega), hrest k' _ rfl hr]

/-- `col` reads the cells of a row. -/
theorem col_row {cells : List (Option (List UInt8))} (hcount : cells.length ≤ 32767)
    (hsize : ∀ v, some v ∈ cells → v.length < 2 ^ 31) {i : Nat} {c : Option (List UInt8)}
    (hi : cells[i]? = some c) :
    (⟨rowBytes cells⟩ : Row).col i = .ok (DataValue.of c) := by
  have hlt : i < cells.length := (List.getElem?_eq_some_iff.mp hi).1
  obtain ⟨hn, hle, hr⟩ := u16At_of_drop (show cells.length < 2 ^ 16 by omega)
    (show (rowBytes cells).drop 0 = bytesOf 2 cells.length ++ _ from rfl)
  have hwalk := colLoop_cells hsize 0 hi hr
  rw [Nat.zero_add] at hwalk
  rw [Row.col]
  dsimp only
  rw [if_neg (by omega), hn, i16_of_lt (by omega), if_neg (by omega), Int.toNat_natCast, hwalk]

end Vanilla.PgAsync

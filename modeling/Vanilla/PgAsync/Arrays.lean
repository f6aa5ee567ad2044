import Vanilla.PgAsync.Rows

/-!
# PostgreSQL — arrays

`pg_async/types.v` and `pg_async/protocol.v`: a binary array is checked once, and then walked
without any check, by an iterator or by one of the two readers that append all of it.

The unchecked reads are partial here: `u32At` and `viewAt` are `none` outside the buffer.

* `PgArray`: the arrays that have a binary form the driver reads, and `PgArray.bytes` that form.
* `decodeArray_iff`: what `decode_array` accepts.
* `array_decoding_exact`: the iterator yields the elements, and the appending readers append them
  or nothing.
-/

namespace Vanilla.PgAsync

open Words (bytesOf number)

/-- `oid_int4`. -/
def oidInt4 : Nat := 23
/-- `oid_text`. -/
def oidText : Nat := 25
/-- `oid_name`. -/
def oidName : Nat := 19
/-- `oid_bpchar`. -/
def oidBpchar : Nat := 1042
/-- `oid_varchar`. -/
def oidVarchar : Nat := 1043

/-- `ArrayIter`. -/
structure ArrayIter where
  elemOid : Nat
  len : Nat := 0
  lowerBound : Int := 0
  buf : List UInt8
  pos : Nat
  left : Nat := 0
  deriving DecidableEq, Repr

/-- The element loop of `decode_array`: where it ends, and whether it saw a NULL. -/
def arrayLoop (b : List UInt8) : Nat → Nat → Bool → Except ReadError (Nat × Bool)
  | 0, pos, sawNull => .ok (pos, sawNull)
  | n + 1, pos, sawNull =>
    if (b.length : Int) - pos < 4 then .error .arrayMalformed
    else
      let elen := i32 (bigEndianU32At b pos)
      let pos := pos + 4
      if elen = -1 then arrayLoop b n pos true
      else if elen < 0 ∨ (b.length : Int) - pos < elen then .error .arrayMalformed
      else arrayLoop b n (pos + elen.toNat) sawNull

/-- `decode_array`. -/
def decodeArray (b : List UInt8) : Except ReadError ArrayIter :=
  if b.length < 12 then .error .arrayMalformed
  else
    let ndim := i32 (bigEndianU32At b 0)
    let hasNull := bigEndianU32At b 4
    let elemOid := bigEndianU32At b 8
    if 1 < hasNull then .error .arrayMalformed
    else if ndim = 0 then
      if b.length ≠ 12 then .error .arrayMalformed
      else .ok { elemOid, buf := b, pos := 12 }
    else if ndim < 0 ∨ 6 < ndim then .error .arrayMalformed
    else if 1 < ndim then .error .arrayDims
    else if b.length < 20 then .error .arrayMalformed
    else
      let count := i32 (bigEndianU32At b 12)
      let lbound := i32 (bigEndianU32At b 16)
      if count < 0 ∨ ((b.length - 20) / 4 : Nat) < count then .error .arrayMalformed
      else
        match arrayLoop b count.toNat 20 false with
        | .error e => .error e
        | .ok (pos, sawNull) =>
          if pos ≠ b.length ∨ (sawNull ∧ hasNull = 0) then .error .arrayMalformed
          else
            .ok { elemOid, len := count.toNat, lowerBound := lbound, buf := b, pos := 20,
                  left := count.toNat }

/-- An unchecked read of four bytes. -/
def u32At (b : List UInt8) (pos : Nat) : Option Nat :=
  if pos + 4 ≤ b.length then some (bigEndianU32At b pos) else none

/-- An unchecked view of `n` bytes. -/
def viewAt (b : List UInt8) (pos n : Nat) : Option (List UInt8) :=
  if pos + n ≤ b.length then some ((b.drop pos).take n) else none

/-- `ArrayIter.next`: the element, or none after the last. -/
def ArrayIter.next (it : ArrayIter) : Option (Option DataValue × ArrayIter) :=
  if it.left = 0 then some (none, it)
  else
    (u32At it.buf it.pos).bind fun len =>
      let elen := i32 len
      let it := { it with left := it.left - 1, pos := it.pos + 4 }
      if elen < 0 then some (some { isNull := true }, it)
      else
        (viewAt it.buf it.pos elen.toNat).map fun bytes =>
          (some { bytes }, { it with pos := it.pos + elen.toNat })

/-- `Row.array_iter`. -/
def Row.arrayIter (r : Row) (i : Int) : Except ReadError ArrayIter :=
  match r.require i with
  | .error e => .error e
  | .ok b => decodeArray b

/-- The loop of the appending readers: `check` refuses an element by its length, and `out` is then
trimmed to its first `start` elements; else `value` of its bytes is appended. -/
def intoLoop {α : Type} (check : Int → Option ReadError) (value : List UInt8 → α)
    (buf : List UInt8) (start : Nat) :
    Nat → Nat → List α → Option (List α × Except ReadError Unit)
  | 0, _, out => some (out, .ok ())
  | k + 1, pos, out =>
    (u32At buf pos).bind fun len =>
      let n := i32 len
      match check n with
      | some e => some (out.take start, .error e)
      | none =>
        (viewAt buf (pos + 4) n.toNat).bind fun view =>
          intoLoop check value buf start k (pos + 4 + n.toNat) (out ++ [value view])

/-- What the two appending readers share: the element types they read, and the loop. -/
def arrayInto {α : Type} (oids : List Nat) (check : Int → Option ReadError)
    (value : List UInt8 → α) (r : Row) (i : Int) (out : List α) :
    Option (List α × Except ReadError Unit) :=
  match r.arrayIter i with
  | .error e => some (out, .error e)
  | .ok arr =>
    if arr.elemOid ∉ oids then some (out, .error .arrayElemType)
    else intoLoop check value arr.buf out.length arr.left arr.pos out

/-- `Row.int4_array_into`. -/
def Row.int4ArrayInto : Row → Int → List Int → Option (List Int × Except ReadError Unit) :=
  arrayInto [oidInt4]
    (fun n => if n ≠ 4 then some (if n < 0 then .arrayNull else .int4Width) else none)
    (fun view => i32 (number view))

/-- `Row.text_array_into`. -/
def Row.textArrayInto :
    Row → Int → List (List UInt8) → Option (List (List UInt8) × Except ReadError Unit) :=
  arrayInto [oidText, oidVarchar, oidBpchar, oidName]
    (fun n => if n < 0 then some .arrayNull else none) id

/-! ### Arrays and their binary form -/

/-- The one dimension of an array. -/
structure ArrayDim where
  lowerBound : Int
  elems : List (Option (List UInt8))
  lower : -2 ^ 31 ≤ lowerBound ∧ lowerBound < 2 ^ 31
  count : elems.length < 2 ^ 31
  sizes : ∀ v, some v ∈ elems → v.length < 2 ^ 31

/-- The elements: an array without a dimension has none. -/
def ArrayDim.elemsOf : Option ArrayDim → List (Option (List UInt8))
  | none => []
  | some d => d.elems

/-- An empty array, or one of one dimension; a NULL only if the flag says so. -/
structure PgArray where
  hasNull : Bool
  elemOid : Nat
  dim : Option ArrayDim
  oid_lt : elemOid < 2 ^ 32
  flagged : none ∈ ArrayDim.elemsOf dim → hasNull = true

namespace PgArray

/-- The elements. -/
def elems (a : PgArray) : List (Option (List UInt8)) := ArrayDim.elemsOf a.dim

/-- What stands before the elements. -/
def head (a : PgArray) : List UInt8 :=
  match a.dim with
  | none => bytesOf 4 0 ++ (bytesOf 4 a.hasNull.toNat ++ bytesOf 4 a.elemOid)
  | some d =>
    bytesOf 4 1 ++ (bytesOf 4 a.hasNull.toNat ++ (bytesOf 4 a.elemOid ++
      (bytesOf 4 d.elems.length ++ bytesOf 4 (d.lowerBound % 2 ^ 32).toNat)))

/-- The binary form. -/
def bytes (a : PgArray) : List UInt8 := a.head ++ a.elems.flatMap bindParam

/-- The lower bound, where there is a dimension. -/
def lowerBound (a : PgArray) : Int :=
  match a.dim with
  | none => 0
  | some d => d.lowerBound

/-- The iterator over it. -/
def iter (a : PgArray) : ArrayIter where
  elemOid := a.elemOid
  len := a.elems.length
  lowerBound := a.lowerBound
  buf := a.bytes
  pos := a.head.length
  left := a.elems.length

theorem bytes_none {flag : Bool} {oid : Nat} (hoid : oid < 2 ^ 32)
    (hflag : none ∈ ArrayDim.elemsOf none → flag = true) :
    bytes ⟨flag, oid, none, hoid, hflag⟩ =
      bytesOf 4 0 ++ (bytesOf 4 flag.toNat ++ (bytesOf 4 oid ++ [])) := by
  simp only [bytes, head, elems, ArrayDim.elemsOf, List.flatMap_nil, List.append_nil]

theorem bytes_some {flag : Bool} {oid : Nat} (d : ArrayDim) (hoid : oid < 2 ^ 32)
    (hflag : none ∈ ArrayDim.elemsOf (some d) → flag = true) :
    bytes ⟨flag, oid, some d, hoid, hflag⟩ =
      bytesOf 4 1 ++ (bytesOf 4 flag.toNat ++ (bytesOf 4 oid ++ (bytesOf 4 d.elems.length ++
        (bytesOf 4 (d.lowerBound % 2 ^ 32).toNat ++ d.elems.flatMap bindParam)))) := by
  simp only [bytes, head, elems, ArrayDim.elemsOf, List.append_assoc]

theorem sizes (a : PgArray) : ∀ v, some v ∈ a.elems → v.length < 2 ^ 31 := by
  cases h : a.dim with
  | none => simp [elems, h, ArrayDim.elemsOf]
  | some d => simpa only [elems, h, ArrayDim.elemsOf] using d.sizes

theorem drop_head (a : PgArray) : a.bytes.drop a.head.length = a.elems.flatMap bindParam :=
  List.drop_left

end PgArray

/-! ### The check -/

/-- The loop over cells. -/
theorem arrayLoop_cells {b : List UInt8} {cells : List (Option (List UInt8))}
    (hsize : ∀ v, some v ∈ cells → v.length < 2 ^ 31) {pos : Nat} (hpos : pos ≤ b.length)
    (h : b.drop pos = cells.flatMap bindParam) (saw : Bool) :
    arrayLoop b cells.length pos saw = .ok (b.length, saw || cells.any Option.isNone) := by
  induction cells generalizing pos saw with
  | nil =>
      have hle : b.length ≤ pos := List.drop_eq_nil_iff.mp h
      rw [List.length_nil, arrayLoop, Nat.le_antisymm hpos hle, List.any_nil, Bool.or_false]
  | cons c cells ih =>
      have ih' := @ih fun v hv => hsize v (List.mem_cons_of_mem _ hv)
      rw [List.flatMap_cons] at h
      rw [List.length_cons, arrayLoop]
      cases c with
      | none =>
          obtain ⟨hn, hle, hr⟩ := null_at h
          rw [if_neg (by omega)]
          dsimp only
          rw [hn, if_pos rfl, ih' hle hr]
          simp
      | some v =>
          obtain ⟨hn, hle, _, hr⟩ := value_at (hsize v List.mem_cons_self) h
          rw [if_neg (by omega)]
          dsimp only
          rw [hn, if_neg (by omega), if_neg (by omega), Int.toNat_natCast, ih' hle hr]
          simp

/-- What the loop walked were cells. -/
theorem arrayLoop_inv {b : List UInt8} {n pos stop : Nat} {saw saw' : Bool}
    (h : arrayLoop b n pos saw = .ok (stop, saw')) :
    ∃ cells : List (Option (List UInt8)), cells.length = n ∧
      (∀ v, some v ∈ cells → v.length < 2 ^ 31) ∧
      b.drop pos = cells.flatMap bindParam ++ b.drop stop ∧
      saw' = (saw || cells.any Option.isNone) := by
  induction n generalizing pos saw with
  | zero =>
      cases h
      exact ⟨[], rfl, by simp, rfl, by simp⟩
  | succ n ih =>
      rw [arrayLoop] at h
      split at h
      · cases h
      rename_i hroom
      dsimp only at h
      split at h
      · rename_i hn
        obtain ⟨cells, hlen, hsize, hdrop, hsaw⟩ := ih h
        refine ⟨none :: cells, by rw [List.length_cons, hlen], ?_, ?_, by simp [hsaw]⟩
        · intro v hv
          exact hsize v ((List.mem_cons.mp hv).resolve_left (by simp))
        · rw [bindParam_none (by omega) hn, List.flatMap_cons, List.append_assoc, hdrop]
      · split at h
        · cases h
        rename_i hfit
        obtain ⟨k, hk⟩ := Int.eq_ofNat_of_zero_le (show 0 ≤ i32 (bigEndianU32At b pos) by omega)
        rw [hk] at h hfit
        obtain ⟨hcell, hklen, hklt⟩ := bindParam_some (show pos + 4 + k ≤ b.length by omega) hk
        obtain ⟨cells, hlen, hsize, hdrop, hsaw⟩ := ih h
        refine ⟨some ((b.drop (pos + 4)).take k) :: cells, by rw [List.length_cons, hlen], ?_, ?_,
          by simp [hsaw]⟩
        · intro v hv
          rcases List.mem_cons.mp hv with hv | hv
          · rw [Option.some.inj hv, hklen]; exact hklt
          · exact hsize v hv
        · rw [hcell, List.flatMap_cons, List.append_assoc]
          exact congrArg _ hdrop

/-- Each cell takes four bytes at least. -/
theorem length_cells (cells : List (Option (List UInt8))) :
    4 * cells.length ≤ (cells.flatMap bindParam).length := by
  induction cells with
  | nil => exact Nat.le_refl _
  | cons c cells ih =>
      have hc : 4 ≤ (bindParam c).length := by
        cases c <;> simp [bindParam, putU32]
      rw [List.flatMap_cons, List.length_append, List.length_cons]
      omega

/-- `decode_array` accepts the binary form of every array. -/
theorem decodeArray_bytes (a : PgArray) : decodeArray a.bytes = .ok a.iter := by
  obtain ⟨flag, oid, dim, hoid, hflag⟩ := a
  have hbit : flag.toNat < 2 := Bool.toNat_lt flag
  cases dim with
  | none =>
      generalize hb : (⟨flag, oid, none, hoid, hflag⟩ : PgArray).bytes = b
      obtain ⟨hdim, -, (h₄ : b.drop 4 = _)⟩ := u32At_of_drop (show 0 < 2 ^ 32 by decide)
        (show b.drop 0 = _ from hb.symm.trans (PgArray.bytes_none hoid hflag))
      obtain ⟨hnull, -, (h₈ : b.drop 8 = _)⟩ := u32At_of_drop (by omega) h₄
      obtain ⟨hid, hle, (h₁₂ : b.drop 12 = _)⟩ := u32At_of_drop hoid h₈
      have hlen : b.length = 12 := Nat.le_antisymm (List.drop_eq_nil_iff.mp h₁₂) hle
      rw [decodeArray]
      dsimp only
      rewrite [if_neg (by omega), hdim, hnull, hid, if_neg (by omega), if_pos (by decide),
        if_neg (by omega), ← hb]
      rfl
  | some d =>
      generalize hb : (⟨flag, oid, some d, hoid, hflag⟩ : PgArray).bytes = b
      have hcount := d.count
      obtain ⟨hlo, hhi⟩ := d.lower
      obtain ⟨hdim, -, (h₄ : b.drop 4 = _)⟩ := u32At_of_drop (show 1 < 2 ^ 32 by decide)
        (show b.drop 0 = _ from hb.symm.trans (PgArray.bytes_some d hoid hflag))
      obtain ⟨hnull, -, (h₈ : b.drop 8 = _)⟩ := u32At_of_drop (by omega) h₄
      obtain ⟨hid, -, (h₁₂ : b.drop 12 = _)⟩ := u32At_of_drop hoid h₈
      obtain ⟨hn, -, (h₁₆ : b.drop 16 = _)⟩ := u32At_of_drop (by omega) h₁₂
      obtain ⟨hlb, hle, (h₂₀ : b.drop 20 = _)⟩ := u32At_of_drop (by omega) h₁₆
      have hroom : 4 * d.elems.length ≤ b.length - 20 := by
        have := length_cells d.elems
        rwa [← h₂₀, List.length_drop] at this
      have hlow : i32 ((d.lowerBound % 2 ^ 32).toNat : Int) = d.lowerBound := by unfold i32; omega
      have hnulls : ¬ (b.length ≠ b.length ∨
          (false || d.elems.any Option.isNone) = true ∧ flag.toNat = 0) := by
        rintro (h | ⟨hany, hzero⟩)
        · exact h rfl
        · obtain ⟨c, hc, hnone⟩ := List.any_eq_true.mp ((Bool.false_or _).symm.trans hany)
          rw [Option.isNone_iff_eq_none.mp hnone] at hc
          rw [hflag hc] at hzero
          cases hzero
      rw [decodeArray]
      dsimp only
      rewrite [if_neg (by omega), hdim, hnull, hid, if_neg (by omega), if_neg (by decide),
        if_neg (by decide), if_neg (by decide), if_neg (by omega), hn, hlb, i32_of_lt hcount,
        if_neg (by omega), Int.toNat_natCast, arrayLoop_cells d.sizes (by omega) h₂₀ false]
      dsimp only
      rewrite [if_neg hnulls, hlow, ← hb]
      congr 1

/-- And nothing else. -/
theorem decodeArray_inv {b : List UInt8} {it : ArrayIter} (h : decodeArray b = .ok it) :
    ∃ a : PgArray, b = a.bytes := by
  obtain ⟨hlen, h⟩ := of_guard h
  obtain ⟨hflag, h⟩ := of_guard h
  have h₀ : _ = _ ++ b.drop 4 := drop_eq_u32At (show 0 + 4 ≤ b.length by omega)
  have h₄ : _ = _ ++ b.drop 8 := drop_eq_u32At (show 4 + 4 ≤ b.length by omega)
  have h₈ : _ = _ ++ b.drop 12 := drop_eq_u32At (show 8 + 4 ≤ b.length by omega)
  obtain ⟨flag, hbit⟩ : ∃ flag : Bool, bigEndianU32At b 4 = flag.toNat := by
    rcases Nat.le_one_iff_eq_zero_or_eq_one.mp (Nat.not_lt.mp hflag) with h | h
    · exact ⟨false, h⟩
    · exact ⟨true, h⟩
  rw [hbit] at h₄
  split at h
  · rename_i hdim
    obtain ⟨hend, h⟩ := of_guard h
    have hzero := (u32At_of_i32 (show i32 (bigEndianU32At b 0) = (0 : Nat) from hdim)).1
    have hno : none ∈ ArrayDim.elemsOf none → flag = true := fun hmem => nomatch hmem
    refine ⟨⟨flag, _, none, u32At_lt b 8, hno⟩, ?_⟩
    have h₁₂ : b.drop 12 = [] := List.drop_eq_nil_iff.mpr (by omega)
    rw [hzero, h₄, h₈, h₁₂] at h₀
    exact h₀.trans (PgArray.bytes_none _ hno).symm
  · rename_i hdim
    obtain ⟨hdims, h⟩ := of_guard h
    obtain ⟨hone, h⟩ := of_guard h
    obtain ⟨hlen₂, h⟩ := of_guard h
    obtain ⟨hcount, h⟩ := of_guard h
    split at h
    · cases h
    rename_i stop saw hloop
    obtain ⟨hend, h⟩ := of_guard h
    have hzero := (u32At_of_i32 (show i32 (bigEndianU32At b 0) = (1 : Nat) by omega)).1
    have h₁₂ : _ = _ ++ b.drop 16 := drop_eq_u32At (show 12 + 4 ≤ b.length by omega)
    have h₁₆ : _ = _ ++ b.drop 20 := drop_eq_u32At (show 16 + 4 ≤ b.length by omega)
    obtain ⟨cells, hcells, hsizes, hdrop, hsaw⟩ := arrayLoop_inv hloop
    rw [not_or, not_not] at hend
    obtain ⟨k, hk⟩ := Int.eq_ofNat_of_zero_le (show 0 ≤ i32 (bigEndianU32At b 12) by omega)
    have hn := u32At_of_i32 hk
    rw [hk, Int.toNat_natCast] at hcells
    subst hcells
    obtain ⟨d, hlb, rfl⟩ : ∃ d : ArrayDim, d.lowerBound = i32 (bigEndianU32At b 16) ∧
        d.elems = cells :=
      ⟨⟨_, cells, i32_bounds _, hn.2, hsizes⟩, rfl, rfl⟩
    have hmark : none ∈ ArrayDim.elemsOf (some d) → flag = true := by
      intro hmem
      have hany : d.elems.any Option.isNone = true := List.any_eq_true.mpr ⟨none, hmem, rfl⟩
      cases flag with
      | true => rfl
      | false => exact absurd ⟨by rw [hsaw, hany]; rfl, hbit⟩ hend.2
    refine ⟨⟨flag, bigEndianU32At b 8, some d, u32At_lt b 8, hmark⟩, ?_⟩
    rw [hend.1, List.drop_length, List.append_nil] at hdrop
    rw [hzero, h₄, h₈, h₁₂, h₁₆, hdrop, hn.1] at h₀
    rw [PgArray.bytes_some d, hlb, i32_u32At]
    exact h₀

/-! ### The walks behind the check -/

/-- Successive calls of `next`: the elements they give, and then none, without a read outside the
buffer. -/
inductive ArrayIter.Yields : ArrayIter → List DataValue → Prop
  | done {it : ArrayIter} : it.next = some (none, it) → it.Yields []
  | more {it it' : ArrayIter} {v : DataValue} {vs : List DataValue} :
      it.next = some (some v, it') → it'.Yields vs → it.Yields (v :: vs)

/-- An iterator that stands at some cells yields them. -/
theorem yields_cells {cells : List (Option (List UInt8))}
    (hsize : ∀ v, some v ∈ cells → v.length < 2 ^ 31) {it : ArrayIter}
    (hleft : it.left = cells.length) (h : it.buf.drop it.pos = cells.flatMap bindParam) :
    it.Yields (cells.map DataValue.of) := by
  induction cells generalizing it with
  | nil => exact .done (if_pos hleft)
  | cons c cells ih =>
      have ih' := @ih fun v hv => hsize v (List.mem_cons_of_mem _ hv)
      have hne : it.left ≠ 0 := by rw [hleft]; exact Nat.succ_ne_zero _
      have hleft' : it.left - 1 = cells.length := by rw [hleft]; rfl
      rw [List.flatMap_cons] at h
      cases c with
      | none =>
          obtain ⟨hn, hle, hr⟩ := null_at h
          refine .more ?_ (@ih' { it with left := it.left - 1, pos := it.pos + 4 } hleft' hr)
          rw [ArrayIter.next, if_neg hne, u32At, if_pos hle, Option.bind_some]
          dsimp only
          rw [hn, if_pos (by decide)]
          rfl
      | some v =>
          obtain ⟨hn, hle, hv, hr⟩ := value_at (hsize v List.mem_cons_self) h
          refine .more ?_
            (@ih' { it with left := it.left - 1, pos := it.pos + 4 + v.length } hleft' hr)
          rw [ArrayIter.next, if_neg hne, u32At, if_pos (by omega), Option.bind_some]
          dsimp only
          rw [hn, if_neg (by omega), Int.toNat_natCast, viewAt, if_pos hle, hv]
          rfl

/-- The loop that appends: it refuses a cell and trims, or appends the values of them all. -/
theorem intoLoop_cells {α : Type} {check : Int → Option ReadError} {value : List UInt8 → α}
    {buf : List UInt8} {cells : List (Option (List UInt8))}
    (hsize : ∀ v, some v ∈ cells → v.length < 2 ^ 31) (hnull : check (-1) ≠ none) {pos : Nat}
    (h : buf.drop pos = cells.flatMap bindParam) (kept more : List α) :
    (∃ e, intoLoop check value buf kept.length cells.length pos (kept ++ more) =
        some (kept, .error e)) ∨
      ∃ vs : List (List UInt8), cells = vs.map some ∧ (∀ v ∈ vs, check v.length = none) ∧
        intoLoop check value buf kept.length cells.length pos (kept ++ more) =
          some (kept ++ more ++ vs.map value, .ok ()) := by
  induction cells generalizing pos more with
  | nil => exact .inr ⟨[], rfl, by simp, by simp [intoLoop]⟩
  | cons c cells ih =>
      have ih' := @ih fun v hv => hsize v (List.mem_cons_of_mem _ hv)
      rw [List.flatMap_cons] at h
      rw [List.length_cons, intoLoop]
      cases c with
      | none =>
          obtain ⟨hn, hle, -⟩ := null_at h
          obtain ⟨e, he⟩ := Option.ne_none_iff_exists'.mp hnull
          refine .inl ⟨e, ?_⟩
          rw [u32At, if_pos hle, Option.bind_some]
          dsimp only
          rw [hn, he]
          simp
      | some v =>
          obtain ⟨hn, hle, hv, hr⟩ := value_at (hsize v List.mem_cons_self) h
          rw [u32At, if_pos (by omega), Option.bind_some]
          dsimp only
          rw [hn]
          cases hc : check v.length with
          | some e => exact .inl ⟨e, by simp⟩
          | none =>
              dsimp only
              rw [Int.toNat_natCast, viewAt, if_pos hle, hv, Option.bind_some, List.append_assoc]
              rcases ih' hr (more ++ [value v]) with herr | ⟨vs, hvs, hchecks, hok⟩
              · exact .inl herr
              · refine .inr ⟨v :: vs, by rw [hvs, List.map_cons], ?_, ?_⟩
                · exact List.forall_mem_cons.mpr ⟨hc, hchecks⟩
                · rw [hok]
                  simp

/-- The appending readers: they fail and leave `out` as it was, or append the values of what `next`
yields. -/
theorem arrayInto_all_or_nothing {α : Type} {oids : List Nat} {check : Int → Option ReadError}
    {value : List UInt8 → α} (hnull : check (-1) ≠ none) (r : Row) (i : Int) (out : List α) :
    (∃ e, arrayInto oids check value r i out = some (out, .error e)) ∨
      ∃ it, ∃ vs : List (List UInt8), r.arrayIter i = .ok it ∧
            it.Yields (vs.map fun v => DataValue.of (some v)) ∧
        (∀ v ∈ vs, check v.length = none) ∧
        arrayInto oids check value r i out = some (out ++ vs.map value, .ok ()) := by
  rw [arrayInto]
  cases harr : r.arrayIter i with
  | error e => exact .inl ⟨e, rfl⟩
  | ok it =>
      dsimp only
      split
      · exact .inl ⟨_, rfl⟩
      obtain ⟨a, hit⟩ : ∃ a : PgArray, it = a.iter := by
        rw [Row.arrayIter] at harr
        split at harr
        · cases harr
        · obtain ⟨a, rfl⟩ := decodeArray_inv harr
          rw [decodeArray_bytes a] at harr
          exact ⟨a, (Except.ok.inj harr).symm⟩
      subst hit
      have hloop := @intoLoop_cells α check value _ _ a.sizes hnull _ a.drop_head out []
      rw [List.append_nil] at hloop
      rcases hloop with herr | ⟨vs, hvs, hchecks, hok⟩
      · exact .inl herr
      · refine .inr ⟨a.iter, vs, rfl, ?_, hchecks, hok⟩
        have hy : a.iter.Yields _ := yields_cells a.sizes rfl a.drop_head
        rwa [hvs, List.map_map] at hy

/-- **Array decoding is exact, and the appending readers append all or nothing.** -/
theorem array_decoding_exact :
    (∀ b, (∃ it, decodeArray b = .ok it) ↔ ∃ a : PgArray, b = a.bytes) ∧
      (∀ a : PgArray, ∃ it, decodeArray a.bytes = .ok it ∧ it.elemOid = a.elemOid ∧
        it.len = a.elems.length ∧ it.lowerBound = a.lowerBound ∧
        it.Yields (a.elems.map DataValue.of)) ∧
      (∀ (r : Row) (i : Int) (out : List Int),
        (∃ e, r.int4ArrayInto i out = some (out, .error e)) ∨
          ∃ it, ∃ vs : List (List UInt8), r.arrayIter i = .ok it ∧
            it.Yields (vs.map fun v => DataValue.of (some v)) ∧
            (∀ v ∈ vs, v.length = 4) ∧
            r.int4ArrayInto i out = some (out ++ vs.map fun v => i32 (number v), .ok ())) ∧
      ∀ (r : Row) (i : Int) (out : List (List UInt8)),
        (∃ e, r.textArrayInto i out = some (out, .error e)) ∨
          ∃ it, ∃ vs : List (List UInt8), r.arrayIter i = .ok it ∧
            it.Yields (vs.map fun v => DataValue.of (some v)) ∧
            r.textArrayInto i out = some (out ++ vs, .ok ()) := by
  refine ⟨fun b => ⟨fun ⟨it, h⟩ => decodeArray_inv h, ?_⟩, fun a => ?_, fun r i out => ?_,
    fun r i out => ?_⟩
  · rintro ⟨a, rfl⟩
    exact ⟨a.iter, decodeArray_bytes a⟩
  · exact ⟨a.iter, decodeArray_bytes a, rfl, rfl, rfl, yields_cells a.sizes rfl a.drop_head⟩
  · refine (arrayInto_all_or_nothing ?_ r i out).imp_right ?_
    · decide
    · rintro ⟨it, vs, hit, hy, hchecks, hok⟩
      refine ⟨it, vs, hit, hy, fun v hv => ?_, hok⟩
      have hfour := hchecks v hv
      split at hfour
      · cases hfour
      · omega
  · refine (arrayInto_all_or_nothing ?_ r i out).imp_right ?_
    · decide
    · rintro ⟨it, vs, hit, hy, -, hok⟩
      rw [List.map_id] at hok
      exact ⟨it, vs, hit, hy, hok⟩

/-- The bytes of an `int4[]` that holds a 7 and a NULL. -/
theorem array_decoding_exact_null :
    ∃ it, decodeArray ([0, 0, 0, 1, 0, 0, 0, 1, 0, 0, 0, 23, 0, 0, 0, 2, 0, 0, 0, 1] ++
        [0, 0, 0, 4, 0, 0, 0, 7, 255, 255, 255, 255]) = .ok it ∧
      it.Yields [{ bytes := [0, 0, 0, 7] }, { isNull := true }] := by
  obtain ⟨it, hok, -, -, -, hy⟩ := array_decoding_exact.2.1
    ⟨true, 23, some ⟨1, [some [0, 0, 0, 7], none], by decide, by decide, by simp⟩, by decide,
      fun _ => rfl⟩
  exact ⟨it, hok, hy⟩

end Vanilla.PgAsync

import Mathlib.Algebra.BigOperators.Group.Finset.Basic
import Vanilla.PgAsync.Rows
import Vanilla.Support.Decimals

/-!
# PostgreSQL — numerics

`pg_async/types.v`: a binary numeric is a run of base-10000 digits, the first worth
`10000^weight`, with implicit zeros on both sides.  It is written as a decimal text into bytes that
were reserved before, or read as a count of `10^-scale` units.

Both readers take the digits from the left.  With `N` the number of the stored digits, what they
have behind them is always `scaled N e`: every group of decimal digits they take is the next one of
`N` (`group_scaled`, `place_scaled`), stored or not.

* `numericText_writes`: what the text is, and that it fills its bytes.
* `scaledLoop_fate`: how the integer reader ends.
* `numeric_decoding_exact`: both over the rational value.
-/

namespace Vanilla.PgAsync
open Decimals

open Decimals (scaled digits value Digits)

/-! ### The code -/

/-- `numeric_pos`. -/
def numericPos : Nat := 0x0000
/-- `numeric_neg`. -/
def numericNeg : Nat := 0x4000
/-- `numeric_nan`. -/
def numericNan : Nat := 0xC000
/-- `numeric_pinf`. -/
def numericPinf : Nat := 0xD000
/-- `numeric_ninf`. -/
def numericNinf : Nat := 0xF000

/-- `NumericHeader`. -/
structure NumericHeader where
  ndigits : Nat
  weight : Int
  sign : Nat
  dscale : Nat
  deriving DecidableEq, Repr

/-- `numeric_header`. -/
def numericHeader (b : List UInt8) : Except ReadError NumericHeader :=
  if b.length < 8 then .error .numericMalformed
  else
    let ndigits := i16 (bigEndianU16At b 0)
    let h : NumericHeader :=
      ⟨ndigits.toNat, i16 (bigEndianU16At b 2), bigEndianU16At b 4, bigEndianU16At b 6⟩
    if ndigits < 0 ∨ b.length ≠ 8 + 2 * h.ndigits ∨ 0x3FFF < h.dscale then
      .error .numericMalformed
    else if h.sign ≠ numericPos ∧ h.sign ≠ numericNeg ∧
        ¬ ((h.sign = numericNan ∨ h.sign = numericPinf ∨ h.sign = numericNinf) ∧
          h.ndigits = 0) then
      .error .numericMalformed
    else if (List.range h.ndigits).any fun k => 9999 < bigEndianU16At b (8 + 2 * k) then
      .error .numericMalformed
    else .ok h

/-- `numeric_digit`. -/
def numericDigit (b : List UInt8) (h : NumericHeader) (k : Int) : Nat :=
  if k < 0 ∨ h.ndigits ≤ k then 0 else bigEndianU16At b (8 + 2 * k.toNat)

/-- `group_div`. -/
def groupDiv (i : Nat) : Nat := [1, 10, 100, 1000].getD i 0

/-- `group_width`. -/
def groupWidth (d : Nat) : Nat :=
  if 1000 ≤ d then 4 else if 100 ≤ d then 3 else if 10 ≤ d then 2 else 1

/-- `out` with the cursor `pos` in it. -/
structure Cursor where
  out : List UInt8
  pos : Nat

/-- `out[i] = c`: `none` is a write outside. -/
def setAt (out : List UInt8) (i : Nat) (c : UInt8) : Option (List UInt8) :=
  if i < out.length then some (out.set i c) else none

/-- `out[pos] = c`, then `pos++`. -/
def Cursor.put (c : UInt8) (w : Cursor) : Option Cursor :=
  (setAt w.out w.pos c).map fun out => ⟨out, w.pos + 1⟩

/-- The loop of `put_digits`, the last digit first. -/
def putDigitsLoop (pos : Nat) : Nat → Nat → List UInt8 → Option (List UInt8)
  | 0, _, out => some out
  | i + 1, x, out =>
    (setAt out (pos + i) (48 + x % 10).toUInt8).bind (putDigitsLoop pos i (x / 10))

/-- `put_digits`. -/
def putDigits (v w : Nat) (c : Cursor) : Option Cursor :=
  (putDigitsLoop c.pos w v c.out).map fun out => ⟨out, c.pos + w⟩

/-- The loop over the integer digits behind the first. -/
def intLoop (b : List UInt8) (h : NumericHeader) : Nat → Nat → Cursor → Option Cursor
  | 0, _, c => some c
  | n + 1, k, c => (putDigits (numericDigit b h k) 4 c).bind (intLoop b h n (k + 1))

/-- The loop over the fraction: `left` digits, from digit `k` on. -/
def fracLoop (b : List UInt8) (h : NumericHeader) : Nat → Nat → Int → Cursor → Option Cursor
  | 0, left, _, c => if left = 0 then some c else none
  | n + 1, left, k, c =>
    if left = 0 then some c
    else
      let w := if left < 4 then left else 4
      (putDigits (numericDigit b h k / groupDiv (4 - w)) w c).bind
        (fracLoop b h n (left - w) (k + 1))

/-- The integer part. -/
def putInteger (b : List UInt8) (h : NumericHeader) (c : Cursor) : Option Cursor :=
  if h.weight < 0 then c.put 48
  else
    (putDigits (numericDigit b h 0) (groupWidth (numericDigit b h 0)) c).bind
      (intLoop b h h.weight.toNat 1)

/-- The point and the fraction. -/
def putFraction (b : List UInt8) (h : NumericHeader) (c : Cursor) : Option Cursor :=
  if 0 < h.dscale then (c.put 46).bind (fracLoop b h h.dscale h.dscale (h.weight + 1))
  else some c

/-- The sign. -/
def putSign (h : NumericHeader) (c : Cursor) : Option Cursor :=
  if h.sign = numericNeg then c.put 45 else some c

/-- The length that is reserved for the text. -/
def numericTextLen (b : List UInt8) (h : NumericHeader) : Nat :=
  (if h.weight < 0 then 1 else groupWidth (numericDigit b h 0) + 4 * h.weight.toNat) +
    (if h.sign = numericNeg then 1 else 0) + (if 0 < h.dscale then 1 + h.dscale else 0)

/-- `numeric_text_into`.  `grow_len` makes `out` longer by bytes of any content: `fresh` is what
stands in them. -/
def numericTextInto (fresh : Nat → UInt8) (b out : List UInt8) :
    Option (Except ReadError (List UInt8)) :=
  match numericHeader b with
  | .error e => some (.error e)
  | .ok h =>
    if h.sign = numericNan then some (.ok (out ++ ascii "NaN"))
    else if h.sign = numericPinf then some (.ok (out ++ ascii "Infinity"))
    else if h.sign = numericNinf then some (.ok (out ++ ascii "-Infinity"))
    else
      let grown := out ++ (List.range (numericTextLen b h)).map fresh
      (((putSign h ⟨grown, out.length⟩).bind (putInteger b h)).bind (putFraction b h)).map
        fun c => .ok c.out

/-- One decimal digit in the inner loop of `decode_numeric_i64_scaled`, with `acc` and
`frac_left`. -/
def digitStep (limit : Nat) (isFrac : Bool) (digit : Nat) (s : Nat × Nat) :
    Except ReadError (Nat × Nat) :=
  if isFrac ∧ s.2 = 0 then
    if digit ≠ 0 then .error .numericPrecision else .ok s
  else if (limit - digit) / 10 < s.1 then .error .numericRange
  else .ok (s.1 * 10 + digit, if isFrac then s.2 - 1 else s.2)

/-- The inner loop, over the four places of a base-10000 digit. -/
def groupStep (limit : Nat) (isFrac : Bool) (d : Nat) (s : Nat × Nat) :
    Except ReadError (Nat × Nat) :=
  [1000, 100, 10, 1].foldlM (fun s div => digitStep limit isFrac (d / div % 10) s) s

/-- The outer loop: `none` when the turns do not suffice. -/
def scaledLoop (b : List UInt8) (h : NumericHeader) (limit : Nat) :
    Nat → Int → Nat × Nat → Option (Except ReadError Nat)
  | 0, _, _ => none
  | n + 1, k, s =>
    match groupStep limit (h.weight < k) (numericDigit b h k) s with
    | .error e => some (.error e)
    | .ok s =>
      if h.weight < k + 1 ∧ s.2 = 0 ∧ h.ndigits ≤ k + 1 then some (.ok s.1)
      else scaledLoop b h limit n (k + 1) s

/-- `decode_numeric_i64_scaled`. -/
def decodeNumericI64Scaled (b : List UInt8) (scale : Int) : Option (Except ReadError Int) :=
  match numericHeader b with
  | .error e => some (.error e)
  | .ok h =>
    if h.sign ≠ numericPos ∧ h.sign ≠ numericNeg then some (.error .numericSpecial)
    else if scale < 0 ∨ 18 < scale then some (.error .numericRange)
    else
      let limit := if h.sign = numericNeg then 2 ^ 63 else 2 ^ 63 - 1
      let first := if h.weight < 0 then h.weight + 1 else 0
      (scaledLoop b h limit (h.ndigits + h.weight.natAbs + 6) first (0, scale.toNat)).map
        (Except.map fun acc : Nat =>
          if h.sign = numericNeg then (if acc = 2 ^ 63 then -2 ^ 63 else -(acc : Int))
          else (acc : Int))

/-! ### The number of the stored digits -/

section Stored

variable (b : List UInt8) (h : NumericHeader)

/-- The first `j` stored digits as a number. -/
def stored : Nat → Nat
  | 0 => 0
  | j + 1 => stored j * 10000 + numericDigit b h j

/-- All of them. -/
def numericNumber : Nat := stored b h h.ndigits

/-- The digits are base-10000 digits. -/
def Digital : Prop := ∀ k : Int, numericDigit b h k < 10000

variable {b h}

theorem digital_of_header (hh : numericHeader b = .ok h) : Digital b h := by
  intro k
  obtain ⟨-, hh⟩ := of_guard hh
  obtain ⟨-, hh⟩ := of_guard hh
  obtain ⟨-, hh⟩ := of_guard hh
  obtain ⟨hall, hh⟩ := of_guard hh
  obtain rfl := Except.ok.inj hh
  rw [numericDigit]
  split
  · decide
  · rename_i hk
    refine Nat.lt_succ_of_le (Nat.not_lt.mp fun hlt => hall ?_)
    exact List.any_eq_true.mpr ⟨k.toNat, List.mem_range.mpr (by dsimp only at hk ⊢; omega),
      decide_eq_true hlt⟩

theorem stored_lt (hd : Digital b h) (j : Nat) : stored b h j < 10 ^ (4 * j) := by
  induction j with
  | zero => exact Nat.one_pos
  | succ j ih =>
      have hlt := hd j
      have hpow : 10 ^ (4 * (j + 1)) = 10 ^ (4 * j) * 10000 := Nat.pow_add 10 (4 * j) 4
      rw [stored, hpow]
      omega

/-- The first digits are what is left of all of them. -/
theorem stored_div (hd : Digital b h) (j i : Nat) :
    stored b h (j + i) / 10 ^ (4 * i) = stored b h j := by
  induction i with
  | zero => rw [Nat.mul_zero, Nat.pow_zero, Nat.div_one, Nat.add_zero]
  | succ i ih =>
      have hlt := hd (j + i : Nat)
      have hstep : stored b h (j + (i + 1)) / 10 ^ 4 = stored b h (j + i) := by
        rw [← Nat.add_assoc, stored]
        omega
      rw [Nat.mul_succ, Nat.add_comm (4 * i), Nat.pow_add, ← Nat.div_div_eq_div_mul, hstep, ih]

/-- Every digit, stored or not, is the next one of the number. -/
theorem digit_eq (hd : Digital b h) (k : Int) :
    numericDigit b h k = scaled (numericNumber b h) (4 * (k + 1 - h.ndigits)) % 10000 := by
  by_cases hneg : k < 0
  · have hlt : numericNumber b h < 10 ^ (4 * h.ndigits) := stored_lt hd h.ndigits
    rw [numericDigit, if_pos (.inl hneg), scaled_eq_zero hlt (by omega)]
  by_cases hout : (h.ndigits : Int) ≤ k
  · obtain ⟨i, hi⟩ : ∃ i : Nat, (4 * (k + 1 - h.ndigits)).toNat = i + 4 :=
      ⟨(4 * (k + 1 - h.ndigits)).toNat - 4, by omega⟩
    rw [numericDigit, if_pos (.inr hout), scaled_of_nonneg _ (by omega), hi, Nat.pow_add,
      ← Nat.mul_assoc, Nat.mul_mod_left]
  · obtain ⟨j, rfl⟩ := Int.eq_ofNat_of_zero_le (Int.not_lt.mp hneg)
    obtain ⟨i, hi⟩ : ∃ i, h.ndigits = j + 1 + i := ⟨h.ndigits - (j + 1), by omega⟩
    have hpow : (-(4 * ((j : Int) + 1 - h.ndigits))).toNat = 4 * i := by omega
    have hlt := hd j
    rw [scaled_of_neg _ (by omega), hpow, numericNumber, hi, stored_div hd, stored]
    omega

/-- The next `w` decimals of a group. -/
theorem group_scaled (hd : Digital b h) (k : Int) {w : Nat} (hw : w ≤ 4) :
    scaled (numericNumber b h) (4 * (k - h.ndigits)) * 10 ^ w +
        numericDigit b h k / 10 ^ (4 - w) =
      scaled (numericNumber b h) (4 * (k - h.ndigits) + w) ∧
    numericDigit b h k / 10 ^ (4 - w) < 10 ^ w := by
  have hdiv := scaled_div (numericNumber b h) (4 * (k - h.ndigits)) w
  have hend := scaled_div (numericNumber b h) (4 * (k - h.ndigits) + w) (4 - w)
  have hsum : 4 * (k - h.ndigits) + w + ((4 - w : Nat) : Int) = 4 * (k + 1 - h.ndigits) := by omega
  rw [hsum] at hend
  have hten : 10000 = 10 ^ (4 - w) * 10 ^ w := by rw [← Nat.pow_add, Nat.sub_add_cancel hw]
  have hmod : numericDigit b h k / 10 ^ (4 - w) =
      scaled (numericNumber b h) (4 * (k - h.ndigits) + w) % 10 ^ w := by
    rw [digit_eq hd, hten, Nat.mod_mul_right_div_self, hend]
  have hpos : 0 < 10 ^ w := Nat.pow_pos (by decide)
  rw [hmod, ← hdiv, Nat.div_add_mod']
  exact ⟨rfl, Nat.mod_lt _ hpos⟩

/-- The decimal at place `i` of a group. -/
theorem place_scaled (hd : Digital b h) (k : Int) {i : Nat} (hi : i < 4) :
    numericDigit b h k / 10 ^ (3 - i) % 10 =
      scaled (numericNumber b h) (4 * (k - h.ndigits) + i + 1) % 10 := by
  have hgroup := (group_scaled hd k (show i + 1 ≤ 4 from hi)).1
  have hexp : 4 * (k - h.ndigits) + i + 1 = 4 * (k - h.ndigits) + ((i + 1 : Nat) : Int) := by
    omega
  have hsub : 4 - (i + 1) = 3 - i := by omega
  rw [hsub] at hgroup
  rw [hexp, ← hgroup, Nat.pow_succ, ← Nat.mul_assoc, Nat.mul_add_mod_self_right]

end Stored

/-! ### The text -/

/-- The operation writes `text` at the cursor and leaves the rest, as far as there is room. -/
def Writes (op : Cursor → Option Cursor) (text : List UInt8) : Prop :=
  ∀ done rest : List UInt8, text.length ≤ rest.length →
    op ⟨done ++ rest, done.length⟩ =
      some ⟨done ++ text ++ rest.drop text.length, (done ++ text).length⟩

theorem writes_some : Writes some [] := by
  intro done rest _
  rw [List.append_nil, List.length_nil, List.drop_zero]

theorem Writes.bind {f g : Cursor → Option Cursor} {s t : List UInt8} (hf : Writes f s)
    (hg : Writes g t) : Writes (fun c => (f c).bind g) (s ++ t) := by
  intro done rest hlen
  rw [List.length_append] at hlen
  have hrest : t.length ≤ (rest.drop s.length).length := by rw [List.length_drop]; omega
  dsimp only
  rw [hf done rest (by omega), Option.bind_some, hg _ _ hrest, List.drop_drop]
  simp only [List.append_assoc, List.length_append]

theorem setAt_mid (done rest : List UInt8) (c d : UInt8) :
    setAt (done ++ c :: rest) done.length d = some (done ++ d :: rest) := by
  rw [setAt, if_pos (by simp), List.set_append_right _ _ (Nat.le_refl _), Nat.sub_self,
    List.set_cons_zero]

theorem put_writes (c : UInt8) : Writes (Cursor.put c) [c] := by
  intro done rest hlen
  cases rest with
  | nil => cases hlen
  | cons d rest =>
      rw [Cursor.put, setAt_mid]
      simp

/-- The digits of a group, from the last to the first. -/
theorem putDigitsLoop_writes (w v : Nat) (done mid rest : List UInt8) (h : mid.length = w) :
    putDigitsLoop done.length w v (done ++ (mid ++ rest)) =
      some (done ++ (digits w v ++ rest)) := by
  induction w generalizing v mid rest with
  | zero => rw [List.eq_nil_of_length_eq_zero h]; rfl
  | succ w ih =>
      obtain ⟨mid, c, rfl⟩ : ∃ m c, mid = m ++ [c] :=
        ⟨mid.dropLast, mid.getLast (by rintro rfl; cases h), (List.dropLast_append_getLast _).symm⟩
      have hmid : mid.length = w := by simpa using h
      have hset := setAt_mid (done ++ mid) rest c (48 + v % 10).toUInt8
      rw [List.length_append, hmid, List.append_assoc] at hset
      rw [putDigitsLoop, List.append_assoc mid, List.singleton_append, hset, Option.bind_some,
        List.append_assoc, ih _ mid _ hmid, digits, List.append_assoc, List.singleton_append]

theorem putDigits_writes (v w : Nat) : Writes (putDigits v w) (digits w v) := by
  intro done rest hlen
  rw [length_digits] at hlen
  have hloop := putDigitsLoop_writes w v done (rest.take w) (rest.drop w)
    (by rw [List.length_take]; omega)
  rw [List.take_append_drop] at hloop
  rw [putDigits, hloop, Option.map_some, List.length_append, length_digits,
    List.append_assoc]

section Text

variable {b : List UInt8} {h : NumericHeader}

/-- The operation writes digits that go on where the number stands at `e`. -/
def Continues (N : Nat) (e : Int) (op : Cursor → Option Cursor) (t : List UInt8) : Prop :=
  Writes op t ∧ Digits t ∧ scaled N e * 10 ^ t.length + value t = scaled N (e + t.length)

theorem Continues.bind {N : Nat} {e e' : Int} {f g : Cursor → Option Cursor} {s t : List UInt8}
    (hf : Continues N e f s) (hg : Continues N e' g t) (he : e' = e + s.length) :
    Continues N e (fun c => (f c).bind g) (s ++ t) := by
  subst he
  obtain ⟨hfw, hfd, hfv⟩ := hf
  obtain ⟨hgw, hgd, hgv⟩ := hg
  refine ⟨hfw.bind hgw, hfd.append hgd, ?_⟩
  rw [List.length_append, Nat.cast_add, ← Int.add_assoc, ← hgv, ← hfv, value_append,
    Nat.pow_add]
  ring

theorem continues_some (N : Nat) (e : Int) : Continues N e some [] :=
  ⟨writes_some, fun c hc => (nomatch hc), by simp [value]⟩

/-- The first `w` decimals of the next group. -/
theorem continues_group (hd : Digital b h) (k : Int) {w : Nat} (hw : w ≤ 4) :
    Continues (numericNumber b h) (4 * (k - h.ndigits))
      (putDigits (numericDigit b h k / 10 ^ (4 - w)) w)
      (digits w (numericDigit b h k / 10 ^ (4 - w))) := by
  obtain ⟨hval, hlt⟩ := group_scaled hd k hw
  refine ⟨putDigits_writes _ _, digits_digits _ _, ?_⟩
  rw [length_digits, value_digits, Nat.mod_eq_of_lt hlt, hval]

theorem intLoop_continues (hd : Digital b h) (n k : Nat) :
    ∃ t, t.length = 4 * n ∧
      Continues (numericNumber b h) (4 * (k - h.ndigits)) (intLoop b h n k) t := by
  induction n generalizing k with
  | zero => exact ⟨[], rfl, continues_some _ _⟩
  | succ n ih =>
      obtain ⟨t, hlen, ht⟩ := ih (k + 1)
      have hgroup := continues_group hd k (Nat.le_refl 4)
      rw [Nat.sub_self, Nat.pow_zero, Nat.div_one] at hgroup
      refine ⟨digits 4 (numericDigit b h k) ++ t, ?_, hgroup.bind ht ?_⟩
      · rw [List.length_append, length_digits, hlen]
        omega
      · rw [length_digits]
        omega

theorem groupDiv_eq {i : Nat} (hi : i < 4) : groupDiv i = 10 ^ i := by
  match i with
  | 0 | 1 | 2 | 3 => rfl

theorem fracLoop_continues (hd : Digital b h) {n left : Nat} (hn : left ≤ n) (k : Int) :
    ∃ t, t.length = left ∧
      Continues (numericNumber b h) (4 * (k - h.ndigits)) (fracLoop b h n left k) t := by
  induction n generalizing left k with
  | zero =>
      obtain rfl : left = 0 := Nat.le_zero.mp hn
      exact ⟨[], rfl, continues_some _ _⟩
  | succ n ih =>
      by_cases hz : left = 0
      · subst hz
        exact ⟨[], rfl, continues_some _ _⟩
      · obtain ⟨w, hw⟩ : ∃ w, w = if left < 4 then left else 4 := ⟨_, rfl⟩
        have hw₁ : 0 < w ∧ w ≤ 4 ∧ w ≤ left ∧ (w = left ∨ w = 4) := by
          rw [hw]; split <;> omega
        obtain ⟨hpos, hw₄, hwle, hwcase⟩ := hw₁
        have hgroup := continues_group hd k hw₄
        have hop : fracLoop b h (n + 1) left k = fun c =>
            (putDigits (numericDigit b h k / 10 ^ (4 - w)) w c).bind
              (fracLoop b h n (left - w) (k + 1)) := by
          funext c
          rw [fracLoop, if_neg hz]
          dsimp only
          rw [← hw, groupDiv_eq (by omega)]
        rw [hop]
        -- the last group may be short: there is then nothing behind it
        rcases hwcase with hlast | hfull
        · subst hlast
          have hend : fracLoop b h n (w - w) (k + 1) = some := by
            funext c
            rw [Nat.sub_self]
            cases n <;> rfl
          rw [hend]
          exact ⟨_, by rw [List.append_nil, length_digits],
            hgroup.bind (continues_some _ _) rfl⟩
        · subst hfull
          obtain ⟨t, hlen, ht⟩ := ih (show left - 4 ≤ n by omega) (k + 1)
          refine ⟨digits 4 (numericDigit b h k / 10 ^ (4 - 4)) ++ t, ?_, hgroup.bind ht ?_⟩
          · rw [List.length_append, length_digits, hlen]
            omega
          · rw [length_digits]
            omega

/-- The integer part of the text, and the number it denotes. -/
theorem putInteger_writes (hd : Digital b h) :
    ∃ t, t.length = (if h.weight < 0 then 1
          else groupWidth (numericDigit b h 0) + 4 * h.weight.toNat) ∧
      Writes (putInteger b h) t ∧ Digits t ∧
      value t = scaled (numericNumber b h) (4 * (h.weight + 1 - h.ndigits)) := by
  have hlt : numericNumber b h < 10 ^ (4 * h.ndigits) := stored_lt hd h.ndigits
  by_cases hw : h.weight < 0
  · refine ⟨[48], by rw [if_pos hw]; rfl, ?_, ?_, ?_⟩
    · intro done rest hlen
      rw [putInteger, if_pos hw]
      exact put_writes 48 done rest hlen
    · intro c hc
      rw [List.mem_singleton.mp hc]
      decide
    · rw [scaled_eq_zero hlt (by omega)]
      rfl
  · obtain ⟨t, hlen, htw, htd, htv⟩ := intLoop_continues hd h.weight.toNat 1
    have hfirst : numericDigit b h 0 =
        scaled (numericNumber b h) (4 * ((1 : Nat) - h.ndigits)) := by
      have hgroup := (group_scaled hd 0 (Nat.le_refl 4)).1
      rw [scaled_eq_zero hlt (by omega), Nat.zero_mul, Nat.zero_add, Nat.sub_self,
        Nat.pow_zero, Nat.div_one] at hgroup
      rw [hgroup]
      congr 1
      omega
    have hwidth : numericDigit b h 0 < 10 ^ groupWidth (numericDigit b h 0) := by
      have := hd 0
      unfold groupWidth
      split
      · omega
      split
      · omega
      split <;> omega
    refine ⟨digits (groupWidth (numericDigit b h 0)) (numericDigit b h 0) ++ t, ?_, ?_,
      (digits_digits _ _).append htd, ?_⟩
    · rw [if_neg hw, List.length_append, length_digits, hlen]
    · intro done rest hroom
      rw [putInteger, if_neg hw]
      exact (putDigits_writes _ _).bind htw done rest hroom
    · rw [value_append, value_digits, Nat.mod_eq_of_lt hwidth, hfirst, htv, hlen]
      congr 1
      push_cast
      omega

theorem putFraction_writes (hd : Digital b h) :
    ∃ t, t.length = h.dscale ∧ Writes (putFraction b h) (if 0 < h.dscale then 46 :: t else []) ∧
      Digits t ∧ scaled (numericNumber b h) (4 * (h.weight + 1 - h.ndigits)) * 10 ^ h.dscale +
        value t = scaled (numericNumber b h) (4 * (h.weight + 1 - h.ndigits) + h.dscale) := by
  obtain ⟨t, hlen, htw, htd, htv⟩ :=
    fracLoop_continues hd (Nat.le_refl h.dscale) (h.weight + 1)
  rw [hlen] at htv
  refine ⟨t, hlen, ?_, htd, htv⟩
  intro done rest hroom
  unfold putFraction
  by_cases hz : 0 < h.dscale
  · simp only [if_pos hz] at hroom ⊢
    exact (put_writes 46).bind htw done rest hroom
  · simp only [if_neg hz]
    exact writes_some done rest (Nat.zero_le _)

/-- A decimal text: a sign, the digits before the point, and those behind it. -/
def numericText (h : NumericHeader) (ip fp : List UInt8) : List UInt8 :=
  (if h.sign = numericNeg then [45] else []) ++ ip ++ (if 0 < h.dscale then 46 :: fp else [])

/-- **The text of a numeric fills the bytes that were reserved for it.** -/
theorem numericText_writes (hh : numericHeader b = .ok h)
    (hsign : h.sign = numericPos ∨ h.sign = numericNeg) :
    ∃ ip fp, (∀ fresh out,
        numericTextInto fresh b out = some (.ok (out ++ numericText h ip fp))) ∧
      (numericText h ip fp).length = numericTextLen b h ∧ ip ≠ [] ∧ Digits ip ∧ Digits fp ∧
      fp.length = h.dscale ∧ value (ip ++ fp) =
        scaled (numericNumber b h) (4 * (h.weight + 1 - h.ndigits) + h.dscale) := by
  have hd := digital_of_header hh
  obtain ⟨ip, hilen, hiw, hid, hiv⟩ := putInteger_writes hd
  obtain ⟨fp, hflen, hfw, hfd, hfv⟩ := putFraction_writes hd
  have hsw : Writes (putSign h) (if h.sign = numericNeg then [45] else []) := by
    intro done rest hroom
    unfold putSign
    split
    · rename_i hneg
      rw [if_pos hneg] at hroom
      exact put_writes 45 done rest hroom
    · exact writes_some done rest (Nat.zero_le _)
  have hlen : (numericText h ip fp).length = numericTextLen b h := by
    have hs : (if h.sign = numericNeg then [45] else ([] : List UInt8)).length =
        if h.sign = numericNeg then 1 else 0 := by split <;> rfl
    have hf : (if 0 < h.dscale then 46 :: fp else []).length =
        if 0 < h.dscale then 1 + h.dscale else 0 := by
      split
      · rw [List.length_cons, hflen, Nat.add_comm]
      · rfl
    rw [numericText, numericTextLen, List.length_append, List.length_append, hs, hf, hilen]
    omega
  have hip : ip ≠ [] := by
    rintro rfl
    have hwidth : 0 < groupWidth (numericDigit b h 0) := by unfold groupWidth; split_ifs <;> decide
    rw [List.length_nil] at hilen
    split at hilen <;> omega
  refine ⟨ip, fp, fun fresh out => ?_, hlen, hip, hid, hfd, hflen, ?_⟩
  · have hplain : h.sign ≠ numericNan ∧ h.sign ≠ numericPinf ∧ h.sign ≠ numericNinf := by
      rcases hsign with hs | hs <;> rw [hs] <;> decide
    have hroom : ((List.range (numericTextLen b h)).map fresh).length =
        (numericText h ip fp).length := by rw [List.length_map, List.length_range, hlen]
    have hall := ((hsw.bind hiw).bind hfw) out _ (Nat.le_of_eq hroom.symm)
    rw [show ((if h.sign = numericNeg then [45] else []) ++ ip ++
      (if 0 < h.dscale then 46 :: fp else [])) = numericText h ip fp from rfl, ← hroom,
      List.drop_length, List.append_nil] at hall
    rw [numericTextInto, hh]
    dsimp only
    rw [if_neg hplain.1, if_neg hplain.2.1, if_neg hplain.2.2]
    exact congrArg (Option.map _) hall
  · rw [value_append, hiv, hflen, hfv]

end Text

/-! ### The count of units -/

section Units

variable {N limit : Nat} {base t : Int}

/-- Behind the decimals up to `e`: what is in `acc` and how much of the fraction is left to take;
past the last decimal that counts there were zeros only. -/
structure Took (N limit : Nat) (base t e : Int) (s : Nat × Nat) : Prop where
  acc : s.1 = scaled N (min e t)
  fits : s.1 ≤ limit
  left : s.2 = (t - max e base).toNat
  zeros : t ≤ e → scaled N e = scaled N t * 10 ^ (e - t).toNat

/-- What a reading up to `e` can come to. -/
def Fate (N limit : Nat) (base t e : Int) : Except ReadError (Nat × Nat) → Prop
  | .ok s => Took N limit base t e s
  | .error .numericRange => limit < scaled N t
  | .error .numericPrecision => ∃ e', t ≤ e' ∧ scaled N (e' + 1) % 10 ≠ 0
  | .error _ => False

/-- One decimal. -/
theorem digitStep_fate (hbase : base ≤ t) (hlimit : 9 ≤ limit) {e : Int} {s : Nat × Nat}
    (hs : Took N limit base t e s) :
    Fate N limit base t (e + 1) (digitStep limit (base ≤ e) (scaled N (e + 1) % 10) s) := by
  obtain ⟨hacc, hfits, hleft, hzeros⟩ := hs
  have hsucc := scaled_succ N e
  rw [digitStep]
  by_cases hend : decide (base ≤ e) = true ∧ s.2 = 0
  · have hb := of_decide_eq_true hend.1
    have hte : t ≤ e := by omega
    rw [if_pos hend]
    by_cases hdigit : scaled N (e + 1) % 10 ≠ 0
    · rw [if_pos hdigit]
      exact ⟨e, hte, hdigit⟩
    · rw [if_neg hdigit]
      refine ⟨?_, hfits, ?_, fun _ => ?_⟩
      · rw [hacc, min_eq_right hte, min_eq_right (by omega)]
      · omega
      · have hexp : (e + 1 - t).toNat = (e - t).toNat + 1 := by omega
        rw [← hsucc, not_not.mp hdigit, hzeros hte, hexp, Nat.pow_succ]
        ring
  · have het : e < t := by
      by_contra hcon
      exact hend ⟨decide_eq_true (by omega), by omega⟩
    rw [if_neg hend, hacc, min_eq_left het.le]
    by_cases hover : (limit - scaled N (e + 1) % 10) / 10 < scaled N e
    · rw [if_pos hover]
      have hle := scaled_mono N (show e + 1 ≤ t by omega)
      show limit < scaled N t
      omega
    · rw [if_neg hover]
      refine ⟨?_, ?_, ?_, fun hte => ?_⟩
      · rw [min_eq_left (by omega)]
        exact hsucc
      · show scaled N e * 10 + scaled N (e + 1) % 10 ≤ limit
        omega
      · show (if decide (base ≤ e) = true then s.2 - 1 else s.2) = _
        by_cases hb : base ≤ e
        · rw [if_pos (decide_eq_true hb)]
          omega
        · rw [if_neg (by simpa using hb)]
          omega
      · obtain rfl : t = e + 1 := by omega
        rw [Int.sub_self, Int.toNat_zero, Nat.pow_zero, Nat.mul_one]

theorem Fate.bind {e e' : Int} {x : Except ReadError (Nat × Nat)}
    {f : Nat × Nat → Except ReadError (Nat × Nat)} (hx : Fate N limit base t e x)
    (hf : ∀ s, Took N limit base t e s → Fate N limit base t e' (f s)) :
    Fate N limit base t e' (x.bind f) := by
  cases x with
  | ok s => exact hf s hx
  | error err => cases err <;> exact hx

variable {b : List UInt8} {h : NumericHeader}

/-- The four decimals of a digit. -/
theorem groupStep_fate (hd : Digital b h) {scale : Nat} (hlimit : 9 ≤ limit) {k : Int}
    {s : Nat × Nat}
    (hs : Took (numericNumber b h) limit (4 * (h.weight + 1 - h.ndigits))
      (4 * (h.weight + 1 - h.ndigits) + scale) (4 * (k - h.ndigits)) s) :
    Fate (numericNumber b h) limit (4 * (h.weight + 1 - h.ndigits))
      (4 * (h.weight + 1 - h.ndigits) + scale) (4 * (k + 1 - h.ndigits))
      (groupStep limit (h.weight < k) (numericDigit b h k) s) := by
  have hplace : ∀ i : Nat, i < 4 → ∀ s,
      Took (numericNumber b h) limit (4 * (h.weight + 1 - h.ndigits))
        (4 * (h.weight + 1 - h.ndigits) + scale) (4 * (k - h.ndigits) + i) s →
      Fate (numericNumber b h) limit (4 * (h.weight + 1 - h.ndigits))
        (4 * (h.weight + 1 - h.ndigits) + scale) (4 * (k - h.ndigits) + (i + 1 : Nat))
        (digitStep limit (h.weight < k) (numericDigit b h k / 10 ^ (3 - i) % 10) s) := by
    intro i hi s hs
    have hfrac : (decide (h.weight < k) : Bool) =
        decide (4 * (h.weight + 1 - h.ndigits) ≤ 4 * (k - h.ndigits) + i) :=
      decide_eq_decide.mpr (by omega)
    have hexp : 4 * (k - h.ndigits) + ((i + 1 : Nat) : Int) = 4 * (k - h.ndigits) + i + 1 := by
      omega
    rw [hfrac, place_scaled hd k hi, hexp]
    exact digitStep_fate (by omega) hlimit hs
  have hend : 4 * (k + 1 - h.ndigits) = 4 * (k - h.ndigits) + ((3 + 1 : Nat) : Int) := by omega
  rw [hend]
  refine (hplace 0 (by decide) s (by simpa using hs)).bind fun s hs => ?_
  refine (hplace 1 (by decide) s hs).bind fun s hs => ?_
  refine (hplace 2 (by decide) s hs).bind fun s hs => ?_
  refine (hplace 3 (by decide) s hs).bind fun s hs => ?_
  exact hs

/-- How the reading of all digits ends: with the whole number of units, or not whole, or too
large. -/
def Ends (N limit : Nat) (t : Int) : Except ReadError Nat → Prop
  | .ok acc => (N : ℚ) * 10 ^ t = acc ∧ acc ≤ limit
  | .error .numericRange => limit < scaled N t
  | .error .numericPrecision => ∃ e, t ≤ e ∧ scaled N (e + 1) % 10 ≠ 0
  | .error _ => False

/-- **The outer loop ends**, within the turns it is given here: behind all stored digits, all
integer digits and the 18 decimals that a scale can ask for, it stops. -/
theorem scaledLoop_fate (hd : Digital b h) {scale : Nat} (hscale : scale ≤ 18)
    (hlimit : 9 ≤ limit) {n : Nat} {k : Int} {s : Nat × Nat}
    (hn : 0 < n ∧ h.ndigits ≤ n + k ∧ h.weight + 6 ≤ n + k)
    (hs : Took (numericNumber b h) limit (4 * (h.weight + 1 - h.ndigits))
      (4 * (h.weight + 1 - h.ndigits) + scale) (4 * (k - h.ndigits)) s) :
    ∃ r, scaledLoop b h limit n k s = some r ∧
      Ends (numericNumber b h) limit (4 * (h.weight + 1 - h.ndigits) + scale) r := by
  induction n generalizing k s with
  | zero => exact absurd hn.1 (Nat.lt_irrefl 0)
  | succ n ih =>
      have hgroup := groupStep_fate hd hlimit hs
      rw [scaledLoop]
      generalize groupStep limit (h.weight < k) (numericDigit b h k) s = x at hgroup
      cases x with
      | error err => exact ⟨_, rfl, by cases err <;> exact hgroup⟩
      | ok s' =>
          obtain ⟨hacc, hfits, hleft, hzeros⟩ := hgroup
          dsimp only
          by_cases hstop : h.weight < k + 1 ∧ s'.2 = 0 ∧ h.ndigits ≤ k + 1
          · rw [if_pos hstop]
            obtain ⟨hint, hnone, hall⟩ := hstop
            have hte : 4 * (h.weight + 1 - h.ndigits) + scale ≤ 4 * (k + 1 - h.ndigits) := by omega
            rw [min_eq_right hte] at hacc
            refine ⟨_, rfl, ?_, hfits⟩
            rw [hacc]
            exact exact_of_scaled (by omega) hte (hzeros hte)
          · rw [if_neg hstop]
            refine ih ?_ ⟨hacc, hfits, hleft, hzeros⟩
            omega

end Units

/-! ### The rational value -/

/-- The value without its sign: digit `k` is worth `10000^(weight - k)`. -/
def numericMagnitude (b : List UInt8) (h : NumericHeader) : ℚ :=
  ∑ k ∈ Finset.range h.ndigits, (numericDigit b h k : ℚ) * 10000 ^ (h.weight - k)

/-- The value. -/
def numericValue (b : List UInt8) (h : NumericHeader) : ℚ :=
  if h.sign = numericNeg then -numericMagnitude b h else numericMagnitude b h

theorem numericMagnitude_eq (b : List UInt8) (h : NumericHeader) :
    numericMagnitude b h =
      (numericNumber b h : ℚ) * 10 ^ (4 * (h.weight + 1 - h.ndigits)) := by
  have hsum : ∀ j : Nat, ∑ k ∈ Finset.range j, (numericDigit b h k : ℚ) * 10000 ^ (h.weight - k) =
      (stored b h j : ℚ) * 10000 ^ (h.weight + 1 - j) := by
    intro j
    induction j with
    | zero => simp [stored]
    | succ j ih =>
        have hexp : h.weight + 1 - j = h.weight - j + 1 := by omega
        have hexp' : h.weight + 1 - ((j + 1 : Nat) : Int) = h.weight - j := by omega
        rw [Finset.sum_range_succ, ih, stored, hexp, hexp', zpow_add_one₀ (by norm_num)]
        push_cast
        ring
  rw [numericMagnitude, hsum, zpow_mul, numericNumber]
  norm_num

theorem numericMagnitude_nonneg (b : List UInt8) (h : NumericHeader) :
    0 ≤ numericMagnitude b h := by
  rw [numericMagnitude_eq]
  exact mul_nonneg (Nat.cast_nonneg _) (zpow_nonneg (by norm_num) _)

theorem abs_numericValue (b : List UInt8) (h : NumericHeader) :
    |numericValue b h| = numericMagnitude b h := by
  rw [numericValue]
  split
  · rw [abs_neg, abs_of_nonneg (numericMagnitude_nonneg b h)]
  · rw [abs_of_nonneg (numericMagnitude_nonneg b h)]

theorem magnitude_scaled (b : List UInt8) (h : NumericHeader) (s : Nat) :
    numericMagnitude b h * 10 ^ s =
      (numericNumber b h : ℚ) * 10 ^ (4 * (h.weight + 1 - h.ndigits) + s) := by
  rw [numericMagnitude_eq, mul_assoc, ← zpow_natCast, ← zpow_add₀ (by norm_num)]

section Exact

variable {b : List UInt8} {h : NumericHeader}

/-- The largest magnitude that fits an `i64`. -/
def i64Limit (h : NumericHeader) : Nat := if h.sign = numericNeg then 2 ^ 63 else 2 ^ 63 - 1

/-- What a value that is a whole number of units says about its digits. -/
theorem units_of_value {s : Nat} {n : Int} (hv : numericValue b h * 10 ^ s = n)
    (hn : -2 ^ 63 ≤ n ∧ n < 2 ^ 63) :
    (numericNumber b h : ℚ) * 10 ^ (4 * (h.weight + 1 - h.ndigits) + s) = n.natAbs ∧
      n.natAbs ≤ i64Limit h := by
  have hpow : (0 : ℚ) < 10 ^ s := pow_pos (by norm_num) s
  constructor
  · have habs := congrArg abs hv
    rw [abs_mul, abs_numericValue, abs_of_pos hpow, magnitude_scaled] at habs
    rw [habs, Nat.cast_natAbs, Int.cast_abs]
  · unfold i64Limit
    by_cases hneg : h.sign = numericNeg
    · rw [if_pos hneg]
      omega
    · have hnonneg : (0 : ℚ) ≤ n := by
        rw [← hv, numericValue, if_neg hneg]
        exact mul_nonneg (numericMagnitude_nonneg b h) hpow.le
      have : 0 ≤ n := by exact_mod_cast hnonneg
      rw [if_neg hneg]
      omega

/-- The count with its sign. -/
def signed (h : NumericHeader) (acc : Nat) : Int :=
  if h.sign = numericNeg then (if acc = 2 ^ 63 then -2 ^ 63 else -(acc : Int)) else (acc : Int)

theorem signed_of_exact {s acc : Nat} (hacc : acc ≤ i64Limit h)
    (he : (numericNumber b h : ℚ) * 10 ^ (4 * (h.weight + 1 - h.ndigits) + s) = acc) :
    numericValue b h * 10 ^ s = signed h acc ∧ -2 ^ 63 ≤ signed h acc ∧
      signed h acc < 2 ^ 63 := by
  have hmag : numericMagnitude b h * 10 ^ s = acc := by rw [magnitude_scaled, he]
  unfold i64Limit at hacc
  rw [numericValue, signed]
  by_cases hneg : h.sign = numericNeg
  · rw [if_pos hneg] at hacc
    have hint : (if acc = 2 ^ 63 then -2 ^ 63 else -(acc : Int)) = -(acc : Int) := by
      split
      · rename_i heq
        rw [heq]
        rfl
      · rfl
    rw [if_pos hneg, if_pos hneg, hint, neg_mul, hmag]
    exact ⟨by push_cast; rfl, by omega, by omega⟩
  · rw [if_neg hneg] at hacc
    rw [if_neg hneg, if_neg hneg, hmag]
    exact ⟨by push_cast; rfl, by omega, by omega⟩

/-- The integer reader: it ends, and gives the whole number of units that fits, if there is one. -/
theorem decodeNumeric_iff (hh : numericHeader b = .ok h) (s : Int) :
    ∃ r, decodeNumericI64Scaled b s = some r ∧ ∀ n : Int, r = .ok n ↔
      (h.sign = numericPos ∨ h.sign = numericNeg) ∧ (0 ≤ s ∧ s ≤ 18) ∧
        numericValue b h * 10 ^ s = n ∧ -2 ^ 63 ≤ n ∧ n < 2 ^ 63 := by
  have hd := digital_of_header hh
  rw [decodeNumericI64Scaled, hh]
  dsimp only
  by_cases hspecial : h.sign ≠ numericPos ∧ h.sign ≠ numericNeg
  · rw [if_pos hspecial]
    refine ⟨_, rfl, fun n => ⟨fun hn => (nomatch hn), fun hn => ?_⟩⟩
    exact (hn.1.elim hspecial.1 hspecial.2).elim
  rw [if_neg hspecial]
  by_cases hrange : s < 0 ∨ 18 < s
  · rw [if_pos hrange]
    refine ⟨_, rfl, fun n => ⟨fun hn => (nomatch hn), fun hn => ?_⟩⟩
    omega
  rw [if_neg hrange]
  obtain ⟨sc, rfl⟩ := Int.eq_ofNat_of_zero_le (show 0 ≤ s by omega)
  have hsign : h.sign = numericPos ∨ h.sign = numericNeg := by
    by_contra hcon
    exact hspecial (not_or.mp hcon)
  have hnum : numericNumber b h < 10 ^ (4 * h.ndigits) := stored_lt hd h.ndigits
  obtain ⟨first, hfirst⟩ : ∃ k, k = if h.weight < 0 then h.weight + 1 else 0 := ⟨_, rfl⟩
  have hfirst' : first ≤ 0 ∧ first ≤ h.weight + 1 ∧ -h.weight.natAbs ≤ first := by
    rw [hfirst]
    split <;> omega
  have hstart : Took (numericNumber b h) (i64Limit h) (4 * (h.weight + 1 - h.ndigits))
      (4 * (h.weight + 1 - h.ndigits) + sc) (4 * (first - h.ndigits)) (0, sc) := by
    have hzero : scaled (numericNumber b h) (4 * (first - h.ndigits)) = 0 :=
      scaled_eq_zero hnum (by omega)
    refine ⟨by rw [min_eq_left (by omega), hzero], Nat.zero_le _, ?_, fun hte => ?_⟩
    · show sc = _
      omega
    · have heq : 4 * (first - (h.ndigits : Int)) =
          4 * (h.weight + 1 - h.ndigits) + (sc : Int) := by omega
      rw [← heq, Int.sub_self, Int.toNat_zero, Nat.pow_zero, Nat.mul_one]
  have hlimit : 9 ≤ i64Limit h := by unfold i64Limit; split <;> omega
  obtain ⟨r, hr, hends⟩ := scaledLoop_fate hd (show sc ≤ 18 by omega) hlimit
    (n := h.ndigits + h.weight.natAbs + 6) (by omega) hstart
  rw [← hfirst, Int.toNat_natCast]
  unfold i64Limit at hr
  rw [hr, Option.map_some]
  refine ⟨_, rfl, fun n => ?_⟩
  rw [zpow_natCast]
  cases r with
  | ok acc =>
      obtain ⟨hval, hlo, hhi⟩ := signed_of_exact hends.2 hends.1
      constructor
      · intro hn
        obtain rfl : signed h acc = n := Except.ok.inj hn
        exact ⟨hsign, by omega, hval, hlo, hhi⟩
      · rintro ⟨-, -, hv, -⟩
        have : signed h acc = n := by
          have := hval.symm.trans hv
          exact_mod_cast this
        exact congrArg Except.ok this
  | error err =>
      refine ⟨fun hn => (nomatch hn), ?_⟩
      rintro ⟨-, -, hv, hn⟩
      obtain ⟨hexact, hfits⟩ := units_of_value hv hn
      cases err with
      | numericRange =>
          have hscaled := scaled_of_exact hexact (le_refl _)
          rw [Int.sub_self, Int.toNat_zero, Nat.pow_zero, Nat.mul_one] at hscaled
          have : i64Limit h < _ := hends
          omega
      | numericPrecision =>
          obtain ⟨e, hte, hdigit⟩ := hends
          have hscaled := scaled_of_exact hexact (show _ ≤ e + 1 by omega)
          obtain ⟨j, hj⟩ : ∃ j, (e + 1 -
              (4 * (h.weight + 1 - h.ndigits) + (sc : Int))).toNat = j + 1 := ⟨_, by
            exact (Nat.sub_add_cancel (show 1 ≤ _ by omega)).symm⟩
          rw [hscaled, hj, Nat.pow_succ, ← Nat.mul_assoc, Nat.mul_mod_left] at hdigit
          exact absurd rfl hdigit
      | _ => exact hends.elim

/-- **Numeric decoding is exact.**  The text has `dscale` decimals and is the value cut off behind
them, in exactly the bytes reserved for it; the integer reader gives the whole number of units, if
it is one and fits. -/
theorem numeric_decoding_exact (hh : numericHeader b = .ok h) :
    (h.sign = numericPos ∨ h.sign = numericNeg →
      ∃ ip fp, (∀ fresh out,
          numericTextInto fresh b out = some (.ok (out ++ numericText h ip fp))) ∧
        (numericText h ip fp).length = numericTextLen b h ∧ ip ≠ [] ∧ Digits ip ∧ Digits fp ∧
        fp.length = h.dscale ∧
        value (ip ++ fp) = ⌊|numericValue b h| * 10 ^ h.dscale⌋₊) ∧
      ∀ s : Int, ∃ r, decodeNumericI64Scaled b s = some r ∧ ∀ n : Int, r = .ok n ↔
        (h.sign = numericPos ∨ h.sign = numericNeg) ∧ (0 ≤ s ∧ s ≤ 18) ∧
          numericValue b h * 10 ^ s = n ∧ -2 ^ 63 ≤ n ∧ n < 2 ^ 63 := by
  refine ⟨fun hsign => ?_, decodeNumeric_iff hh⟩
  obtain ⟨ip, fp, hinto, hlen, hne, hip, hfp, hscale, hval⟩ := numericText_writes hh hsign
  refine ⟨ip, fp, hinto, hlen, hne, hip, hfp, hscale, ?_⟩
  rw [hval, abs_numericValue, magnitude_scaled, scaled_eq_floor]

/-- The bytes of -123.45. -/
theorem numeric_decoding_exact_minus :
    numericHeader [0, 2, 0, 0, 0x40, 0, 0, 2, 0, 123, 0x11, 0x94] = .ok ⟨2, 0, numericNeg, 2⟩ ∧
      (∃ ip fp : List UInt8, fp.length = 2 ∧ ∀ fresh out,
        numericTextInto fresh [0, 2, 0, 0, 0x40, 0, 0, 2, 0, 123, 0x11, 0x94] out =
          some (.ok (out ++ numericText ⟨2, 0, numericNeg, 2⟩ ip fp))) ∧
      ∃ r, decodeNumericI64Scaled [0, 2, 0, 0, 0x40, 0, 0, 2, 0, 123, 0x11, 0x94] 2 = some r := by
  have hh : numericHeader [0, 2, 0, 0, 0x40, 0, 0, 2, 0, 123, 0x11, 0x94] =
      .ok ⟨2, 0, numericNeg, 2⟩ := by decide +kernel
  obtain ⟨htext, hunits⟩ := numeric_decoding_exact hh
  obtain ⟨ip, fp, hinto, -, -, -, -, hlen, -⟩ := htext (.inr rfl)
  obtain ⟨r, hr, -⟩ := hunits 2
  exact ⟨hh, ⟨ip, fp, hlen, hinto⟩, r, hr⟩

end Exact

end Vanilla.PgAsync

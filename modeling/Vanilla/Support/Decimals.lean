import Mathlib.Algebra.Order.Floor.Semifield
import Mathlib.Data.Rat.Floor

/-!
# Support — decimals

The decimal digits of a number shifted by a power of ten, whole or not: `scaled N e` is what
`N · 10^e` is without its fraction.  A reader that takes digits one after the other has `scaled N e`
behind it, for a growing `e`.

* `scaled_div`: the digits read so far are those of every later reading.
* `scaled_eq_floor`, `scaled_of_exact`, `exact_of_scaled`: the same over the rationals.
* `value_digits`: a number as a text of digits.
-/

namespace Decimals

/-- `N · 10^e`, without its fraction. -/
def scaled (N : Nat) (e : Int) : Nat := N * 10 ^ e.toNat / 10 ^ (-e).toNat

theorem scaled_of_nonneg (N : Nat) {e : Int} (h : 0 ≤ e) : scaled N e = N * 10 ^ e.toNat := by
  rw [scaled, Int.toNat_of_nonpos (show -e ≤ 0 by omega), Nat.pow_zero, Nat.div_one]

theorem scaled_of_neg (N : Nat) {e : Int} (h : e ≤ 0) : scaled N e = N / 10 ^ (-e).toNat := by
  rw [scaled, Int.toNat_of_nonpos h, Nat.pow_zero, Nat.mul_one]

/-- The later digits do not change the earlier ones. -/
theorem scaled_div (N : Nat) (e : Int) (w : Nat) : scaled N (e + w) / 10 ^ w = scaled N e := by
  have hpos : 0 < 10 ^ w := Nat.pow_pos (by decide)
  by_cases he : 0 ≤ e
  · have hsum : (e + w).toNat = e.toNat + w := by omega
    rw [scaled_of_nonneg N he, scaled_of_nonneg N (by omega), hsum, Nat.pow_add, ← Nat.mul_assoc,
      Nat.mul_div_cancel _ hpos]
  · by_cases hew : 0 ≤ e + w
    · have hsum : w = (-e).toNat + (e + w).toNat := by omega
      rw [scaled_of_nonneg N hew, scaled_of_neg N (by omega)]
      nth_rewrite 2 [hsum]
      rw [Nat.pow_add, Nat.mul_div_mul_right _ _ (Nat.pow_pos (by decide))]
    · have hsum : (-e).toNat = (-(e + w)).toNat + w := by omega
      rw [scaled_of_neg N (by omega), scaled_of_neg N (by omega), hsum, Nat.pow_add,
        Nat.div_div_eq_div_mul]

theorem scaled_mono (N : Nat) {e e' : Int} (h : e ≤ e') : scaled N e ≤ scaled N e' := by
  obtain ⟨w, rfl⟩ : ∃ w : Nat, e' = e + w := ⟨(e' - e).toNat, by omega⟩
  rw [← scaled_div N e w]
  exact Nat.div_le_self _ _

/-- One more digit. -/
theorem scaled_succ (N : Nat) (e : Int) :
    scaled N e * 10 + scaled N (e + 1) % 10 = scaled N (e + 1) := by
  have hdiv := scaled_div N e 1
  rw [Nat.pow_one, Nat.cast_one] at hdiv
  omega

theorem scaled_eq_zero {N n : Nat} (h : N < 10 ^ n) {e : Int} (he : e ≤ -n) : scaled N e = 0 := by
  rw [scaled_of_neg N (by omega)]
  refine Nat.div_eq_of_lt (h.trans_le (Nat.pow_le_pow_right (by decide) ?_))
  omega

theorem mul_zpow_eq (N : Nat) (e : Int) :
    (N : ℚ) * 10 ^ e = ((N * 10 ^ e.toNat : Nat) : ℚ) / ((10 ^ (-e).toNat : Nat) : ℚ) := by
  push_cast
  have hne : ((10 : ℚ) ^ (-e).toNat) ≠ 0 := pow_ne_zero _ (by norm_num)
  rw [eq_div_iff hne, mul_assoc, ← zpow_natCast, ← zpow_natCast, ← zpow_add₀ (by norm_num)]
  have hsum : e + ((-e).toNat : Int) = (e.toNat : Int) := by omega
  rw [hsum]

theorem scaled_eq_floor (N : Nat) (e : Int) : scaled N e = ⌊(N : ℚ) * 10 ^ e⌋₊ := by
  rw [mul_zpow_eq, Nat.floor_div_eq_div, scaled]

/-- A whole number behind which there are only zeros. -/
theorem scaled_of_exact {N M : Nat} {t e : Int} (h : (N : ℚ) * 10 ^ t = M) (hte : t ≤ e) :
    scaled N e = M * 10 ^ (e - t).toNat := by
  have hsplit : (N : ℚ) * 10 ^ e = ((M * 10 ^ (e - t).toNat : Nat) : ℚ) := by
    have hsum : e = t + ((e - t).toNat : Int) := by omega
    nth_rewrite 1 [hsum]
    rw [zpow_add₀ (by norm_num), ← mul_assoc, h, zpow_natCast]
    push_cast
    rfl
  rw [scaled_eq_floor, hsplit, Nat.floor_natCast]

/-- Only zeros to the end: a whole number. -/
theorem exact_of_scaled {N : Nat} {t e : Int} (he : 0 ≤ e) (hte : t ≤ e)
    (h : scaled N e = scaled N t * 10 ^ (e - t).toNat) : (N : ℚ) * 10 ^ t = scaled N t := by
  rw [scaled_of_nonneg N he] at h
  have hq : (N : ℚ) * 10 ^ e.toNat = scaled N t * 10 ^ (e - t).toNat := by exact_mod_cast h
  have hne : ((10 : ℚ) ^ (e - t).toNat) ≠ 0 := pow_ne_zero _ (by norm_num)
  refine mul_right_cancel₀ hne ?_
  rw [← hq, mul_assoc, ← zpow_natCast, ← zpow_natCast, ← zpow_add₀ (by norm_num)]
  have hsum : t + ((e - t).toNat : Int) = (e.toNat : Int) := by omega
  rw [hsum]

/-! ### Texts -/

/-- The number that a text of digits denotes. -/
def value (t : List UInt8) : Nat := t.foldl (fun n c => n * 10 + (c.toNat - 48)) 0

/-- All decimal digits. -/
def Digits (t : List UInt8) : Prop := ∀ c ∈ t, 48 ≤ c ∧ c ≤ 57

/-- The lowest `w` digits of `v`. -/
def digits : Nat → Nat → List UInt8
  | 0, _ => []
  | w + 1, v => digits w (v / 10) ++ [(48 + v % 10).toUInt8]

@[simp] theorem length_digits (w v : Nat) : (digits w v).length = w := by
  induction w generalizing v with
  | zero => rfl
  | succ w ih => rw [digits, List.length_append, ih, List.length_singleton]

theorem foldl_value (t : List UInt8) (n : Nat) :
    t.foldl (fun n c => n * 10 + (c.toNat - 48)) n = n * 10 ^ t.length + value t := by
  induction t generalizing n with
  | nil => simp [value]
  | cons c t ih =>
      rw [value, List.foldl_cons, List.foldl_cons, ih, ih (0 * 10 + _), List.length_cons]
      ring

theorem value_append (s t : List UInt8) : value (s ++ t) = value s * 10 ^ t.length + value t := by
  rw [value, List.foldl_append, foldl_value]
  rfl

theorem toNat_digit (d : Nat) : ((48 + d % 10).toUInt8).toNat = 48 + d % 10 := by
  rw [Nat.toUInt8_eq, UInt8.toNat_ofNat']
  omega

theorem value_digits (w v : Nat) : value (digits w v) = v % 10 ^ w := by
  induction w generalizing v with
  | zero => rw [digits, Nat.pow_zero, Nat.mod_one]; rfl
  | succ w ih =>
      have hone : value [(48 + v % 10).toUInt8] = v % 10 := by
        rw [value, List.foldl_cons, List.foldl_nil, toNat_digit]
        omega
      rw [digits, value_append, ih, hone, List.length_singleton, Nat.pow_one, Nat.pow_succ',
        Nat.mod_mul]
      ring

theorem digits_digits (w v : Nat) : Digits (digits w v) := by
  induction w generalizing v with
  | zero => intro c hc; cases hc
  | succ w ih =>
      intro c hc
      rcases List.mem_append.mp hc with hc | hc
      · exact ih _ c hc
      · rw [List.mem_singleton.mp hc, UInt8.le_iff_toNat_le, UInt8.le_iff_toNat_le, toNat_digit]
        have h₁ : (48 : UInt8).toNat = 48 := rfl
        have h₂ : (57 : UInt8).toNat = 57 := rfl
        omega

theorem Digits.append {s t : List UInt8} (hs : Digits s) (ht : Digits t) : Digits (s ++ t) :=
  fun c hc => (List.mem_append.mp hc).elim (hs c) (ht c)

end Decimals

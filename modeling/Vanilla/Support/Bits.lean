import Mathlib.Data.List.Induction
import Mathlib.Data.Nat.Bitwise

/-!
# Support — bits

A number as the list of its bits, the highest first, and a list of bytes as the bits of the bytes
one after the other.  A reader that keeps its unread bits in an accumulator is read through `word`.

* `word_add`: a word in two parts.
* `word_inj`, `octets_inj`: the bits say which number, and which bytes.
* `octets_pack`: bits in packs of eight are the bits of bytes.
-/

namespace Bits

/-- The lowest `n` bits of `v`, the highest of them first. -/
def word : Nat → Nat → List Bool
  | 0, _ => []
  | n + 1, v => v.testBit n :: word n v

@[simp] theorem length_word (n v : Nat) : (word n v).length = n := by
  induction n with
  | zero => rfl
  | succ n ih => rw [word, List.length_cons, ih]

theorem word_congr {n v w : Nat} (h : ∀ i < n, v.testBit i = w.testBit i) :
    word n v = word n w := by
  induction n with
  | zero => rfl
  | succ n ih =>
      rw [word, word, h n (Nat.lt_succ_self n), ih fun i hi => h i (Nat.lt_succ_of_lt hi)]

/-- A word in two parts. -/
theorem word_add (m n v : Nat) : word (m + n) v = word m (v >>> n) ++ word n v := by
  induction m with
  | zero => rw [Nat.zero_add, word, List.nil_append]
  | succ m ih =>
      rw [Nat.succ_add, word, word, Nat.testBit_shiftRight, ih, Nat.add_comm n m, List.cons_append]

theorem testBit_of_word {n v w i : Nat} (h : word n v = word n w) (hi : i < n) :
    v.testBit i = w.testBit i := by
  induction n with
  | zero => cases hi
  | succ n ih =>
      obtain ⟨hn, hrest⟩ := List.cons.inj h
      rcases Nat.lt_succ_iff_lt_or_eq.mp hi with hi | rfl
      · exact ih hrest hi
      · exact hn

/-- The bits say which number. -/
theorem word_inj {n v w : Nat} (hv : v < 2 ^ n) (hw : w < 2 ^ n) (h : word n v = word n w) :
    v = w := by
  refine Nat.eq_of_testBit_eq fun i => ?_
  by_cases hi : i < n
  · exact testBit_of_word h hi
  · have hle : 2 ^ n ≤ 2 ^ i := Nat.pow_le_pow_right (by decide) (Nat.le_of_not_lt hi)
    rw [Nat.testBit_lt_two_pow (hv.trans_le hle), Nat.testBit_lt_two_pow (hw.trans_le hle)]

theorem word_ones (n : Nat) : word n (2 ^ n - 1) = List.replicate n true := by
  have h : ∀ m ≤ n, word m (2 ^ n - 1) = List.replicate m true := by
    intro m
    induction m with
    | zero => exact fun _ => rfl
    | succ m ih =>
        intro hm
        rw [word, ih (Nat.le_of_succ_le hm), Nat.testBit_two_pow_sub_one,
          decide_eq_true (show m < n from hm)]
        rfl
  exact h n (Nat.le_refl n)

/-- Only the lowest bits count. -/
theorem word_mod (n v : Nat) : word n (v % 2 ^ n) = word n v :=
  word_congr fun i hi => by rw [Nat.testBit_mod_two_pow, decide_eq_true hi, Bool.true_and]

/-! ### Bytes -/

/-- The bits of some bytes. -/
def octets (b : List UInt8) : List Bool := b.flatMap fun c => word 8 c.toNat

@[simp] theorem octets_nil : octets [] = [] := rfl

@[simp] theorem octets_cons (c : UInt8) (b : List UInt8) :
    octets (c :: b) = word 8 c.toNat ++ octets b := rfl

@[simp] theorem length_octets (b : List UInt8) : (octets b).length = 8 * b.length := by
  induction b with
  | nil => rfl
  | cons c b ih => rw [octets_cons, List.length_append, length_word, ih, List.length_cons]; omega

/-- The bits say which bytes. -/
theorem octets_inj {a b : List UInt8} (h : octets a = octets b) : a = b := by
  have hlen : a.length = b.length := by
    have := congrArg List.length h
    rw [length_octets, length_octets] at this
    omega
  induction a generalizing b with
  | nil => exact (List.eq_nil_of_length_eq_zero hlen.symm).symm
  | cons c a ih =>
      cases b with
      | nil => cases hlen
      | cons d b =>
          obtain ⟨hc, hrest⟩ := List.append_inj h (by rw [length_word, length_word])
          rw [UInt8.toNat_inj.mp (word_inj c.toNat_lt d.toNat_lt hc),
            ih hrest (Nat.succ_inj.mp hlen)]

/-- The number whose bits these are. -/
def value (bs : List Bool) : Nat := bs.foldl (fun v b => 2 * v + b.toNat) 0

/-- Bits in packs of eight, as bytes. -/
def pack : Nat → List Bool → List UInt8
  | 0, _ => []
  | n + 1, bs => (value (bs.take 8)).toUInt8 :: pack n (bs.drop 8)

theorem value_concat (bs : List Bool) (b : Bool) : value (bs ++ [b]) = 2 * value bs + b.toNat := by
  simp [value]

theorem word_value (bs : List Bool) :
    word bs.length (value bs) = bs ∧ value bs < 2 ^ bs.length := by
  induction bs using List.reverseRecOn with
  | nil => exact ⟨rfl, Nat.one_pos⟩
  | append_singleton bs b ih =>
      obtain ⟨hword, hlt⟩ := ih
      have hbit : b.toNat < 2 := Bool.toNat_lt b
      rw [value_concat, List.length_append, List.length_singleton]
      refine ⟨?_, by rw [Nat.pow_succ]; omega⟩
      have hshift : (2 * value bs + b.toNat) >>> 1 = value bs := by
        rw [Nat.shiftRight_eq_div_pow]; omega
      rw [word_add, hshift, hword]
      congr 1
      cases b <;> simp [word, Nat.testBit_zero]

/-- Packs of eight bits are the bits of bytes. -/
theorem octets_pack {n : Nat} {bs : List Bool} (h : bs.length = 8 * n) :
    octets (pack n bs) = bs := by
  induction n generalizing bs with
  | zero => exact (List.eq_nil_of_length_eq_zero h).symm
  | succ n ih =>
      have hlen : (bs.take 8).length = 8 := by rw [List.length_take]; omega
      obtain ⟨hword, hlt⟩ := word_value (bs.take 8)
      rw [hlen] at hword hlt
      have hbyte : ((value (bs.take 8)).toUInt8).toNat = value (bs.take 8) := by
        rw [Nat.toUInt8_eq, UInt8.toNat_ofNat', Nat.mod_eq_of_lt hlt]
      rw [pack, octets_cons, hbyte, hword, ih (by rw [List.length_drop]; omega),
        List.take_append_drop]

end Bits

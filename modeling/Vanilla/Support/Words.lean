import Mathlib.Algebra.GroupWithZero.Nat
import Mathlib.Data.List.Induction

/-!
# Support — numbers as bytes

A number in a fixed count of bytes, the first one highest.  Writing keeps what fits
(`number_bytesOf`), and what was read is written back as it was (`bytesOf_number`).

A `Reader` takes a value off the head of some bytes.
-/

namespace Words

/-- The low `w` bytes of `n`, highest first. -/
def bytesOf : Nat → Nat → List UInt8
  | 0, _ => []
  | w + 1, n => bytesOf w (n / 256) ++ [n.toUInt8]

/-- Bytes as a number, the first one highest. -/
def number (b : List UInt8) : Nat := b.foldl (fun v c => v * 256 + c.toNat) 0

@[simp] theorem length_bytesOf (w n : Nat) : (bytesOf w n).length = w := by
  induction w generalizing n with
  | zero => rfl
  | succ w ih => simp [bytesOf, ih]

@[simp] theorem number_nil : number [] = 0 := rfl

theorem number_concat (b : List UInt8) (c : UInt8) :
    number (b ++ [c]) = number b * 256 + c.toNat := by
  simp [number]

theorem number_append (a b : List UInt8) :
    number (a ++ b) = number a * 256 ^ b.length + number b := by
  induction b using List.reverseRecOn with
  | nil => simp
  | append_singleton b c ih =>
      rw [← List.append_assoc, number_concat, ih, number_concat, List.length_append,
        List.length_singleton, Nat.pow_succ, ← Nat.mul_assoc]
      omega

theorem number_bytesOf (w n : Nat) : number (bytesOf w n) = n % 256 ^ w := by
  induction w generalizing n with
  | zero => simp [bytesOf, Nat.mod_one]
  | succ w ih =>
      rw [bytesOf, number_concat, ih, Nat.pow_succ', Nat.mod_mul]
      have : n.toUInt8.toNat = n % 256 := by simp
      omega

theorem number_lt (b : List UInt8) : number b < 256 ^ b.length := by
  induction b using List.reverseRecOn with
  | nil => simp
  | append_singleton b c ih =>
      have := c.toNat_lt
      rw [number_concat, List.length_append, List.length_singleton, Nat.pow_succ]
      omega

theorem bytesOf_number (b : List UInt8) : bytesOf b.length (number b) = b := by
  induction b using List.reverseRecOn with
  | nil => rfl
  | append_singleton b c ih =>
      have hc := c.toNat_lt
      have hdiv : (number b * 256 + c.toNat) / 256 = number b := by omega
      have hmod : (number b * 256 + c.toNat).toUInt8 = c := by
        apply UInt8.toNat_inj.mp
        simp only [Nat.toUInt8_eq, UInt8.toNat_ofNat']
        omega
      rw [number_concat, List.length_append, List.length_singleton, bytesOf, hdiv, ih, hmod]

/-- Each of the bytes by itself. -/
theorem bytesOf_eq_map (w n : Nat) :
    bytesOf w n = (List.range w).map fun i => (n / 256 ^ (w - 1 - i)).toUInt8 := by
  induction w generalizing n with
  | zero => rfl
  | succ w ih =>
      have hlow : ∀ i ∈ List.range w,
          (n / 256 / 256 ^ (w - 1 - i)).toUInt8 = (n / 256 ^ (w + 1 - 1 - i)).toUInt8 := by
        intro i hi
        have hi := List.mem_range.mp hi
        rw [Nat.div_div_eq_div_mul, ← Nat.pow_succ', show (w - 1 - i).succ = w + 1 - 1 - i by omega]
      rw [bytesOf, ih, List.range_succ, List.map_append, List.map_congr_left hlow]
      simp

/-! ### Readers -/

/-- What is read at the head of some bytes, with the bytes behind it. -/
abbrev Reader (α : Type) := List UInt8 → Option (α × List UInt8)

/-- A number of `w` bytes. -/
def readNumber (w : Nat) : Reader Nat := fun b =>
  if b.length < w then none else some (number (b.take w), b.drop w)

/-- `n` bytes. -/
def readBytes (n : Nat) : Reader (List UInt8) := fun b =>
  if b.length < n then none else some (b.take n, b.drop n)

/-- Bytes up to a NUL. -/
def readCstr : Reader (List UInt8)
  | [] => none
  | c :: b => if c = 0 then some ([], b) else (readCstr b).map fun r => (c :: r.1, r.2)

/-- `n` values, one behind the other. -/
def readMany {α : Type} (read : Reader α) : Nat → Reader (List α)
  | 0, b => some ([], b)
  | n + 1, b => do
    let (x, b) ← read b
    let (xs, b) ← readMany read n b
    some (x :: xs, b)

theorem readNumber_bytesOf (w n : Nat) (r : List UInt8) :
    readNumber w (bytesOf w n ++ r) = some (n % 256 ^ w, r) := by
  have hlen : ¬ (bytesOf w n ++ r).length < w := by simp
  have htake : (bytesOf w n ++ r).take w = bytesOf w n := List.take_left' (length_bytesOf w n)
  have hdrop : (bytesOf w n ++ r).drop w = r := List.drop_left' (length_bytesOf w n)
  rw [readNumber, if_neg hlen, htake, hdrop, number_bytesOf]

theorem readNumber_lt {w n : Nat} {b r : List UInt8} (h : readNumber w b = some (n, r)) :
    n < 256 ^ w := by
  unfold readNumber at h
  split at h
  · cases h
  · cases h
    refine Nat.lt_of_lt_of_le (number_lt _) (Nat.pow_le_pow_right (by decide) ?_)
    exact List.length_take_le _ _

/-- What was read is the bytes of it, and the rest. -/
theorem readNumber_inv {w n : Nat} {b r : List UInt8} (h : readNumber w b = some (n, r)) :
    b = bytesOf w n ++ r := by
  unfold readNumber at h
  split at h
  · cases h
  · next hlen =>
      cases h
      have hw : (b.take w).length = w := List.length_take_of_le (Nat.le_of_not_lt hlen)
      conv => lhs; rw [← List.take_append_drop w b, ← bytesOf_number (b.take w), hw]

theorem readNumber_append {w n : Nat} {b r : List UInt8} (h : readNumber w b = some (n, r))
    (x : List UInt8) : readNumber w (b ++ x) = some (n, r ++ x) := by
  have hn := readNumber_lt h
  rw [readNumber_inv h, List.append_assoc, readNumber_bytesOf, Nat.mod_eq_of_lt hn]

theorem readBytes_append (v r : List UInt8) : readBytes v.length (v ++ r) = some (v, r) := by
  simp [readBytes]

theorem readCstr_append {s : List UInt8} (h : 0 ∉ s) (r : List UInt8) :
    readCstr (s ++ 0 :: r) = some (s, r) := by
  induction s with
  | nil => simp [readCstr]
  | cons c s ih =>
      rw [List.mem_cons, not_or] at h
      obtain ⟨hc, hs⟩ := h
      simp [readCstr, Ne.symm hc, ih hs]

theorem readMany_flatMap {α : Type} {read : Reader α} {put : α → List UInt8} {xs : List α}
    (h : ∀ x ∈ xs, ∀ r, read (put x ++ r) = some (x, r)) (r : List UInt8) :
    readMany read xs.length (xs.flatMap put ++ r) = some (xs, r) := by
  induction xs with
  | nil => rfl
  | cons x xs ih =>
      have hx := h x List.mem_cons_self
      have hxs := ih fun y hy => h y (List.mem_cons_of_mem _ hy)
      simp [readMany, List.flatMap_cons, List.append_assoc, hx, hxs]

theorem length_readMany {α : Type} {read : Reader α} {n : Nat} {b r : List UInt8} {xs : List α}
    (h : readMany read n b = some (xs, r)) : xs.length = n := by
  induction n generalizing b r xs with
  | zero =>
      cases h
      rfl
  | succ n ih =>
      simp only [readMany, Option.bind_eq_bind, Option.bind_eq_some_iff, Prod.exists,
        Option.some.injEq, Prod.mk.injEq] at h
      obtain ⟨x, b', -, ys, b'', hys, rfl, rfl⟩ := h
      simp [ih hys]

end Words

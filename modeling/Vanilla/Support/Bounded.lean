import Mathlib.Algebra.GroupWithZero.Nat
import Mathlib.Data.List.Infix
import Vanilla.Support.Loop

/-!
# Support — queues with a size limit

A queue of items with sizes, newest first, that is kept within a limit by dropping its oldest
items.

* `fit`: the longest run of newest items within a limit (`fit_isPrefix`, `total_fit`,
  `fit_longest`).
* `fit_drop`: dropping the oldest item of a queue above its limit changes nothing.
-/

namespace Bounded

universe u

variable {α : Type u} (size : α → Nat)

/-- The size of a queue. -/
def total (l : List α) : Nat := (l.map size).sum

/-- The longest run of newest items of size `m` at most. -/
def fit : Nat → List α → List α
  | _, [] => []
  | m, x :: xs => if size x ≤ m then x :: fit (m - size x) xs else []

variable {size}

@[simp] theorem total_nil : total size [] = 0 := rfl

@[simp] theorem total_cons (x : α) (l : List α) : total size (x :: l) = size x + total size l := by
  simp [total]

@[simp] theorem total_append (l r : List α) :
    total size (l ++ r) = total size l + total size r := by
  simp [total]

/-- A queue within its limit is kept whole. -/
theorem fit_all {m : Nat} {l : List α} (h : total size l ≤ m) : fit size m l = l := by
  induction l generalizing m with
  | nil => rfl
  | cons x l ih =>
      rw [total_cons] at h
      rw [fit, if_pos (by omega), ih (by omega)]

theorem total_fit (m : Nat) (l : List α) : total size (fit size m l) ≤ m := by
  induction l generalizing m with
  | nil => exact Nat.zero_le _
  | cons x l ih =>
      rw [fit]
      split
      · have := ih (m - size x)
        rw [total_cons]
        omega
      · exact Nat.zero_le _

theorem fit_isPrefix (m : Nat) (l : List α) : fit size m l <+: l := by
  induction l generalizing m with
  | nil => exact List.prefix_rfl
  | cons x l ih =>
      rw [fit]
      split
      · exact (List.prefix_cons_inj x).mpr (ih _)
      · exact List.nil_prefix

/-- No longer run of newest items is within the limit. -/
theorem fit_longest {m : Nat} {l p : List α} (hp : p <+: l) (h : total size p ≤ m) :
    p <+: fit size m l := by
  induction l generalizing m p with
  | nil => exact hp
  | cons x l ih =>
      cases p with
      | nil => exact List.nil_prefix
      | cons y p =>
          obtain ⟨rfl, hp'⟩ := List.cons_prefix_cons.mp hp
          rw [total_cons] at h
          rw [fit, if_pos (by omega)]
          exact (List.prefix_cons_inj y).mpr (ih hp' (by omega))

/-- Above the limit, the oldest item is not kept. -/
theorem fit_drop {m : Nat} {l : List α} {x : α} (h : m < total size (l ++ [x])) :
    fit size m (l ++ [x]) = fit size m l := by
  refine List.Sublist.eq_of_length_le (List.IsPrefix.sublist ?_) (List.IsPrefix.length_le ?_)
  · refine fit_longest ?_ (total_fit m _)
    rcases List.prefix_concat_iff.mp (fit_isPrefix m (l ++ [x])) with he | hl
    · rw [← he] at h
      exact absurd (total_fit m (l ++ [x])) (Nat.not_le_of_lt h)
    · exact hl
  · exact fit_longest ((fit_isPrefix m l).trans (List.prefix_append l [x])) (total_fit m l)

end Bounded

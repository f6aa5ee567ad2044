import Mathlib.Data.List.Nodup
import Mathlib.Data.List.Range
import Mathlib.Data.Nat.ModEq

/-!
# Support — rings with free-running counters

A ring of `2 ^ k` cells between two parties, each with a counter of 32 bits that only ever goes up
and wraps around.  Turn `n` of a counter that began at `start` is `turn start n`, its cell
`cell mask start n`; the log of what was put in is numbered by turns.

* `turn_sub`: the wrapped difference of two counters is the number of turns between them.
* `cell_inj`: turns less than a lap apart have different cells.
* `Held`: the entries from `head` on lie in their cells.  `Held.push` and `Held.advance` keep it,
  `Held.read` and `Held.rest` read it.
-/

namespace Counters

universe u

/-- A counter after `n` turns. -/
def turn (start : UInt32) (n : Nat) : UInt32 := start + n.toUInt32

@[simp] theorem turn_zero (start : UInt32) : turn start 0 = start := UInt32.add_zero start

theorem turn_add (start : UInt32) (n m : Nat) :
    turn start n + m.toUInt32 = turn start (n + m) := by
  unfold turn
  rw [UInt32.add_assoc, Nat.toUInt32_eq, Nat.toUInt32_eq, Nat.toUInt32_eq, UInt32.ofNat_add]

theorem turn_succ (start : UInt32) (n : Nat) : turn start n + 1 = turn start (n + 1) :=
  turn_add start n 1

/-- The wrapped difference of two counters. -/
theorem turn_sub {start : UInt32} {h t : Nat} (hle : h ≤ t) (hlt : t - h < 2 ^ 32) :
    (turn start t - turn start h).toNat = t - h := by
  have heq : turn start t = turn start h + (t - h).toUInt32 := by
    rw [turn_add, Nat.add_sub_cancel' hle]
  rw [heq, UInt32.add_comm, UInt32.add_sub_cancel, Nat.toUInt32_eq, UInt32.toNat_ofNat',
    Nat.mod_eq_of_lt hlt]

/-- The cell of a turn. -/
def cell (mask start : UInt32) (n : Nat) : UInt32 := turn start n &&& mask

/-- A mask for `size` cells. -/
def Sized (mask : UInt32) (size : Nat) : Prop :=
  ∃ k ≤ 31, size = 2 ^ k ∧ mask.toNat = 2 ^ k - 1

theorem Sized.lt {mask : UInt32} {size : Nat} (h : Sized mask size) : size < 2 ^ 32 := by
  obtain ⟨k, hk, rfl, -⟩ := h
  exact Nat.pow_lt_pow_right (by decide) (by omega)

/-- Turns less than a lap apart have different cells. -/
theorem cell_inj {mask start : UInt32} {size i j : Nat} (hs : Sized mask size) (hij : i ≤ j)
    (hj : j < i + size) (h : cell mask start i = cell mask start j) : i = j := by
  obtain ⟨k, hk, rfl, hmask⟩ := hs
  have hmod : ∀ n, (cell mask start n).toNat = (start.toNat + n) % 2 ^ k := by
    intro n
    have hdvd : 2 ^ k ∣ 2 ^ 32 := Nat.pow_dvd_pow 2 (by omega)
    rw [cell, turn, UInt32.toNat_and, hmask, Nat.and_two_pow_sub_one_eq_mod, UInt32.toNat_add,
      Nat.toUInt32_eq, UInt32.toNat_ofNat', Nat.mod_mod_of_dvd _ hdvd, Nat.add_mod,
      Nat.mod_mod_of_dvd _ hdvd, ← Nat.add_mod]
  have hcong : start.toNat + i ≡ start.toNat + j [MOD 2 ^ k] := by
    have := congrArg UInt32.toNat h
    rwa [hmod, hmod] at this
  have hdvd : 2 ^ k ∣ j - i := (Nat.modEq_iff_dvd' hij).mp (Nat.ModEq.add_left_cancel' _ hcong)
  have hzero : j - i = 0 := Nat.eq_zero_of_dvd_of_lt hdvd (by omega)
  omega

/-! ### What a ring holds -/

variable {α : Type u} {mask start : UInt32} {size head : Nat} {cells : UInt32 → α} {log : List α}

/-- The entries of `log` from `head` on lie in their cells. -/
structure Held (mask start : UInt32) (size : Nat) (cells : UInt32 → α) (log : List α)
    (head : Nat) : Prop where
  sized : Sized mask size
  head_le : head ≤ log.length
  room : log.length ≤ head + size
  cells_eq : ∀ j x, head ≤ j → log[j]? = some x → cells (cell mask start j) = x

namespace Held

theorem nil (hs : Sized mask size) (cells : UInt32 → α) : Held mask start size cells [] 0 :=
  ⟨hs, Nat.le_refl 0, Nat.zero_le _, fun j x _ h => by cases h⟩

/-- The cells of the entries held. -/
theorem cells_drop (log : List α) (head : Nat) :
    ((List.range log.length).map (cell mask start)).drop head =
      (List.range (log.length - head)).map fun i => cell mask start (head + i) := by
  rw [← List.map_drop, @List.range_eq_range' log.length, List.drop_range', Nat.zero_add,
    Nat.mul_one, List.range'_eq_map_range, List.map_map]
  rfl

variable (h : Held mask start size cells log head)
include h

/-- The wrapped difference of the counters is the number of entries. -/
theorem count : (turn start log.length - turn start head).toNat = log.length - head := by
  have hlt := h.sized.lt
  have hroom := h.room
  exact turn_sub h.head_le (by omega)

theorem push (hroom : log.length < head + size) (x : α) :
    Held mask start size (Function.update cells (cell mask start log.length) x) (log ++ [x])
      head := by
  have hlen : (log ++ [x]).length = log.length + 1 := List.length_append
  have hle := h.head_le
  refine ⟨h.sized, by omega, by omega, ?_⟩
  intro j y hj hy
  rcases Nat.lt_trichotomy j log.length with hlt | rfl | hgt
  · -- An older entry is less than a lap away, so its cell is another one.
    have hne : cell mask start j ≠ cell mask start log.length := by
      intro heq
      have := cell_inj h.sized (Nat.le_of_lt hlt) (by omega) heq
      omega
    rw [Function.update_of_ne hne]
    rw [List.getElem?_append_left hlt] at hy
    exact h.cells_eq j y hj hy
  · rw [List.getElem?_concat_length] at hy
    rw [Function.update_self]
    exact Option.some.inj hy
  · rw [List.getElem?_eq_none (by omega)] at hy
    cases hy

/-- The first entries are given up. -/
theorem advance {head' : Nat} (hle : head ≤ head') (hlen : head' ≤ log.length) :
    Held mask start size cells log head' := by
  have hroom := h.room
  exact ⟨h.sized, hlen, by omega, fun j x hj => h.cells_eq j x (Nat.le_trans hle hj)⟩

/-- Reading the next entries by their turns. -/
theorem read {n : Nat} (hn : head + n ≤ log.length) :
    (List.range n).map (fun i => cells (cell mask start (head + i))) = (log.drop head).take n := by
  apply List.ext_getElem?
  intro i
  rw [List.getElem?_map]
  rcases Nat.lt_or_ge i n with hi | hi
  · have hlt : head + i < log.length := by omega
    rw [List.getElem?_range hi, List.getElem?_take_of_lt hi, List.getElem?_drop,
      List.getElem?_eq_getElem hlt, Option.map_some,
      h.cells_eq (head + i) _ (Nat.le_add_right head i) (List.getElem?_eq_getElem hlt)]
  · rw [List.getElem?_eq_none (by rwa [List.length_range]),
      List.getElem?_eq_none (Nat.le_trans (List.length_take_le n _) hi)]
    rfl

/-- The entries held lie in different cells … -/
theorem nodup : (((List.range log.length).map (cell mask start)).drop head).Nodup := by
  have hroom := h.room
  rw [cells_drop]
  apply List.Nodup.map_on _ List.nodup_range
  intro i hi j hj heq
  have hi := List.mem_range.mp hi
  have hj := List.mem_range.mp hj
  rcases Nat.le_total i j with hij | hij
  · have := cell_inj h.sized (by omega) (by omega) heq
    omega
  · have := cell_inj h.sized (by omega) (by omega) heq.symm
    omega

/-- … and are read from them. -/
theorem rest :
    (((List.range log.length).map (cell mask start)).drop head).map cells = log.drop head := by
  have hle := h.head_le
  rw [cells_drop, List.map_map, Function.comp_def, h.read (by omega), ← List.length_drop,
    List.take_length]

end Held

end Counters

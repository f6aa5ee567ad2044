import Vanilla.Http1.Basic
import Mathlib.Data.List.Forall2

/-!
# Static assets — globs

The patterns that say how an asset is cached (`glob_match` of `static_assets/static_assets.v`): `*`,
`[hash]` and bytes that stand for themselves.

* `items`: a pattern as the list of its items, `Item.Matches`: what an item stands for.
* `glob_match_iff`: the matcher, which tries the pieces one after the other, answers whether the
  name can be cut into pieces for the items.
-/

namespace Vanilla.StaticAssets

/-! ### The source -/

/-- The byte `*`. -/
def star : UInt8 := 42

/-- `hash_token`. -/
def hashToken : List UInt8 := ascii "[hash]"

/-- `is_hex`. -/
def isHex (c : UInt8) : Bool :=
  (48 ≤ c && c ≤ 57) || (97 ≤ c && c ≤ 102) || (65 ≤ c && c ≤ 70)

/-- `match_glob`, on what is left of the pattern and of the name. -/
def matchGlob : List UInt8 → List UInt8 → Bool
  | [], s => s.isEmpty
  | c :: p, s =>
    if c = star then (List.range (s.length + 1)).any fun k => matchGlob p (s.drop k)
    else if hashToken.isPrefixOf (c :: p) then
      let run := (s.takeWhile isHex).length
      if run < 6 then false
      else
        -- `for k := run; k >= si + 6; k--`
        (List.range (run - 5)).any fun i =>
          matchGlob ((c :: p).drop hashToken.length) (s.drop (run - i))
    else
      match s with
      | [] => false
      | d :: s => if d ≠ c then false else matchGlob p s
  termination_by p => p.length
  decreasing_by
    · exact Nat.lt_succ_self _
    · rw [List.length_drop]
      exact Nat.sub_lt (Nat.succ_pos _) (by decide)
    · exact Nat.lt_succ_self _

/-- `glob_match`. -/
def globMatch (pattern name : List UInt8) : Bool := matchGlob pattern name

/-! ### What a pattern says -/

/-- An item of a pattern. -/
inductive Item where
  | any
  | hash
  | byte (c : UInt8)

/-- The items of a pattern. -/
def items : List UInt8 → List Item
  | [] => []
  | c :: p =>
    if c = star then .any :: items p
    else if hashToken.isPrefixOf (c :: p) then .hash :: items ((c :: p).drop hashToken.length)
    else .byte c :: items p
  termination_by p => p.length
  decreasing_by
    · exact Nat.lt_succ_self _
    · rw [List.length_drop]
      exact Nat.sub_lt (Nat.succ_pos _) (by decide)
    · exact Nat.lt_succ_self _

/-- The texts an item stands for. -/
def Item.Matches : Item → List UInt8 → Prop
  | .any, _ => True
  | .hash, w => 6 ≤ w.length ∧ ∀ c ∈ w, isHex c = true
  | .byte c, w => w = [c]

/-- The name can be cut into consecutive pieces, one for each item. -/
def Cut (is : List Item) (name : List UInt8) : Prop :=
  ∃ pieces : List (List UInt8), name = pieces.flatten ∧ List.Forall₂ Item.Matches is pieces

theorem cut_nil {s : List UInt8} : Cut [] s ↔ s = [] := by
  constructor
  · rintro ⟨pieces, rfl, h⟩
    cases h
    rfl
  · rintro rfl
    exact ⟨[], rfl, .nil⟩

/-- The first item has a piece at the front. -/
theorem cut_cons {i : Item} {is : List Item} {s : List UInt8} :
    Cut (i :: is) s ↔ ∃ k ≤ s.length, i.Matches (s.take k) ∧ Cut is (s.drop k) := by
  constructor
  · rintro ⟨pieces, rfl, h⟩
    cases h with
    | @cons _ w _ ws hw hws =>
        refine ⟨w.length, by simp, ?_, ws, ?_, hws⟩
        · rw [List.flatten_cons, List.take_left]
          exact hw
        · rw [List.flatten_cons, List.drop_left]
  · rintro ⟨k, -, hi, ws, hs, hws⟩
    refine ⟨s.take k :: ws, ?_, .cons hi hws⟩
    rw [List.flatten_cons, ← hs, List.take_append_drop]

/-! ### The matcher -/

/-- A front of the name has only hex digits if it is no longer than the run. -/
theorem isHex_take_iff {s : List UInt8} {k : Nat} (hk : k ≤ s.length) :
    (∀ c ∈ s.take k, isHex c = true) ↔ k ≤ (s.takeWhile isHex).length := by
  induction s generalizing k with
  | nil => simp at hk; simp [hk]
  | cons d s ih =>
      cases k with
      | zero => simp
      | succ k =>
          rw [List.take_succ_cons, List.forall_mem_cons, ih (Nat.le_of_succ_le_succ hk),
            List.takeWhile_cons]
          cases hd : isHex d with
          | false => simp
          | true => simp

/-- The pieces a `[hash]` may have are those `match_glob` tries. -/
theorem hash_tries_iff {s : List UInt8} {P : Nat → Prop} :
    (∃ k ≤ s.length, Item.hash.Matches (s.take k) ∧ P k) ↔
      ¬ (s.takeWhile isHex).length < 6 ∧
        ∃ i < (s.takeWhile isHex).length - 5, P ((s.takeWhile isHex).length - i) := by
  have hrun : (s.takeWhile isHex).length ≤ s.length := (List.takeWhile_sublist isHex).length_le
  constructor
  · rintro ⟨k, hk, ⟨hlen, hhex⟩, hP⟩
    rw [List.length_take, Nat.min_eq_left hk] at hlen
    rw [isHex_take_iff hk] at hhex
    refine ⟨by omega, (s.takeWhile isHex).length - k, by omega, ?_⟩
    rwa [Nat.sub_sub_self hhex]
  · rintro ⟨hsix, i, hi, hP⟩
    have hk : (s.takeWhile isHex).length - i ≤ s.length := by omega
    refine ⟨_, hk, ⟨?_, (isHex_take_iff hk).mpr (Nat.sub_le _ _)⟩, hP⟩
    rw [List.length_take, Nat.min_eq_left hk]
    omega

theorem matchGlob_iff (p s : List UInt8) : matchGlob p s = true ↔ Cut (items p) s := by
  fun_induction matchGlob p s with
  | case1 s => rw [items, cut_nil, List.isEmpty_iff]
  | case2 s p ih =>
      rw [items, if_pos rfl, cut_cons, List.any_eq_true]
      constructor
      · rintro ⟨k, hk, h⟩
        exact ⟨k, Nat.lt_succ_iff.mp (List.mem_range.mp hk), trivial, (ih k).mp h⟩
      · rintro ⟨k, hk, -, h⟩
        exact ⟨k, List.mem_range.mpr (Nat.lt_succ_of_le hk), (ih k).mpr h⟩
  | case3 s c p hc hhash run hrun =>
      rw [items, if_neg hc, if_pos hhash, cut_cons, hash_tries_iff]
      exact ⟨nofun, fun h => absurd hrun h.1⟩
  | case4 s c p hc hhash run hrun ih =>
      rw [items, if_neg hc, if_pos hhash, cut_cons, hash_tries_iff, List.any_eq_true]
      constructor
      · rintro ⟨i, hi, h⟩
        exact ⟨hrun, i, List.mem_range.mp hi, (ih i).mp h⟩
      · rintro ⟨-, i, hi, h⟩
        exact ⟨i, List.mem_range.mpr hi, (ih i).mpr h⟩
  | case5 c p hc hhash =>
      rw [items, if_neg hc, if_neg hhash, cut_cons]
      refine ⟨nofun, ?_⟩
      rintro ⟨k, -, hw, -⟩
      rw [List.take_nil] at hw
      cases hw
  | case6 c p hc hhash d s hd =>
      rw [items, if_neg hc, if_neg hhash, cut_cons]
      refine ⟨nofun, ?_⟩
      rintro ⟨k, -, hw, -⟩
      cases k with
      | zero => cases hw
      | succ k => exact absurd (List.cons.inj hw).1 hd
  | case7 c p hc hhash d s hd ih =>
      obtain rfl : d = c := Decidable.of_not_not hd
      rw [items, if_neg hc, if_neg hhash, cut_cons, ih]
      constructor
      · exact fun h => ⟨1, Nat.succ_le_succ (Nat.zero_le _), rfl, h⟩
      · rintro ⟨k, hk, hw, h⟩
        have hlen := congrArg List.length hw
        rw [List.length_take, Nat.min_eq_left hk] at hlen
        rwa [show k = 1 from hlen] at h

/-- **Glob matching is declarative**: a name matches exactly when it can be cut into consecutive
pieces for the pattern's items, in order. -/
theorem glob_match_iff (pattern name : List UInt8) :
    globMatch pattern name = true ↔
      ∃ pieces : List (List UInt8),
        name = pieces.flatten ∧ List.Forall₂ Item.Matches (items pattern) pieces :=
  matchGlob_iff pattern name

end Vanilla.StaticAssets

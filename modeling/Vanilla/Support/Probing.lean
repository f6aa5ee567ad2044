import Mathlib.Data.Fintype.Basic
import Mathlib.Data.Finset.Max
import Vanilla.Support.Loop

/-!
# Support — open addressing

A table of `n` slots, probed one after the other from a key's home slot and round the end, with
deletion that shifts later keys back instead of leaving a mark.  A slot that holds the key `e` is
free.

* `Valid`: every key can be reached from its home slot past slots that are taken, and no key is in
  two slots.
* `probe_key`, `probe_free`: in a valid table a probe finds the key, or the free slot it belongs in.
* `Valid.put`: a key put where its probe ended leaves the table valid.
* `shift_spec`: deletion ends, leaves the table valid, and takes away the one key.
-/

namespace Probing
open Scan

universe u v

variable {n : Nat} {K : Type u} {V : Type v}

/-! ### Going round -/

/-- How many slots forward, going round, it is from `a` to `b`. -/
def dist (a b : Fin n) : Nat := if a ≤ b then b.val - a.val else n + b.val - a.val

/-- The slot behind `i`, going round. -/
def next (i : Fin n) : Fin n :=
  ⟨if i.val + 1 < n then i.val + 1 else 0, by have := i.isLt; split <;> omega⟩

theorem dist_spec (a b : Fin n) :
    a.val ≤ b.val ∧ dist a b + a.val = b.val ∨ b.val < a.val ∧ dist a b + a.val = n + b.val := by
  have := a.isLt
  simp only [dist, Fin.le_def]
  split <;> omega

theorem next_spec (i : Fin n) :
    i.val + 1 < n ∧ (next i).val = i.val + 1 ∨ i.val + 1 = n ∧ (next i).val = 0 := by
  have := i.isLt
  simp only [next]
  split <;> omega

theorem dist_self (a : Fin n) : dist a a = 0 := by simp [dist]

theorem dist_lt (a b : Fin n) : dist a b < n := by
  have := dist_spec a b
  have := b.isLt
  omega

theorem dist_inj {a b c : Fin n} (h : dist a b = dist a c) : b = c := by
  have := dist_spec a b
  have := dist_spec a c
  have := b.isLt
  have := c.isLt
  rw [Fin.ext_iff]
  omega

theorem dist_next {a i : Fin n} (h : next i ≠ a) : dist a (next i) = dist a i + 1 := by
  have := dist_spec a (next i)
  have := dist_spec a i
  have := next_spec i
  have := a.isLt
  rw [ne_eq, Fin.ext_iff] at h
  omega

/-- Before the way from `a` to `b` is over, the next slot is not `a` again. -/
theorem next_ne {a b i : Fin n} (h : dist a i < dist a b) : next i ≠ a := by
  have := dist_spec a i
  have := dist_spec a b
  have := next_spec i
  have := b.isLt
  rw [ne_eq, Fin.ext_iff]
  omega

/-! ### Tables -/

/-- The slots of a table: the key in each, and its value. -/
structure Slots (n : Nat) (K : Type u) (V : Type v) where
  keys : Fin n → K
  vals : Fin n → V

/-- Write a slot. -/
def Slots.set (t : Slots n K V) (i : Fin n) (k : K) (v : V) : Slots n K V :=
  ⟨Function.update t.keys i k, Function.update t.vals i v⟩

variable (e : K) (home : K → Fin n)

/-- A probe for `k`: the first slot, from `i` on, that holds `k` or is free. -/
def probe [DecidableEq K] (keys : Fin n → K) (k : K) : Nat → Fin n → Option (Fin n)
  | 0, _ => none
  | m + 1, i => if keys i = k ∨ keys i = e then some i else probe keys k m (next i)

/-- The deletion loop: `hole` is the slot to fill, and the slots behind it have been looked at up
to `j`. -/
structure Shift (n : Nat) (K : Type u) (V : Type v) where
  slots : Slots n K V
  hole : Fin n
  j : Fin n

/-- `x` lies behind `hole`, up to `j`, going round. -/
def between (hole j x : Fin n) : Bool :=
  if hole ≤ j then hole < x && x ≤ j else hole < x || x ≤ j

/-- One pass: at a free slot the loop ends; a key whose home does not lie behind the hole moves
into it. -/
def shiftStep [DecidableEq K] (s : Shift n K V) : Turn (Shift n K V) (Shift n K V) :=
  let j := next s.j
  let k := s.slots.keys j
  if k = e then .exit s
  else if between s.hole j (home k) then .next { s with j := j }
  else .next ⟨s.slots.set s.hole k (s.slots.vals j), j, j⟩

/-- Every key can be reached from its home, and stands in one slot. -/
structure Valid (keys : Fin n → K) : Prop where
  reach : ∀ i, keys i ≠ e → ∀ m, dist (home (keys i)) m < dist (home (keys i)) i → keys m ≠ e
  inj : ∀ i j, keys i ≠ e → keys i = keys j → i = j

/-- The table holds `v` under `k`. -/
def Holds (t : Slots n K V) (k : K) (v : V) : Prop :=
  k ≠ e ∧ ∃ i, t.keys i = k ∧ t.vals i = v

variable {e home}

/-! ### Probes -/

section Probe

variable [DecidableEq K] {keys : Fin n → K} {k : K}

/-- A probe ends at the first slot it can end at. -/
theorem probe_first {h s : Fin n} (hs : keys s = k ∨ keys s = e)
    (hb : ∀ m, dist h m < dist h s → ¬ (keys m = k ∨ keys m = e)) :
    probe e keys k n h = some s := by
  -- on the passes left, from a slot on the way
  suffices H : ∀ (f : Nat) (i : Fin n), dist h i ≤ dist h s → dist h s - dist h i < f →
      probe e keys k f i = some s by
    refine H n h ?_ ?_
    · rw [dist_self]; exact Nat.zero_le _
    · rw [dist_self]; exact dist_lt h s
  intro f
  induction f with
  | zero => intro i _ hf; omega
  | succ f ih =>
      intro i hle hf
      rw [probe]
      rcases Nat.lt_or_eq_of_le hle with hlt | heq
      · have hne := next_ne hlt
        rw [if_neg (hb i hlt)]
        exact ih (next i) (by rw [dist_next hne]; omega) (by rw [dist_next hne]; omega)
      · obtain rfl := dist_inj heq
        rw [if_pos hs]

/-- In a valid table a probe finds its key. -/
theorem probe_key (hv : Valid e home keys) {i : Fin n} (hk : k ≠ e) (hi : keys i = k) :
    probe e keys k n (home k) = some i := by
  subst hi
  refine probe_first (.inl rfl) fun m hm hor => ?_
  rcases hor with h | h
  · obtain rfl := hv.inj i m hk h.symm
    exact Nat.lt_irrefl _ hm
  · exact hv.reach i hk m hm h

/-- Where there is a free slot, a probe for a key that is not there ends at one, and all slots
before that are taken. -/
theorem probe_free {z : Fin n} (hz : keys z = e) (hk : ∀ i, keys i ≠ k) :
    ∃ s, probe e keys k n (home k) = some s ∧ keys s = e ∧
      ∀ m, dist (home k) m < dist (home k) s → keys m ≠ e := by
  obtain ⟨s, hs, hmin⟩ := Finset.exists_min_image (Finset.univ.filter fun i => keys i = e)
    (dist (home k)) ⟨z, by simp [hz]⟩
  simp only [Finset.mem_filter, Finset.mem_univ, true_and] at hs hmin
  have hb : ∀ m, dist (home k) m < dist (home k) s → keys m ≠ e := fun m hm hem =>
    absurd (hmin m hem) (by omega)
  refine ⟨s, probe_first (.inr hs) fun m hm hor => ?_, hs, hb⟩
  exact hor.elim (hk m) (hb m hm)

end Probe

/-! ### Adding a key -/

theorem Valid.put {keys : Fin n → K} (hv : Valid e home keys) {k : K} {s : Fin n} (hk : k ≠ e)
    (habs : ∀ i, keys i ≠ k) (hb : ∀ m, dist (home k) m < dist (home k) s → keys m ≠ e) :
    Valid e home (Function.update keys s k) := by
  have hfill : ∀ m, keys m ≠ e → Function.update keys s k m ≠ e := by
    intro m hm
    by_cases h : m = s
    · rw [h, Function.update_self]; exact hk
    · rwa [Function.update_of_ne h]
  refine ⟨fun i hi m hm => ?_, fun i j hi hij => ?_⟩
  · by_cases h : i = s
    · subst h
      rw [Function.update_self] at hm
      exact hfill m (hb m hm)
    · rw [Function.update_of_ne h] at hi hm
      exact hfill m (hv.reach i hi m hm)
  · by_cases h : i = s <;> by_cases h' : j = s
    · exact h.trans h'.symm
    · rw [h, Function.update_self, Function.update_of_ne h'] at hij
      exact absurd hij.symm (habs j)
    · rw [h', Function.update_self, Function.update_of_ne h] at hij
      exact absurd hij (habs i)
    · rw [Function.update_of_ne h] at hi hij
      rw [Function.update_of_ne h'] at hij
      exact hv.inj i j hi hij

/-! ### Taking a key away -/

theorem between_iff {hole j x : Fin n} :
    between hole j x = true ↔ 0 < dist hole x ∧ dist hole x ≤ dist hole j := by
  have := dist_spec hole x
  have := dist_spec hole j
  simp only [between, Fin.le_def, Fin.lt_def]
  split <;> simp only [Bool.and_eq_true, Bool.or_eq_true, decide_eq_true_eq] <;> omega

/-- What the deletion loop keeps, `z` being a free slot: the slots it has passed are taken, all
keys but the one at the hole are where they can be reached, and a key whose way leads over the hole
is further on. -/
structure Shifting (e : K) (home : K → Fin n) (t : Slots n K V) (k₀ : K) (z : Fin n)
    (s : Shift n K V) : Prop where
  free : s.slots.keys z = e
  taken : ∀ m, dist s.hole m ≤ dist s.hole s.j → s.slots.keys m ≠ e
  holds : ∀ k v, (k ≠ e ∧ ∃ i, i ≠ s.hole ∧ s.slots.keys i = k ∧ s.slots.vals i = v) ↔
    Holds e t k v ∧ k ≠ k₀
  inj : ∀ i j, i ≠ s.hole → j ≠ s.hole → s.slots.keys i ≠ e → s.slots.keys i = s.slots.keys j →
    i = j
  reach : ∀ i, i ≠ s.hole → s.slots.keys i ≠ e → ∀ m,
    dist (home (s.slots.keys i)) m < dist (home (s.slots.keys i)) i →
    s.slots.keys m ≠ e ∧ (m = s.hole → dist s.hole s.j < dist s.hole i)

section Shift

variable {t : Slots n K V} {k₀ : K} {z : Fin n} {s s' : Shift n K V}

theorem shifting_start (hv : Valid e home t.keys) {h : Fin n} (hh : t.keys h ≠ e)
    (hz : t.keys z = e) : Shifting e home t (t.keys h) z ⟨t, h, h⟩ where
  free := hz
  taken m hm := by
    rw [dist_self, Nat.le_zero] at hm
    rwa [dist_inj (hm.trans (dist_self h).symm)]
  holds k v := by
    constructor
    · rintro ⟨hk, i, hi, rfl, rfl⟩
      exact ⟨⟨hk, i, rfl, rfl⟩, fun e' => hi (hv.inj i h hk e')⟩
    · rintro ⟨⟨hk, i, rfl, rfl⟩, hne⟩
      exact ⟨hk, i, fun e' => hne (by rw [e']), rfl, rfl⟩
  inj i j _ _ hi hij := hv.inj i j hi hij
  reach i hi hk m hm := by
    refine ⟨hv.reach i hk m hm, fun _ => ?_⟩
    rw [dist_self]
    refine Nat.pos_of_ne_zero fun h0 => hi ?_
    exact dist_inj (h0.trans (dist_self h).symm)

/-- The free slot is still ahead. -/
theorem Shifting.ahead (h : Shifting e home t k₀ z s) : dist s.hole s.j < dist s.hole z :=
  Nat.lt_of_not_le fun hle => h.taken z hle h.free

theorem Shifting.stay (h : Shifting e home t k₀ z s) (hk : s.slots.keys (next s.j) ≠ e)
    (hb : between s.hole (next s.j) (home (s.slots.keys (next s.j))) = true) :
    Shifting e home t k₀ z { s with j := next s.j } := by
  have hnext : dist s.hole (next s.j) = dist s.hole s.j + 1 := dist_next (next_ne h.ahead)
  refine ⟨h.free, fun m hm => ?_, h.holds, h.inj, fun i hi hki m hm => ?_⟩
  · simp only [hnext] at hm
    rcases Nat.lt_or_eq_of_le hm with hlt | heq
    · exact h.taken m (by omega)
    · rwa [dist_inj (heq.trans hnext.symm)]
  · dsimp only at hi hki hm ⊢
    obtain ⟨hkm, hhole⟩ := h.reach i hi hki m hm
    refine ⟨hkm, ?_⟩
    rintro rfl
    have hlt := hhole rfl
    rcases Nat.lt_or_eq_of_le (Nat.succ_le_of_lt hlt) with hlt' | heq
    · rw [hnext]; exact hlt'
    -- the key at the new slot does not come over the hole
    · obtain rfl : next s.j = i := dist_inj (hnext.trans heq)
      obtain ⟨h₁, h₂⟩ := between_iff.mp hb
      have := dist_spec s.hole (home (s.slots.keys (next s.j)))
      have := dist_spec s.hole (next s.j)
      have := dist_spec (home (s.slots.keys (next s.j))) s.hole
      have := dist_spec (home (s.slots.keys (next s.j))) (next s.j)
      have := dist_lt s.hole (next s.j)
      omega

theorem Shifting.move (h : Shifting e home t k₀ z s) (hk : s.slots.keys (next s.j) ≠ e)
    (hb : ¬ between s.hole (next s.j) (home (s.slots.keys (next s.j))) = true) :
    Shifting e home t k₀ z
      ⟨s.slots.set s.hole (s.slots.keys (next s.j)) (s.slots.vals (next s.j)), next s.j,
        next s.j⟩ := by
  have hne : next s.j ≠ s.hole := next_ne h.ahead
  have hhole : s.slots.keys s.hole ≠ e := h.taken s.hole (by rw [dist_self]; exact Nat.zero_le _)
  have hfill : ∀ m, s.slots.keys m ≠ e →
      Function.update s.slots.keys s.hole (s.slots.keys (next s.j)) m ≠ e := by
    intro m hm
    by_cases h' : m = s.hole
    · rw [h', Function.update_self]; exact hk
    · rwa [Function.update_of_ne h']
  refine ⟨?_, fun m hm => ?_, fun k v => ?_, fun i j hi hj hki hij => ?_,
    fun i hi hki m hm => ?_⟩ <;> simp only [Slots.set] at *
  · rw [Function.update_of_ne (by rintro rfl; exact hhole h.free)]
    exact h.free
  · rw [dist_self, Nat.le_zero] at hm
    obtain rfl := dist_inj (hm.trans (dist_self _).symm)
    exact hfill _ hk
  · rw [← h.holds k v]
    refine and_congr_right fun _ => ⟨?_, ?_⟩
    · rintro ⟨i, hi, hik, hiv⟩
      by_cases h' : i = s.hole
      · subst h'
        rw [Function.update_self] at hik hiv
        exact ⟨next s.j, hne, hik, hiv⟩
      · rw [Function.update_of_ne h'] at hik hiv
        exact ⟨i, h', hik, hiv⟩
    · rintro ⟨i, hi, hik, hiv⟩
      by_cases h' : i = next s.j
      · subst h'
        exact ⟨s.hole, hne.symm, by rw [Function.update_self, hik],
          by rw [Function.update_self, hiv]⟩
      · exact ⟨i, h', by rw [Function.update_of_ne hi, hik], by rw [Function.update_of_ne hi, hiv]⟩
  · by_cases h₁ : i = s.hole <;> by_cases h₂ : j = s.hole
    · exact h₁.trans h₂.symm
    · rw [h₁, Function.update_self, Function.update_of_ne h₂] at hij
      exact absurd (h.inj _ _ hne h₂ hk hij).symm hj
    · rw [h₂, Function.update_self, Function.update_of_ne h₁] at hij
      rw [Function.update_of_ne h₁] at hki
      exact absurd (h.inj _ _ h₁ hne hki hij) hi
    · rw [Function.update_of_ne h₁] at hki hij
      rw [Function.update_of_ne h₂] at hij
      exact h.inj i j h₁ h₂ hki hij
  · refine ⟨?_, fun _ => ?_⟩
    · by_cases h' : i = s.hole
      · subst h'
        rw [Function.update_self] at hm
        refine hfill m (h.reach (next s.j) hne hk m ?_).1
        rw [between_iff] at hb
        have := dist_spec s.hole (home (s.slots.keys (next s.j)))
        have := dist_spec s.hole (next s.j)
        have := dist_spec (home (s.slots.keys (next s.j))) s.hole
        have := dist_spec (home (s.slots.keys (next s.j))) (next s.j)
        have := dist_lt s.hole (home (s.slots.keys (next s.j)))
        rw [ne_eq, Fin.ext_iff] at hne
        omega
      · rw [Function.update_of_ne h'] at hki hm
        exact hfill m (h.reach i h' hki m hm).1
    · rw [dist_self]
      refine Nat.pos_of_ne_zero fun h0 => hi ?_
      exact dist_inj (h0.trans (dist_self _).symm)

/-- At a free slot the key at the hole can go. -/
theorem Shifting.clear (h : Shifting e home t k₀ z s) (hk : s.slots.keys (next s.j) = e) (w : V) :
    Valid e home (s.slots.set s.hole e w).keys ∧
      ∀ k v, Holds e (s.slots.set s.hole e w) k v ↔ Holds e t k v ∧ k ≠ k₀ := by
  have hnext : dist s.hole (next s.j) = dist s.hole s.j + 1 := dist_next (next_ne h.ahead)
  have hlive : ∀ i, (s.slots.set s.hole e w).keys i ≠ e → i ≠ s.hole := by
    rintro i hi rfl
    exact hi (Function.update_self ..)
  have hkeys : ∀ i, i ≠ s.hole → (s.slots.set s.hole e w).keys i = s.slots.keys i :=
    fun i hi => Function.update_of_ne hi ..
  have hvals : ∀ i, i ≠ s.hole → (s.slots.set s.hole e w).vals i = s.slots.vals i :=
    fun i hi => Function.update_of_ne hi ..
  refine ⟨⟨fun i hki m hm => ?_, fun i j hki hij => ?_⟩, fun k v => ?_⟩
  · have hi := hlive i hki
    rw [hkeys i hi] at hki hm
    obtain ⟨hkm, hhole⟩ := h.reach i hi hki m hm
    have hm' : m ≠ s.hole := by
      rintro rfl
      -- a way over the hole would lead over the free slot as well
      have hlt := hhole rfl
      have hne : i ≠ next s.j := by
        rintro rfl
        exact hki hk
      refine (h.reach i hi hki (next s.j) ?_).1 hk
      have hne' : dist s.hole (next s.j) ≠ dist s.hole i := fun e' => hne (dist_inj e').symm
      have := dist_spec (home (s.slots.keys i)) s.hole
      have := dist_spec (home (s.slots.keys i)) i
      have := dist_spec (home (s.slots.keys i)) (next s.j)
      have := dist_spec s.hole i
      have := dist_spec s.hole (next s.j)
      have := dist_lt (home (s.slots.keys i)) i
      omega
    rwa [hkeys m hm']
  · have hi := hlive i hki
    have hj := hlive j (hij ▸ hki)
    rw [hkeys i hi] at hki hij
    rw [hkeys j hj] at hij
    exact h.inj i j hi hj hki hij
  · rw [← h.holds k v]
    refine and_congr_right fun hke => ⟨?_, ?_⟩
    · rintro ⟨i, hik, hiv⟩
      have hi := hlive i (hik ▸ hke)
      exact ⟨i, hi, (hkeys i hi).symm.trans hik, (hvals i hi).symm.trans hiv⟩
    · rintro ⟨i, hi, hik, hiv⟩
      exact ⟨i, (hkeys i hi).trans hik, (hvals i hi).trans hiv⟩

variable [DecidableEq K]

theorem shiftStep_next (h : Shifting e home t k₀ z s) (hs : shiftStep e home s = .next s') :
    Shifting e home t k₀ z s' ∧ dist s'.j z < dist s.j z := by
  have hmove : dist (next s.j) z < dist s.j z := by
    have := h.ahead
    have := next_ne h.ahead
    have := dist_spec s.hole s.j
    have := dist_spec s.hole z
    have := dist_spec s.j z
    have := dist_spec (next s.j) z
    have := next_spec s.j
    omega
  unfold shiftStep at hs
  dsimp only at hs
  split at hs
  · cases hs
  · rename_i hk
    split at hs <;> cases hs
    · rename_i hb
      exact ⟨h.stay hk hb, hmove⟩
    · rename_i hb
      exact ⟨h.move hk hb, hmove⟩

/-- **Deletion.**  With a free slot somewhere the loop ends, in fewer passes than there are slots,
and what it leaves, with the hole cleared, is a valid table without the one key. -/
theorem shift_spec (hv : Valid e home t.keys) {h : Fin n} (hh : t.keys h ≠ e) (hz : t.keys z = e)
    (out : Shift n K V) (w : V) :
    ∃ s, Exits (shiftStep e home) ⟨t, h, h⟩ s ∧
      iter (shiftStep e home) out n ⟨t, h, h⟩ = s ∧
      Valid e home (s.slots.set s.hole e w).keys ∧
      ∀ k v, Holds e (s.slots.set s.hole e w) k v ↔ Holds e t k v ∧ k ≠ t.keys h := by
  have hd : Descends (shiftStep e home) (fun s => dist s.j z)
      (Shifting e home t (t.keys h) z) := fun s s' hs hstep => shiftStep_next hs hstep
  have hstart := shifting_start (z := z) hv hh hz
  have hfuel : iter (shiftStep e home) out n ⟨t, h, h⟩ =
      loop (shiftStep e home) (fun s => dist s.j z) out ⟨t, h, h⟩ :=
    iter_fuel hd _ _ _ hstart (dist_lt h z) (Nat.lt_succ_self _)
  refine ⟨_, ?_, rfl, ?_⟩
  · rw [hfuel]
    exact loop_rule hd (P := Exits (shiftStep e home)) (fun s a _ hs => .exit hs)
      (fun s s' a _ hs ht => .next hs ht) hstart
  · rw [hfuel]
    refine loop_rule hd (P := fun _ a => Valid e home (a.slots.set a.hole e w).keys ∧
      ∀ k v, Holds e (a.slots.set a.hole e w) k v ↔ Holds e t k v ∧ k ≠ t.keys h)
      (fun s a hs hstep => ?_) (fun _ _ _ _ _ ht => ht) hstart
    unfold shiftStep at hstep
    dsimp only at hstep
    split at hstep
    · rename_i hk
      cases hstep
      exact hs.clear hk w
    · split at hstep <;> cases hstep

end Shift

end Probing

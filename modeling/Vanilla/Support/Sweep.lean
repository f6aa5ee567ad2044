import Vanilla.Support.Loop

/-!
# Support — sweeps

A `for` loop over an array that may change each element when it comes to it, and may return before
the last one.  `visit i s a` is the pass at index `i`, from the loop's state `s` and the element
`a`; the elements behind a return stay as they are.

* `sweep_rule`: what every pass keeps of the state and of the elements seen so far, as they were and
  as they are, holds to the end.
* `Swept R l l'`: `l'` is `l` with each element changed as `R` says.
* `Least Ok d best l`: `best` is the index of an element that is `Ok` and has the least `d` among
  those, with that `d`, as a loop that looks for it keeps it.
-/

namespace Scan

universe u v w

variable {σ : Type u} {α : Type v} {ρ : Type w}

/-- The loop from index `i` on. -/
def sweep (visit : Nat → σ → α → Turn σ ρ × α) (out : σ → ρ) : Nat → σ → List α → ρ × List α
  | _, s, [] => (out s, [])
  | i, s, a :: rest =>
    match visit i s a with
    | (.exit r, a') => (r, a' :: rest)
    | (.next s', a') =>
      let t := sweep visit out (i + 1) s' rest
      (t.1, a' :: t.2)

/-- **The rule of sweeps.**  `I` is about the elements behind the loop, `P` about all of them. -/
theorem sweep_rule {visit : Nat → σ → α → Turn σ ρ × α} {out : σ → ρ}
    {I : σ → List α → List α → Prop} {P : ρ → List α → List α → Prop}
    (hnext : ∀ s s' a a' l l', I s l l' → visit l.length s a = (.next s', a') →
      I s' (l ++ [a]) (l' ++ [a']))
    (hexit : ∀ s r a a' l l' rest, I s l l' → visit l.length s a = (.exit r, a') →
      P r (l ++ a :: rest) (l' ++ a' :: rest))
    (hout : ∀ s l l', I s l l' → P (out s) l l') {s : σ} {l : List α} (hs : I s [] []) :
    P (sweep visit out 0 s l).1 l (sweep visit out 0 s l).2 := by
  -- on the elements ahead of the loop, those behind it being arbitrary
  suffices hgen : ∀ (rest seen seen' : List α) (s : σ), I s seen seen' →
      P (sweep visit out seen.length s rest).1 (seen ++ rest)
        (seen' ++ (sweep visit out seen.length s rest).2) from hgen l [] [] s hs
  intro rest
  induction rest with
  | nil =>
      intro seen seen' s hI
      rw [sweep, List.append_nil, List.append_nil]
      exact hout s seen seen' hI
  | cons a rest ih =>
      intro seen seen' s hI
      rw [sweep]
      split
      · rename_i r a' hv
        exact hexit s r a a' seen seen' rest hI hv
      · rename_i s' a' hv
        have := ih (seen ++ [a]) (seen' ++ [a']) s' (hnext s s' a a' seen seen' hI hv)
        rw [List.length_append, List.length_singleton] at this
        simpa using this

/-- Element by element. -/
structure Swept (R : Nat → α → α → Prop) (l l' : List α) : Prop where
  length : l'.length = l.length
  at_index : ∀ i a', l'[i]? = some a' → ∃ a, l[i]? = some a ∧ R i a a'

namespace Swept

variable {R R' : Nat → α → α → Prop} {l l' : List α}

theorem nil : Swept R [] [] := ⟨rfl, by simp⟩

/-- Of the elements the sweep has changed, those it changes by `R` may be described by `R'`. -/
theorem mono (h : Swept R l l') (hR : ∀ i a a', i < l.length → R i a a' → R' i a a') :
    Swept R' l l' where
  length := h.length
  at_index i a' hi := by
    obtain ⟨a, ha, hr⟩ := h.at_index i a' hi
    exact ⟨a, ha, hR i a a' (List.getElem?_eq_some_iff.mp ha).1 hr⟩

/-- One more element, and some that stay as they are. -/
theorem cons_rest (h : Swept R l l') {a a' : α} (ha : R l.length a a') {rest : List α}
    (hrest : ∀ i b, l.length < i → b ∈ rest → R i b b) :
    Swept R (l ++ a :: rest) (l' ++ a' :: rest) where
  length := by simp [h.length]
  at_index i b hi := by
    by_cases hlt : i < l.length
    · rw [List.getElem?_append_left (h.length.symm ▸ hlt)] at hi
      rw [List.getElem?_append_left hlt]
      exact h.at_index i b hi
    · obtain ⟨k, rfl⟩ : ∃ k, i = l.length + k := ⟨i - l.length, by omega⟩
      rw [← h.length, List.getElem?_append_right (Nat.le_add_right _ _), Nat.add_sub_cancel_left]
        at hi
      rw [List.getElem?_append_right (Nat.le_add_right _ _), Nat.add_sub_cancel_left]
      cases k with
      | zero =>
          cases hi
          exact ⟨a, rfl, ha⟩
      | succ k =>
          rw [List.getElem?_cons_succ] at hi ⊢
          exact ⟨b, hi, hrest _ b (by omega) (List.mem_of_getElem? hi)⟩

theorem concat (h : Swept R l l') {a a' : α} (ha : R l.length a a') :
    Swept R (l ++ [a]) (l' ++ [a']) :=
  h.cons_rest ha (by simp)

/-- One element alone is changed. -/
theorem set {i : Nat} {a a' : α} (ha : l[i]? = some a) (h : R i a a')
    (hrest : ∀ j b, j ≠ i → R j b b) : Swept R l (l.set i a') where
  length := List.length_set
  at_index j b hj := by
    by_cases hij : i = j
    · subst hij
      rw [List.getElem?_set_self (List.getElem?_eq_some_iff.mp ha).1] at hj
      cases hj
      exact ⟨a, ha, h⟩
    · rw [List.getElem?_set_ne hij] at hj
      exact ⟨b, hj, hrest j b (Ne.symm hij)⟩

end Swept

/-- The best element so far, if there is one. -/
def Least (Ok : α → Prop) (d : α → Nat) (best : Option (Nat × Nat)) (l : List α) : Prop :=
  match best with
  | none => ∀ b ∈ l, ¬ Ok b
  | some (k, m) => (∃ a, l[k]? = some a ∧ Ok a ∧ d a = m) ∧ ∀ b ∈ l, Ok b → m ≤ d b

namespace Least

variable {Ok : α → Prop} {d : α → Nat} {best : Option (Nat × Nat)} {l : List α} {a : α}

theorem nil : Least Ok d none [] := by simp [Least]

/-- An element that is not better. -/
theorem pass (h : Least Ok d best l) (ha : Ok a → ∃ k m, best = some (k, m) ∧ m ≤ d a) :
    Least Ok d best (l ++ [a]) := by
  cases best with
  | none =>
      intro b hb
      rcases List.mem_append.mp hb with hb | hb
      · exact h b hb
      · rw [List.mem_singleton.mp hb]
        intro hok
        obtain ⟨k, m, hbest, -⟩ := ha hok
        cases hbest
  | some b =>
      obtain ⟨k, m⟩ := b
      obtain ⟨⟨x, hx, hok, hm⟩, hle⟩ := h
      have hk := (List.getElem?_eq_some_iff.mp hx).1
      refine ⟨⟨x, by rwa [List.getElem?_append_left hk], hok, hm⟩, fun b hb hokb => ?_⟩
      rcases List.mem_append.mp hb with hb | hb
      · exact hle b hb hokb
      · rw [List.mem_singleton.mp hb] at hokb ⊢
        obtain ⟨k', m', hbest, hm'⟩ := ha hokb
        cases hbest
        exact hm'

/-- A better element. -/
theorem take (h : Least Ok d best l) (ha : Ok a) (hd : best.all (d a < ·.2) = true) :
    Least Ok d (some (l.length, d a)) (l ++ [a]) := by
  refine ⟨⟨a, by simp, ha, rfl⟩, fun b hb hok => ?_⟩
  rcases List.mem_append.mp hb with hb | hb
  · cases best with
    | none => exact absurd hok (h b hb)
    | some km =>
        have hlt : d a < km.2 := by simpa using hd
        exact Nat.le_of_lt (Nat.lt_of_lt_of_le hlt (h.2 b hb hok))
  · exact Nat.le_of_eq (congrArg d (List.mem_singleton.mp hb).symm)

/-- The element the loop would take, were it better. -/
theorem keep (h : Least Ok d best l) (hd : best.all (d a < ·.2) = false) :
    Least Ok d best (l ++ [a]) := by
  refine h.pass fun _ => ?_
  cases best with
  | none => cases hd
  | some km => exact ⟨km.1, km.2, rfl, Nat.le_of_not_lt (by simpa using hd)⟩

end Least

end Scan

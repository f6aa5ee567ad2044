import Mathlib.Tactic.Common

/-!
# Support — loops

A `for` loop with early returns, as a value.  One pass through the body is a function from the
loop's state to a `Turn`: go round again with a new state, or return.  `loop step μ out` runs the
passes, `μ` bounding how many there can be; `out` is what the function returns when it falls off
the end of the loop, and it is never reached while each pass makes `μ` smaller (`Descends`).

* `loop_rule`: what every pass keeps and every return establishes holds of the whole loop.
* `loop_sim`: two loops whose passes match, pass by pass, return related answers; the first loop
  may also leave early, at an answer related to everything.
-/

namespace Scan

universe u v w z

/-- What one pass through a loop's body does. -/
inductive Turn (σ : Type u) (α : Type v) where
  | next (s : σ)
  | exit (a : α)
  deriving DecidableEq

namespace Turn

/-- A pass seen through a map of the states and of the answers. -/
def map {σ : Type u} {α : Type v} {τ : Type w} {β : Type z} (f : σ → τ) (g : α → β) :
    Turn σ α → Turn τ β
  | next s => .next (f s)
  | exit a => .exit (g a)

/-- Two passes match: both go round again, at related states, or both return, related answers. -/
inductive Rel {σ : Type u} {α : Type v} {τ : Type w} {β : Type z} (R : σ → τ → Prop)
    (Q : α → β → Prop) : Turn σ α → Turn τ β → Prop where
  | next {s : σ} {t : τ} (h : R s t) : Rel R Q (.next s) (.next t)
  | exit {a : α} {b : β} (h : Q a b) : Rel R Q (.exit a) (.exit b)

/-- Passes that branch on the same question match when their branches do. -/
theorem Rel.ite {σ : Type u} {α : Type v} {τ : Type w} {β : Type z} {R : σ → τ → Prop}
    {Q : α → β → Prop} {c : Prop} {i j : Decidable c} {a b : Turn σ α} {a' b' : Turn τ β}
    (h : c → Rel R Q a a') (h' : ¬ c → Rel R Q b b') :
    Rel R Q (@ite _ c i a b) (@ite _ c j a' b') := by
  by_cases hc : c
  · rw [if_pos hc, if_pos hc]; exact h hc
  · rw [if_neg hc, if_neg hc]; exact h' hc

end Turn

variable {σ : Type u} {α : Type v} {τ : Type w} {β : Type z}

/-- At most `n` passes; `out` is the answer when they run out. -/
def iter (step : σ → Turn σ α) (out : α) : Nat → σ → α
  | 0, _ => out
  | n + 1, s =>
    match step s with
    | .next s' => iter step out n s'
    | .exit a => a

/-- The loop, with the passes `μ` allows it. -/
def loop (step : σ → Turn σ α) (μ : σ → Nat) (out : α) (s : σ) : α :=
  iter step out (μ s + 1) s

/-- The loop ends, and returns `a`. -/
inductive Exits (step : σ → Turn σ α) : σ → α → Prop where
  | exit {s : σ} {a : α} (h : step s = .exit a) : Exits step s a
  | next {s s' : σ} {a : α} (h : step s = .next s') (t : Exits step s' a) : Exits step s a

/-- From a state of `I`, a pass that goes round again stays in `I` and makes `μ` smaller. -/
def Descends (step : σ → Turn σ α) (μ : σ → Nat) (I : σ → Prop) : Prop :=
  ∀ s s', I s → step s = .next s' → I s' ∧ μ s' < μ s

section Rules

variable {step : σ → Turn σ α} {μ : σ → Nat} {I : σ → Prop} {out : α}

theorem iter_fuel (h : Descends step μ I) :
    ∀ (n m : Nat) (s : σ), I s → μ s < n → μ s < m → iter step out n s = iter step out m s := by
  intro n
  induction n with
  | zero => intro m s _ hn; omega
  | succ n ih =>
      intro m s hs hn hm
      obtain ⟨m, rfl⟩ : ∃ k, m = k + 1 := ⟨m - 1, by omega⟩
      simp only [iter]
      cases e : step s with
      | exit a => rfl
      | next s' =>
          obtain ⟨hs', hlt⟩ := h s s' hs e
          exact ih m s' hs' (by omega) (by omega)

theorem loop_next (h : Descends step μ I) {s s' : σ} (hs : I s) (e : step s = .next s') :
    loop step μ out s = loop step μ out s' := by
  obtain ⟨hs', hlt⟩ := h s s' hs e
  show iter step out (μ s + 1) s = _
  simp only [iter, e]
  exact iter_fuel h _ _ s' hs' hlt (Nat.lt_succ_self _)

theorem loop_exit {s : σ} {a : α} (e : step s = .exit a) : loop step μ out s = a := by
  simp only [loop, iter, e]

/-- **The loop rule.**  What every return establishes, and every pass carries back from the state
it goes on to, holds of the loop. -/
theorem loop_rule (h : Descends step μ I) {P : σ → α → Prop}
    (hexit : ∀ s a, I s → step s = .exit a → P s a)
    (hnext : ∀ s s' a, I s → step s = .next s' → P s' a → P s a) {s : σ} (hs : I s) :
    P s (loop step μ out s) := by
  -- on the bound of the passes left
  induction hn : μ s using Nat.strongRecOn generalizing s with
  | _ n ih =>
      subst hn
      cases e : step s with
      | exit a => rw [loop_exit e]; exact hexit s a hs e
      | next s' =>
          obtain ⟨hs', hlt⟩ := h s s' hs e
          rw [loop_next h hs e]
          exact hnext s s' _ hs e (ih _ hlt hs' rfl)

/-- The answer for passes that run out is never given. -/
theorem loop_out (h : Descends step μ I) {s : σ} (hs : I s) (out' : α) :
    loop step μ out s = loop step μ out' s := by
  refine loop_rule h (P := fun s a => a = loop step μ out' s) (fun s a _ e => ?_)
    (fun s s' a hs e ih => ?_) hs
  · exact (loop_exit e).symm
  · rw [ih, loop_next h hs e]

end Rules

/-- **Two loops, pass by pass.**  Matching passes give related answers.  The first loop may also
leave on its own, where its answer is related to whatever the second goes on to return. -/
theorem loop_sim {step₁ : σ → Turn σ α} {μ₁ : σ → Nat} {I₁ : σ → Prop} {out₁ : α}
    {step₂ : τ → Turn τ β} {μ₂ : τ → Nat} {I₂ : τ → Prop} {out₂ : β}
    (h₁ : Descends step₁ μ₁ I₁) (h₂ : Descends step₂ μ₂ I₂) {R : σ → τ → Prop} {Q : α → β → Prop}
    (hR : ∀ s t, I₁ s → I₂ t → R s t →
      (∃ a, step₁ s = .exit a ∧ ∀ b, Q a b) ∨ Turn.Rel R Q (step₁ s) (step₂ t))
    {s : σ} {t : τ} (hs : I₁ s) (ht : I₂ t) (hst : R s t) :
    Q (loop step₁ μ₁ out₁ s) (loop step₂ μ₂ out₂ t) := by
  refine loop_rule h₁ (P := fun s a => ∀ t, I₂ t → R s t → Q a (loop step₂ μ₂ out₂ t))
    (fun s a hs e t ht hst => ?_) (fun s s' a hs e ih t ht hst => ?_) hs t ht hst
  · rcases hR s t hs ht hst with ⟨a', e', hq⟩ | hrel
    · cases e.symm.trans e'; exact hq _
    · rw [e] at hrel
      cases e₂ : step₂ t with
      | next t' => rw [e₂] at hrel; cases hrel
      | exit b =>
          rw [e₂] at hrel
          cases hrel with
          | exit h => rw [loop_exit e₂]; exact h
  · rcases hR s t hs ht hst with ⟨a', e', -⟩ | hrel
    · cases e.symm.trans e'
    · rw [e] at hrel
      cases e₂ : step₂ t with
      | exit b => rw [e₂] at hrel; cases hrel
      | next t' =>
          rw [e₂] at hrel
          cases hrel with
          | next h =>
              rw [loop_next h₂ ht e₂]
              exact ih t' (h₂ t t' ht e₂).1 h

end Scan

import Vanilla.Support.Loop

/-!
# Support — verdicts on a growing buffer

A scanner looks at what has arrived of a stream and answers with a `Verdict`: it needs more, it
refuses, or it accepts.  `Stable f` says that an answer other than `more` is final: it is the
answer on every longer buffer too.

* `loop_append`: a loop is stable when each of its passes is.
-/

namespace Scan

universe u v w z

/-- What a scanner says of the bytes that have arrived. -/
inductive Verdict (ε : Type u) (α : Type v) where
  | more
  | refuse (e : ε)
  | accept (a : α)
  deriving DecidableEq

namespace Verdict

variable {ε : Type u} {α : Type v} {β : Type w}

/-- Go on from an accepted value. -/
def bind : Verdict ε α → (α → Verdict ε β) → Verdict ε β
  | .more, _ => .more
  | .refuse e, _ => .refuse e
  | .accept a, k => k a

def map (g : α → β) (x : Verdict ε α) : Verdict ε β :=
  x.bind fun a => .accept (g a)

/-- Put the refusal in other words. -/
def mapErr {ε' : Type z} (g : ε → ε') : Verdict ε α → Verdict ε' α
  | .more => .more
  | .refuse e => .refuse (g e)
  | .accept a => .accept a

@[simp] theorem bind_more (k : α → Verdict ε β) : (more : Verdict ε α).bind k = .more := rfl

@[simp] theorem bind_refuse (e : ε) (k : α → Verdict ε β) :
    (refuse e : Verdict ε α).bind k = .refuse e := rfl

@[simp] theorem bind_accept (a : α) (k : α → Verdict ε β) : (accept a).bind k = k a := rfl

@[simp] theorem map_more (g : α → β) : (more : Verdict ε α).map g = .more := rfl

@[simp] theorem map_refuse (e : ε) (g : α → β) : (refuse e : Verdict ε α).map g = .refuse e := rfl

@[simp] theorem map_accept (a : α) (g : α → β) : (accept a : Verdict ε α).map g = .accept (g a) :=
  rfl

@[simp] theorem mapErr_more {ε' : Type z} (g : ε → ε') :
    (more : Verdict ε α).mapErr g = .more := rfl

@[simp] theorem mapErr_refuse {ε' : Type z} (g : ε → ε') (e : ε) :
    (refuse e : Verdict ε α).mapErr g = .refuse (g e) := rfl

@[simp] theorem mapErr_accept {ε' : Type z} (g : ε → ε') (a : α) :
    (accept a : Verdict ε α).mapErr g = .accept a := rfl

theorem mapErr_eq_accept {ε' : Type z} {x : Verdict ε α} {g : ε → ε'} {a : α} :
    x.mapErr g = .accept a ↔ x = .accept a := by
  cases x <;> simp

theorem mapErr_eq_more {ε' : Type z} {x : Verdict ε α} {g : ε → ε'} :
    x.mapErr g = .more ↔ x = .more := by
  cases x <;> simp

theorem map_eq_accept {x : Verdict ε α} {g : α → β} {b : β} :
    x.map g = .accept b ↔ ∃ a, x = .accept a ∧ g a = b := by
  cases x <;> simp

theorem map_eq_more {x : Verdict ε α} {g : α → β} : x.map g = .more ↔ x = .more := by
  cases x <;> simp

theorem bind_eq_accept {x : Verdict ε α} {k : α → Verdict ε β} {b : β} :
    x.bind k = .accept b ↔ ∃ a, x = .accept a ∧ k a = .accept b := by
  cases x <;> simp

end Verdict

/-- An answer other than `more` is the answer on every longer buffer. -/
def Stable {α : Type u} {ε : Type v} {β : Type w} (f : List α → Verdict ε β) : Prop :=
  ∀ b x, f b ≠ .more → f (b ++ x) = f b

section Stable

variable {α : Type u} {ε : Type v} {β : Type w} {γ : Type z}

/-- **A loop of stable passes is stable.**  A pass that goes round again, or returns an answer in
`F`, must do the same on the longer buffer. -/
theorem loop_append {σ : Type w} (F : γ → Prop) (step : List α → σ → Turn σ γ)
    (μ : List α → σ → Nat) {I : σ → Prop} {out : γ} {b x : List α} (hd : Descends (step b) (μ b) I)
    (hd' : Descends (step (b ++ x)) (μ (b ++ x)) I)
    (hs : ∀ s, I s → (∀ a, step b s = .exit a → F a) → step (b ++ x) s = step b s) {s : σ}
    (hi : I s) (h : F (loop (step b) (μ b) out s)) :
    loop (step (b ++ x)) (μ (b ++ x)) out s = loop (step b) (μ b) out s := by
  refine loop_sim hd hd' (R := Eq) (Q := fun a a' => F a → a' = a) (fun s t hi _ e => ?_)
    hi hi rfl h
  subst e
  by_cases hF : ∀ a, step b s = .exit a → F a
  · rw [hs s hi hF]
    refine .inr ?_
    cases step b s with
    | next s' => exact .next rfl
    | exit a => exact .exit fun _ => rfl
  · simp only [not_forall] at hF
    obtain ⟨a, e, hF⟩ := hF
    exact .inl ⟨a, e, fun _ h => absurd h hF⟩

end Stable

end Scan

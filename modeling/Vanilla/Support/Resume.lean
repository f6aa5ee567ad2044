import Vanilla.Support.Verdict

/-!
# Support — resumable scanners

A scanner that keeps its place.  It is handed everything that has arrived so far, runs its passes
from where it stopped, and answers; while the answer is `wait` it is called again with a longer
buffer.  A flag tells it that nothing more will come.

`Resumable` says what a pass has to satisfy: what it does without the flag it does on every longer
buffer, and the state it stops in to wait is the state it came from, as far as `view` shows.  What
`view` does not show is where a scanner keeps notes that only save it work.

* `Resumable.feed_append`: stopping on the way makes no difference.
* `Resumable.feed_final`: an answer other than `wait` is the answer on every longer buffer.
* `Resumable.feedAll_eq`: any way to feed a buffer's prefixes comes out as one feed of it.
-/

namespace Scan

universe u v w z

variable {α : Type u} {σ : Type v} {ρ : Type w} {τ : Type z}

/-- Run the passes on what has arrived: the state stopped in, and the answer. -/
def feed (wait : ρ) (step : List α → Bool → σ → Turn σ (σ × ρ)) (μ : List α → σ → Nat) (s : σ)
    (b : List α) (eof : Bool) : σ × ρ :=
  loop (step b eof) (μ b) (s, wait) s

/-- Feed each buffer in turn, the flag with the last one only. -/
def feedAll (feed : σ → List α → Bool → σ × ρ) (eof : Bool) :
    σ → List (List α) → List α → σ × ρ
  | s, [], r => feed s r eof
  | s, p :: ps, r => feedAll feed eof (feed s p false).1 ps r

/-- The same outcome, as far as `view` shows. -/
def SameOutcome (view : σ → τ) (p q : σ × ρ) : Prop := view p.1 = view q.1 ∧ p.2 = q.2

theorem SameOutcome.trans {view : σ → τ} {p q r : σ × ρ} (h : SameOutcome view p q)
    (h' : SameOutcome view q r) : SameOutcome view p r :=
  ⟨h.1.trans h'.1, h.2.trans h'.2⟩

/-- A scanner that can be stopped after any pass and resumed on a longer buffer. -/
structure Resumable (view : σ → τ) (wait : ρ) (step : List α → Bool → σ → Turn σ (σ × ρ))
    (μ : List α → σ → Nat) (I : List α → σ → Prop) : Prop where
  descends (b : List α) (eof : Bool) : Descends (step b eof) (μ b) (I b)
  grow {b : List α} {s : σ} (x : List α) : I b s → I (b ++ x) s
  kept {b : List α} {s s' : σ} {a : ρ} : I b s → step b false s = .exit (s', a) → I b s'
  alike {b : List α} {s t : σ} (eof : Bool) : I b s → I b t → view s = view t →
    Turn.Rel (fun s t => view s = view t) (SameOutcome view) (step b eof s) (step b eof t)
  next {b : List α} {s s' : σ} (x : List α) (eof : Bool) :
    I b s → step b false s = .next s' → step (b ++ x) eof s = .next s'
  final {b : List α} {s s' : σ} {a : ρ} (x : List α) (eof : Bool) : I b s →
    step b false s = .exit (s', a) → a ≠ wait →
      step (b ++ x) eof s = .exit (s', a) ∧ step (b ++ x) eof s' = .exit (s', a)
  resume {b : List α} {s s' : σ} : I b s → step b false s = .exit (s', wait) → view s' = view s

namespace Resumable

variable {view : σ → τ} {wait : ρ} {step : List α → Bool → σ → Turn σ (σ × ρ)}
  {μ : List α → σ → Nat} {I : List α → σ → Prop} {b : List α} {s : σ}

theorem feed_alike (h : Resumable view wait step μ I) {t : σ} (hs : I b s) (ht : I b t)
    (e : view s = view t) (eof : Bool) :
    SameOutcome view (feed wait step μ s b eof) (feed wait step μ t b eof) :=
  loop_sim (h.descends b eof) (h.descends b eof) (fun _ _ hs ht e => .inr (h.alike eof hs ht e))
    hs ht e

theorem feed_next (h : Resumable view wait step μ I) {s' : σ} {eof : Bool} (hs : I b s)
    (e : step b eof s = .next s') : feed wait step μ s b eof = feed wait step μ s' b eof := by
  obtain ⟨hs', -⟩ := h.descends b eof s s' hs e
  rw [feed, loop_next (h.descends b eof) hs e]
  exact loop_out (h.descends b eof) hs' _

theorem feed_kept (h : Resumable view wait step μ I) (hs : I b s) :
    I b (feed wait step μ s b false).1 :=
  loop_rule (h.descends b false) (P := fun _ p => I b p.1) (fun _ _ hs e => h.kept hs e)
    (fun _ _ _ _ _ hp => hp) hs

/-- **Stopping on the way makes no difference.** -/
theorem feed_append (h : Resumable view wait step μ I) (hs : I b s) (x : List α) (eof : Bool) :
    SameOutcome view (feed wait step μ (feed wait step μ s b false).1 (b ++ x) eof)
      (feed wait step μ s (b ++ x) eof) := by
  refine loop_rule (h.descends b false) (P := fun s p => SameOutcome view
      (feed wait step μ p.1 (b ++ x) eof) (feed wait step μ s (b ++ x) eof))
    (fun s p hs e => ?_) (fun s s' p hs e ih => ?_) hs
  · obtain ⟨s', a⟩ := p
    by_cases ha : a = wait
    · subst ha
      exact h.feed_alike (h.grow x (h.kept hs e)) (h.grow x hs) (h.resume hs e) eof
    · obtain ⟨e₁, e₂⟩ := h.final x eof hs e ha
      rw [show feed wait step μ s (b ++ x) eof = (s', a) from loop_exit e₁,
        show feed wait step μ s' (b ++ x) eof = (s', a) from loop_exit e₂]
      exact ⟨rfl, rfl⟩
  · rwa [h.feed_next (h.grow x hs) (h.next x eof hs e)]

/-- **An answer other than `wait` is final.** -/
theorem feed_final (h : Resumable view wait step μ I) (hs : I b s)
    (ha : (feed wait step μ s b false).2 ≠ wait) (x : List α) (eof : Bool) :
    feed wait step μ s (b ++ x) eof = feed wait step μ s b false := by
  refine loop_rule (h.descends b false)
    (P := fun s p => p.2 ≠ wait → feed wait step μ s (b ++ x) eof = p)
    (fun s p hs e ha => loop_exit (h.final x eof hs e ha).1) (fun s s' p hs e ih ha => ?_) hs ha
  rw [h.feed_next (h.grow x hs) (h.next x eof hs e)]
  exact ih ha

/-- **However a buffer's prefixes are fed**, the last feed comes out as one feed of it. -/
theorem feedAll_eq (h : Resumable view wait step μ I) {ps : List (List α)} {r : List α}
    (hs : I [] s) (hp : (ps ++ [r]).Pairwise (· <+: ·)) (eof : Bool) :
    SameOutcome view (feedAll (feed wait step μ) eof s ps r) (feed wait step μ s r eof) := by
  replace hs : ∀ b ∈ ps ++ [r], I b s := fun b _ => h.grow b hs
  induction ps generalizing s with
  | nil => exact ⟨rfl, rfl⟩
  | cons p ps ih =>
      obtain ⟨hle, hp⟩ := List.pairwise_cons.mp hp
      have hps : I p s := hs p (by simp)
      refine (ih hp fun b hb => ?_).trans ?_
      · obtain ⟨x, rfl⟩ := hle b hb
        exact h.grow x (h.feed_kept hps)
      · obtain ⟨x, rfl⟩ := hle r (by simp)
        exact h.feed_append hps x eof

end Resumable

end Scan

import Mathlib.Tactic.Common

/-!
# Support — hashing by blocks

A message is cut into blocks of `B` letters, and each block is folded into a state.  An `Intake`
takes the message letter by letter into a block of its own, which it folds whenever it is full.

* `Took.absorb`: what an intake has taken, wherever it was cut: whole blocks folded, the rest at the
  front of its block.  What stood in the block before makes no difference.
* `absorb_short`, `absorb_full`: letters that stay in the block, and letters that fill it, lie over
  what was there (`overlay`).
-/

namespace Blocks

universe u v

variable {σ : Type u} {α : Type v} {B : Nat} {f : σ → List α → σ}

/-- The first `n` blocks of a message, folded into a state. -/
def fold (B : Nat) (f : σ → List α → σ) : Nat → σ → List α → σ
  | 0, s, _ => s
  | n + 1, s, m => fold B f n (f s (m.take B)) (m.drop B)

theorem fold_snoc {n : Nat} {s : σ} {m b : List α} (hm : m.length = n * B) (hb : b.length = B) :
    fold B f (n + 1) s (m ++ b) = f (fold B f n s m) b := by
  induction n generalizing s m with
  | zero =>
      rw [Nat.zero_mul] at hm
      rw [List.eq_nil_of_length_eq_zero hm, List.nil_append, fold, fold, fold,
        List.take_of_length_le (Nat.le_of_eq hb)]
  | succ n ih =>
      have hle : B ≤ m.length := by
        rw [hm]
        exact Nat.le_mul_of_pos_left B (Nat.succ_pos n)
      rw [fold, List.take_append_of_le_length hle, List.drop_append_of_le_length hle,
        ih (by rw [List.length_drop, hm, Nat.succ_mul, Nat.add_sub_cancel]), fold]

/-- Only what is done with whole blocks matters. -/
theorem fold_congr {g : σ → List α → σ} (h : ∀ s b, b.length = B → f s b = g s b) {n : Nat} {s : σ}
    {m : List α} (hm : n * B ≤ m.length) : fold B f n s m = fold B g n s m := by
  induction n generalizing s m with
  | zero => rfl
  | succ n ih =>
      rw [Nat.succ_mul] at hm
      have hlen : (m.take B).length = B := by
        rw [List.length_take]
        omega
      rw [fold, fold, h s _ hlen, ih (by rw [List.length_drop]; omega)]

/-! ### Writing into a block -/

/-- The letters `p` over those of `b` from `k` on. -/
def overlay (b : List α) (k : Nat) (p : List α) : List α := b.take k ++ p ++ b.drop (k + p.length)

section

variable {b p q : List α} {k : Nat}

theorem length_overlay (h : k + p.length ≤ b.length) : (overlay b k p).length = b.length := by
  rw [overlay, List.length_append, List.length_append, List.length_take, List.length_drop,
    Nat.min_eq_left (by omega)]
  omega

theorem set_eq_overlay {c : α} (h : k < b.length) : b.set k c = overlay b k [c] := by
  rw [List.set_eq_take_append_cons_drop, if_pos h, overlay, List.append_assoc]
  rfl

theorem take_overlay (h : k + p.length ≤ b.length) :
    (overlay b k p).take (k + p.length) = b.take k ++ p := by
  have hlen : (b.take k ++ p).length = k + p.length := by
    rw [List.length_append, List.length_take, Nat.min_eq_left (by omega)]
  rw [overlay, ← hlen, List.take_left]

/-- Letters right behind others. -/
theorem overlay_overlay (h : k + p.length ≤ b.length) :
    overlay (overlay b k p) (k + p.length) q = overlay b k (p ++ q) := by
  have hlen : (b.take k ++ p).length = k + p.length := by
    rw [List.length_append, List.length_take, Nat.min_eq_left (by omega)]
  rw [overlay, take_overlay h, overlay, overlay, ← List.drop_drop, ← hlen, List.drop_left,
    List.drop_drop, hlen, List.length_append, List.append_assoc (b.take k), Nat.add_assoc]

/-- A loop that writes letter by letter. -/
theorem writes_eq_overlay (g : Nat → α) {n : Nat} (h : k + n ≤ b.length) :
    (List.range n).foldl (fun b i => b.set (k + i) (g i)) b =
      overlay b k ((List.range n).map g) := by
  induction n with
  | zero => rw [List.range_zero, List.foldl_nil, List.map_nil, overlay, List.append_nil,
      List.length_nil, Nat.add_zero, List.take_append_drop]
  | succ n ih =>
      have hlen : ((List.range n).map g).length = n := by rw [List.length_map, List.length_range]
      have hfits : k + ((List.range n).map g).length ≤ b.length := by rw [hlen]; omega
      rw [List.range_succ, List.foldl_append, ih (by omega), List.foldl_cons, List.foldl_nil,
        set_eq_overlay (by rw [length_overlay hfits]; omega), List.map_append]
      have hover := overlay_overlay (q := [g n]) hfits
      rw [hlen] at hover
      exact hover

end

/-! ### Intakes -/

/-- A state, and a block whose first `n` letters are taken and not folded. -/
structure Intake (σ : Type u) (α : Type v) where
  state : σ
  block : List α
  n : Nat

/-- The next letter. -/
def Intake.put (B : Nat) (f : σ → List α → σ) (s : Intake σ α) (c : α) : Intake σ α :=
  let block := s.block.set s.n c
  if s.n + 1 = B then ⟨f s.state block, block, 0⟩ else ⟨s.state, block, s.n + 1⟩

/-- Letter after letter. -/
def Intake.absorb (B : Nat) (f : σ → List α → σ) (s : Intake σ α) (m : List α) : Intake σ α :=
  m.foldl (Intake.put B f) s

theorem absorb_append (s : Intake σ α) (p q : List α) :
    s.absorb B f (p ++ q) = (s.absorb B f p).absorb B f q :=
  List.foldl_append

section

variable {s : σ} {b p : List α} {k : Nat}

/-- Letters that stay in the block. -/
theorem absorb_short (hb : b.length = B) (h : k + p.length < B) :
    Intake.absorb B f ⟨s, b, k⟩ p = ⟨s, overlay b k p, k + p.length⟩ := by
  induction p generalizing b k with
  | nil => rw [overlay, List.append_nil, List.length_nil, Nat.add_zero, List.take_append_drop]; rfl
  | cons c p ih =>
      rw [List.length_cons] at h
      have hone : k + [c].length ≤ b.length := by
        rw [List.length_singleton]
        omega
      have hput : Intake.put B f ⟨s, b, k⟩ c = ⟨s, overlay b k [c], k + 1⟩ := by
        have hlt : k < b.length := by omega
        have hnot : ¬ k + 1 = B := by omega
        rw [Intake.put, if_neg hnot, set_eq_overlay hlt]
      have hover := overlay_overlay (q := p) hone
      rw [List.length_singleton] at hover
      rw [Intake.absorb, List.foldl_cons, hput]
      refine (ih (by rw [length_overlay hone, hb]) (by omega)).trans ?_
      rw [hover, List.length_cons, List.singleton_append, Nat.add_right_comm, Nat.add_assoc]

/-- Letters that fill the block. -/
theorem absorb_full (hb : b.length = B) (hne : p ≠ []) (h : k + p.length = B) :
    Intake.absorb B f ⟨s, b, k⟩ p = ⟨f s (overlay b k p), overlay b k p, 0⟩ := by
  obtain ⟨p, c, rfl⟩ := (List.eq_nil_or_concat p).resolve_left hne
  rw [List.concat_eq_append] at h ⊢
  rw [List.length_append, List.length_singleton] at h
  have hfits : k + p.length ≤ b.length := by omega
  have hset : (overlay b k p).set (k + p.length) c = overlay b k (p ++ [c]) := by
    rw [set_eq_overlay (by rw [length_overlay hfits]; omega), overlay_overlay hfits]
  rw [absorb_append, absorb_short hb (by omega)]
  show Intake.put B f ⟨s, overlay b k p, k + p.length⟩ c = _
  rw [Intake.put, if_pos (by dsimp only; omega)]
  dsimp only
  rw [hset]

end

/-- The intake has taken the message `m` from the state `s₀` on. -/
structure Took (B : Nat) (f : σ → List α → σ) (s₀ : σ) (s : Intake σ α) (m : List α) : Prop where
  length : s.block.length = B
  lt : s.n < B
  split : ∃ k done, m = done ++ s.block.take s.n ∧ done.length = k * B ∧
    s.state = fold B f k s₀ done

theorem took_nil {s₀ : σ} {b : List α} (hb : b.length = B) (hB : 0 < B) :
    Took B f s₀ ⟨s₀, b, 0⟩ [] :=
  ⟨hb, hB, 0, [], rfl, (Nat.zero_mul B).symm, rfl⟩

section

variable {s₀ : σ} {s : Intake σ α} {m : List α}

theorem Took.put (h : Took B f s₀ s m) (c : α) : Took B f s₀ (s.put B f c) (m ++ [c]) := by
  obtain ⟨k, done, hm, hdone, hstate⟩ := h.split
  have hlt : s.n < s.block.length := by
    rw [h.length]
    exact h.lt
  have hfits : s.n + [c].length ≤ s.block.length := hlt
  have htake : (s.block.set s.n c).take (s.n + 1) = s.block.take s.n ++ [c] := by
    rw [set_eq_overlay hlt]
    exact take_overlay hfits
  have hlen : (s.block.set s.n c).length = B := by rw [List.length_set, h.length]
  unfold Intake.put
  dsimp only
  split
  · rename_i hfull
    rw [List.take_of_length_le (by omega)] at htake
    refine ⟨hlen, show 0 < B by omega, k + 1, done ++ s.block.set s.n c, ?_, ?_, ?_⟩
    · rw [hm, htake, List.take_zero, List.append_nil, List.append_assoc]
    · rw [List.length_append, hdone, hlen, Nat.succ_mul]
    · rw [fold_snoc hdone hlen, hstate]
  · refine ⟨hlen, by have := h.lt; dsimp only; omega, k, done, ?_, hdone, hstate⟩
    rw [hm, htake, List.append_assoc]

/-- **What an intake has taken**, whatever it had taken before. -/
theorem Took.absorb (h : Took B f s₀ s m) (p : List α) :
    Took B f s₀ (s.absorb B f p) (m ++ p) := by
  induction p generalizing s m with
  | nil =>
      rw [List.append_nil]
      exact h
  | cons c p ih =>
      have := ih (h.put c)
      rwa [List.append_assoc] at this

/-- How far the block is filled. -/
theorem Took.n_eq (h : Took B f s₀ s m) : s.n = m.length % B := by
  obtain ⟨k, done, hsplit, hdone, -⟩ := h.split
  have hlt := h.lt
  rw [hsplit, List.length_append, List.length_take, h.length, Nat.min_eq_left (Nat.le_of_lt hlt),
    hdone, Nat.mul_add_mod_self_right, Nat.mod_eq_of_lt hlt]

/-- A message of whole blocks is folded. -/
theorem Took.state_eq (h : Took B f s₀ s m) {n : Nat} (hm : m.length = n * B) :
    s.state = fold B f n s₀ m := by
  obtain ⟨k, done, hsplit, hdone, hstate⟩ := h.split
  have hn : s.n = 0 := by rw [h.n_eq, hm, Nat.mul_mod_left]
  rw [hn, List.take_zero, List.append_nil] at hsplit
  rw [hsplit, hdone] at hm
  have hB : 0 < B := Nat.zero_lt_of_lt h.lt
  rw [hstate, hsplit, Nat.eq_of_mul_eq_mul_right hB hm]

end

end Blocks

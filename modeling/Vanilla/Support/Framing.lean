import Mathlib.Data.List.Induction

/-!
# Support — streams of messages

A `Framing` is a way to write messages one behind the other so that a reader finds where each of
them ends: `next` looks at what has arrived and answers with the first message, if all of it is
there.

* `first`: the messages up to the first one that ends a group, and how the reading stopped.
* `groups`: the complete groups of a stream.

Both are said of a stream as a whole.  `first_encs` and `groups_encs` say what they are on a stream
whose beginning has been read already; `first_rule` is the induction along `first`.
-/

namespace Scan

universe u v

/-- Messages in a stream.  A message is found when it is there in full, whatever follows. -/
structure Framing (α : Type u) (μ : Type v) where
  next : List α → Option μ
  enc : μ → List α
  Ok : μ → Prop
  enc_pos {m : μ} : Ok m → 0 < (enc m).length
  some_iff {b : List α} {m : μ} : next b = some m ↔ Ok m ∧ enc m <+: b

/-- How the reading of a group stopped, with what was left. -/
inductive Stop (α : Type u) where
  | more (r : List α)
  | done (r : List α)
  deriving DecidableEq

namespace Framing

variable {α : Type u} {μ : Type v} (F : Framing α μ) (last : μ → Bool)

/-- Messages one behind the other. -/
def encs (ms : List μ) : List α := ms.flatMap F.enc

@[simp] theorem encs_nil : F.encs [] = [] := rfl

@[simp] theorem encs_cons (m : μ) (ms : List μ) : F.encs (m :: ms) = F.enc m ++ F.encs ms := by
  simp [encs]

@[simp] theorem encs_append (ms ms' : List μ) : F.encs (ms ++ ms') = F.encs ms ++ F.encs ms' := by
  simp [encs]

/-- At most `n` messages of the group at the head of a stream. -/
def firstIn : Nat → List α → List μ × Stop α
  | 0, b => ([], .more b)
  | n + 1, b =>
    match F.next b with
    | none => ([], .more b)
    | some m =>
      if last m then ([m], .done (b.drop (F.enc m).length))
      else
        let r := firstIn n (b.drop (F.enc m).length)
        (m :: r.1, r.2)

/-- The group at the head of a stream. -/
def first (b : List α) : List μ × Stop α := F.firstIn last (b.length + 1) b

/-- At most `n` complete groups. -/
def groupsIn : Nat → List α → List (List μ)
  | 0, _ => []
  | n + 1, b =>
    match F.first last b with
    | (ms, .done r) => ms :: groupsIn n r
    | _ => []

/-- The complete groups of a stream. -/
def groups (b : List α) : List (List μ) := F.groupsIn last (b.length + 1) b

variable {F last}

theorem next_enc {m : μ} (h : F.Ok m) (x : List α) : F.next (F.enc m ++ x) = some m :=
  F.some_iff.mpr ⟨h, List.prefix_append _ _⟩

theorem next_split {b : List α} {m : μ} (h : F.next b = some m) :
    F.Ok m ∧ ∃ r, b = F.enc m ++ r := by
  obtain ⟨hok, r, rfl⟩ := F.some_iff.mp h
  exact ⟨hok, r, rfl⟩

theorem firstIn_fuel : ∀ (n k : Nat) (b : List α), b.length < n → b.length < k →
    F.firstIn last n b = F.firstIn last k b := by
  intro n
  induction n with
  | zero => intro k b hn; omega
  | succ n ih =>
      intro k b hn hk
      obtain ⟨k, rfl⟩ : ∃ j, k = j + 1 := ⟨k - 1, by omega⟩
      simp only [firstIn]
      cases hb : F.next b with
      | none => rfl
      | some m =>
          obtain ⟨hok, r, rfl⟩ := next_split hb
          have := F.enc_pos hok
          simp only [List.length_append] at hn hk
          simp only [List.drop_left, ih k r (by omega) (by omega)]

theorem first_more {b : List α} (h : F.next b = none) : F.first last b = ([], .more b) := by
  simp [first, firstIn, h]

theorem first_last {m : μ} (h : F.Ok m) (hl : last m = true) (r : List α) :
    F.first last (F.enc m ++ r) = ([m], .done r) := by
  simp [first, firstIn, next_enc h, hl]

theorem first_next {m : μ} (h : F.Ok m) (hl : last m = false) (r : List α) :
    F.first last (F.enc m ++ r) = (m :: (F.first last r).1, (F.first last r).2) := by
  have hpos := F.enc_pos h
  rw [first, firstIn, next_enc h]
  simp only [hl, Bool.false_eq_true, if_false, List.drop_left]
  rw [firstIn_fuel _ (r.length + 1) r (by rw [List.length_append]; omega) (Nat.lt_succ_self _)]
  rfl

/-- **Induction along a group.** -/
theorem first_rule {P : List α → List μ → Stop α → Prop}
    (more : ∀ b, F.next b = none → P b [] (.more b))
    (ends : ∀ m r, F.Ok m → last m = true → P (F.enc m ++ r) [m] (.done r))
    (next : ∀ m r ms st, F.Ok m → last m = false → P r ms st → P (F.enc m ++ r) (m :: ms) st)
    (b : List α) : P b (F.first last b).1 (F.first last b).2 := by
  -- on the length of what is left of the stream
  induction hn : b.length using Nat.strongRecOn generalizing b with
  | _ n ih =>
      subst hn
      cases hb : F.next b with
      | none => rw [first_more hb]; exact more b hb
      | some m =>
          obtain ⟨hok, r, rfl⟩ := next_split hb
          have := F.enc_pos hok
          cases hl : last m with
          | true => rw [first_last hok hl]; exact ends m r hok hl
          | false =>
              rw [first_next hok hl]
              exact next m r _ _ hok hl (ih r.length (by rw [List.length_append]; omega) r rfl)

/-- Messages that do not end their group. -/
def Inside (F : Framing α μ) (last : μ → Bool) (ms : List μ) : Prop :=
  ∀ m ∈ ms, F.Ok m ∧ last m = false

/-- A group from its first message to the one that ends it. -/
def Complete (F : Framing α μ) (last : μ → Bool) (ms : List μ) : Prop :=
  ∃ init m, ms = init ++ [m] ∧ Inside F last init ∧ F.Ok m ∧ last m = true

@[simp] theorem inside_nil : Inside F last [] := by simp [Inside]

theorem Inside.append {ms ms' : List μ} (h : Inside F last ms) (h' : Inside F last ms') :
    Inside F last (ms ++ ms') := by
  intro m hm
  rcases List.mem_append.mp hm with hm | hm
  · exact h m hm
  · exact h' m hm

theorem Inside.complete {ms ms' : List μ} (h : Inside F last ms) (h' : Complete F last ms') :
    Complete F last (ms ++ ms') := by
  obtain ⟨init, m, rfl, hin, hm⟩ := h'
  exact ⟨ms ++ init, m, (List.append_assoc _ _ _).symm, h.append hin, hm⟩

/-- What `first` answers, by how it stopped. -/
inductive Reads (F : Framing α μ) (last : μ → Bool) : List α → List μ → Stop α → Prop where
  | more {ms : List μ} {r : List α} (hin : Inside F last ms) (h : F.next r = none) :
      Reads F last (F.encs ms ++ r) ms (.more r)
  | done {ms : List μ} {r : List α} (h : Complete F last ms) :
      Reads F last (F.encs ms ++ r) ms (.done r)

theorem first_reads (b : List α) : Reads F last b (F.first last b).1 (F.first last b).2 := by
  refine first_rule (fun b h => ?_) (fun m r hok hl => ?_) (fun m r ms st hok hl ih => ?_) b
  · exact .more inside_nil h
  · have : F.enc m ++ r = F.encs [m] ++ r := by simp
    rw [this]
    exact .done ⟨[], m, rfl, inside_nil, hok, hl⟩
  · have hin : Inside F last [m] := by simpa [Inside] using ⟨hok, hl⟩
    cases ih with
    | @more ms r hms h =>
        rw [← List.append_assoc, ← encs_cons]
        exact .more (hin.append hms) h
    | @done ms r h =>
        rw [← List.append_assoc, ← encs_cons]
        exact .done (hin.complete h)

/-- A stream whose first messages have been read goes on with the rest of its first group. -/
theorem first_encs {ms : List μ} (h : Inside F last ms) (x : List α) :
    F.first last (F.encs ms ++ x) = (ms ++ (F.first last x).1, (F.first last x).2) := by
  induction ms with
  | nil => rfl
  | cons m ms ih =>
      obtain ⟨hok, hl⟩ := h m List.mem_cons_self
      rw [encs_cons, List.append_assoc, first_next hok hl,
        ih fun m' hm' => h m' (List.mem_cons_of_mem _ hm')]
      rfl

theorem first_complete {ms : List μ} (h : Complete F last ms) (x : List α) :
    F.first last (F.encs ms ++ x) = (ms, .done x) := by
  obtain ⟨init, m, rfl, hin, hok, hl⟩ := h
  rw [encs_append, List.append_assoc, first_encs hin, encs_cons, encs_nil, List.append_nil,
    first_last hok hl]

theorem Complete.pos {ms : List μ} (h : Complete F last ms) : 0 < (F.encs ms).length := by
  obtain ⟨init, m, rfl, -, hok, -⟩ := h
  have := F.enc_pos hok
  simp only [encs_append, encs_cons, encs_nil, List.append_nil, List.length_append]
  omega

theorem groupsIn_fuel : ∀ (n k : Nat) (b : List α), b.length < n → b.length < k →
    F.groupsIn last n b = F.groupsIn last k b := by
  intro n
  induction n with
  | zero => intro k b hn; omega
  | succ n ih =>
      intro k b hn hk
      obtain ⟨k, rfl⟩ : ∃ j, k = j + 1 := ⟨k - 1, by omega⟩
      simp only [groupsIn]
      have hr : Reads F last b _ _ := first_reads b
      generalize F.first last b = p at hr
      obtain ⟨ms, st⟩ := p
      cases hr with
      | more => rfl
      | @done ms r h =>
          have := h.pos
          rw [List.length_append] at hn hk
          simp only [ih k r (by omega) (by omega)]

/-- A stream whose first group has been read goes on with the next. -/
theorem groups_complete {ms : List μ} (h : Complete F last ms) (x : List α) :
    F.groups last (F.encs ms ++ x) = ms :: F.groups last x := by
  have := h.pos
  rw [groups, groupsIn, first_complete h]
  simp only
  rw [groupsIn_fuel _ (x.length + 1) x (by rw [List.length_append]; omega) (Nat.lt_succ_self _)]
  rfl

theorem groups_encs {gs : List (List μ)} (h : ∀ g ∈ gs, Complete F last g) (x : List α) :
    F.groups last (F.encs gs.flatten ++ x) = gs ++ F.groups last x := by
  induction gs with
  | nil => rfl
  | cons g gs ih =>
      rw [List.flatten_cons, encs_append, List.append_assoc,
        groups_complete (h g List.mem_cons_self),
        ih fun g' hg' => h g' (List.mem_cons_of_mem _ hg')]
      rfl

/-- No group is complete where the reading of the first one did not come to its end. -/
theorem groups_eq_nil {b : List α} (h : ∀ r, (F.first last b).2 ≠ .done r) :
    F.groups last b = [] := by
  rw [groups, groupsIn]
  generalize F.first last b = p at h
  obtain ⟨ms, st⟩ := p
  cases st with
  | more r => rfl
  | done r => exact absurd rfl (h r)

end Framing

end Scan

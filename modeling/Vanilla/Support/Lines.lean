import Vanilla.Support.Verdict

/-!
# Support — lines

Text cut into lines that end in `cr lf`, over any alphabet.  `cutLine` takes the first line off a
buffer, `unlines` puts lines together.  `walkLines` reads lines up to an empty one, folding each
into a state as it goes: a head made of a block of lines and then whatever follows it.

* `cutLine_line_iff`: a line is cut off exactly when the buffer is that line, its end, and a rest.
* `walkLines_unlines`: on a complete block the walk is the fold over the block's lines.
* `walkLines_accept_iff`: the walk accepts exactly the buffers that start with a complete block
  whose lines fold, and it stops right behind the empty line.
* `walkLines_stable`: its answers are final.
-/

namespace Scan

universe u v w

variable {α : Type u} [DecidableEq α]

/-! ### The first occurrence of a letter -/

theorem idxOf?_append_cons {a : α} {l : List α} (h : a ∉ l) (r : List α) :
    (l ++ a :: r).idxOf? a = some l.length := by
  induction l with
  | nil => simp [List.idxOf?_cons]
  | cons b l ih =>
      simp only [List.mem_cons, not_or] at h
      simp [List.idxOf?_cons, Ne.symm h.1, ih h.2]

theorem idxOf?_eq_some {a : α} {b : List α} {k : Nat} (h : b.idxOf? a = some k) :
    ∃ l r, b = l ++ a :: r ∧ l.length = k ∧ a ∉ l := by
  induction b generalizing k with
  | nil => simp at h
  | cons c b ih =>
      rw [List.idxOf?_cons] at h
      by_cases e : c = a
      · subst e
        simp only [beq_self_eq_true, if_true, Option.some.injEq] at h
        exact ⟨[], b, rfl, h, by simp⟩
      · rw [if_neg (by simpa using e)] at h
        obtain ⟨j, hj, rfl⟩ := Option.map_eq_some_iff.mp h
        obtain ⟨l, r, rfl, rfl, hn⟩ := ih hj
        exact ⟨c :: l, r, rfl, rfl, by simp [Ne.symm e, hn]⟩

theorem idxOf?_append_of_some {a : α} {b : List α} {k : Nat} (h : b.idxOf? a = some k)
    (x : List α) : (b ++ x).idxOf? a = some k := by
  obtain ⟨l, r, rfl, rfl, hn⟩ := idxOf?_eq_some h
  rw [List.append_assoc, List.cons_append]
  exact idxOf?_append_cons hn _

theorem idxOf?_get {a : α} {b : List α} {k : Nat} (h : b.idxOf? a = some k) :
    b[k]? = some a := by
  obtain ⟨l, r, rfl, rfl, -⟩ := idxOf?_eq_some h
  simp

theorem idxOf?_lt {a : α} {b : List α} {k : Nat} (h : b.idxOf? a = some k) : k < b.length := by
  obtain ⟨l, r, rfl, rfl, -⟩ := idxOf?_eq_some h
  simp

/-- The first occurrence from `q` on, by its position. -/
theorem idxOf?_drop {a : α} {b : List α} {q k : Nat} (h : (b.drop q).idxOf? a = some k) :
    b[q + k]? = some a ∧ ∀ i, q ≤ i → b[i]? = some a → q + k ≤ i := by
  obtain ⟨l, r, hb, rfl, hn⟩ := idxOf?_eq_some h
  refine ⟨by rw [← List.getElem?_drop, hb]; simp, fun i hq hi => ?_⟩
  by_contra hlt
  rw [show i = q + (i - q) by omega, ← List.getElem?_drop, hb,
    List.getElem?_append_left (by omega)] at hi
  exact hn (List.mem_of_getElem? hi)

omit [DecidableEq α] in
theorem drop_behind {b x y : List α} {pos : Nat} (h : b.drop pos = x ++ y) :
    b.drop (pos + x.length) = y := by
  rw [← List.drop_drop, h, List.drop_left]

/-! ### Cutting off one line -/

/-- The line at the front of a buffer. -/
inductive Cut (α : Type u) where
  /-- the line's end has not arrived -/
  | more
  /-- an `lf` with no `cr` before it -/
  | bare
  | line (l : List α)
  deriving DecidableEq

/-- The first line of `r`: up to its first `lf`, less the `cr` before that. -/
def cutLine (cr lf : α) (r : List α) : Cut α :=
  match r.idxOf? lf with
  | none => .more
  | some 0 => .bare
  | some (k + 1) => if r[k]? = some cr then .line (r.take k) else .bare

/-- Each line with its end, one after the other. -/
def unlines (cr lf : α) (ls : List (List α)) : List α :=
  ls.flatMap (· ++ [cr, lf])

variable {cr lf : α}

omit [DecidableEq α] in
@[simp] theorem unlines_nil : unlines cr lf [] = [] := rfl

omit [DecidableEq α] in
@[simp] theorem unlines_cons (l : List α) (ls : List (List α)) :
    unlines cr lf (l :: ls) = l ++ cr :: lf :: unlines cr lf ls := by
  simp [unlines]

omit [DecidableEq α] in
@[simp] theorem unlines_append (ls ms : List (List α)) :
    unlines cr lf (ls ++ ms) = unlines cr lf ls ++ unlines cr lf ms := by
  simp [unlines]

omit [DecidableEq α] in
/-- Lines end in the line ending. -/
theorem unlines_ends {ls : List (List α)} (h : ls ≠ []) :
    ∃ a, unlines cr lf ls = a ++ [cr, lf] := by
  obtain ⟨init, l, rfl⟩ : ∃ init l, ls = init ++ [l] :=
    ⟨_, _, (List.dropLast_concat_getLast h).symm⟩
  exact ⟨unlines cr lf init ++ l, by simp⟩

@[simp] theorem cutLine_nil : cutLine cr lf [] = .more := rfl

theorem cutLine_line (hne : cr ≠ lf) {l : List α} (h : lf ∉ l) (r : List α) :
    cutLine cr lf (l ++ cr :: lf :: r) = .line l := by
  have hn : lf ∉ l ++ [cr] := by simp [h, Ne.symm hne]
  have e : l ++ cr :: lf :: r = (l ++ [cr]) ++ lf :: r := by simp
  simp only [cutLine, e, idxOf?_append_cons hn]
  simp

theorem cutLine_line_iff (hne : cr ≠ lf) {r l : List α} :
    cutLine cr lf r = .line l ↔ lf ∉ l ∧ ∃ rest, r = l ++ cr :: lf :: rest := by
  constructor
  · intro h
    unfold cutLine at h
    split at h
    · cases h
    · cases h
    · rename_i k hk
      split at h
      · rename_i hcr
        cases h
        obtain ⟨a, b, rfl, hlen, hn⟩ := idxOf?_eq_some hk
        -- the letter before the first `lf` is the `cr`
        obtain ⟨a, c, rfl⟩ : ∃ a' c, a = a' ++ [c] :=
          ⟨_, _, (List.dropLast_concat_getLast (by rintro rfl; simp at hlen)).symm⟩
        obtain rfl : a.length = k := by simpa using hlen
        simp only [List.append_assoc, List.cons_append, List.nil_append,
          List.getElem?_append_right (Nat.le_refl _), Nat.sub_self, List.getElem?_cons_zero,
          Option.some.injEq] at hcr
        subst hcr
        simp only [List.mem_append, not_or] at hn
        exact ⟨by simpa using hn.1, b, by simp⟩
      · cases h
  · rintro ⟨h, rest, rfl⟩
    exact cutLine_line hne h rest

theorem cutLine_append {r : List α} (h : cutLine cr lf r ≠ .more) (x : List α) :
    cutLine cr lf (r ++ x) = cutLine cr lf r := by
  cases e : r.idxOf? lf with
  | none => exact absurd (by simp only [cutLine, e]) h
  | some k =>
      simp only [cutLine, e, idxOf?_append_of_some e x]
      have hk := idxOf?_lt e
      cases k with
      | zero => rfl
      | succ k =>
          have hk' : k < r.length := by omega
          simp only [List.getElem?_append_left hk',
            List.take_append_of_le_length (Nat.le_of_lt hk')]

theorem cutLine_line_length {r l : List α} (h : cutLine cr lf r = .line l) :
    l.length + 2 ≤ r.length := by
  unfold cutLine at h
  split at h
  · cases h
  · cases h
  · rename_i k hk
    have := idxOf?_lt hk
    split at h
    · cases h
      rw [List.length_take]
      omega
    · cases h

/-! ### A line at a position -/

/-- The line at `pos`, by the tests a walker over positions makes: is there a letter at `pos`, is
it the `cr` of an empty line, and where is the next `lf`. -/
inductive LineAt (cr lf : α) (b : List α) (pos : Nat) : Cut α → Prop where
  | past (h : b.length ≤ pos) : LineAt cr lf b pos .more
  | half (h : pos < b.length) (hc : b[pos]? = some cr) (h' : b.length ≤ pos + 1) :
      LineAt cr lf b pos .more
  | blank (h : pos + 1 < b.length) (hc : b[pos]? = some cr) (hl : b[pos + 1]? = some lf) :
      LineAt cr lf b pos (.line [])
  | part (h : pos < b.length) (h₁ : ¬ (b[pos]? = some cr ∧ b.length ≤ pos + 1))
      (h₂ : ¬ (b[pos]? = some cr ∧ b[pos + 1]? = some lf)) (hf : (b.drop pos).idxOf? lf = none) :
      LineAt cr lf b pos .more
  | bare (h : pos < b.length) (h₁ : ¬ (b[pos]? = some cr ∧ b.length ≤ pos + 1))
      (h₂ : ¬ (b[pos]? = some cr ∧ b[pos + 1]? = some lf)) {k : Nat}
      (hf : (b.drop pos).idxOf? lf = some k) (hb : k = 0 ∨ b[pos + k - 1]? ≠ some cr) :
      LineAt cr lf b pos .bare
  | full (h : pos < b.length) (h₁ : ¬ (b[pos]? = some cr ∧ b.length ≤ pos + 1))
      (h₂ : ¬ (b[pos]? = some cr ∧ b[pos + 1]? = some lf)) {l : List α} (hl : l ≠ [])
      (hf : (b.drop pos).idxOf? lf = some (l.length + 1)) (hc : b[pos + l.length]? = some cr)
      (ht : (b.drop pos).take l.length = l) : LineAt cr lf b pos (.line l)

theorem lineAt (hne : cr ≠ lf) (b : List α) (pos : Nat) :
    LineAt cr lf b pos (cutLine cr lf (b.drop pos)) := by
  by_cases h : b.length ≤ pos
  · rw [List.drop_eq_nil_of_le h]
    exact .past h
  have h : pos < b.length := Nat.lt_of_not_le h
  by_cases h₁ : b[pos]? = some cr ∧ b.length ≤ pos + 1
  · have e : b.drop pos = [cr] := by
      rw [List.drop_eq_getElem_cons h, List.drop_eq_nil_of_le h₁.2]
      simpa [List.getElem?_eq_getElem h] using h₁.1
    have e' : cutLine cr lf [cr] = .more := by simp [cutLine, List.idxOf?_cons, hne]
    rw [e, e']
    exact .half h h₁.1 h₁.2
  by_cases h₂ : b[pos]? = some cr ∧ b[pos + 1]? = some lf
  · have hlt : pos + 1 < b.length := (List.getElem?_eq_some_iff.mp h₂.2).1
    have e : b.drop pos = [] ++ cr :: lf :: b.drop (pos + 2) := by
      rw [List.drop_eq_getElem_cons h, List.drop_eq_getElem_cons hlt]
      have hc := h₂.1
      have hl := h₂.2
      rw [List.getElem?_eq_getElem h, Option.some.injEq] at hc
      rw [List.getElem?_eq_getElem hlt, Option.some.injEq] at hl
      rw [hc, hl, List.nil_append]
    rw [e, cutLine_line hne (by simp)]
    exact .blank hlt h₂.1 h₂.2
  cases hk : (b.drop pos).idxOf? lf with
  | none =>
      have e : cutLine cr lf (b.drop pos) = .more := by simp only [cutLine, hk]
      rw [e]
      exact .part h h₁ h₂ hk
  | some k =>
      cases k with
      | zero =>
          have e : cutLine cr lf (b.drop pos) = .bare := by simp only [cutLine, hk]
          rw [e]
          exact .bare h h₁ h₂ hk (.inl rfl)
      | succ k =>
          have hget : (b.drop pos)[k]? = b[pos + k]? := List.getElem?_drop
          by_cases hcr : b[pos + k]? = some cr
          · have e : cutLine cr lf (b.drop pos) = .line ((b.drop pos).take k) := by
              simp only [cutLine, hk, hget, hcr, if_true]
            have hlen : ((b.drop pos).take k).length = k := by
              have := idxOf?_lt hk
              rw [List.length_take]
              omega
            have hk0 : k ≠ 0 := by
              rintro rfl
              obtain ⟨l, r, hb, hl, -⟩ := idxOf?_eq_some hk
              refine h₂ ⟨hcr, ?_⟩
              rw [← List.getElem?_drop, hb, List.getElem?_append_right (by omega), hl]
              rfl
            rw [e]
            refine .full h h₁ h₂ ?_ ?_ ?_ ?_
            · rw [← List.length_pos_iff, hlen]; omega
            · rw [hlen, hk]
            · rw [hlen, hcr]
            · rw [hlen]
          · have e : cutLine cr lf (b.drop pos) = .bare := by
              simp only [cutLine, hk, hget, hcr, if_false]
            rw [e]
            exact .bare h h₁ h₂ hk (.inr hcr)

/-! ### Walking a block of lines -/

section Walk

variable {ε : Type v} {σ : Type w}

/-- Read lines up to an empty one, folding each into the state; `bad` answers a bare `lf`.  The
answer is the state behind the block and how many letters the block has, the empty line's end
included. -/
def walkLines (cr lf : α) (bad : ε) (f : σ → List α → Except ε σ) (s : σ) (r : List α) :
    Verdict ε (σ × Nat) :=
  match _h : cutLine cr lf r with
  | .more => .more
  | .bare => .refuse bad
  | .line [] => .accept (s, 2)
  | .line (c :: l) =>
    match f s (c :: l) with
    | .error e => .refuse e
    | .ok s' =>
      (walkLines cr lf bad f s' (r.drop (l.length + 3))).map fun p => (p.1, p.2 + (l.length + 3))
  termination_by r.length
  decreasing_by
    have := cutLine_line_length _h
    simp only [List.length_cons, List.length_drop] at this ⊢
    omega

variable {bad : ε} {f : σ → List α → Except ε σ}

theorem walkLines_more {s : σ} {r : List α} (h : cutLine cr lf r = .more) :
    walkLines cr lf bad f s r = .more := by
  rw [walkLines]; split <;> simp_all

theorem walkLines_bare {s : σ} {r : List α} (h : cutLine cr lf r = .bare) :
    walkLines cr lf bad f s r = .refuse bad := by
  rw [walkLines]; split <;> simp_all

theorem walkLines_empty {s : σ} {r : List α} (h : cutLine cr lf r = .line []) :
    walkLines cr lf bad f s r = .accept (s, 2) := by
  rw [walkLines]; split <;> simp_all

theorem walkLines_line {s : σ} {r l : List α} (h : cutLine cr lf r = .line l) (hl : l ≠ []) :
    walkLines cr lf bad f s r =
      match f s l with
      | .error e => .refuse e
      | .ok s' =>
        (walkLines cr lf bad f s' (r.drop (l.length + 2))).map fun p =>
          (p.1, p.2 + (l.length + 2)) := by
  rw [walkLines]
  split
  · simp_all
  · simp_all
  · simp_all
  · rename_i c l' h'
    cases h.symm.trans h'
    rfl

/-- A line of a block: not empty, and no `lf` inside. -/
def IsLine (lf : α) (l : List α) : Prop := l ≠ [] ∧ lf ∉ l

/-- **The walk on a complete block** is the fold over its lines. -/
theorem walkLines_unlines (hne : cr ≠ lf) {ls : List (List α)} (hl : ∀ l ∈ ls, IsLine lf l)
    (s : σ) (rest : List α) :
    walkLines cr lf bad f s (unlines cr lf ls ++ cr :: lf :: rest) =
      match ls.foldlM f s with
      | .error e => .refuse e
      | .ok s' => .accept (s', (unlines cr lf ls).length + 2) := by
  induction ls generalizing s with
  | nil => exact walkLines_empty (cutLine_line hne (by simp) rest)
  | cons l ls ih =>
      obtain ⟨hnil, hlf⟩ := hl l (by simp)
      have e : unlines cr lf (l :: ls) ++ cr :: lf :: rest =
          l ++ cr :: lf :: (unlines cr lf ls ++ cr :: lf :: rest) := by simp
      rw [e, walkLines_line (cutLine_line hne hlf _) hnil, List.foldlM_cons]
      cases hf : f s l with
      | error e => rfl
      | ok s' =>
          have hd : (l ++ cr :: lf :: (unlines cr lf ls ++ cr :: lf :: rest)).drop (l.length + 2) =
              unlines cr lf ls ++ cr :: lf :: rest := by
            rw [List.drop_append, List.drop_eq_nil_of_le (by omega)]
            simp
          simp only [hd, ih (fun l h => hl l (by simp [h])), bind, Except.bind]
          cases ls.foldlM f s' with
          | error e => rfl
          | ok s'' =>
              simp only [Verdict.map_accept, unlines_cons, List.length_append, List.length_cons]
              exact congrArg Verdict.accept (Prod.ext rfl (by simp only; omega))

/-- A buffer starts with one block at most. -/
theorem unlines_unique (hne : cr ≠ lf) {ls ls' : List (List α)} {r r' : List α}
    (hl : ∀ l ∈ ls, IsLine lf l) (hl' : ∀ l ∈ ls', IsLine lf l)
    (h : unlines cr lf ls ++ cr :: lf :: r = unlines cr lf ls' ++ cr :: lf :: r') :
    ls = ls' ∧ r = r' := by
  -- the walk that keeps its lines finds both
  have collect : ∀ (ls acc : List (List α)), ls.foldlM (fun acc l => .ok (acc ++ [l])) acc =
      (.ok (acc ++ ls) : Except Unit (List (List α))) := by
    intro ls
    induction ls with
    | nil => intro acc; simp [pure, Except.pure]
    | cons l ls ih =>
        intro acc
        rw [List.foldlM_cons]
        simp only [bind, Except.bind, ih, List.append_assoc, List.cons_append, List.nil_append]
  have walk : ∀ {ls : List (List α)} (r : List α), (∀ l ∈ ls, IsLine lf l) →
      walkLines cr lf () (fun acc l => .ok (acc ++ [l])) [] (unlines cr lf ls ++ cr :: lf :: r) =
        .accept (ls, (unlines cr lf ls).length + 2) := by
    intro ls r hl
    rw [walkLines_unlines hne hl, collect, List.nil_append]
  have h₁ := walk r hl
  rw [h, walk r' hl'] at h₁
  simp only [Verdict.accept.injEq, Prod.mk.injEq] at h₁
  obtain ⟨rfl, -⟩ := h₁
  simpa using h

/-- What the walk accepts starts with a complete block. -/
theorem walkLines_accept (hne : cr ≠ lf) {s s' : σ} {r : List α} {n : Nat}
    (h : walkLines cr lf bad f s r = .accept (s', n)) :
    ∃ ls rest, r = unlines cr lf ls ++ cr :: lf :: rest ∧ (∀ l ∈ ls, IsLine lf l) ∧
      ls.foldlM f s = .ok s' ∧ n = (unlines cr lf ls).length + 2 := by
  -- on the length of what is left, a line at a time
  induction hr : r.length using Nat.strongRecOn generalizing r s n with
  | _ m ih =>
      cases e : cutLine cr lf r with
      | more => rw [walkLines_more e] at h; cases h
      | bare => rw [walkLines_bare e] at h; cases h
      | line l =>
          obtain ⟨hlf, rest, rfl⟩ := (cutLine_line_iff hne).mp e
          by_cases hnil : l = []
          · subst hnil
            rw [walkLines_empty e] at h
            cases h
            exact ⟨[], rest, rfl, by simp, rfl, rfl⟩
          · rw [walkLines_line e hnil] at h
            cases hf : f s l with
            | error e => rw [hf] at h; cases h
            | ok s₁ =>
                rw [hf] at h
                obtain ⟨⟨s₂, k⟩, hw, hk⟩ := Verdict.map_eq_accept.mp h
                cases hk
                have hd : (l ++ cr :: lf :: rest).drop (l.length + 2) = rest := by
                  rw [List.drop_append, List.drop_eq_nil_of_le (by omega)]
                  simp
                rw [hd] at hw
                obtain ⟨ls, rest', rfl, hls, hfold, rfl⟩ :=
                  ih rest.length (by subst hr; simp; omega) hw rfl
                refine ⟨l :: ls, rest', by simp, ?_, ?_, by simp; omega⟩
                · rintro l' (_ | ⟨_, hm⟩)
                  · exact ⟨hnil, hlf⟩
                  · exact hls l' hm
                · rw [List.foldlM_cons, hf]
                  exact hfold

/-- **The walk accepts exactly the complete blocks whose lines fold.** -/
theorem walkLines_accept_iff (hne : cr ≠ lf) {s s' : σ} {r : List α} {n : Nat} :
    walkLines cr lf bad f s r = .accept (s', n) ↔
      ∃ ls rest, r = unlines cr lf ls ++ cr :: lf :: rest ∧ (∀ l ∈ ls, IsLine lf l) ∧
        ls.foldlM f s = .ok s' ∧ n = (unlines cr lf ls).length + 2 := by
  refine ⟨walkLines_accept hne, ?_⟩
  rintro ⟨ls, rest, rfl, hls, hf, rfl⟩
  rw [walkLines_unlines hne hls, hf]

theorem walkLines_stable (s : σ) : Stable (walkLines cr lf bad f s) := by
  intro r x h
  induction hr : r.length using Nat.strongRecOn generalizing r s with
  | _ m ih =>
      have hm : cutLine cr lf r ≠ .more := fun e => h (walkLines_more e)
      have e' := cutLine_append hm x
      cases e : cutLine cr lf r with
      | more => exact absurd e hm
      | bare => rw [walkLines_bare e, walkLines_bare (e'.trans e)]
      | line l =>
          by_cases hnil : l = []
          · subst hnil
            rw [walkLines_empty e, walkLines_empty (e'.trans e)]
          · have hlen := cutLine_line_length e
            rw [walkLines_line e hnil] at h
            rw [walkLines_line e hnil, walkLines_line (e'.trans e) hnil,
              List.drop_append_of_le_length hlen]
            cases hf : f s l with
            | error e => rfl
            | ok s' =>
                simp only [hf, ne_eq, Verdict.map_eq_more] at h
                simp only [ih _ (by rw [← hr, List.length_drop]; omega) _ _ h rfl]

end Walk

end Scan

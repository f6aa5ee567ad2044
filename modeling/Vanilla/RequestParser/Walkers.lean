import Vanilla.RequestParser.Head

/-!
# Request parser — the two other walkers

`frame_head_len` and `frame_expected_total` walk the head again, each with a loop of its own.
On a complete head they find its end where the framer finds it.

* `frameHeadLen_head`: the head's length.
* `frameExpectedTotal_head`: an answer other than -1 comes from a complete head whose
  Content-Length lines all parse, and is its length plus the last of them.
-/

namespace Vanilla.RequestParser
open Scan

variable {buf : List UInt8}

/-! ### `frame_head_len` -/

theorem headLenStep_line {pos : Nat} {l : List UInt8}
    (hcut : cutLine cr lf (buf.drop pos) = .line l) :
    headLenStep buf pos =
      if l = [] then .exit (some (pos + 2)) else .next (pos + (l.length + 2)) := by
  have hat := lineAt cr_ne_lf buf pos
  rw [hcut] at hat
  unfold headLenStep findByteIdx
  cases hat with
  | blank h hc hl =>
      simp only [if_neg (Nat.not_le.mpr (Nat.lt_of_succ_lt h)), hc, hl, true_and, if_true,
        if_neg (Nat.not_le.mpr h)]
  | full h h₁ h₂ hl hf hc ht =>
      simp only [if_neg (Nat.not_le.mpr h), if_neg h₁, if_neg h₂, hf, if_neg hl]
      rw [Nat.add_assoc]

theorem headLenStep_descends :
    Descends (headLenStep buf) (fun pos => buf.length - pos) fun _ => True := by
  intro pos pos' _ h
  unfold headLenStep at h
  split at h
  · cases h
  split at h
  · cases h
  split at h
  · cases h
  split at h
  · cases h
  · cases h
    exact ⟨trivial, by simp only; omega⟩

theorem headLenLoop {ls : List (List UInt8)} (hls : ∀ l ∈ ls, IsLine lf l) {pos : Nat}
    {rest : List UInt8} (hd : buf.drop pos = unlines cr lf ls ++ cr :: lf :: rest) :
    loop (headLenStep buf) (fun pos => buf.length - pos) none pos =
      some (pos + ((unlines cr lf ls).length + 2)) := by
  induction ls generalizing pos with
  | nil =>
      have hcut : cutLine cr lf (buf.drop pos) = .line [] := by
        rw [hd]; exact cutLine_line cr_ne_lf (by simp) rest
      refine loop_exit ?_
      rw [headLenStep_line hcut, if_pos rfl]
      simp
  | cons l ls ih =>
      obtain ⟨hnil, hlf⟩ := hls l (by simp)
      rw [unlines_cons] at hd
      have hd' : buf.drop pos = l ++ cr :: lf :: (unlines cr lf ls ++ cr :: lf :: rest) := by
        rw [hd]; simp
      have hcut : cutLine cr lf (buf.drop pos) = .line l := by
        rw [hd']; exact cutLine_line cr_ne_lf hlf _
      have hstep : headLenStep buf pos = .next (pos + (l.length + 2)) := by
        rw [headLenStep_line hcut, if_neg hnil]
      have hnext : buf.drop (pos + (l.length + 2)) = unlines cr lf ls ++ cr :: lf :: rest := by
        rw [← List.drop_drop, hd', List.drop_append, List.drop_eq_nil_of_le (by omega)]
        simp
      rw [loop_next headLenStep_descends trivial hstep, ih (fun l h => hls l (by simp [h])) hnext]
      simp only [unlines_cons, List.length_append, List.length_cons, Option.some.injEq]
      omega

/-- **`frame_head_len` on a complete head** is its length. -/
theorem frameHeadLen_head {h : Head} (hl : h.Lines) (rest : List UInt8) :
    frameHeadLen (h.bytes ++ rest) = some h.bytes.length := by
  have h4 : ¬ (h.bytes ++ rest).length < 4 := by rw [List.length_append, head_length]; omega
  unfold frameHeadLen
  simp only [if_neg h4, head_firstLf hl rest]
  rw [headLenLoop hl.2 head_drop, head_length]
  congr 1

/-! ### `frame_expected_total` -/

/-- A Content-Length line, read alone. -/
theorem parseLine {ls ll : Nat} (h : ls + ll ≤ buf.length) (name : List UInt8) :
    (lineHeaderValue buf ls ll name).map (parseContentLength buf) =
      (lineHeaderValue ((buf.drop ls).take ll) 0 ll name).map
        (parseContentLength ((buf.drop ls).take ll)) := by
  have hlen : ((buf.drop ls).take ll).length = ll := by
    rw [List.length_take, List.length_drop]; omega
  rw [lineHeaderValue_line, Option.map_map]
  cases hv : lineHeaderValue ((buf.drop ls).take ll) 0 ll name with
  | none => rfl
  | some v =>
      have hb := lineHeaderValue_bound (l := (buf.drop ls).take ll) (s := v) name (by rwa [hlen])
      rw [hlen] at hb
      simp only [Option.map_some, Function.comp_apply, parseContentLength, view_line hb]

/-- One field line, as `frame_expected_total` reads it. -/
def expectedFold (c : Option Nat) (l : List UInt8) : Except Unit (Option Nat) :=
  match (lineHeaderValue l 0 l.length clName).map (parseContentLength l) with
  | none => .ok c
  | some (.error _) => .error ()
  | some (.ok n) => .ok (some n)

theorem expectedStep_eq {s : Nat × Option Nat} (hs : BehindLf buf s.1) :
    expectedStep buf s =
      match cutLine cr lf (buf.drop s.1) with
      | .more => .exit (-1)
      | .bare => .exit (-1)
      | .line [] =>
        match s.2 with
        | some n => .exit (s.1 + 2 + n : Nat)
        | none => .exit (-1)
      | .line (c :: l) =>
        match expectedFold s.2 (c :: l) with
        | .error _ => .exit (-1)
        | .ok n => .next (s.1 + ((c :: l).length + 2), n) := by
  obtain ⟨pos, n⟩ := s
  unfold expectedStep findByteIdx
  simp only
  have hat := lineAt cr_ne_lf buf pos
  generalize cutLine cr lf (buf.drop pos) = cut at hat
  cases hat with
  | past h => simp only [if_pos h]
  | half h hc h' => simp only [if_neg (Nat.not_le.mpr h), hc, h', true_and, if_true]
  | blank h hc hl =>
      cases n <;> simp only [if_neg (Nat.not_le.mpr (Nat.lt_of_succ_lt h)), hc, hl, true_and,
        if_true, if_neg (Nat.not_le.mpr h)]
  | part h h₁ h₂ hf => simp only [if_neg (Nat.not_le.mpr h), if_neg h₁, if_neg h₂, hf]
  | bare h h₁ h₂ hf hb =>
      simp only [if_neg (Nat.not_le.mpr h), if_neg h₁, if_neg h₂, hf, ne_eq, hs.bare hb,
        not_false_eq_true, if_true]
  | full h h₁ h₂ hl hf hc ht =>
      rename_i l
      obtain ⟨c, l, rfl⟩ := List.exists_cons_of_ne_nil hl
      have hlen := (List.getElem?_eq_some_iff.mp hc).1.le
      have e₁ : pos + ((c :: l).length + 1) - 1 = pos + (c :: l).length := by omega
      have e₂ : (c :: l).length + 1 - 1 = (c :: l).length := by omega
      have hp := parseLine hlen clName
      rw [ht] at hp
      simp only [if_neg (Nat.not_le.mpr h), if_neg h₁, if_neg h₂, hf, e₁, e₂, hc, ne_eq,
        not_true_eq_false, if_false, expectedFold, ← hp]
      rw [show ascii "Content-Length" = clName from rfl]
      cases lineHeaderValue buf pos (c :: l).length clName with
      | none => rfl
      | some v =>
          simp only [Option.map_some]
          cases parseContentLength buf v <;> rfl

theorem expectedStep_next {s s' : Nat × Option Nat} (hs : BehindLf buf s.1)
    (h : expectedStep buf s = .next s') :
    ∃ l, l ≠ [] ∧ cutLine cr lf (buf.drop s.1) = .line l ∧ expectedFold s.2 l = .ok s'.2 ∧
      s'.1 = s.1 + (l.length + 2) := by
  rw [expectedStep_eq hs] at h
  split at h
  · cases h
  · cases h
  · split at h <;> cases h
  · rename_i c l hcut
    cases hf : expectedFold s.2 (c :: l) with
    | error e => rw [hf] at h; cases h
    | ok n =>
        rw [hf] at h
        cases h
        exact ⟨c :: l, by simp, hcut, hf, rfl⟩

theorem expectedStep_descends :
    Descends (expectedStep buf) (fun s => buf.length - s.1) fun s => BehindLf buf s.1 := by
  intro s s' hs h
  obtain ⟨l, -, hcut, -, e⟩ := expectedStep_next hs h
  have hlen := cutLine_line_length hcut
  rw [List.length_drop] at hlen
  simp only [e]
  exact ⟨behindLf_cut hcut, by omega⟩

/-- What `frame_expected_total` answers at the blank line. -/
def expectedAnswer : Verdict Unit (Option Nat × Nat) → Nat → Int
  | .accept (some n, k), pos => (pos + k + n : Nat)
  | _, _ => -1

theorem expectedLoop_eq {s : Nat × Option Nat} (hs : BehindLf buf s.1) :
    loop (expectedStep buf) (fun s => buf.length - s.1) (-1) s =
      expectedAnswer (walkLines cr lf () expectedFold s.2 (buf.drop s.1)) s.1 := by
  refine loop_rule expectedStep_descends (P := fun s a => a =
    expectedAnswer (walkLines cr lf () expectedFold s.2 (buf.drop s.1)) s.1) ?_ ?_ hs
  · intro s a hs h
    rw [expectedStep_eq hs] at h
    split at h
    · rename_i hcut; cases h; rw [walkLines_more hcut]; rfl
    · rename_i hcut; cases h; rw [walkLines_bare hcut]; rfl
    · rename_i hcut
      rw [walkLines_empty hcut]
      obtain ⟨pos, n⟩ := s
      cases n with
      | none => cases h; rfl
      | some n => exact (Turn.exit.inj h).symm
    · rename_i c l hcut
      rw [walkLines_line hcut (by simp)]
      cases hf : expectedFold s.2 (c :: l) with
      | error e => rw [hf] at h; cases h; rfl
      | ok n => rw [hf] at h; cases h
  · intro s s' a hs h ih
    obtain ⟨l, hl, hcut, hf, e⟩ := expectedStep_next hs h
    rw [ih, walkLines_line hcut hl, hf, e]
    simp only [List.drop_drop]
    cases walkLines cr lf () expectedFold s'.2 (buf.drop (s.1 + (l.length + 2))) with
    | more => rfl
    | refuse e => rfl
    | accept p =>
        obtain ⟨n, k⟩ := p
        cases n with
        | none => rfl
        | some n =>
            simp only [Verdict.map_accept, expectedAnswer]
            congr 2
            omega

/-- An answer of `frame_expected_total` is read off a complete head. -/
theorem frameExpectedTotal_head {t : Int} (h : frameExpectedTotal buf = t) (ht : t ≠ -1) :
    ∃ (h : Head) (rest : List UInt8) (n : Nat), buf = h.bytes ++ rest ∧ h.Lines ∧
      h.fields.foldlM expectedFold none = .ok (some n) ∧ t = (h.bytes.length + n : Nat) := by
  unfold frameExpectedTotal findByteIdx at h
  split at h
  · exact absurd h.symm ht
  split at h
  · exact absurd h.symm ht
  rename_i rl hk
  split at h
  · exact absurd h.symm ht
  rename_i hcr
  simp only [not_or, ne_eq, not_not] at hcr
  obtain ⟨k, rfl⟩ : ∃ k, rl = k + 1 := ⟨rl - 1, by omega⟩
  rw [Nat.add_one_sub_one] at hcr
  have hcut : cutLine cr lf buf = .line (buf.take k) := by simp only [cutLine, hk, hcr.2, if_true]
  have hlen : (buf.take k).length = k := by
    have := idxOf?_lt hk
    rw [List.length_take]; omega
  have hb := @behindLf_cut buf 0 _ hcut
  rw [hlen, Nat.zero_add] at hb
  rw [expectedLoop_eq hb] at h
  cases hw : walkLines cr lf () expectedFold none (buf.drop (k + 2)) with
  | more => rw [hw] at h; exact absurd h.symm ht
  | refuse e => rw [hw] at h; exact absurd h.symm ht
  | accept p =>
      obtain ⟨c, m⟩ := p
      rw [hw] at h
      cases c with
      | none => exact absurd h.symm ht
      | some n =>
          rw [← hlen] at hw
          obtain ⟨hd, rest, rfl, hl, hreq, hfold, rfl⟩ := head_of_walk hcut hw
          refine ⟨hd, rest, n, rfl, hl, hfold, ?_⟩
          rw [← h, expectedAnswer, head_length, ← hreq, hlen]
          congr 2

/-- The length it takes is one of those the Content-Length lines declare. -/
theorem expectedFold_values {ls vs : List (List UInt8)} (hv : Values clName ls vs)
    {c c' : Option Nat} (h : ls.foldlM expectedFold c = .ok c') :
    vs = [] ∧ c' = c ∨ ∃ v ∈ vs, c' = some (decValue 0 v) := by
  induction hv generalizing c with
  | nil => cases h; exact .inl ⟨rfl, rfl⟩
  | @named l v ls vs hf _ ih =>
      rw [List.foldlM_cons] at h
      obtain ⟨k, hk, hview⟩ := lineHeaderValue_field hf
      have hstep : ∀ c₁, expectedFold c l = .ok c₁ → c₁ = some (decValue 0 v) := by
        intro c₁ h₁
        simp only [expectedFold, hk, Option.map_some] at h₁
        cases hp : parseContentLength l ⟨k, v.length⟩ with
        | error e => rw [hp] at h₁; cases h₁
        | ok m =>
            rw [hp] at h₁
            cases h₁
            rw [((parseContentLength_ok rfl hview).mp hp).2.2]
      cases hs : expectedFold c l with
      | error e => rw [hs] at h; cases h
      | ok c₁ =>
          rw [hs] at h
          rcases ih h with ⟨-, e⟩ | ⟨v', hv', e⟩
          · exact .inr ⟨v, by simp, e.trans (hstep c₁ hs)⟩
          · exact .inr ⟨v', by simp [hv'], e⟩
  | @other l ls vs hn _ ih =>
      rw [List.foldlM_cons] at h
      have hstep : ∀ c₁, expectedFold c l = .ok c₁ → c₁ = c := by
        intro c₁ h₁
        by_cases hsp : Spaced clName l
        · simp only [expectedFold, lineHeaderValue_spaced hsp, Option.map_some] at h₁
          cases h₁
        · simp only [expectedFold, lineHeaderValue_none.mpr ⟨hn, hsp⟩, Option.map_none] at h₁
          exact (Except.ok.inj h₁).symm
      cases hs : expectedFold c l with
      | error e => rw [hs] at h; cases h
      | ok c₁ =>
          rw [hs] at h
          rw [hstep c₁ hs] at h
          exact ih h

end Vanilla.RequestParser

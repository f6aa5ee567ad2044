import Vanilla.RequestParser.Fields

/-!
# Request parser — the head walk

The framer's walk over the head, as a walk over lines.  `headFold` is what one field line does to
the walk's variables, the limit on the head's size included; `headOf` reads a whole head with it.

* `frameRequest_eq`: the framer is `headOf`, then the verdict on the body.
* `headOf_stable`: once the head is complete, what follows it changes nothing.
* `headOf_accept_iff`: `headOf` accepts exactly the heads whose lines fold, and the body starts
  right behind them.
-/

namespace Vanilla.RequestParser
open Scan

/-- One field line: the framer reads it and moves on to the next, within the limit. -/
def headFold (mh mb : Int) (s : HeadState) (l : List UInt8) : Except FrameErr HeadState :=
  match fieldLine l mb 0 l.length s with
  | .error e => .error e
  | .ok s' =>
    if 0 < mh ∧ mh < (s.pos + (l.length + 2) : Nat) then .error .header
    else .ok { s' with pos := s.pos + (l.length + 2) }

/-- A whole head: the index of the request line's LF, and the walk's variables at the blank
line. -/
def headOf (mh mb : Int) (buf : List UInt8) : Verdict FrameErr (Nat × HeadState) :=
  if buf.length < 4 then .more
  else
    match cutLine cr lf buf with
    | .more => .more
    | .bare => .refuse .malformed
    | .line l =>
      if 0 < mh ∧ mh < (l.length + 2 : Nat) then .refuse .header
      else
        (walkLines cr lf .malformed (headFold mh mb) { pos := l.length + 2 }
          (buf.drop (l.length + 2))).map fun p => (l.length + 1, p.1)

/-! ### The loop is the walk -/

section Loop

variable {buf : List UInt8} {rl : Nat} {mh mb : Int}

/-- `pos` is behind an LF, as it is at every pass of the walk. -/
def BehindLf (buf : List UInt8) (pos : Nat) : Prop := 0 < pos ∧ buf[pos - 1]? = some lf

/-- Behind a line is behind its LF. -/
theorem behindLf_cut {pos : Nat} {l : List UInt8} (h : cutLine cr lf (buf.drop pos) = .line l) :
    BehindLf buf (pos + (l.length + 2)) := by
  refine ⟨by omega, ?_⟩
  obtain ⟨-, rest, hr⟩ := (cutLine_line_iff cr_ne_lf).mp h
  rw [show pos + (l.length + 2) - 1 = pos + (l.length + 1) by omega, ← List.getElem?_drop, hr,
    List.getElem?_append_right (by omega), show l.length + 1 - l.length = 1 by omega]
  rfl

/-- An LF right at such a position finds the LF before it where it looks for a CR. -/
theorem BehindLf.bare {pos k : Nat} (hs : BehindLf buf pos)
    (hb : k = 0 ∨ buf[pos + k - 1]? ≠ some cr) : buf[pos + k - 1]? ≠ some cr := by
  rcases hb with rfl | hb
  · rw [Nat.add_zero, hs.2]; decide
  · exact hb

theorem headStep_eq {s : HeadState} (hs : BehindLf buf s.pos) :
    headStep buf rl mh mb s =
      if 0 < mh ∧ mh < (s.pos : Int) then .exit (.refuse .header)
      else
        match cutLine cr lf (buf.drop s.pos) with
        | .more => .exit .more
        | .bare => .exit (.refuse .malformed)
        | .line [] => .exit (bodyVerdict buf rl mh mb (s.pos + 2) s)
        | .line (c :: l) =>
          match fieldLine (c :: l) mb 0 (c :: l).length s with
          | .error e => .exit (.refuse e)
          | .ok s' => .next { s' with pos := s.pos + ((c :: l).length + 2) } := by
  unfold headStep findByteIdx
  by_cases hm : 0 < mh ∧ mh < (s.pos : Int)
  · simp only [if_pos hm]
  simp only [if_neg hm]
  have hat := lineAt cr_ne_lf buf s.pos
  generalize cutLine cr lf (buf.drop s.pos) = cut at hat
  cases hat with
  | past h => simp only [if_pos h]
  | half h hc h' => simp only [if_neg (Nat.not_le.mpr h), hc, h', true_and, if_true]
  | blank h hc hl =>
      simp only [if_neg (Nat.not_le.mpr (Nat.lt_of_succ_lt h)), hc, hl, true_and, if_true,
        if_neg (Nat.not_le.mpr h)]
  | part h h₁ h₂ hf => simp only [if_neg (Nat.not_le.mpr h), if_neg h₁, if_neg h₂, hf]
  | bare h h₁ h₂ hf hb =>
      simp only [if_neg (Nat.not_le.mpr h), if_neg h₁, if_neg h₂, hf, ne_eq, hs.bare hb,
        not_false_eq_true, if_true]
  | full h h₁ h₂ hl hf hc ht =>
      rename_i l
      obtain ⟨c, l, rfl⟩ := List.exists_cons_of_ne_nil hl
      have hlen := (List.getElem?_eq_some_iff.mp hc).1.le
      have e₁ : s.pos + ((c :: l).length + 1) - 1 = s.pos + (c :: l).length := by omega
      have e₂ : (c :: l).length + 1 - 1 = (c :: l).length := by omega
      simp only [if_neg (Nat.not_le.mpr h), if_neg h₁, if_neg h₂, hf, e₁, e₂, hc, ne_eq,
        not_true_eq_false, if_false, fieldLine_line hlen, ht]
      rfl

/-- A pass that goes round again has read one line, and stands behind its LF. -/
theorem headStep_next {s s' : HeadState} (hs : BehindLf buf s.pos)
    (h : headStep buf rl mh mb s = .next s') :
    ∃ l s₁, l ≠ [] ∧ cutLine cr lf (buf.drop s.pos) = .line l ∧
      fieldLine l mb 0 l.length s = .ok s₁ ∧ s' = { s₁ with pos := s.pos + (l.length + 2) } ∧
      ¬ (0 < mh ∧ mh < (s.pos : Int)) := by
  rw [headStep_eq hs] at h
  split at h
  · cases h
  rename_i hm
  split at h
  · cases h
  · cases h
  · cases h
  · rename_i c l hcut
    cases hf : fieldLine (c :: l) mb 0 (c :: l).length s with
    | error e => rw [hf] at h; cases h
    | ok s₁ =>
        rw [hf] at h
        cases h
        exact ⟨c :: l, s₁, by simp, hcut, hf, rfl, hm⟩

theorem headFold_pos {s s' : HeadState} {l : List UInt8} (h : headFold mh mb s l = .ok s') :
    s'.pos = s.pos + (l.length + 2) := by
  unfold headFold at h
  split at h
  · cases h
  · split at h
    · cases h
    · cases h; rfl

theorem headStep_descends :
    Descends (headStep buf rl mh mb) (fun s => buf.length - s.pos) fun s => BehindLf buf s.pos := by
  intro s s' hs h
  obtain ⟨l, s₁, -, hcut, -, rfl, -⟩ := headStep_next hs h
  have hlen := cutLine_line_length hcut
  rw [List.length_drop] at hlen
  exact ⟨behindLf_cut hcut, by simp only; omega⟩

/-- **The loop is the walk**, then the verdict on the body. -/
theorem headLoop_eq {s : HeadState} (hs : BehindLf buf s.pos) :
    loop (headStep buf rl mh mb) (fun s => buf.length - s.pos) .more s =
      if 0 < mh ∧ mh < (s.pos : Int) then .refuse .header
      else
        (walkLines cr lf .malformed (headFold mh mb) s (buf.drop s.pos)).bind fun p =>
          bodyVerdict buf rl mh mb (p.1.pos + 2) p.1 := by
  refine loop_rule headStep_descends (P := fun s a => a =
    if 0 < mh ∧ mh < (s.pos : Int) then .refuse .header
    else
      (walkLines cr lf .malformed (headFold mh mb) s (buf.drop s.pos)).bind fun p =>
        bodyVerdict buf rl mh mb (p.1.pos + 2) p.1) ?_ ?_ hs
  · intro s a hs h
    rw [headStep_eq hs] at h
    split at h
    · rename_i hm; cases h; rw [if_pos hm]
    rename_i hm
    rw [if_neg hm]
    split at h
    · rename_i hcut; cases h; rw [walkLines_more hcut]; rfl
    · rename_i hcut; cases h; rw [walkLines_bare hcut]; rfl
    · rename_i hcut; cases h; rw [walkLines_empty hcut]; rfl
    · rename_i c l hcut
      rw [walkLines_line hcut (by simp)]
      cases hf : fieldLine (c :: l) mb 0 (c :: l).length s with
      | error e =>
          rw [hf] at h
          cases h
          simp only [headFold, hf, Verdict.bind_refuse]
      | ok s₁ => rw [hf] at h; cases h
  · intro s s' a hs h ih
    obtain ⟨l, s₁, hl, hcut, hf, rfl, hm⟩ := headStep_next hs h
    rw [if_neg hm, walkLines_line hcut hl, ih]
    -- the fold's limit test is the one the next pass starts with
    simp only [headFold, hf]
    split
    · rfl
    · simp only [List.drop_drop]
      cases walkLines cr lf .malformed (headFold mh mb) { s₁ with pos := s.pos + (l.length + 2) }
        (buf.drop (s.pos + (l.length + 2))) <;> rfl

end Loop

/-- **The framer is `headOf`, then the verdict on the body.** -/
theorem frameRequest_eq (buf : List UInt8) (mh mb : Int) :
    frameRequest buf mh mb =
      (headOf mh mb buf).bind fun p => bodyVerdict buf p.1 mh mb (p.2.pos + 2) p.2 := by
  unfold frameRequest headOf findByteIdx
  by_cases h4 : buf.length < 4
  · simp only [if_pos h4, Verdict.bind_more]
  simp only [if_neg h4]
  cases hk : buf.idxOf? lf with
  | none => simp only [cutLine, hk, Verdict.bind_more]
  | some rl =>
      cases rl with
      | zero => simp only [cutLine, hk, true_or, if_true, Verdict.bind_refuse]
      | succ k =>
          by_cases hcr : buf[k]? = some cr
          · have hk' := idxOf?_lt hk
            have hlen : (buf.take k).length = k := by rw [List.length_take]; omega
            have hlf : buf[k + 1]? = some lf := by
              obtain ⟨a, r, hb, ha, -⟩ := idxOf?_eq_some hk
              rw [hb, ← ha]
              simp
            have hs : BehindLf buf (({ pos := k + 1 + 1 } : HeadState).pos) :=
              ⟨Nat.succ_pos _, hlf⟩
            simp only [cutLine, hk, Nat.add_one_sub_one, hcr, ne_eq, not_true_eq_false, or_false,
              Nat.succ_ne_zero, if_false, if_true, hlen, headLoop_eq hs]
            split
            · rfl
            · cases walkLines cr lf .malformed (headFold mh mb) { pos := k + 2 }
                (buf.drop (k + 2)) <;> rfl
          · simp only [cutLine, hk, Nat.add_one_sub_one, hcr, ne_eq, not_false_eq_true, or_true,
              if_true, if_false, Verdict.bind_refuse]

/-! ### Complete heads -/

theorem headOf_stable (mh mb : Int) : Stable (headOf mh mb) := by
  intro b x h
  unfold headOf at h ⊢
  by_cases h4 : b.length < 4
  · simp [h4] at h
  have h4' : ¬ (b ++ x).length < 4 := by rw [List.length_append]; omega
  simp only [if_neg h4, if_neg h4'] at h ⊢
  have hm : cutLine cr lf b ≠ .more := fun e => h (by simp only [e])
  rw [cutLine_append hm x]
  cases e : cutLine cr lf b with
  | more => exact absurd e hm
  | bare => rfl
  | line l =>
      simp only [e] at h ⊢
      split at h
      · rename_i hl; simp only [if_pos hl]
      · rename_i hl
        simp only [if_neg hl, List.drop_append_of_le_length (cutLine_line_length e)]
        rw [ne_eq, Verdict.map_eq_more] at h
        rw [walkLines_stable _ _ x h]

theorem head_append (h : Head) (rest : List UInt8) :
    h.bytes ++ rest =
      h.requestLine ++ cr :: lf :: (unlines cr lf h.fields ++ cr :: lf :: rest) := by
  simp [Head.bytes, crlf]

theorem head_drop {h : Head} {rest : List UInt8} :
    (h.bytes ++ rest).drop (h.requestLine.length + 2) =
      unlines cr lf h.fields ++ cr :: lf :: rest := by
  rw [head_append, List.drop_append, List.drop_eq_nil_of_le (by omega)]
  simp

theorem head_cutLine {h : Head} (hl : h.Lines) (rest : List UInt8) :
    cutLine cr lf (h.bytes ++ rest) = .line h.requestLine := by
  rw [head_append]
  exact cutLine_line cr_ne_lf hl.1 _

/-- The first LF of a buffer that starts with a head. -/
theorem head_firstLf {h : Head} (hl : h.Lines) (rest : List UInt8) :
    findByteIdx (h.bytes ++ rest) lf = some (h.requestLine.length + 1) := by
  rw [head_append, List.append_cons, findByteIdx, idxOf?_append_cons]
  · simp
  · simp only [List.mem_append, List.mem_singleton, not_or]
    exact ⟨hl.1, cr_ne_lf.symm⟩

theorem head_length (h : Head) :
    h.bytes.length = h.requestLine.length + 2 + (unlines cr lf h.fields).length + 2 := by
  simp only [Head.bytes, crlf, List.length_append, List.length_cons, List.length_nil]
  omega

/-- A buffer starts with one head at most. -/
theorem head_unique {h h' : Head} {rest rest' : List UInt8} (hl : h.Lines) (hl' : h'.Lines)
    (e : h.bytes ++ rest = h'.bytes ++ rest') : h = h' ∧ rest = rest' := by
  have hreq : h.requestLine = h'.requestLine := by
    have := head_cutLine hl rest
    rw [e, head_cutLine hl' rest'] at this
    exact (Cut.line.inj this).symm
  have hd := @head_drop h rest
  rw [e, hreq, head_drop] at hd
  obtain ⟨hf, hr⟩ := unlines_unique cr_ne_lf hl'.2 hl.2 hd
  obtain ⟨L, fs⟩ := h
  simp only at hreq hf
  exact ⟨by rw [hreq, ← hf], hr.symm⟩

/-- A line and then a walk that accepts are a complete head. -/
theorem head_of_walk {ε σ : Type} {bad : ε} {f : σ → List UInt8 → Except ε σ} {buf l : List UInt8}
    {s s' : σ} {n : Nat} (hcut : cutLine cr lf buf = .line l)
    (hw : walkLines cr lf bad f s (buf.drop (l.length + 2)) = .accept (s', n)) :
    ∃ (h : Head) (rest : List UInt8), buf = h.bytes ++ rest ∧ h.Lines ∧ l = h.requestLine ∧
      h.fields.foldlM f s = .ok s' ∧ n = (unlines cr lf h.fields).length + 2 := by
  obtain ⟨hlf, rest, rfl⟩ := (cutLine_line_iff cr_ne_lf).mp hcut
  obtain ⟨ls, rest', hr, hls, hfold, hn⟩ := walkLines_accept cr_ne_lf hw
  have hd : (l ++ cr :: lf :: rest).drop (l.length + 2) = rest := by
    rw [List.drop_append, List.drop_eq_nil_of_le (by omega)]
    simp
  rw [hd] at hr
  subst hr
  exact ⟨⟨l, ls⟩, rest', by simp [Head.bytes, crlf], ⟨hlf, hls⟩, rfl, hfold, hn⟩

/-- On a complete head, `headOf` is the fold over its field lines. -/
theorem headOf_head {h : Head} (hl : h.Lines) (rest : List UInt8) (mh mb : Int) :
    headOf mh mb (h.bytes ++ rest) =
      if 0 < mh ∧ mh < (h.requestLine.length + 2 : Nat) then .refuse .header
      else
        match h.fields.foldlM (headFold mh mb) { pos := h.requestLine.length + 2 } with
        | .error e => .refuse e
        | .ok s => .accept (h.requestLine.length + 1, s) := by
  have h4 : ¬ (h.bytes ++ rest).length < 4 := by
    rw [List.length_append, head_length]; omega
  simp only [headOf, if_neg h4, head_cutLine hl, head_drop, walkLines_unlines cr_ne_lf hl.2]
  split
  · rfl
  · cases h.fields.foldlM (headFold mh mb) { pos := h.requestLine.length + 2 } <;> rfl

theorem headOf_accept_iff {mh mb : Int} {buf : List UInt8} {rl : Nat} {s : HeadState} :
    headOf mh mb buf = .accept (rl, s) ↔
      ∃ (h : Head) (rest : List UInt8), buf = h.bytes ++ rest ∧ h.Lines ∧
        ¬ (0 < mh ∧ mh < (h.requestLine.length + 2 : Nat)) ∧ rl = h.requestLine.length + 1 ∧
        h.fields.foldlM (headFold mh mb) { pos := h.requestLine.length + 2 } = .ok s := by
  constructor
  · intro hh
    unfold headOf at hh
    split at hh
    · cases hh
    split at hh
    · cases hh
    · cases hh
    rename_i l hcut
    split at hh
    · cases hh
    rename_i hm
    obtain ⟨⟨s', n⟩, hw, e⟩ := Verdict.map_eq_accept.mp hh
    cases e
    obtain ⟨h, rest, rfl, hl, rfl, hfold, -⟩ := head_of_walk hcut hw
    exact ⟨h, rest, rfl, hl, hm, rfl, hfold⟩
  · rintro ⟨h, rest, rfl, hl, hm, rfl, hfold⟩
    rw [headOf_head hl, if_neg hm, hfold]

/-- The walk's position behind some lines. -/
theorem foldlM_pos {mh mb : Int} {ls : List (List UInt8)} {s s' : HeadState}
    (h : ls.foldlM (headFold mh mb) s = .ok s') :
    s'.pos = s.pos + (unlines cr lf ls).length := by
  induction ls generalizing s with
  | nil => cases h; simp
  | cons l ls ih =>
      rw [List.foldlM_cons] at h
      cases hf : headFold mh mb s l with
      | error e => rw [hf] at h; cases h
      | ok s₁ =>
          rw [hf] at h
          rw [ih h, headFold_pos hf]
          simp only [unlines_cons, List.length_append, List.length_cons]
          omega

end Vanilla.RequestParser

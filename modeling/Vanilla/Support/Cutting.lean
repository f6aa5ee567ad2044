import Vanilla.Support.Verdict

/-!
# Support — cutting a stream into messages

A reader appends what arrives to a buffer and cuts messages off its front with a framer, as long
as the framer accepts.  `Cuts frame s ns st` is what such a reader makes of the stream `s`, said
without the reader: the lengths of the messages it is cut into, and the refusal that ended it.

* `Cuts.unique`: there is one such answer, if the framer's answers are final.
* `cutAll_cuts`: cutting one buffer is a step towards it.
-/

namespace Scan

universe u v

variable {α : Type u} {ε : Type v}

/-- How the stream `s` is cut.  A message, or a refusal, is what the framer answers on some prefix
of what is left; the stream is waiting when it answers on none. -/
inductive Cuts (frame : List α → Verdict ε Nat) : List α → List Nat → Option ε → Prop where
  | wait {s : List α} (h : ∀ b, b <+: s → frame b = .more) : Cuts frame s [] none
  | refuse {s b : List α} {e : ε} (hp : b <+: s) (h : frame b = .refuse e) :
      Cuts frame s [] (some e)
  | cut {s b : List α} {n : Nat} {ns : List Nat} {st : Option ε} (hp : b <+: s)
      (h : frame b = .accept n) (t : Cuts frame (s.drop n) ns st) : Cuts frame s (n :: ns) st

variable {frame : List α → Verdict ε Nat}

theorem Stable.prefix_eq (hf : Stable frame) {b b' : List α} (hp : b <+: b')
    (h : frame b ≠ .more) : frame b' = frame b := by
  obtain ⟨x, rfl⟩ := hp
  exact hf b x h

/-- Two prefixes of one stream that are answered are answered alike. -/
theorem Stable.agree (hf : Stable frame) {b b' s : List α} (hp : b <+: s) (hp' : b' <+: s)
    (h : frame b ≠ .more) (h' : frame b' ≠ .more) : frame b = frame b' := by
  rcases Nat.le_total b.length b'.length with hle | hle
  · exact (hf.prefix_eq (List.prefix_of_prefix_length_le hp hp' hle) h).symm
  · exact hf.prefix_eq (List.prefix_of_prefix_length_le hp' hp hle) h'

/-- **A stream is cut in one way.** -/
theorem Cuts.unique (hf : Stable frame) {s : List α} {ns ns' : List Nat}
    {st st' : Option ε} (h : Cuts frame s ns st) (h' : Cuts frame s ns' st') :
    ns = ns' ∧ st = st' := by
  induction h generalizing ns' st' with
  | wait hw =>
      cases h' with
      | wait => exact ⟨rfl, rfl⟩
      | refuse hp h => rw [hw _ hp] at h; cases h
      | cut hp h => rw [hw _ hp] at h; cases h
  | refuse hp h =>
      cases h' with
      | wait hw => rw [hw _ hp] at h; cases h
      | refuse hp' h' =>
          have e := hf.agree hp hp' (by simp [h]) (by simp [h'])
          rw [h, h'] at e
          cases e
          exact ⟨rfl, rfl⟩
      | cut hp' h' =>
          have e := hf.agree hp hp' (by simp [h]) (by simp [h'])
          rw [h, h'] at e
          cases e
  | cut hp h _ ih =>
      cases h' with
      | wait hw => rw [hw _ hp] at h; cases h
      | refuse hp' h' =>
          have e := hf.agree hp hp' (by simp [h]) (by simp [h'])
          rw [h, h'] at e
          cases e
      | cut hp' h' t' =>
          have e := hf.agree hp hp' (by simp [h]) (by simp [h'])
          rw [h, h'] at e
          cases e
          obtain ⟨rfl, rfl⟩ := ih t'
          exact ⟨rfl, rfl⟩

/-! ### Cutting a buffer -/

/-- One pass over a buffer; the state is how far it has been cut, and the lengths so far. -/
def cutStep (frame : List α → Verdict ε Nat) (buf : List α) (s : Nat × List Nat) :
    Turn (Nat × List Nat) (Nat × List Nat × Option ε) :=
  if buf.length ≤ s.1 then .exit (s.1, s.2, none)
  else
    match frame (buf.drop s.1) with
    | .more => .exit (s.1, s.2, none)
    | .refuse e => .exit (s.1, s.2, some e)
    | .accept n => .next (s.1 + n, s.2 ++ [n])

/-- Cut messages off the front of `buf` until the framer does not accept. -/
def cutAll (frame : List α → Verdict ε Nat) (buf : List α) : Nat × List Nat × Option ε :=
  loop (cutStep frame buf) (fun s => buf.length - s.1) (0, [], none) (0, [])

/-- A message is not empty, and no longer than its buffer. -/
def Cutting (frame : List α → Verdict ε Nat) : Prop :=
  ∀ b n, frame b = .accept n → 0 < n ∧ n ≤ b.length

/-- What is left behind `pos` is cut into `ms`, whatever comes behind the buffer. -/
def CutFrom (frame : List α → Verdict ε Nat) (buf : List α) (pos : Nat) (ms : List Nat)
    (pos' : Nat) (st : Option ε) : Prop :=
  match st with
  | some e => ∀ x, Cuts frame (buf.drop pos ++ x) ms (some e)
  | none => frame (buf.drop pos') = .more ∧ ∀ x ns st,
      Cuts frame (buf.drop pos' ++ x) ns st → Cuts frame (buf.drop pos ++ x) (ms ++ ns) st

theorem cutStep_descends (hc : Cutting frame) (buf : List α) :
    Descends (cutStep frame buf) (fun s => buf.length - s.1) fun s => s.1 ≤ buf.length := by
  rintro ⟨pos, ns⟩ s' hs h
  unfold cutStep at h
  split at h
  · cases h
  rename_i hlt
  split at h
  · cases h
  · cases h
  · rename_i n hn
    cases h
    obtain ⟨h₁, h₂⟩ := hc _ _ hn
    rw [List.length_drop] at h₂
    simp only at hs hlt h₂ ⊢
    omega

/-- **One buffer is a step towards the cut of the stream.** -/
theorem cutAll_cuts (hc : Cutting frame) (h₀ : frame [] = .more) {buf : List α} {pos : Nat}
    {ms : List Nat} {st : Option ε} (h : cutAll frame buf = (pos, ms, st)) :
    pos ≤ buf.length ∧ CutFrom frame buf 0 ms pos st := by
  suffices key : (cutAll frame buf).1 ≤ buf.length ∧ ∃ ms, (cutAll frame buf).2.1 = [] ++ ms ∧
      CutFrom frame buf 0 ms (cutAll frame buf).1 (cutAll frame buf).2.2 by
    rw [h] at key
    obtain ⟨hp, ms', e, hcut⟩ := key
    simp only [List.nil_append] at e
    subst e
    exact ⟨hp, hcut⟩
  refine loop_rule (cutStep_descends hc buf) (P := fun s a => a.1 ≤ buf.length ∧
    ∃ ms, a.2.1 = s.2 ++ ms ∧ CutFrom frame buf s.1 ms a.1 a.2.2) ?_ ?_ (s := (0, []))
    (Nat.zero_le _)
  · rintro ⟨pos, ns⟩ a hs h
    unfold cutStep at h
    split at h
    · rename_i hle
      cases h
      refine ⟨hs, [], by simp, ?_, fun x ns st h => h⟩
      rw [List.drop_eq_nil_of_le hle, h₀]
    split at h
    · rename_i hm
      cases h
      exact ⟨hs, [], by simp, hm, fun x ns st h => h⟩
    · rename_i e hr
      cases h
      exact ⟨hs, [], by simp, fun x => .refuse (List.prefix_append _ x) hr⟩
    · cases h
  · rintro ⟨pos, ns⟩ s' ⟨pos', ns', st⟩ hs h ⟨hp, ms, e, hcut⟩
    unfold cutStep at h
    split at h
    · cases h
    split at h
    · cases h
    · cases h
    rename_i n hn
    cases h
    obtain ⟨-, hle⟩ := hc _ _ hn
    have hd : ∀ x, (buf.drop pos ++ x).drop n = buf.drop (pos + n) ++ x := fun x => by
      rw [List.drop_append_of_le_length hle, List.drop_drop]
    refine ⟨hp, n :: ms, by simpa using e, ?_⟩
    cases st with
    | some e =>
        exact fun x => .cut (List.prefix_append _ x) hn (by rw [hd]; exact hcut x)
    | none =>
        exact ⟨hcut.1, fun x ns st h => .cut (List.prefix_append _ x) hn
          (by rw [hd]; exact hcut.2 x ns st h)⟩

end Scan

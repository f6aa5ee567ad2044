import Vanilla.RequestParser.Head

/-!
# Request parser — what the field lines add up to

The fold over the field lines of a head, in the grammar's words: it succeeds exactly when no
Content-Length or Transfer-Encoding line is malformed on its own, the lengths agree, and no coding
follows chunked (`foldlM_sound`, `foldlM_complete`); its result is the declared length and whether
chunked came last (`After`).
-/

namespace Vanilla.RequestParser

/-! ### Content-Length and Transfer-Encoding lines are different lines -/

/-- The line starts with `name`, up to case. -/
def StartsWith (name l : List UInt8) : Prop := ∃ n r, l = n ++ r ∧ CiEq n name

theorem Named.startsWith {name l : List UInt8} (h : Named name l) : StartsWith name l := by
  obtain ⟨v, n, o₁, o₂, rfl, hn, -⟩ := h
  exact ⟨n, _, rfl, hn⟩

theorem Spaced.startsWith {name l : List UInt8} (h : Spaced name l) : StartsWith name l := by
  obtain ⟨n, c, r, rfl, hn, -⟩ := h
  exact ⟨n, _, rfl, hn⟩

theorem startsWith_head {name l : List UInt8} (h : StartsWith name l) {c : UInt8}
    (hc : name.head? = some c) : l.head?.map lower = some (lower c) := by
  obtain ⟨n, r, rfl, hn⟩ := h
  obtain ⟨name, rfl⟩ : ∃ t, name = c :: t := by
    cases name with
    | nil => cases hc
    | cons d t => cases Option.some.inj hc; exact ⟨t, rfl⟩
  cases n with
  | nil => cases hn
  | cons d n => simpa [CiEq] using (List.cons.inj hn).1

theorem not_cl_and_te {l : List UInt8} (h₁ : StartsWith clName l) (h₂ : StartsWith teName l) :
    False := by
  have e₁ := startsWith_head h₁ (c := 67) (by decide)
  have e₂ := startsWith_head h₂ (c := 84) (by decide)
  rw [e₁] at e₂
  revert e₂
  decide

/-! ### One line -/

/-- A line the framer passes over. -/
def Plain (l : List UInt8) : Prop :=
  (¬ Named clName l ∧ ¬ Spaced clName l) ∧ ¬ Named teName l ∧ ¬ Spaced teName l

variable {l : List UInt8} {mb : Int} {s s' : HeadState}

theorem fieldLine_cl {v : List UInt8} (h : Field clName l v) :
    fieldLine l mb 0 l.length s = .ok s' ↔
      Digits v ∧ decValue 0 v ≤ maxDeclared ∧
        (∀ n, s.contentLength = some n → n = decValue 0 v) ∧
        ¬ (0 < mb ∧ mb < (decValue 0 v : Int)) ∧
        s' = { s with contentLength := some (decValue 0 v) } := by
  obtain ⟨k, hk, hview⟩ := lineHeaderValue_field h
  have hpos : ¬ ((v.length : Int) < 0) := by omega
  have hparse := fun m => parseContentLength_ok (l := l) (m := m) (s := ⟨k, v.length⟩) rfl hview
  have hk' : lineHeaderValue l 0 l.length (ascii "Content-Length") = some ⟨k, v.length⟩ := hk
  simp only [fieldLine, hk', if_neg hpos]
  cases hp : parseContentLength l ⟨k, v.length⟩ with
  | error e =>
      refine ⟨fun h => (by cases h), fun ⟨h₁, h₂, _⟩ => ?_⟩
      rw [(hparse _).mpr ⟨h₁, h₂, rfl⟩] at hp
      cases hp
  | ok n =>
      obtain ⟨h₁, h₂, rfl⟩ := (hparse n).mp hp
      have hsame : ¬ (s.contentLength.isSome ∧ s.contentLength ≠ some (decValue 0 v)) ↔
          ∀ n, s.contentLength = some n → n = decValue 0 v := by
        cases s.contentLength <;> simp
      simp only [h₁, h₂, true_and, ← hsame]
      split
      · rename_i hne
        exact ⟨fun h => (by cases h), fun h => absurd hne h.1⟩
      · rename_i heq
        split
        · rename_i hmb
          exact ⟨fun h => (by cases h), fun h => absurd hmb h.2.1⟩
        · rename_i hmb
          exact ⟨fun h => ⟨heq, hmb, (Except.ok.inj h).symm⟩, fun h => congrArg _ h.2.2.symm⟩

theorem fieldLine_te {w : List UInt8} (h : Field teName l w) :
    fieldLine l mb 0 l.length s = .ok s' ↔
      ∃ k, codings w ≠ [] ∧ codingFold s.chunked (codings w) = some k ∧
        s' = { s with teSeen := true, chunked := k } := by
  have hcl : lineHeaderValue l 0 l.length (ascii "Content-Length") = none :=
    lineHeaderValue_none.mpr ⟨fun hn => not_cl_and_te hn.startsWith (Named.startsWith ⟨w, h⟩),
      fun hs => not_cl_and_te hs.startsWith (Named.startsWith ⟨w, h⟩)⟩
  obtain ⟨i, hi, hview⟩ := lineHeaderValue_field h
  have hi' : lineHeaderValue l 0 l.length (ascii "Transfer-Encoding") = some ⟨i, w.length⟩ := hi
  have hpos : ¬ ((w.length : Int) < 0) := by omega
  simp only [fieldLine, hcl, hi', if_neg hpos, teFold_eq, hview]
  by_cases hw : codings w = []
  · simp [hw]
  · cases codingFold s.chunked (codings w) <;> simp [hw, eq_comm]

theorem fieldLine_spaced (h : Spaced clName l ∨ Spaced teName l) :
    fieldLine l mb 0 l.length s ≠ .ok s' := by
  rcases h with h | h
  · have e : lineHeaderValue l 0 l.length (ascii "Content-Length") = some ⟨0, -1⟩ :=
      lineHeaderValue_spaced h
    simp [fieldLine, e]
  · have e : lineHeaderValue l 0 l.length (ascii "Transfer-Encoding") = some ⟨0, -1⟩ :=
      lineHeaderValue_spaced h
    have hcl : lineHeaderValue l 0 l.length (ascii "Content-Length") = none :=
      lineHeaderValue_none.mpr ⟨fun hn => not_cl_and_te hn.startsWith h.startsWith,
        fun hs => not_cl_and_te hs.startsWith h.startsWith⟩
    simp [fieldLine, e, hcl]

theorem fieldLine_plain (h : Plain l) : fieldLine l mb 0 l.length s = .ok s := by
  have h₁ : lineHeaderValue l 0 l.length (ascii "Content-Length") = none :=
    lineHeaderValue_none.mpr h.1
  have h₂ : lineHeaderValue l 0 l.length (ascii "Transfer-Encoding") = none :=
    lineHeaderValue_none.mpr h.2
  simp only [fieldLine, h₁, h₂]

/-- Every line is one of the four. -/
theorem field_cases (l : List UInt8) :
    (∃ v, Field clName l v ∧ ¬ Named teName l) ∨ (∃ w, Field teName l w ∧ ¬ Named clName l) ∨
      (Spaced clName l ∨ Spaced teName l) ∨ Plain l := by
  by_cases h₁ : Named clName l
  · exact .inl (h₁.imp fun v hv => ⟨hv, fun h₂ => not_cl_and_te h₁.startsWith h₂.startsWith⟩)
  · by_cases h₂ : Named teName l
    · exact .inr (.inl (h₂.imp fun w hw => ⟨hw, h₁⟩))
    · by_cases h₃ : Spaced clName l ∨ Spaced teName l
      · exact .inr (.inr (.inl h₃))
      · exact .inr (.inr (.inr ⟨⟨h₁, fun h => h₃ (.inl h)⟩, h₂, fun h => h₃ (.inr h)⟩))

/-! ### All lines -/

theorem Values.none {name : List UInt8} {ls : List (List UInt8)} (h : ∀ l ∈ ls, ¬ Named name l) :
    Values name ls [] := by
  induction ls with
  | nil => exact .nil
  | cons l ls ih => exact .other (h l (by simp)) (ih fun l hl => h l (by simp [hl]))

theorem Values.append {name : List UInt8} {ls ls' vs vs' : List (List UInt8)}
    (h : Values name ls vs) (h' : Values name ls' vs') : Values name (ls ++ ls') (vs ++ vs') := by
  induction h with
  | nil => exact h'
  | named hf _ ih => exact .named hf ih
  | other hn _ ih => exact .other hn ih

theorem Values.of_named {name l v : List UInt8} {ls vs : List (List UInt8)}
    (h : Values name (l :: ls) (v :: vs)) (hf : Field name l v) : Values name ls vs := by
  cases h with
  | named _ t => exact t
  | other hn _ => exact absurd ⟨v, hf⟩ hn

theorem Values.of_other {name l : List UInt8} {ls vs : List (List UInt8)}
    (h : Values name (l :: ls) vs) (hn : ¬ Named name l) : Values name ls vs := by
  cases h with
  | named hf _ => exact absurd ⟨_, hf⟩ hn
  | other _ t => exact t

theorem Values.unique {name : List UInt8} {ls vs vs' : List (List UInt8)} (h : Values name ls vs)
    (h' : Values name ls vs') : vs = vs' := by
  induction h generalizing vs' with
  | nil => cases h'; rfl
  | named hf _ ih =>
      cases h' with
      | named hf' t' => rw [hf.unique hf', ih t']
      | other hn _ => exact absurd ⟨_, hf⟩ hn
  | other hn _ ih => exact ih (h'.of_other hn)

theorem Values.mem {name l v : List UInt8} {ls vs : List (List UInt8)} (h : Values name ls vs)
    (hl : l ∈ ls) (hv : Field name l v) : v ∈ vs := by
  induction h with
  | nil => cases hl
  | named hf _ ih =>
      cases hl with
      | head => rw [hf.unique hv]; simp
      | tail _ hl => exact List.mem_cons_of_mem _ (ih hl)
  | other hn _ ih =>
      cases hl with
      | head => exact absurd ⟨v, hv⟩ hn
      | tail _ hl => exact ih hl

theorem Values.ne_nil_iff {name : List UInt8} {ls vs : List (List UInt8)} (h : Values name ls vs) :
    vs ≠ [] ↔ ∃ l ∈ ls, Named name l := by
  induction h with
  | nil => simp
  | named hf _ _ => exact ⟨fun _ => ⟨_, by simp, _, hf⟩, fun _ => by simp⟩
  | other hn _ ih => rw [ih]; simp [hn]

/-- The lines, read from `s`, add up: `vs` and `ws` are the values of the two kinds of field. -/
structure Adds (ls : List (List UInt8)) (s : HeadState) (vs ws : List (List UInt8)) : Prop where
  good : ∀ l ∈ ls, ¬ Spaced clName l ∧ ¬ Spaced teName l
  cl : Values clName ls vs
  te : Values teName ls ws
  digits : ∀ v ∈ vs, Digits v ∧ decValue 0 v ≤ maxDeclared
  same : ∀ v ∈ vs, ∀ v' ∈ vs, decValue 0 v = decValue 0 v'
  declared : ∀ v ∈ vs, ∀ n, s.contentLength = some n → n = decValue 0 v
  coded : ∀ w ∈ ws, codings w ≠ []
  codes : codingFold s.chunked (ws.flatMap codings) ≠ none

/-- The walk's variables behind lines with these values. -/
structure After (s : HeadState) (vs ws : List (List UInt8)) (s' : HeadState) : Prop where
  length : vs = [] ∧ s'.contentLength = s.contentLength ∨
    ∃ v ∈ vs, s'.contentLength = some (decValue 0 v)
  codes : codingFold s.chunked (ws.flatMap codings) = some s'.chunked
  seen : s'.teSeen = (s.teSeen || !ws.isEmpty)

section Cons

variable {ls vs ws : List (List UInt8)} {p : Nat}

theorem adds_cl {v : List UInt8} (hv : Field clName l v) (ht : ¬ Named teName l) :
    Adds (l :: ls) s (v :: vs) ws ↔
      Digits v ∧ decValue 0 v ≤ maxDeclared ∧
        (∀ n, s.contentLength = some n → n = decValue 0 v) ∧
        Adds ls { s with contentLength := some (decValue 0 v), pos := p } vs ws := by
  have hsp : ¬ Spaced teName l := fun h =>
    not_cl_and_te (Named.startsWith ⟨v, hv⟩) h.startsWith
  constructor
  · intro h
    obtain ⟨hd, hmax⟩ := h.digits v (by simp)
    refine ⟨hd, hmax, h.declared v (by simp), fun l hl => h.good l (by simp [hl]),
      h.cl.of_named hv, h.te.of_other ht, fun v hv => h.digits v (by simp [hv]),
      fun v hv v' hv' => h.same v (by simp [hv]) v' (by simp [hv']), ?_, h.coded, h.codes⟩
    rintro v' hv' n hn
    cases hn
    exact h.same v (by simp) v' (by simp [hv'])
  · rintro ⟨hd, hmax, hdecl, h⟩
    have hall : ∀ v' ∈ vs, decValue 0 v = decValue 0 v' := fun v' hv' => h.declared v' hv' _ rfl
    refine ⟨?_, .named hv h.cl, .other ht h.te, ?_, ?_, ?_, h.coded, h.codes⟩
    · rintro _ (_ | ⟨_, hl⟩)
      · exact ⟨hv.not_spaced, hsp⟩
      · exact h.good _ hl
    · rintro _ (_ | ⟨_, hl⟩)
      · exact ⟨hd, hmax⟩
      · exact h.digits _ hl
    · rintro _ (_ | ⟨_, h₁⟩) _ (_ | ⟨_, h₂⟩)
      · rfl
      · exact hall _ h₂
      · exact (hall _ h₁).symm
      · exact h.same _ h₁ _ h₂
    · rintro _ (_ | ⟨_, h₁⟩) n hn
      · exact hdecl n hn
      · rw [hdecl n hn]; exact hall _ h₁

theorem adds_te {w : List UInt8} (hw : Field teName l w) (hc : ¬ Named clName l) :
    Adds (l :: ls) s vs (w :: ws) ↔
      ∃ k, codings w ≠ [] ∧ codingFold s.chunked (codings w) = some k ∧
        Adds ls { s with teSeen := true, chunked := k, pos := p } vs ws := by
  have hsp : ¬ Spaced clName l := fun h =>
    not_cl_and_te h.startsWith (Named.startsWith ⟨w, hw⟩)
  constructor
  · intro h
    have hcodes := h.codes
    rw [List.flatMap_cons, codingFold_append] at hcodes
    cases hk : codingFold s.chunked (codings w) with
    | none => rw [hk] at hcodes; exact absurd rfl hcodes
    | some k =>
        rw [hk, Option.bind_some] at hcodes
        exact ⟨k, h.coded w (by simp), rfl, fun l hl => h.good l (by simp [hl]),
          h.cl.of_other hc, h.te.of_named hw, h.digits, h.same, h.declared,
          fun w hw => h.coded w (by simp [hw]), hcodes⟩
  · rintro ⟨k, hne, hk, h⟩
    refine ⟨?_, .other hc h.cl, .named hw h.te, h.digits, h.same, h.declared, ?_, ?_⟩
    · rintro _ (_ | ⟨_, hl⟩)
      · exact ⟨hsp, hw.not_spaced⟩
      · exact h.good _ hl
    · rintro _ (_ | ⟨_, hl⟩)
      · exact hne
      · exact h.coded _ hl
    · rw [List.flatMap_cons, codingFold_append, hk, Option.bind_some]
      exact h.codes

theorem adds_plain (hl : Plain l) :
    Adds (l :: ls) s vs ws ↔ Adds ls { s with pos := p } vs ws := by
  constructor
  · intro h
    exact ⟨fun l hl => h.good l (by simp [hl]), h.cl.of_other hl.1.1, h.te.of_other hl.2.1,
      h.digits, h.same, h.declared, h.coded, h.codes⟩
  · intro h
    refine ⟨?_, .other hl.1.1 h.cl, .other hl.2.1 h.te, h.digits, h.same, h.declared, h.coded,
      h.codes⟩
    rintro _ (_ | ⟨_, hm⟩)
    · exact ⟨hl.1.2, hl.2.2⟩
    · exact h.good _ hm

end Cons

theorem headFold_ok {mh : Int} (h : headFold mh mb s l = .ok s') :
    ∃ s₁, fieldLine l mb 0 l.length s = .ok s₁ ∧
      s' = { s₁ with pos := s.pos + (l.length + 2) } := by
  unfold headFold at h
  split at h
  · cases h
  · rename_i s₁ hf
    split at h
    · cases h
    · cases h; exact ⟨s₁, hf, rfl⟩

theorem headFold_zero {s₁ : HeadState} (h : fieldLine l 0 0 l.length s = .ok s₁) :
    headFold 0 0 s l = .ok { s₁ with pos := s.pos + (l.length + 2) } := by
  simp [headFold, h]

/-- Lines that fold add up, whatever the limits, and keep the limit on the body. -/
theorem foldlM_sound {mh : Int} {ls : List (List UInt8)} {s s' : HeadState}
    (h : ls.foldlM (headFold mh mb) s = .ok s') :
    ∃ vs ws, Adds ls s vs ws ∧ After s vs ws s' ∧
      ∀ v ∈ vs, ¬ (0 < mb ∧ mb < (decValue 0 v : Int)) := by
  induction ls generalizing s with
  | nil =>
      cases h
      exact ⟨[], [],
        ⟨by simp, .nil, .nil, by simp, by simp, by simp, by simp, by simp [codingFold]⟩,
        ⟨.inl ⟨rfl, rfl⟩, rfl, by simp⟩, by simp⟩
  | cons l ls ih =>
      rw [List.foldlM_cons] at h
      cases hh : headFold mh mb s l with
      | error e => rw [hh] at h; cases h
      | ok s₂ =>
          rw [hh] at h
          obtain ⟨vs, ws, ha, hs, hmb⟩ := ih h
          obtain ⟨s₁, hf, rfl⟩ := headFold_ok hh
          rcases field_cases l with ⟨v, hv, hte⟩ | ⟨w, hw, hcl⟩ | hsp | hpl
          · obtain ⟨hd, hmax, hdecl, hlim, rfl⟩ := (fieldLine_cl hv).mp hf
            refine ⟨v :: vs, ws, (adds_cl hv hte).mpr ⟨hd, hmax, hdecl, ha⟩, ⟨.inr ?_, hs.codes,
              hs.seen⟩, ?_⟩
            · rcases hs.length with ⟨-, e⟩ | ⟨v', hv', e⟩
              · exact ⟨v, by simp, e⟩
              · exact ⟨v', by simp [hv'], e⟩
            · rintro _ (_ | ⟨_, hm⟩)
              · exact hlim
              · exact hmb _ hm
          · obtain ⟨k, hne, hk, rfl⟩ := (fieldLine_te hw).mp hf
            refine ⟨vs, w :: ws, (adds_te hw hcl).mpr ⟨k, hne, hk, ha⟩, ⟨hs.length, ?_, ?_⟩, hmb⟩
            · rw [List.flatMap_cons, codingFold_append, hk, Option.bind_some]
              exact hs.codes
            · simpa using hs.seen
          · exact absurd hf (fieldLine_spaced hsp)
          · rw [fieldLine_plain hpl] at hf
            cases hf
            exact ⟨vs, ws, (adds_plain hpl).mpr ha, ⟨hs.length, hs.codes, hs.seen⟩, hmb⟩

/-- Lines that add up fold. -/
theorem foldlM_complete {ls vs ws : List (List UInt8)} {s : HeadState} (h : Adds ls s vs ws) :
    ∃ s', ls.foldlM (headFold 0 0) s = .ok s' := by
  induction ls generalizing s vs ws with
  | nil => exact ⟨s, rfl⟩
  | cons l ls ih =>
      -- each kind of line leaves a state the rest adds up from
      suffices hl : ∃ s₁ vs' ws', fieldLine l 0 0 l.length s = .ok s₁ ∧
          Adds ls { s₁ with pos := s.pos + (l.length + 2) } vs' ws' by
        obtain ⟨s₁, vs', ws', hf, ha⟩ := hl
        rw [List.foldlM_cons, headFold_zero hf]
        exact ih ha
      rcases field_cases l with ⟨v, hv, hte⟩ | ⟨w, hw, hcl⟩ | hsp | hpl
      · cases h.cl with
        | other hn _ => exact absurd ⟨v, hv⟩ hn
        | named hv' _ =>
            obtain rfl := hv.unique hv'
            obtain ⟨hd, hmax, hdecl, ha⟩ := (adds_cl hv hte).mp h
            exact ⟨_, _, _, (fieldLine_cl hv).mpr ⟨hd, hmax, hdecl, by simp, rfl⟩, ha⟩
      · cases h.te with
        | other hn _ => exact absurd ⟨w, hw⟩ hn
        | named hw' _ =>
            obtain rfl := hw.unique hw'
            obtain ⟨k, hne, hk, ha⟩ := (adds_te hw hcl).mp h
            exact ⟨_, _, _, (fieldLine_te hw).mpr ⟨k, hne, hk, rfl⟩, ha⟩
      · obtain ⟨h₁, h₂⟩ := h.good l (by simp)
        exact (hsp.elim h₁ h₂).elim
      · exact ⟨s, vs, ws, fieldLine_plain hpl, (adds_plain hpl).mp h⟩

end Vanilla.RequestParser

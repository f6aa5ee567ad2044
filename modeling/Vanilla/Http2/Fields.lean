import Vanilla.Http2.Conn

/-!
# HTTP/2 — what a valid request looks like

`validate_request_fields` walks over a header list with counters and flags.  `RequestFields` says
what it is after, about the list as a whole: the rules of every single field (`FieldOk`), the
pseudo-headers before the others, how often each of them occurs, and one content-length.

* `Scanned`: what the variables of the loop stand for, behind the fields it has seen.
* `requestFields_of_valid`: a list that passes keeps the rules.
-/

namespace Vanilla.Http2

/-! ### The rules -/

/-- A pseudo-header. -/
def HeaderField.Pseudo (f : HeaderField) : Prop := f.name.head? = some colon

/-- The pseudo-headers of a request. -/
def pseudoNames : List (List UInt8) :=
  [ascii ":method", ascii ":scheme", ascii ":path", ascii ":authority"]

/-- How many fields have a name. -/
def occurs (name : List UInt8) (fields : List HeaderField) : Nat :=
  fields.countP (·.name = name)

/-- A name a regular field can have: no capitals, no blanks, and not of a field about the
connection. -/
def RegularName (name : List UInt8) : Prop :=
  (∀ ch ∈ name, ¬ (65 ≤ ch ∧ ch ≤ 90) ∧ ch ≠ 32 ∧ ch ≠ 0) ∧
    name ∉ [ascii "connection", ascii "keep-alive", ascii "proxy-connection",
      ascii "transfer-encoding", ascii "upgrade"]

/-- The rules of a single field. -/
structure FieldOk (f : HeaderField) : Prop where
  named : f.name ≠ []
  known : f.Pseudo → f.name ∈ pseudoNames
  path : f.name = ascii ":path" → f.value ≠ []
  regular : ¬ f.Pseudo → RegularName f.name
  te : f.name = ascii "te" → f.value = ascii "trailers"

/-- No pseudo-header is behind a field that is none. -/
def PseudoFirst (fields : List HeaderField) : Prop :=
  fields.Pairwise fun g f => f.Pseudo → g.Pseudo

/-- **The rules of a request's header list**, with the content-length it declares. -/
structure RequestFields (fields : List HeaderField) (declared : Option Nat) : Prop where
  field : ∀ f ∈ fields, FieldOk f
  order : PseudoFirst fields
  method : occurs (ascii ":method") fields = 1
  authority : occurs (ascii ":authority") fields ≤ 1
  target : ∀ f ∈ fields, f.name = ascii ":method" →
    if f.value = ascii "CONNECT" then
      occurs (ascii ":scheme") fields = 0 ∧ occurs (ascii ":path") fields = 0 ∧
        occurs (ascii ":authority") fields = 1
    else occurs (ascii ":scheme") fields = 1 ∧ occurs (ascii ":path") fields = 1
  length : ∀ f ∈ fields, f.name = ascii "content-length" →
    declared.isSome = true ∧ parseContentLength f.value = declared

theorem validRegularFieldName_iff (name : List UInt8) :
    validRegularFieldName name = true ↔ RegularName name := by
  unfold validRegularFieldName RegularName
  rw [Bool.and_eq_true, List.all_eq_true]
  refine and_congr (forall₂_congr fun ch _ => ?_) ?_
  · simp only [Bool.not_eq_true', Bool.or_eq_false_iff, Bool.and_eq_false_iff, beq_eq_false_iff_ne,
      decide_eq_false_iff_not, ne_eq]
    tauto
  · simp only [Bool.not_eq_true', List.contains_eq_mem, decide_eq_false_iff_not]

/-- What the names of the pseudo-headers have in common. -/
theorem pseudo_of_mem {f : HeaderField} (hn : f.name ∈ pseudoNames) :
    f.Pseudo ∧ f.name ≠ [] ∧ f.name ≠ ascii "te" ∧ f.name ≠ ascii "content-length" := by
  unfold HeaderField.Pseudo
  generalize f.name = name at hn
  revert name
  decide

/-! ### One field -/

namespace FieldScan

/-- The counters behind a pseudo-header. -/
def count (s : FieldScan) (f : HeaderField) : FieldScan :=
  { s with
    method := if f.name = ascii ":method" then f.value else s.method
    nMethod := s.nMethod + if f.name = ascii ":method" then 1 else 0
    nScheme := s.nScheme + if f.name = ascii ":scheme" then 1 else 0
    nPath := s.nPath + if f.name = ascii ":path" then 1 else 0
    nAuthority := s.nAuthority + if f.name = ascii ":authority" then 1 else 0 }

/-- What the loop does with a field it does not refuse: it counts a pseudo-header, notes a
content-length, or passes over another field. -/
inductive Passes (s : FieldScan) (f : HeaderField) : FieldScan → Prop where
  | pseudo (hseen : s.seenRegular = false) (hn : f.name ∈ pseudoNames)
      (hv : f.name = ascii ":path" → f.value ≠ []) : Passes s f (s.count f)
  | length {n : Nat} (hn : f.name = ascii "content-length")
      (hv : parseContentLength f.value = some n)
      (hd : s.declared = none ∨ s.declared = some n) :
      Passes s f { s with seenRegular := true, declared := some n }
  | regular (h0 : f.name ≠ []) (hp : ¬ f.Pseudo) (hr : RegularName f.name)
      (hte : f.name = ascii "te" → f.value = ascii "trailers")
      (hn : f.name ≠ ascii "content-length") : Passes s f { s with seenRegular := true }

variable {s s' : FieldScan} {f : HeaderField}

theorem field_passes (h : s.field f = some s') : s.Passes f s' := by
  unfold field at h
  split at h
  · cases h
  · rename_i h0
    split at h
    · split at h
      · cases h
      · rename_i hseen
        -- each of the four names counts itself only
        have hcount : ∀ x, s.count f = x → f.name ∈ pseudoNames →
            (f.name = ascii ":path" → f.value ≠ []) → s.Passes f x := fun x hx hn hv =>
          hx ▸ .pseudo (eq_false_of_ne_true hseen) hn hv
        have hother : ∀ {a}, f.name = a → a ≠ ascii ":path" → f.name = ascii ":path" →
            f.value ≠ [] := fun hn ha hp => absurd (hn.symm.trans hp) ha
        split at h
        · rename_i hn
          cases h
          exact hcount _ (by rw [count, hn]; rfl) (by rw [hn]; decide) (hother hn (by decide))
        · split at h
          · rename_i hn
            cases h
            exact hcount _ (by rw [count, hn]; rfl) (by rw [hn]; decide) (hother hn (by decide))
          · split at h
            · rename_i hn
              split at h
              · cases h
              · rename_i hv
                cases h
                exact hcount _ (by rw [count, hn]; rfl) (by rw [hn]; decide)
                  fun _ he => hv (by rw [he]; rfl)
            · split at h
              · rename_i hn
                cases h
                exact hcount _ (by rw [count, hn]; rfl) (by rw [hn]; decide) (hother hn (by decide))
              · cases h
    · rename_i hp
      dsimp only at h
      split at h
      · cases h
      · rename_i hr
        split at h
        · cases h
        · rename_i hte
          split at h
          · rename_i hn
            split at h
            · cases h
            · rename_i n hv
              split at h
              · cases h
              · rename_i hd
                cases h
                exact .length hn hv (by tauto)
          · rename_i hn
            cases h
            refine .regular (fun he => h0 (by rw [he]; rfl)) hp
              ((validRegularFieldName_iff _).mp (by simpa using hr)) (fun ht => ?_) hn
            exact not_not.mp fun hv => hte ⟨ht, hv⟩

namespace Passes

/-- The fields that are not counted are no pseudo-headers. -/
theorem not_pseudo (hn : f.name = ascii "content-length") : ¬ f.Pseudo := by
  unfold HeaderField.Pseudo
  rw [hn]
  decide

/-- A field that passes keeps the rules of a single field. -/
theorem ok (h : s.Passes f s') : FieldOk f := by
  cases h with
  | pseudo _ hn hv =>
      obtain ⟨hp, h0, hte, -⟩ := pseudo_of_mem hn
      exact ⟨h0, fun _ => hn, hv, fun h => absurd hp h, fun h => absurd h hte⟩
  | length hn =>
      refine ⟨by rw [hn]; decide, fun hp => absurd hp (not_pseudo hn), fun h => ?_, fun _ => ?_,
        fun h => ?_⟩
      · exact absurd (hn.symm.trans h) (by decide)
      · rw [hn, ← validRegularFieldName_iff]
        decide
      · exact absurd (hn.symm.trans h) (by decide)
  | regular h0 hp hr hte =>
      refine ⟨h0, fun h => absurd h hp, fun hn => absurd ?_ hp, fun _ => hr, hte⟩
      exact (pseudo_of_mem (by rw [hn]; decide)).1

/-- A pseudo-header comes before the others, and the loop notes the first of these. -/
theorem seen (h : s.Passes f s') :
    (f.Pseudo → s.seenRegular = false) ∧
      (s'.seenRegular = false → s.seenRegular = false ∧ f.Pseudo) := by
  cases h with
  | pseudo hseen hn => exact ⟨fun _ => hseen, fun _ => ⟨hseen, (pseudo_of_mem hn).1⟩⟩
  | length hn => exact ⟨fun hp => absurd hp (not_pseudo hn), fun h => (by cases h)⟩
  | regular _ hp => exact ⟨fun h => absurd h hp, fun h => (by cases h)⟩

/-- The counters, whatever the field is. -/
theorem counts (h : s.Passes f s') :
    s'.method = (s.count f).method ∧ s'.nMethod = (s.count f).nMethod ∧
      s'.nScheme = (s.count f).nScheme ∧ s'.nPath = (s.count f).nPath ∧
      s'.nAuthority = (s.count f).nAuthority := by
  have hnone : ¬ f.Pseudo → s.count f = s := fun hp => by
    have hno : ∀ name ∈ pseudoNames, f.name ≠ name := fun name hm hn =>
      hp (pseudo_of_mem (hn ▸ hm)).1
    simp only [pseudoNames, List.forall_mem_cons] at hno
    simp only [count, if_neg hno.1, if_neg hno.2.1, if_neg hno.2.2.1, if_neg hno.2.2.2.1,
      Nat.add_zero]
  cases h with
  | pseudo => exact ⟨rfl, rfl, rfl, rfl, rfl⟩
  | length hn =>
      rw [hnone (not_pseudo hn)]
      exact ⟨rfl, rfl, rfl, rfl, rfl⟩
  | regular _ hp =>
      rw [hnone hp]
      exact ⟨rfl, rfl, rfl, rfl, rfl⟩

/-- A content-length is noted, and agrees with the one noted before. -/
theorem declared (h : s.Passes f s') :
    (s.declared.isSome = true → s'.declared = s.declared) ∧
      (f.name = ascii "content-length" →
        s'.declared.isSome = true ∧ parseContentLength f.value = s'.declared) := by
  cases h with
  | pseudo _ hn => exact ⟨fun _ => rfl, fun h => absurd h (pseudo_of_mem hn).2.2.2⟩
  | length hn hv hd =>
      refine ⟨fun h => ?_, fun _ => ⟨rfl, hv⟩⟩
      rcases hd with hd | hd
      · rw [hd] at h
        cases h
      · exact hd.symm
  | regular _ _ _ _ hn => exact ⟨fun _ => rfl, fun h => absurd h hn⟩

end Passes

end FieldScan

/-! ### The loop -/

/-- What the variables of the loop stand for, behind these fields. -/
structure Scanned (fields : List HeaderField) (s : FieldScan) : Prop where
  field : ∀ f ∈ fields, FieldOk f
  order : PseudoFirst fields
  seen : s.seenRegular = false → ∀ f ∈ fields, f.Pseudo
  method : ∀ f ∈ fields, f.name = ascii ":method" →
    occurs (ascii ":method") fields = 1 → s.method = f.value
  nMethod : s.nMethod = occurs (ascii ":method") fields
  nScheme : s.nScheme = occurs (ascii ":scheme") fields
  nPath : s.nPath = occurs (ascii ":path") fields
  nAuthority : s.nAuthority = occurs (ascii ":authority") fields
  length : ∀ f ∈ fields, f.name = ascii "content-length" →
    s.declared.isSome = true ∧ parseContentLength f.value = s.declared

theorem occurs_snoc (name : List UInt8) (fields : List HeaderField) (f : HeaderField) :
    occurs name (fields ++ [f]) = occurs name fields + if f.name = name then 1 else 0 := by
  unfold occurs
  rw [List.countP_append, List.countP_singleton]
  simp

theorem occurs_pos {name : List UInt8} {fields : List HeaderField} {f : HeaderField}
    (h : f ∈ fields) (hn : f.name = name) : 0 < occurs name fields :=
  List.countP_pos_iff.mpr ⟨f, h, by simp [hn]⟩

theorem PseudoFirst.snoc {fields : List HeaderField} {f : HeaderField} (h : PseudoFirst fields)
    (hf : f.Pseudo → ∀ g ∈ fields, g.Pseudo) : PseudoFirst (fields ++ [f]) := by
  refine List.pairwise_append.mpr ⟨h, List.pairwise_singleton _ f, fun g hg x hx hp => ?_⟩
  rw [List.mem_singleton.mp hx] at hp
  exact hf hp g hg

namespace Scanned

variable {fields : List HeaderField} {s s' : FieldScan} {f : HeaderField}

theorem nil : Scanned [] {} where
  field f hf := by cases hf
  order := .nil
  seen _ f hf := by cases hf
  method f hf := by cases hf
  nMethod := rfl
  nScheme := rfl
  nPath := rfl
  nAuthority := rfl
  length f hf := by cases hf

/-- **One field of the loop.** -/
theorem step (h : Scanned fields s) (hf : s.Passes f s') : Scanned (fields ++ [f]) s' := by
  obtain ⟨hpre, hseen⟩ := hf.seen
  obtain ⟨hmethod, hm, hs, hp, ha⟩ := hf.counts
  obtain ⟨hkeep, hlen⟩ := hf.declared
  have hall : ∀ {P : HeaderField → Prop}, (∀ g ∈ fields, P g) → P f → ∀ g ∈ fields ++ [f], P g :=
    fun h₁ h₂ g hg => by
      rcases List.mem_append.mp hg with hg | hg
      · exact h₁ g hg
      · rw [List.mem_singleton.mp hg]
        exact h₂
  refine ⟨hall h.field hf.ok, h.order.snoc fun h' => h.seen (hpre h'), fun h' => ?_, ?_, ?_, ?_, ?_,
    ?_, ?_⟩
  · exact hall (h.seen (hseen h').1) (hseen h').2
  · rw [occurs_snoc, hmethod]
    refine hall (fun g hg hn hone => ?_) fun hn _ => if_pos hn
    have := occurs_pos hg hn
    have hne : f.name ≠ ascii ":method" := fun hn => by
      rw [if_pos hn] at hone
      omega
    rw [if_neg hne] at hone
    exact (if_neg hne).trans (h.method g hg hn hone)
  · rw [hm, occurs_snoc, ← h.nMethod]
    rfl
  · rw [hs, occurs_snoc, ← h.nScheme]
    rfl
  · rw [hp, occurs_snoc, ← h.nPath]
    rfl
  · rw [ha, occurs_snoc, ← h.nAuthority]
    rfl
  · refine hall (fun g hg hn => ?_) hlen
    obtain ⟨hsome, hv⟩ := h.length g hg hn
    rw [hkeep hsome]
    exact ⟨hsome, hv⟩

/-- **The whole loop.** -/
theorem run (h : fields.foldlM FieldScan.field {} = some s) : Scanned fields s := by
  induction fields using List.reverseRecOn generalizing s with
  | nil =>
      cases h
      exact nil
  | append_singleton fields f ih =>
      rw [List.foldlM_append] at h
      obtain ⟨s₁, h₁, h₂⟩ := Option.bind_eq_some_iff.mp h
      rw [List.foldlM_cons] at h₂
      obtain ⟨s₂, h₂, h₃⟩ := Option.bind_eq_some_iff.mp h₂
      cases h₃
      exact (ih h₁).step (FieldScan.field_passes h₂)

end Scanned

/-- **What `validate_request_fields` passes** keeps the rules. -/
theorem requestFields_of_valid {fields : List HeaderField} {declared : Option Nat}
    (h : validateRequestFields fields = some declared) : RequestFields fields declared := by
  obtain ⟨s, hs, hfin⟩ := Option.bind_eq_some_iff.mp h
  have hr := Scanned.run hs
  unfold FieldScan.finish at hfin
  rw [hr.nMethod, hr.nScheme, hr.nPath, hr.nAuthority] at hfin
  split at hfin
  · cases hfin
  · rename_i hcount
    have hone : occurs (ascii ":method") fields = 1 := by omega
    have hauth : occurs (ascii ":authority") fields ≤ 1 := by omega
    split at hfin
    · rename_i hc
      split at hfin
      · cases hfin
      · rename_i htarget
        cases hfin
        refine ⟨hr.field, hr.order, hone, hauth, fun f hf hn => ?_, hr.length⟩
        rw [if_pos ((hr.method f hf hn hone).symm.trans hc)]
        omega
    · rename_i hc
      split at hfin
      · cases hfin
      · rename_i htarget
        cases hfin
        refine ⟨hr.field, hr.order, hone, hauth, fun f hf hn => ?_, hr.length⟩
        rw [if_neg fun hv => hc ((hr.method f hf hn hone).trans hv)]
        omega

end Vanilla.Http2

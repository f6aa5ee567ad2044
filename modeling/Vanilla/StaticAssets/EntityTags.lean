import Mathlib.Data.List.TakeDrop
import Vanilla.Http1.Basic
import Vanilla.Support.Listing

/-!
# Static assets — `If-None-Match`

`etag_matches_slice` of `static_assets/static_assets.v`, on the bytes of the field's value.  It cuts
the value at every comma, also at those inside an entity tag.

* `IfNoneMatch v asked`: the value as RFC 9110 §13.1.2 reads it.
* `Left`: what the loop has before it is the rest of the list, or the rest of a tag and then that.
* `etagStep_looks`: a pass deals with one tag, or with a part of one, which is never the etag.
-/

namespace Vanilla.StaticAssets
open Scan

/-! ### The source -/

/-- An element without its `W/`. -/
def stripWeak (t : List UInt8) : List UInt8 := if t.take 2 = ascii "W/" then t.drop 2 else t

/-- One pass of `etag_matches_slice` over the list; the state is what is left of the value. -/
def etagStep (etag v : List UInt8) : Turn (List UInt8) Bool :=
  if v = [] then .exit false
  else
    let v := v.dropWhile fun c => isOws c || c == comma
    if stripWeak ((v.takeWhile (· != comma)).rdropWhile isOws) = etag then .exit true
    else .next ((v.dropWhile (· != comma)).drop 1)

/-- `etag_matches_slice`. -/
def etagMatchesSlice (v etag : List UInt8) : Bool :=
  if trim isOws v = ascii "*" then true else loop (etagStep etag) List.length false v

/-! ### What a value asks for -/

/-- `etagc`. -/
def isEtagc (c : UInt8) : Bool := c == 0x21 || (0x23 ≤ c && c ≤ 0x7e) || 0x80 ≤ c

/-- An entity tag: whether it is weak, and its opaque part. -/
structure EntityTag where
  weak : Bool
  text : List UInt8

/-- The octets of a tag. -/
def EntityTag.bytes (t : EntityTag) : List UInt8 :=
  (if t.weak then ascii "W/" else []) ++ dquote :: (t.text ++ [dquote])

/-- The text is this entity tag. -/
def IsTag (e : List UInt8) (t : EntityTag) : Prop := e = t.bytes ∧ ∀ c ∈ t.text, isEtagc c = true

/-- The value of an `If-None-Match`: `*`, or a list of tags. -/
inductive IfNoneMatch : List UInt8 → Option (List EntityTag) → Prop where
  | any {a b : List UInt8} (ha : ∀ c ∈ a, isOws c = true) (hb : ∀ c ∈ b, isOws c = true) :
      IfNoneMatch (a ++ ascii "*" ++ b) none
  | tags {v : List UInt8} {ts : List EntityTag} (h : Listing comma isOws IsTag v ts) :
      IfNoneMatch v (some ts)

/-! ### Bytes -/

theorem etagc_plain : ∀ c : UInt8, isEtagc c = true → isOws c = false ∧ c ≠ dquote :=
  forall_byte (by decide +kernel)

/-- A tag's text up to its opening quote. -/
def EntityTag.start (t : EntityTag) : List UInt8 := (if t.weak then ascii "W/" else []) ++ [dquote]

theorem start_plain (t : EntityTag) : ∀ c ∈ t.start, isOws c = false ∧ c ≠ comma := by
  unfold EntityTag.start
  cases t.weak <;> decide +kernel

theorem bytes_start (t : EntityTag) : t.bytes = t.start ++ (t.text ++ [dquote]) := by
  simp [EntityTag.bytes, EntityTag.start]

theorem stripWeak_start (t : EntityTag) (r : List UInt8) :
    stripWeak (t.start ++ r) = dquote :: r := by
  unfold EntityTag.start stripWeak
  cases t.weak with
  | false => exact if_neg (by cases r <;> simp [ascii, dquote])
  | true => exact if_pos rfl

/-- A tag starts with a `W` or a quote. -/
theorem isTag_start (e : List UInt8) (t : EntityTag) (h : IsTag e t) :
    ∃ c r, e = c :: r ∧ isOws c = false ∧ c ≠ comma := by
  obtain ⟨rfl, -⟩ := h
  rw [bytes_start]
  have hplain := start_plain t
  cases hs : t.start with
  | nil => exact absurd hs (by simp [EntityTag.start])
  | cons c r =>
      rw [hs] at hplain
      exact ⟨c, _, rfl, hplain c List.mem_cons_self⟩

/-! ### One pass -/

/-- What the loop has before it, and the tags that are still to come. -/
inductive Left : List UInt8 → List EntityTag → Prop where
  | list {v : List UInt8} {ts : List EntityTag} (h : Listing comma isOws IsTag v ts) : Left v ts
  | inside {c r : List UInt8} {ts : List EntityTag} (hc : ∀ x ∈ c, isEtagc x = true)
      (hr : Behind comma isOws IsTag r ts) : Left (c ++ dquote :: r) ts

theorem rdropWhile_plain {x b : List UInt8} (hx : ∀ c ∈ x, isOws c = false)
    (hb : ∀ c ∈ b, isOws c = true) : (x ++ b).rdropWhile isOws = x := by
  refine rdropWhile_run (fun c hc => ?_) hb
  exact hx c (List.mem_reverse.mp (List.mem_of_mem_head? hc))

/-- What is cut off at the first comma, from inside a tag's text: a part of the text, or the text
and its closing quote. -/
theorem cut_spec {x c r : List UInt8} {ts : List EntityTag}
    (hx : ∀ y ∈ x, isOws y = false ∧ y ≠ comma) (hc : ∀ y ∈ c, isEtagc y = true)
    (hr : Behind comma isOws IsTag r ts) :
    (comma ∈ c ∧ ∃ c₁, (∀ y ∈ c₁, isEtagc y = true) ∧
      ((x ++ (c ++ dquote :: r)).takeWhile (· != comma)).rdropWhile isOws = x ++ c₁ ∧
      Left (((x ++ (c ++ dquote :: r)).dropWhile (· != comma)).drop 1) ts) ∨
    (comma ∉ c ∧
      ((x ++ (c ++ dquote :: r)).takeWhile (· != comma)).rdropWhile isOws = x ++ (c ++ [dquote]) ∧
      Left (((x ++ (c ++ dquote :: r)).dropWhile (· != comma)).drop 1) ts) := by
  have hstop : ∀ v : List UInt8, NotAt (· != comma) (comma :: v) := fun v => by simp
  have hpass : ∀ w : List UInt8, comma ∉ w → ∀ y ∈ w, (y != comma) = true := by
    intro w hw y hy
    rw [bne_iff_ne]
    rintro rfl
    exact hw hy
  have hxc : comma ∉ x := fun h => (hx comma h).2 rfl
  have hows : ∀ y ∈ c, isOws y = false := fun y hy => (etagc_plain y (hc y hy)).1
  by_cases hmem : comma ∈ c
  · obtain ⟨c₁, c₂, rfl, hc₁⟩ := List.eq_append_cons_of_mem hmem
    have hno : comma ∉ x ++ c₁ := by
      rw [List.mem_append, not_or]
      exact ⟨hxc, hc₁⟩
    have hassoc : x ++ (c₁ ++ comma :: c₂ ++ dquote :: r) =
        (x ++ c₁) ++ comma :: (c₂ ++ dquote :: r) := by simp
    rw [hassoc, takeWhile_run (hpass _ hno) (hstop _), dropWhile_run (hpass _ hno) (hstop _)]
    refine .inl ⟨hmem, c₁, fun y hy => hc y (List.mem_append_left _ hy), ?_, ?_⟩
    · have hplain : ∀ y ∈ x ++ c₁, isOws y = false := by
        intro y hy
        rcases List.mem_append.mp hy with hy | hy
        · exact (hx y hy).1
        · exact hows y (List.mem_append_left _ hy)
      have htrim := rdropWhile_plain hplain (List.forall_mem_nil _)
      rwa [List.append_nil] at htrim
    · exact .inside (fun y hy => hc y (List.mem_append_right _ (List.mem_cons_of_mem _ hy))) hr
  · obtain ⟨b, t, rfl, hb, ht, hcase⟩ := hr.split
    have hno : comma ∉ x ++ (c ++ dquote :: b) := by
      simp only [List.mem_append, List.mem_cons, not_or]
      refine ⟨hxc, hmem, by decide, fun h => absurd (hb comma h) (by decide)⟩
    have hnot : NotAt (· != comma) t := by
      rcases hcase with rfl | ⟨v, rfl, -⟩
      · exact notAt_nil
      · exact hstop v
    have hassoc : x ++ (c ++ dquote :: (b ++ t)) = (x ++ (c ++ dquote :: b)) ++ t := by simp
    have hfrag : x ++ (c ++ dquote :: b) = (x ++ (c ++ [dquote])) ++ b := by simp
    rw [hassoc, takeWhile_run (hpass _ hno) hnot, dropWhile_run (hpass _ hno) hnot]
    refine .inr ⟨hmem, ?_, ?_⟩
    · rw [hfrag]
      refine rdropWhile_plain ?_ hb
      simp only [List.mem_append, List.mem_singleton]
      rintro y (hy | hy | rfl)
      · exact (hx y hy).1
      · exact hows y hy
      · decide
    · rcases hcase with rfl | ⟨v, rfl, hv⟩
      · exact .list ht
      · exact .list hv

/-- A part of a tag's text, whatever of it is left, is not the etag. -/
theorem part_ne (hex : List UInt8) {t : List UInt8} (ht : ∀ y ∈ t.dropLast, isEtagc y = true) :
    stripWeak t ≠ dquote :: (hex ++ [dquote]) := by
  intro he
  have hlast : (dquote :: (hex ++ [dquote])).dropLast = dquote :: hex := by
    rw [← List.cons_append, List.dropLast_concat]
  have hmem : dquote ∈ (stripWeak t).dropLast := by
    rw [he, hlast]
    exact List.mem_cons_self
  have hsub : ∀ y ∈ (stripWeak t).dropLast, y ∈ t.dropLast := by
    unfold stripWeak
    split
    · intro y hy
      rw [List.dropLast_drop_eq_drop_dropLast] at hy
      exact List.mem_of_mem_drop hy
    · exact fun y hy => hy
  exact (etagc_plain dquote (ht dquote (hsub dquote hmem))).2 rfl

theorem rest_shorter {v : List UInt8} (hv : v ≠ []) (p q : UInt8 → Bool) :
    (((v.dropWhile p).dropWhile q).drop 1).length < v.length := by
  have hpos : 0 < v.length := List.length_pos_iff.mpr hv
  have hp := length_dropWhile_le (p := p) v
  have hq := length_dropWhile_le (p := q) (v.dropWhile p)
  rw [List.length_drop]
  omega

theorem left_nil {ts : List EntityTag} (h : Left [] ts) : ts = [] := by
  generalize hv : ([] : List UInt8) = v at h
  cases h with
  | list h =>
      subst hv
      rcases h.skip isTag_start with ⟨-, rfl⟩ | ⟨e, t, r, ts', hu, he, -, -⟩
      · rfl
      · obtain ⟨c, r', rfl, -, -⟩ := isTag_start e t he
        cases hu
  | inside hc hr => exact absurd hv.symm (by simp)

/-- **A pass of the loop** deals with the next tag, or with a part of a tag, which it passes. -/
theorem etagStep_looks {hex v : List UInt8} {ts : List EntityTag}
    (hhex : ∀ c ∈ hex, isEtagc c = true ∧ c ≠ comma) (h : Left v ts) :
    Looks (etagStep (dquote :: (hex ++ [dquote]))) List.length Left (fun t => decide (t.text = hex))
      v ts := by
  by_cases hv : v = []
  · subst hv
    rw [left_nil h]
    exact .done rfl
  have hlt := rest_shorter hv (fun c => isOws c || c == comma) (· != comma)
  have hstep : etagStep (dquote :: (hex ++ [dquote])) v = _ := if_neg hv
  dsimp only at hstep
  cases h with
  | list h =>
      rcases h.skip isTag_start with ⟨hnil, rfl⟩ | ⟨e, t, r, ts', hu, ⟨rfl, htext⟩, rfl, hr⟩
      · rw [hnil] at hstep
        refine .pass (hstep.trans (if_neg ?_)) (.list listing_nil) (List.length_pos_iff.mpr hv)
        exact part_ne hex (List.forall_mem_nil _)
      · rw [bytes_start, List.append_assoc, List.append_assoc, List.singleton_append] at hu
        rw [hu] at hstep hlt
        rcases cut_spec (start_plain t) htext hr with
          ⟨hmem, c₁, hc₁, hcut, hleft⟩ | ⟨hmem, hcut, hleft⟩
        · -- a comma inside: what is cut off has no closing quote, and the tag is not the etag
          have hne : ¬ decide (t.text = hex) = true := by
            rw [decide_eq_true_eq]
            rintro rfl
            exact (hhex comma hmem).2 rfl
          refine .look ?_ hleft hlt
          rw [if_neg hne, hstep, hcut, stripWeak_start, if_neg]
          intro he
          have hquote : dquote ∈ c₁ := by
            rw [(List.cons.inj he).2]
            exact List.mem_append_right _ (List.mem_singleton_self _)
          exact (etagc_plain dquote (hc₁ dquote hquote)).2 rfl
        · refine .look ?_ hleft hlt
          rw [hstep, hcut, stripWeak_start]
          simp only [List.cons.injEq, true_and, List.append_cancel_right_eq, decide_eq_true_eq]
  | @inside c r _ hc hr =>
      have hu : (c ++ dquote :: r).dropWhile (fun y => isOws y || y == comma) =
          [] ++ (c.dropWhile (fun y => isOws y || y == comma) ++ dquote :: r) := by
        rw [List.dropWhile_append]
        split
        · rename_i hnil
          rw [List.isEmpty_iff.mp hnil]
          exact List.dropWhile_cons_of_neg (by decide)
        · rfl
      have hc' : ∀ y ∈ c.dropWhile (fun y => isOws y || y == comma), isEtagc y = true :=
        fun y hy => hc y ((List.dropWhile_sublist _).mem hy)
      rw [hu] at hstep hlt
      rcases cut_spec (List.forall_mem_nil _) hc' hr with
        ⟨-, c₁, hc₁, hcut, hleft⟩ | ⟨-, hcut, hleft⟩
      · refine .pass (hstep.trans (if_neg ?_)) hleft hlt
        rw [hcut]
        exact part_ne hex fun y hy => hc₁ y ((List.dropLast_sublist c₁).mem hy)
      · refine .pass (hstep.trans (if_neg ?_)) hleft hlt
        rw [hcut]
        refine part_ne hex ?_
        rw [List.nil_append, List.dropLast_concat]
        exact hc'

/-! ### The loop -/

/-- A list of tags is not the single `*`. -/
theorem tags_not_star {v : List UInt8} {ts : List EntityTag} (h : Listing comma isOws IsTag v ts) :
    trim isOws v ≠ ascii "*" := by
  intro hstar
  obtain ⟨a, b, hv, ha, -⟩ := trim_split isOws v
  rw [hstar, List.append_assoc] at hv
  have hdrop : v.dropWhile (fun c => isOws c || c == comma) = ascii "*" ++ b := by
    rw [hv]
    refine dropWhile_run (fun c hc => by rw [ha c hc, Bool.true_or]) ?_
    exact notAt_cons.mpr (by decide)
  rcases h.skip isTag_start with ⟨hnil, -⟩ | ⟨e, t, r, ts', hu, ⟨rfl, -⟩, -, -⟩
  · rw [hdrop] at hnil
    cases hnil
  · -- a tag starts with a `W` or a quote
    rw [hdrop, bytes_start, EntityTag.start] at hu
    cases hw : t.weak <;> rw [hw] at hu <;> exact absurd (List.cons.inj hu).1 (by decide)

theorem hexDigit_etagc : ∀ c : UInt8, (hexDigit c).isSome = true → isEtagc c = true ∧ c ≠ comma :=
  forall_byte (by decide +kernel)

/-- **Conditional matching is exact**: the value matches an etag made of hex digits in quotes (a
server's has 16) exactly when it is `*`, or lists a tag that is the etag under weak comparison. -/
theorem etag_matching_exact {v : List UInt8} {asked : Option (List EntityTag)}
    (h : IfNoneMatch v asked) {hex : List UInt8} (hhex : ∀ c ∈ hex, (hexDigit c).isSome = true) :
    etagMatchesSlice v (dquote :: (hex ++ [dquote])) = true ↔
      asked.elim True fun tags => ∃ t ∈ tags, t.text = hex := by
  unfold etagMatchesSlice
  cases h with
  | any ha hb =>
      have hstar : Trimmed isOws (ascii "*") :=
        ⟨fun c hc => by cases hc; rfl, fun c hc => by cases hc; rfl⟩
      rw [if_pos (trim_append ha hstar hb)]
      exact iff_of_true rfl trivial
  | tags h =>
      have hetag := fun c hc => hexDigit_etagc c (hhex c hc)
      rw [if_neg (tags_not_star h), loop_search (fun _ _ => etagStep_looks hetag) (.list h)]
      simp only [List.any_eq_true, decide_eq_true_eq, Option.elim_some]

/-- A weak tag behind one with a comma in its text. -/
theorem etag_matching_exact_weak :
    etagMatchesSlice (ascii "\"a,b\", W/\"0123456789abcdef\"") (ascii "\"0123456789abcdef\"") =
      true := by
  have hlist : Listing comma isOws IsTag (ascii "\"a,b\", W/\"0123456789abcdef\"")
      [⟨false, ascii "a,b"⟩, ⟨true, ascii "0123456789abcdef"⟩] :=
    @Listing.cons _ _ comma isOws IsTag (ascii "\"a,b\"") (ascii " W/\"0123456789abcdef\"") _ _
      (@Piece.elem _ _ isOws IsTag [] (ascii "\"a,b\"") [] _ (by decide +kernel)
        ⟨rfl, by decide +kernel⟩ (by decide +kernel))
      (.last (@Piece.elem _ _ isOws IsTag [sp] (ascii "W/\"0123456789abcdef\"") [] _
        (by decide +kernel) ⟨rfl, by decide +kernel⟩ (by decide +kernel)))
  refine (etag_matching_exact (.tags hlist)
    (show ∀ c ∈ ascii "0123456789abcdef", _ by decide +kernel)).mpr ?_
  exact ⟨_, List.mem_cons_of_mem _ List.mem_cons_self, rfl⟩

end Vanilla.StaticAssets

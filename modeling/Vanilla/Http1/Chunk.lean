import Vanilla.Http1.Basic
import Vanilla.Support.Runs

/-!
# HTTP/1.1 — chunk-size lines, chunk extensions and trailer lines

`request_parser.v` and `client.v` carry the same text for the syntax of one line of a chunked
body: `chunk_skip_bws`, `chunk_ext_ok`, `trailer_line_ok`, and the loop that reads a chunk-size.
They are defined here once, on the bytes of the line (`buf[start..end]`).

`ChunkExt` and `TrailerLine` are the productions of RFC 9112 §7.1.1 and §5 the two functions are
written against, and `chunkExtOk_iff`, `trailerLineOk_iff` say that they decide them.  `hexRun_eq`
says what the size loop computes, whatever bound it stops at.
-/

namespace Vanilla.Chunk
open Scan

/-! ### The functions -/

/-- `chunk_skip_bws`. -/
def chunkSkipBws (r : List UInt8) : List UInt8 := r.dropWhile isOws

/-- The quoted-string loop of `chunk_ext_ok`, from behind the opening quote: what follows the
closing quote, `none` for its `return false`. -/
def quotedTail : List UInt8 → Option (List UInt8)
  | [] => none
  | c :: r =>
    if c = dquote then some r
    else if c = backslash then
      match r with
      | [] => none
      | d :: r => if isCtl d then none else quotedTail r
    else if isCtl c then none
    else quotedTail r

/-- The value of one extension, from behind `=` and its BWS. -/
def extValue (v : List UInt8) : Option (List UInt8) :=
  if v.head? = some dquote then quotedTail v.tail
  else if v.takeWhile chunkTchar = [] then none
  else some (v.dropWhile chunkTchar)

/-- One pass of `chunk_ext_ok`'s loop; the state is what is left of the line. -/
def extStep (r : List UInt8) : Turn (List UInt8) Bool :=
  if r = [] then .exit true
  else
    match chunkSkipBws r with
    | [] => .exit false
    | c :: r =>
      if c ≠ semicolon then .exit false
      else
        let r := chunkSkipBws r
        if r.takeWhile chunkTchar = [] then .exit false
        else
          let r := r.dropWhile chunkTchar
          match chunkSkipBws r with
          | [] => .next r
          | e :: v =>
            if e ≠ equal then .next r
            else
              match extValue (chunkSkipBws v) with
              | none => .exit false
              | some r => .next r

/-- `chunk_ext_ok`. -/
def chunkExtOk (ext : List UInt8) : Bool := loop extStep List.length true ext

/-- `trailer_line_ok`. -/
def trailerLineOk (line : List UInt8) : Bool :=
  match line.dropWhile chunkTchar with
  | [] => false
  | c :: v => line.takeWhile chunkTchar != [] && c == colon && v.all fun c => !isCtl c

/-- The loop that reads a chunk-size: `ok size j` is the bound checked on the value behind the
`j`-th digit.  The answer is the size and the number of digits, `none` past the bound. -/
def hexRun (ok : Nat → Nat → Bool) : List UInt8 → Nat → Nat → Option (Nat × Nat)
  | [], size, j => some (size, j)
  | c :: r, size, j =>
    match hexDigit c with
    | none => some (size, j)
    | some d => if ok (size * 16 + d) j then hexRun ok r (size * 16 + d) (j + 1) else none

/-! ### The grammar -/

/-- `tchar` (RFC 9110 §5.6.2): a digit, a letter or one of the fifteen marks. -/
def isTchar (c : UInt8) : Bool :=
  (48 ≤ c && c ≤ 57) || (65 ≤ c && c ≤ 90) || (97 ≤ c && c ≤ 122) ||
    (ascii "!#$%&'*+-.^_`|~").contains c

/-- `token`: one `tchar` or more. -/
def Token (t : List UInt8) : Prop := t ≠ [] ∧ ∀ c ∈ t, isTchar c = true

/-- `BWS`. -/
def Bws (o : List UInt8) : Prop := ∀ c ∈ o, isOws c = true

/-- What stands between the quotes of a `quoted-string`: `qdtext` and `quoted-pair`. -/
inductive QuotedText : List UInt8 → Prop where
  | nil : QuotedText []
  | qdtext {c : UInt8} {q : List UInt8} (hq : c ≠ dquote) (hb : c ≠ backslash)
      (hc : isCtl c = false) (t : QuotedText q) : QuotedText (c :: q)
  | pair {c : UInt8} {q : List UInt8} (hc : isCtl c = false) (t : QuotedText q) :
      QuotedText (backslash :: c :: q)

/-- `chunk-ext-val = token / quoted-string`. -/
inductive ExtVal : List UInt8 → Prop where
  | token {t : List UInt8} (h : Token t) : ExtVal t
  | quoted {q : List UInt8} (h : QuotedText q) : ExtVal (dquote :: q ++ [dquote])

/-- `chunk-ext = *( BWS ";" BWS chunk-ext-name [ BWS "=" BWS chunk-ext-val ] )`. -/
inductive ChunkExt : List UInt8 → Prop where
  | nil : ChunkExt []
  | name {o₁ o₂ n r : List UInt8} (h₁ : Bws o₁) (h₂ : Bws o₂) (hn : Token n) (t : ChunkExt r) :
      ChunkExt (o₁ ++ semicolon :: (o₂ ++ (n ++ r)))
  | value {o₁ o₂ n o₃ o₄ v r : List UInt8} (h₁ : Bws o₁) (h₂ : Bws o₂) (hn : Token n)
      (h₃ : Bws o₃) (h₄ : Bws o₄) (hv : ExtVal v) (t : ChunkExt r) :
      ChunkExt (o₁ ++ semicolon :: (o₂ ++ (n ++ (o₃ ++ equal :: (o₄ ++ (v ++ r))))))

/-- `field-line`: a token, a colon, and no control byte but HTAB behind it. -/
def TrailerLine (l : List UInt8) : Prop :=
  ∃ n v, l = n ++ colon :: v ∧ Token n ∧ ∀ c ∈ v, isCtl c = false

/-- `HEXDIG`. -/
def isHex (c : UInt8) : Bool := (hexDigit c).isSome

/-- The number a run of hex digits denotes, read on from `acc`. -/
def hexValue (acc : Nat) (ds : List UInt8) : Nat :=
  ds.foldl (fun n c => n * 16 + (hexDigit c).getD 0) acc

/-! ### The byte classes -/

theorem chunkTchar_eq (c : UInt8) : chunkTchar c = isTchar c :=
  forall_byte (P := fun c => chunkTchar c = isTchar c) (by decide +kernel) c

/-- The sixteen digits, in either case, by their values. -/
theorem hexDigit_eq (c : UInt8) : hexDigit c = (ascii "0123456789abcdef").idxOf? (lower c) :=
  forall_byte (P := fun c => hexDigit c = (ascii "0123456789abcdef").idxOf? (lower c))
    (by decide +kernel) c

/-- A token byte is visible ASCII and none of the bytes HTTP/1.1 cuts lines at. -/
theorem isTchar_sep (c : UInt8) : isTchar c = true →
    isOws c = false ∧ isCtl c = false ∧ c ≠ semicolon ∧ c ≠ equal ∧ c ≠ dquote ∧ c ≠ colon ∧
      c ≠ comma ∧ c ≠ cr ∧ c ≠ lf :=
  forall_byte (P := fun c => isTchar c = true →
    isOws c = false ∧ isCtl c = false ∧ c ≠ semicolon ∧ c ≠ equal ∧ c ≠ dquote ∧ c ≠ colon ∧
      c ≠ comma ∧ c ≠ cr ∧ c ≠ lf) (by decide +kernel) c

theorem isOws_sep (c : UInt8) : isOws c = true → isTchar c = false ∧ isCtl c = false :=
  forall_byte (P := fun c => isOws c = true → isTchar c = false ∧ isCtl c = false)
    (by decide +kernel) c

theorem Token.all {t : List UInt8} (h : Token t) : ∀ c ∈ t, chunkTchar c = true :=
  fun c hc => (chunkTchar_eq c).trans (h.2 c hc)

theorem token_takeWhile {r : List UInt8} (h : r.takeWhile chunkTchar ≠ []) :
    Token (r.takeWhile chunkTchar) :=
  ⟨h, fun c hc => (chunkTchar_eq c).symm.trans (List.mem_takeWhile_imp hc)⟩

theorem token_notAt_ows {n : List UInt8} (h : Token n) (r : List UInt8) :
    NotAt isOws (n ++ r) := by
  obtain ⟨c, n, rfl⟩ := List.exists_cons_of_ne_nil h.1
  exact notAt_cons.mpr (isTchar_sep c (h.2 c (by simp))).1

/-- A separator stops a run of token bytes, with or without BWS before it. -/
theorem bws_notAt_tchar {o : List UInt8} (ho : Bws o) {c : UInt8} (hc : isTchar c = false)
    (r : List UInt8) : NotAt chunkTchar (o ++ c :: r) := by
  cases o with
  | nil => exact notAt_cons.mpr ((chunkTchar_eq c).trans hc)
  | cons d o => exact notAt_cons.mpr ((chunkTchar_eq d).trans (isOws_sep d (ho d (by simp))).1)

theorem skip_bws {o : List UInt8} (ho : Bws o) {c : UInt8} (hc : isOws c = false)
    (r : List UInt8) : chunkSkipBws (o ++ c :: r) = c :: r :=
  dropWhile_run ho (notAt_cons.mpr hc)

theorem bws_split (r : List UInt8) : ∃ o, Bws o ∧ r = o ++ chunkSkipBws r :=
  ⟨r.takeWhile isOws, (run_append isOws r).2, (run_append isOws r).1⟩

/-! ### Chunk extensions -/

theorem quotedTail_sound {s r : List UInt8} (h : quotedTail s = some r) :
    ∃ q, QuotedText q ∧ s = q ++ dquote :: r := by
  fun_induction quotedTail s with
  | case1 => cases h
  | case2 s => cases h; exact ⟨[], .nil, rfl⟩
  | case3 => cases h
  | case4 => cases h
  | case5 d s hd _ ih =>
      obtain ⟨q, hq, rfl⟩ := ih h
      exact ⟨_, .pair (by simpa using hd) hq, rfl⟩
  | case6 => cases h
  | case7 c s h₁ h₂ h₃ ih =>
      obtain ⟨q, hq, rfl⟩ := ih h
      exact ⟨_, .qdtext h₁ h₂ (by simpa using h₃) hq, rfl⟩

theorem quotedTail_complete {q : List UInt8} (h : QuotedText q) (r : List UInt8) :
    quotedTail (q ++ dquote :: r) = some r := by
  induction h with
  | nil => unfold quotedTail; simp
  | qdtext hq hb hc _ ih => unfold quotedTail; simp [hq, hb, hc, ih]
  | pair hc _ ih => unfold quotedTail; simp [hc, ih, show backslash ≠ dquote by decide]

theorem extValue_sound {s r : List UInt8} (h : extValue s = some r) :
    ∃ v, ExtVal v ∧ s = v ++ r := by
  unfold extValue at h
  split at h
  · rename_i hq
    obtain ⟨s, rfl⟩ : ∃ t, s = dquote :: t := by
      cases s with
      | nil => cases hq
      | cons c s => cases Option.some.inj hq; exact ⟨s, rfl⟩
    obtain ⟨q, hq, e⟩ := quotedTail_sound h
    exact ⟨_, .quoted hq, by simpa using e⟩
  · split at h
    · cases h
    · rename_i ht
      cases h
      exact ⟨_, .token (token_takeWhile ht), (run_append chunkTchar s).1⟩

theorem extValue_complete {v : List UInt8} (h : ExtVal v) {r : List UInt8}
    (hr : NotAt chunkTchar r) : extValue (v ++ r) = some r := by
  cases h with
  | token h =>
      have hq : (v ++ r).head? ≠ some dquote := by
        obtain ⟨c, v, rfl⟩ := List.exists_cons_of_ne_nil h.1
        simpa using (isTchar_sep c (h.2 c (by simp))).2.2.2.2.1
      rw [extValue, if_neg hq, takeWhile_run h.all hr, if_neg h.1, dropWhile_run h.all hr]
  | @quoted q h =>
      have e : dquote :: q ++ [dquote] ++ r = dquote :: (q ++ dquote :: r) := by simp
      rw [e, extValue, if_pos (by rfl)]
      exact quotedTail_complete h r

/-- What comes after an extension: nothing, or the `;` of the next one behind some BWS. -/
theorem ChunkExt.start {r : List UInt8} (h : ChunkExt r) :
    r = [] ∨ ∃ o t, Bws o ∧ r = o ++ semicolon :: t := by
  cases h with
  | nil => exact .inl rfl
  | name h₁ _ _ _ => exact .inr ⟨_, _, h₁, rfl⟩
  | value h₁ _ _ _ _ _ _ => exact .inr ⟨_, _, h₁, rfl⟩

theorem ChunkExt.notAt_tchar {r : List UInt8} (h : ChunkExt r) : NotAt chunkTchar r := by
  rcases h.start with rfl | ⟨o, t, ho, rfl⟩
  · simp
  · exact bws_notAt_tchar ho (by decide) t

/-- What a pass that goes round again has read: one extension, without a value or with one. -/
theorem extStep_next {r r' : List UInt8} (h : extStep r = .next r') :
    (∃ o₁ o₂ n, Bws o₁ ∧ Bws o₂ ∧ Token n ∧ r = o₁ ++ semicolon :: (o₂ ++ (n ++ r'))) ∨
    (∃ o₁ o₂ n o₃ o₄ v, Bws o₁ ∧ Bws o₂ ∧ Token n ∧ Bws o₃ ∧ Bws o₄ ∧ ExtVal v ∧
      r = o₁ ++ semicolon :: (o₂ ++ (n ++ (o₃ ++ equal :: (o₄ ++ (v ++ r')))))) := by
  unfold extStep at h
  obtain ⟨o₁, h₁, e₁⟩ := bws_split r
  split at h
  · cases h
  split at h
  · cases h
  rename_i c s hc
  rw [hc] at e₁
  split at h
  · cases h
  rename_i hs
  obtain rfl : c = semicolon := not_not.mp hs
  obtain ⟨o₂, h₂, e₂⟩ := bws_split s
  simp only at h
  split at h
  · cases h
  rename_i hn
  have hn := token_takeWhile hn
  have e₃ := (run_append chunkTchar (chunkSkipBws s)).1
  obtain ⟨o₃, h₃, e₄⟩ := bws_split ((chunkSkipBws s).dropWhile chunkTchar)
  have bare : .next ((chunkSkipBws s).dropWhile chunkTchar) = (Turn.next r' : Turn _ Bool) →
      ∃ o₁ o₂ n, Bws o₁ ∧ Bws o₂ ∧ Token n ∧ r = o₁ ++ semicolon :: (o₂ ++ (n ++ r')) := by
    intro e
    cases e
    exact ⟨o₁, o₂, _, h₁, h₂, hn, by rw [← e₃, ← e₂, ← e₁]⟩
  split at h
  · exact .inl (bare h)
  rename_i e v hv
  split at h
  · exact .inl (bare h)
  rename_i he
  obtain rfl : e = equal := not_not.mp he
  obtain ⟨o₄, h₄, e₅⟩ := bws_split v
  split at h
  · cases h
  rename_i s' hs'
  cases h
  obtain ⟨v', hv', e₆⟩ := extValue_sound hs'
  rw [hv] at e₄
  exact .inr ⟨o₁, o₂, _, o₃, o₄, v', h₁, h₂, hn, h₃, h₄, hv',
    by rw [← e₆, ← e₅, ← e₄, ← e₃, ← e₂, ← e₁]⟩

/-- The loop ends well only at the end of the line. -/
theorem extStep_done {r : List UInt8} (h : extStep r = .exit true) : r = [] := by
  unfold extStep at h
  simp only at h
  repeat' (split at h)
  all_goals first | assumption | cases h

theorem extStep_descends : Descends extStep List.length fun _ => True := by
  intro r r' _ h
  refine ⟨trivial, ?_⟩
  rcases extStep_next h with
    ⟨o₁, o₂, n, -, -, -, rfl⟩ | ⟨o₁, o₂, n, o₃, o₄, v, -, -, -, -, -, -, rfl⟩
  · simp only [List.length_append, List.length_cons]; omega
  · simp only [List.length_append, List.length_cons]; omega

theorem extStep_name {o₁ o₂ n r : List UInt8} (h₁ : Bws o₁) (h₂ : Bws o₂) (hn : Token n)
    (t : ChunkExt r) : extStep (o₁ ++ semicolon :: (o₂ ++ (n ++ r))) = .next r := by
  have e₁ : chunkSkipBws (o₂ ++ (n ++ r)) = n ++ r := dropWhile_run h₂ (token_notAt_ows hn r)
  unfold extStep
  rw [if_neg (by simp), skip_bws h₁ (by decide)]
  simp only [ne_eq, not_true_eq_false, if_false, e₁, takeWhile_run hn.all t.notAt_tchar, hn.1,
    dropWhile_run hn.all t.notAt_tchar]
  rcases t.start with rfl | ⟨o, t, ho, rfl⟩
  · rfl
  · rw [skip_bws ho (by decide)]
    rfl

theorem extStep_value {o₁ o₂ n o₃ o₄ v r : List UInt8} (h₁ : Bws o₁) (h₂ : Bws o₂) (hn : Token n)
    (h₃ : Bws o₃) (h₄ : Bws o₄) (hv : ExtVal v) (t : ChunkExt r) :
    extStep (o₁ ++ semicolon :: (o₂ ++ (n ++ (o₃ ++ equal :: (o₄ ++ (v ++ r)))))) = .next r := by
  have e₁ : ∀ s, chunkSkipBws (o₂ ++ (n ++ s)) = n ++ s :=
    fun s => dropWhile_run h₂ (token_notAt_ows hn s)
  have hs : NotAt chunkTchar (o₃ ++ equal :: (o₄ ++ (v ++ r))) := bws_notAt_tchar h₃ (by decide) _
  have hv₀ : NotAt isOws (v ++ r) := by
    cases hv with
    | token h => exact token_notAt_ows h r
    | quoted h => exact notAt_cons.mpr (by decide)
  have e₂ : chunkSkipBws (o₄ ++ (v ++ r)) = v ++ r := dropWhile_run h₄ hv₀
  unfold extStep
  rw [if_neg (by simp), skip_bws h₁ (by decide)]
  simp only [ne_eq, not_true_eq_false, if_false, e₁, takeWhile_run hn.all hs, hn.1,
    dropWhile_run hn.all hs]
  rw [skip_bws h₃ (by decide)]
  simp only [not_true_eq_false, if_false, e₂, extValue_complete hv t.notAt_tchar]

/-- **`chunk_ext_ok` decides `chunk-ext`.** -/
theorem chunkExtOk_iff {e : List UInt8} : chunkExtOk e = true ↔ ChunkExt e := by
  constructor
  · refine loop_rule extStep_descends (P := fun r a => a = true → ChunkExt r) ?_ ?_ trivial
    · intro r a _ h ha
      subst ha
      rw [extStep_done h]
      exact .nil
    · intro r r' a _ h ih ha
      rcases extStep_next h with ⟨o₁, o₂, n, h₁, h₂, hn, rfl⟩ |
          ⟨o₁, o₂, n, o₃, o₄, v, h₁, h₂, hn, h₃, h₄, hv, rfl⟩
      · exact .name h₁ h₂ hn (ih ha)
      · exact .value h₁ h₂ hn h₃ h₄ hv (ih ha)
  · intro h
    induction h with
    | nil => rfl
    | name h₁ h₂ hn t ih =>
        rw [chunkExtOk, loop_next extStep_descends trivial (extStep_name h₁ h₂ hn t)]
        exact ih
    | value h₁ h₂ hn h₃ h₄ hv t ih =>
        rw [chunkExtOk, loop_next extStep_descends trivial (extStep_value h₁ h₂ hn h₃ h₄ hv t)]
        exact ih

theorem Token.no_colon {t : List UInt8} (h : Token t) : colon ∉ t := fun hm =>
  (isTchar_sep colon (h.2 colon hm)).2.2.2.2.2.1 rfl

theorem Token.no_ctl {t : List UInt8} (h : Token t) : ∀ c ∈ t, isCtl c = false :=
  fun c hc => (isTchar_sep c (h.2 c hc)).2.1

theorem Bws.no_ctl {o : List UInt8} (h : Bws o) : ∀ c ∈ o, isCtl c = false :=
  fun c hc => (isOws_sep c (h c hc)).2

theorem QuotedText.no_ctl {q : List UInt8} (h : QuotedText q) : ∀ c ∈ q, isCtl c = false := by
  induction h with
  | nil => simp
  | qdtext _ _ hc _ ih => simpa [hc] using ih
  | pair hc _ ih => simpa [hc, show isCtl backslash = false by decide] using ih

theorem ExtVal.no_ctl {v : List UInt8} (h : ExtVal v) : ∀ c ∈ v, isCtl c = false := by
  cases h with
  | token h => exact h.no_ctl
  | quoted h =>
      have hd : isCtl dquote = false := by decide
      simp only [List.cons_append, List.mem_cons, List.mem_append, List.not_mem_nil, or_false]
      rintro c (rfl | hc | rfl)
      · exact hd
      · exact h.no_ctl c hc
      · exact hd

/-- No part of a chunk extension admits a control byte, a line end least of all. -/
theorem ChunkExt.no_ctl {e : List UInt8} (h : ChunkExt e) : ∀ c ∈ e, isCtl c = false := by
  have hs : isCtl semicolon = false := by decide
  have he : isCtl equal = false := by decide
  induction h with
  | nil => simp
  | name h₁ h₂ hn _ ih =>
      simp only [List.mem_append, List.mem_cons]
      rintro c (hc | rfl | hc | hc | hc)
      · exact h₁.no_ctl c hc
      · exact hs
      · exact h₂.no_ctl c hc
      · exact hn.no_ctl c hc
      · exact ih c hc
  | value h₁ h₂ hn h₃ h₄ hv _ ih =>
      simp only [List.mem_append, List.mem_cons]
      rintro c (hc | rfl | hc | hc | hc | rfl | hc | hc | hc)
      · exact h₁.no_ctl c hc
      · exact hs
      · exact h₂.no_ctl c hc
      · exact hn.no_ctl c hc
      · exact h₃.no_ctl c hc
      · exact he
      · exact h₄.no_ctl c hc
      · exact hv.no_ctl c hc
      · exact ih c hc

/-! ### Trailer lines -/

/-- **`trailer_line_ok` decides `field-line`.** -/
theorem trailerLineOk_iff {l : List UInt8} : trailerLineOk l = true ↔ TrailerLine l := by
  constructor
  · intro h
    have e := (run_append chunkTchar l).1
    unfold trailerLineOk at h
    split at h
    · cases h
    rename_i c v hd
    simp only [Bool.and_eq_true, bne_iff_ne, beq_iff_eq, List.all_eq_true, Bool.not_eq_true'] at h
    obtain ⟨⟨hn, rfl⟩, hv⟩ := h
    rw [hd] at e
    exact ⟨_, v, e, token_takeWhile hn, hv⟩
  · rintro ⟨n, v, rfl, hn, hv⟩
    have hc : NotAt chunkTchar (colon :: v) := notAt_cons.mpr (by decide)
    rw [trailerLineOk, dropWhile_run hn.all hc, takeWhile_run hn.all hc]
    simpa [hn.1] using hv

theorem TrailerLine.no_ctl {l : List UInt8} (h : TrailerLine l) : ∀ c ∈ l, isCtl c = false := by
  obtain ⟨n, v, rfl, hn, hv⟩ := h
  simp only [List.mem_append, List.mem_cons]
  rintro c (hc | rfl | hc)
  · exact hn.no_ctl c hc
  · decide
  · exact hv c hc

/-! ### Chunk sizes -/

@[simp] theorem hexValue_nil (acc : Nat) : hexValue acc [] = acc := rfl

@[simp] theorem hexValue_cons (acc : Nat) (c : UInt8) (ds : List UInt8) :
    hexValue acc (c :: ds) = hexValue (acc * 16 + (hexDigit c).getD 0) ds := rfl

theorem le_hexValue (acc : Nat) (ds : List UInt8) : acc ≤ hexValue acc ds := by
  induction ds generalizing acc with
  | nil => simp
  | cons c ds ih =>
      rw [hexValue_cons]
      exact Nat.le_trans (by omega) (ih _)

/-- **What the size loop computes**: the value of the run of hex digits at the front and the
run's length, provided the bound holds behind the last digit.  The bound only has to be checked
there because it is the harder to meet the further on it is checked. -/
theorem hexRun_eq {ok : Nat → Nat → Bool}
    (hok : ∀ a b i j, a ≤ b → i ≤ j → ok b j = true → ok a i = true) (r : List UInt8)
    (size j : Nat) :
    hexRun ok r size j =
      let ds := r.takeWhile isHex
      if ds = [] ∨ ok (hexValue size ds) (j + ds.length - 1) = true
      then some (hexValue size ds, j + ds.length) else none := by
  induction r generalizing size j with
  | nil => simp [hexRun]
  | cons c r ih =>
      cases hc : hexDigit c with
      | none =>
          have : isHex c = false := by simp [isHex, hc]
          simp [hexRun, hc, this]
      | some d =>
          have hx : isHex c = true := by simp [isHex, hc]
          simp only [hexRun, hc, ih, List.takeWhile_cons, hx, if_true, hexValue_cons,
            Option.getD_some, List.length_cons, reduceCtorEq, false_or]
          have e : j + 1 + (r.takeWhile isHex).length = j + ((r.takeWhile isHex).length + 1) := by
            omega
          have e' : j + ((r.takeWhile isHex).length + 1) - 1 = j + (r.takeWhile isHex).length := by
            omega
          simp only [e, e']
          by_cases hr : r.takeWhile isHex = []
          · simp [hr]
          · simp only [hr, false_or]
            by_cases hk : ok (hexValue (size * 16 + d) (r.takeWhile isHex))
                (j + (r.takeWhile isHex).length) = true
            · have h₀ : ok (size * 16 + d) j = true :=
                hok _ _ _ _ (le_hexValue _ _) (by omega) hk
              simp only [h₀, hk, if_true]
            · simp only [hk]
              split <;> rfl

end Vanilla.Chunk

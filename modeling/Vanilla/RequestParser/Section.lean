import Vanilla.RequestParser.Decode

/-!
# Request parser — looking fields up in a decoded request

`get_header_value_slice` and `count_header` walk the decoded header section line by line.  On a
message the decoder cuts where the framer does, they see the framer's field lines: the last one
only from two bytes on, which is one byte less than a field needs.

* `sectionLoop_eq`: the walk is a fold over the field lines.
* `getHeaderValueSlice_cases`, `countHeader_eq_zero`: what the two look-ups answer.
* `decoded_body_is_framed`: what a handler reads about the body is what the framer cut.
-/

namespace Vanilla.RequestParser
open Scan

/-! ### The walk -/

/-- The walk over the section, as a fold over its lines; a last line of one byte is not seen. -/
def sectionFold {α : Type} (onLine : Nat → Nat → α → Turn α α) : Nat → List (List UInt8) → α → α
  | _, [], a => a
  | pos, l :: ls, a =>
    if ls = [] ∧ l.length < 2 then a
    else
      match onLine pos l.length a with
      | .exit a => a
      | .next a => sectionFold onLine (pos + (l.length + 2)) ls a

section Walk

variable {α : Type} {req : HttpRequest} {onLine : Nat → Nat → α → Turn α α}

theorem sectionStep_descends :
    Descends (sectionStep req onLine) (fun s => req.buffer.length + 2 - s.1) fun _ => True := by
  rintro ⟨pos, a⟩ s' _ h
  unfold sectionStep at h
  simp only at h
  split at h
  · cases h
  split at h
  · cases h
  rename_i k hk
  split at h
  · cases h
  split at h
  · cases h
  · cases h
    have := idxOf?_lt hk
    simp only [List.length_take, List.length_drop] at this
    exact ⟨trivial, by simp only; omega⟩

/-- One pass, at a field line. -/
theorem sectionStep_line {pos : Nat} {l : List UInt8} {ls : List (List UInt8)} {rest : List UInt8}
    (hl : IsLine lf l) (hd : req.buffer.drop pos = unlines cr lf (l :: ls) ++ rest)
    (hend : req.headerFields.start + req.headerFields.len.toNat + 2 =
      pos + (unlines cr lf (l :: ls)).length) (hlong : ¬ (ls = [] ∧ l.length < 2)) (a : α) :
    sectionStep req onLine (pos, a) =
      match onLine pos l.length a with
      | .exit a => .exit a
      | .next a => .next (pos + (l.length + 2), a) := by
  obtain ⟨hne, hlf⟩ := hl
  have h1 : l.length ≠ 0 := fun e => hne (List.length_eq_zero_iff.mp e)
  have hu : (unlines cr lf (l :: ls)).length = l.length + 2 + (unlines cr lf ls).length := by
    simp only [unlines_cons, List.length_append, List.length_cons]; omega
  have hlong' : ¬ req.headerFields.start + req.headerFields.len.toNat < pos + 2 := by
    by_cases hls : ls = []
    · have : ¬ l.length < 2 := fun h => hlong ⟨hls, h⟩
      omega
    · obtain ⟨l', ls, rfl⟩ := List.exists_cons_of_ne_nil hls
      have h2 : 2 ≤ (unlines cr lf (l' :: ls)).length := by
        simp only [unlines_cons, List.length_append, List.length_cons]; omega
      omega
  have htake : (req.buffer.drop pos).take
      (req.headerFields.start + req.headerFields.len.toNat + 2 - pos) =
        (l ++ [cr]) ++ lf :: unlines cr lf ls := by
    rw [hd, hend, Nat.add_sub_cancel_left, List.take_left]
    simp
  have hidx : findByteIdx ((l ++ [cr]) ++ lf :: unlines cr lf ls) lf = some (l.length + 1) := by
    rw [findByteIdx, idxOf?_append_cons]
    · simp
    · simp only [List.mem_append, List.mem_singleton, not_or]
      exact ⟨hlf, cr_ne_lf.symm⟩
  have hcr : req.buffer[pos + (l.length + 1) - 1]? = some cr := by
    rw [show pos + (l.length + 1) - 1 = pos + l.length by omega, ← List.getElem?_drop, hd]
    simp
  have hlen : fieldLineLen req.buffer pos (l.length + 1) = l.length := by
    rw [fieldLineLen, if_pos ⟨by omega, hcr⟩, Nat.add_sub_cancel]
  unfold sectionStep
  simp only [if_neg hlong', htake, hidx, hlen, if_neg h1]
  cases onLine pos l.length a with
  | exit a => rfl
  | next a => rfl

/-- **The walk is the fold over the field lines.** -/
theorem sectionLoop_eq {ls : List (List UInt8)} (hls : ∀ l ∈ ls, IsLine lf l) {pos : Nat}
    {rest : List UInt8} (hd : req.buffer.drop pos = unlines cr lf ls ++ rest)
    (hend : req.headerFields.start + req.headerFields.len.toNat + 2 =
      pos + (unlines cr lf ls).length) (a out : α) :
    loop (sectionStep req onLine) (fun s => req.buffer.length + 2 - s.1) out (pos, a) =
      sectionFold onLine pos ls a := by
  induction ls generalizing pos a with
  | nil =>
      refine loop_exit ?_
      simp only [unlines_nil, List.length_nil] at hend
      simp only [sectionStep, if_pos (show req.headerFields.start + req.headerFields.len.toNat <
        pos + 2 by omega), sectionFold]
  | cons l ls ih =>
      have hl := hls l (by simp)
      rw [sectionFold]
      by_cases hlong : ls = [] ∧ l.length < 2
      · rw [if_pos hlong]
        refine loop_exit ?_
        obtain ⟨rfl, h2⟩ := hlong
        simp only [unlines_cons, unlines_nil, List.length_append, List.length_cons,
          List.length_nil] at hend
        simp only [sectionStep, if_pos (show req.headerFields.start + req.headerFields.len.toNat <
          pos + 2 by omega)]
      · rw [if_neg hlong]
        have hstep : sectionStep req onLine (pos, a) = _ := sectionStep_line hl hd hend hlong a
        have hd' : req.buffer.drop (pos + (l.length + 2)) = unlines cr lf ls ++ rest := by
          rw [← List.drop_drop, hd, unlines_cons, List.append_assoc, List.drop_append,
            List.drop_eq_nil_of_le (by omega)]
          simp
        cases ho : onLine pos l.length a with
        | exit a' =>
            rw [ho] at hstep
            exact loop_exit hstep
        | next a' =>
            rw [ho] at hstep
            rw [loop_next sectionStep_descends trivial hstep]
            refine ih (fun l h => hls l (by simp [h])) hd' ?_ a'
            simp only [unlines_cons, List.length_append, List.length_cons] at hend
            omega

end Walk

/-! ### Looking up -/

theorem named_iff {name l : List UInt8} :
    Named name l ↔ name.length < l.length ∧ asciiCiEq (l.take name.length) name = true ∧
      l[name.length]? = some colon := by
  constructor
  · rintro ⟨v, n, o₁, o₂, rfl, hn, -⟩
    have hlen := hn.length
    refine ⟨by simp; omega, ?_, ?_⟩
    · rw [← hlen, List.take_left]; exact hn.ci
    · rw [← hlen]; simp
  · rintro ⟨hlt, hci, hcolon⟩
    rw [List.getElem?_eq_getElem hlt, Option.some.injEq] at hcolon
    obtain ⟨o₁, o₂, hsplit, h₁, h₂⟩ := trim_split isOws (l.drop (name.length + 1))
    refine ⟨trim isOws (l.drop (name.length + 1)), l.take name.length, o₁, o₂, ?_,
      asciiCiEq_iff.mp hci, h₁, h₂, trimmed_trim _⟩
    rw [← hsplit, ← hcolon, ← List.drop_eq_getElem_cons hlt, List.take_append_drop]

/-- A name takes a byte and its colon another: a line of one byte has none. -/
theorem Named.two_le {name l : List UInt8} (hne : name ≠ []) (h : Named name l) : 2 ≤ l.length := by
  have := (named_iff.mp h).1
  have := List.length_pos_iff.mpr hne
  omega

section LookUp

variable {req : HttpRequest} {name : List UInt8}

theorem getLine_field {buf l v : List UInt8} {pos : Nat} (hl : (buf.drop pos).take l.length = l)
    (hv : Field name l v) (a : Option Slice) :
    ∃ k, getLine buf name pos l.length a = .exit (some ⟨k, v.length⟩) ∧
      (⟨k, v.length⟩ : Slice).view buf = v := by
  obtain ⟨k, hk, hview⟩ := lineHeaderValue_field hv
  have hb := lineHeaderValue_bound name hk
  refine ⟨pos + k, ?_, ?_⟩
  · rw [getLine, lineHeaderValue_line, hl, hk]
    simp
  · have := @view_line buf pos l.length ⟨k, v.length⟩ hb
    rw [this, hl, hview]

theorem getLine_other {buf l : List UInt8} {pos : Nat} (hl : (buf.drop pos).take l.length = l)
    (hn : ¬ Named name l) (a : Option Slice) : getLine buf name pos l.length a = .next a := by
  rw [getLine, lineHeaderValue_line, hl]
  rcases line_cases name l with hv | hs | h
  · exact absurd hv hn
  · rw [lineHeaderValue_spaced hs]; rfl
  · rw [h]; rfl

theorem countLine_cond {buf l : List UInt8} {pos : Nat} (hl : (buf.drop pos).take l.length = l) :
    (name.length < l.length ∧
      asciiCiEq (((buf.drop pos).take l.length).take name.length) name = true ∧
      buf[pos + name.length]? = some colon) ↔ Named name l := by
  rw [named_iff, hl]
  refine and_congr_right fun hlt => and_congr_right fun _ => ?_
  have hget : buf[pos + name.length]? = l[name.length]? := by
    conv_rhs => rw [← hl]
    rw [List.getElem?_take_of_lt hlt, List.getElem?_drop]
  rw [hget]

/-- A line of the section, cut out of the buffer. -/
theorem take_line {buf l rest : List UInt8} {ls : List (List UInt8)} {pos : Nat}
    (hd : buf.drop pos = unlines cr lf (l :: ls) ++ rest) :
    (buf.drop pos).take l.length = l ∧
      buf.drop (pos + (l.length + 2)) = unlines cr lf ls ++ rest := by
  refine ⟨by rw [hd]; simp, ?_⟩
  rw [← List.drop_drop, hd, unlines_cons, List.append_assoc, List.drop_append,
    List.drop_eq_nil_of_le (by omega)]
  simp

theorem sectionFold_get {buf : List UInt8} (hne : name ≠ []) {ls : List (List UInt8)}
    {rest : List UInt8} {pos : Nat} (hd : buf.drop pos = unlines cr lf ls ++ rest) :
    (sectionFold (getLine buf name) pos ls none = none ∧ ∀ l ∈ ls, ¬ Named name l) ∨
      ∃ l ∈ ls, ∃ v k, Field name l v ∧
        sectionFold (getLine buf name) pos ls none = some ⟨k, v.length⟩ ∧
        (⟨k, v.length⟩ : Slice).view buf = v := by
  induction ls generalizing pos with
  | nil => exact .inl ⟨rfl, by simp⟩
  | cons l ls ih =>
      obtain ⟨hl, hd'⟩ := take_line hd
      rw [sectionFold]
      split
      · rename_i hshort
        obtain ⟨rfl, h2⟩ := hshort
        refine .inl ⟨rfl, fun l' hl' hn => ?_⟩
        rw [List.mem_singleton.mp hl'] at hn
        have := hn.two_le hne
        omega
      · by_cases hn : Named name l
        · obtain ⟨v, hv⟩ := hn
          obtain ⟨k, hk, hview⟩ := getLine_field hl hv none
          exact .inr ⟨l, by simp, v, k, hv, by rw [hk], hview⟩
        · rw [getLine_other hl hn]
          rcases ih hd' with ⟨h₁, h₂⟩ | ⟨l', hl', v, k, hv, hk, hview⟩
          · exact .inl ⟨h₁, by simpa [hn] using h₂⟩
          · exact .inr ⟨l', by simp [hl'], v, k, hv, hk, hview⟩

theorem sectionFold_count {buf : List UInt8} (hne : name ≠ []) {ls : List (List UInt8)}
    {rest : List UInt8} {pos : Nat} (hd : buf.drop pos = unlines cr lf ls ++ rest) (c : Nat) :
    c ≤ sectionFold (countLine buf name) pos ls c ∧
      (sectionFold (countLine buf name) pos ls c = c ↔ ∀ l ∈ ls, ¬ Named name l) := by
  induction ls generalizing pos c with
  | nil => exact ⟨Nat.le_refl _, by simp [sectionFold]⟩
  | cons l ls ih =>
      obtain ⟨hl, hd'⟩ := take_line hd
      rw [sectionFold]
      split
      · rename_i hshort
        obtain ⟨rfl, h2⟩ := hshort
        refine ⟨Nat.le_refl _, fun _ l' hl' hn => ?_, fun _ => rfl⟩
        rw [List.mem_singleton.mp hl'] at hn
        have := hn.two_le hne
        omega
      · by_cases hn : Named name l
        · rw [countLine, if_pos ((countLine_cond hl).mpr hn)]
          obtain ⟨h₁, -⟩ := ih hd' (c + 1)
          exact ⟨by simp only; omega, fun h => by simp only at h; omega,
            fun h => absurd hn (h l (by simp))⟩
        · rw [countLine, if_neg (mt (countLine_cond hl).mp hn)]
          obtain ⟨h₁, h₂⟩ := ih hd' c
          exact ⟨h₁, by simpa [hn] using h₂⟩

/-- The header section is the field lines of a head. -/
structure SectionOf (req : HttpRequest) (h : Head) (body : List UInt8) : Prop where
  lines : h.Lines
  buffer : req.buffer = h.bytes ++ body
  fields : req.headerFields =
    ⟨h.requestLine.length + 2, ((unlines cr lf h.fields).length - 2 : Nat)⟩

variable {h : Head} {body : List UInt8}

/-- A section is empty where there is no field line. -/
theorem SectionOf.length_pos (hs : SectionOf req h body) :
    req.headerFields.len ≤ 0 ↔ h.fields = [] := by
  rw [hs.fields]
  cases hf : h.fields with
  | nil => simp
  | cons l ls =>
      obtain ⟨hl, -⟩ := hs.lines.2 l (by rw [hf]; simp)
      have := List.length_pos_iff.mpr hl
      simp only [unlines_cons, List.length_append, List.length_cons, reduceCtorEq, iff_false]
      omega

theorem SectionOf.drop (hs : SectionOf req h body) :
    req.buffer.drop req.headerFields.start = unlines cr lf h.fields ++ cr :: lf :: body := by
  rw [hs.fields, hs.buffer]
  exact head_drop

theorem SectionOf.loop (hs : SectionOf req h body) (hpos : ¬ req.headerFields.len ≤ 0) {α : Type}
    (onLine : Nat → Nat → α → Turn α α) (a out : α) :
    loop (sectionStep req onLine) (fun s => req.buffer.length + 2 - s.1) out
      (req.headerFields.start, a) = sectionFold onLine req.headerFields.start h.fields a := by
  refine sectionLoop_eq hs.lines.2 hs.drop ?_ a out
  rw [hs.fields] at hpos ⊢
  simp only [Int.toNat_natCast] at hpos ⊢
  omega

/-- What `get_header_value_slice` answers: the value of one of the fields `name`, if there is
one. -/
theorem getHeaderValueSlice_cases (hs : SectionOf req h body) (hne : name ≠ []) :
    (getHeaderValueSlice req name = none ∧ ∀ l ∈ h.fields, ¬ Named name l) ∨
      ∃ l ∈ h.fields, ∃ v k, Field name l v ∧
        getHeaderValueSlice req name = some ⟨k, v.length⟩ ∧
        (⟨k, v.length⟩ : Slice).view req.buffer = v := by
  unfold getHeaderValueSlice
  split
  · rename_i h0
    rw [hs.length_pos.mp h0]
    exact .inl ⟨rfl, by simp⟩
  · rename_i h0
    rw [hs.loop h0]
    exact sectionFold_get hne hs.drop

theorem countHeader_eq_zero (hs : SectionOf req h body) (hne : name ≠ []) :
    countHeader req name = 0 ↔ ∀ l ∈ h.fields, ¬ Named name l := by
  unfold countHeader
  split
  · rename_i h0
    rw [hs.length_pos.mp h0]
    simp
  · rename_i h0
    rw [hs.loop h0]
    exact (sectionFold_count hne hs.drop 0).2

end LookUp

/-! ### What a handler reads about the body -/

section Body

variable {req req' : HttpRequest} {h : Head} {body : List UInt8} {vs ws : List (List UInt8)}

theorem BodyFrom.view (hb : BodyFrom req h.bytes.length) (hbuf : req.buffer = h.bytes ++ body) :
    req.body.len = body.length ∧ req.body.view req.buffer = body := by
  obtain ⟨-, e⟩ := hb
  rw [e, hbuf, List.length_append]
  split
  · rename_i h0
    obtain rfl : body = [] := List.length_eq_zero_iff.mp (by omega)
    exact ⟨rfl, by simp [Slice.view]⟩
  · rw [Nat.add_sub_cancel_left]
    exact ⟨rfl, by simp [Slice.view]⟩

/-- What `content_length` reads: the value of a Content-Length line, or -1 where there is none. -/
theorem contentLength_cases (hs : SectionOf req h body) (hv : Values clName h.fields vs)
    (hdig : ∀ v ∈ vs, Digits v ∧ decValue 0 v ≤ maxDeclared) :
    contentLength req = -1 ∧ vs = [] ∨ ∃ v ∈ vs, contentLength req = (decValue 0 v : Nat) := by
  rcases getHeaderValueSlice_cases hs (show clName ≠ [] by decide) with
    ⟨hg, hno⟩ | ⟨l, hl, v, k, hf, hg, hview⟩
  · refine .inl ⟨?_, ?_⟩
    · have hg' : getHeaderValueSlice req (ascii "Content-Length") = none := hg
      simp only [contentLength, hg']
    · by_contra hne
      obtain ⟨l, hl, hn⟩ := hv.ne_nil_iff.mp hne
      exact hno l hl hn
  · have hmem := hv.mem hl hf
    have hg' : getHeaderValueSlice req (ascii "Content-Length") = some ⟨k, v.length⟩ := hg
    refine .inr ⟨v, hmem, ?_⟩
    have hparse : parseContentLength req.buffer ⟨k, v.length⟩ = .ok (decValue 0 v) :=
      (parseContentLength_ok rfl hview).mpr ⟨(hdig v hmem).1, (hdig v hmem).2, rfl⟩
    simp only [contentLength, hg', hparse]

/-- Transfer-Encoding is found exactly where there is such a line. -/
theorem transferEncoding_none_iff (hs : SectionOf req h body) (hte : Values teName h.fields ws) :
    getHeaderValueSlice req (ascii "Transfer-Encoding") = none ↔ ws = [] := by
  rw [← not_iff_not, ← ne_eq ws, hte.ne_nil_iff]
  rcases getHeaderValueSlice_cases hs (show teName ≠ [] by decide) with
    ⟨hg, hno⟩ | ⟨l, hl, w, k, hf, hg, -⟩
  · refine ⟨fun h => absurd hg h, fun ⟨l, hl, hn⟩ => absurd hn (hno l hl)⟩
  · refine ⟨fun _ => ⟨l, hl, w, hf⟩, fun _ h => ?_⟩
    cases hg.symm.trans h

/-- A length that is read is the length of the body, and there is no Transfer-Encoding. -/
theorem contentLength_nonneg (hs : SectionOf req h body) (hok : h.Ok Spaced vs ws)
    (hframes : Frames vs ws body) (h0 : 0 ≤ contentLength req) :
    contentLength req = body.length ∧
      getHeaderValueSlice req (ascii "Transfer-Encoding") = none := by
  rcases contentLength_cases hs hok.cl hok.digits with ⟨e, -⟩ | ⟨v, hv, e⟩
  · omega
  have hw : ws = [] := by
    by_contra hw
    rw [(hok.alone hw).1] at hv
    cases hv
  refine ⟨?_, (transferEncoding_none_iff hs hok.te).mpr hw⟩
  cases hframes with
  | none hv' _ => rw [hv'] at hv; cases hv
  | length hv' _ hlen => rw [e, hlen, hok.same _ hv' _ hv]
  | chunked hw' _ => exact absurd hw hw'

/-- Without a length the body is empty, or it is chunked and Transfer-Encoding is there. -/
theorem contentLength_absent (hs : SectionOf req h body) (hok : h.Ok Spaced vs ws)
    (hframes : Frames vs ws body) (h1 : contentLength req = -1) :
    body = [] ∨ (∃ v, getHeaderValueSlice req (ascii "Transfer-Encoding") = some v) ∧
      ChunkedBody body := by
  rcases contentLength_cases hs hok.cl hok.digits with ⟨-, hv⟩ | ⟨v, hv, e⟩
  · cases hframes with
    | none _ _ => exact .inl rfl
    | length hv' _ _ => rw [hv] at hv'; cases hv'
    | chunked hw hc =>
        refine .inr ⟨?_, hc⟩
        exact Option.ne_none_iff_exists'.mp (mt (transferEncoding_none_iff hs hok.te).mp hw)
  · omega

/-- The two look-ups agree on what is there. -/
theorem getHeaderValueSlice_none_iff {name : List UInt8} (hs : SectionOf req h body)
    (hne : name ≠ []) : getHeaderValueSlice req name = none ↔ countHeader req name = 0 := by
  rw [countHeader_eq_zero hs hne]
  rcases getHeaderValueSlice_cases hs hne with ⟨hg, hno⟩ | ⟨l, hl, v, k, hf, hg, -⟩
  · exact ⟨fun _ => hno, fun _ => hg⟩
  · refine ⟨fun e => ?_, fun hno => absurd ⟨v, hf⟩ (hno l hl)⟩
    cases hg.symm.trans e

/-- A decoded method without LF ends in the request line. -/
theorem method_in_line (hl : h.Lines) (hbuf : req.buffer = h.bytes ++ body) {s pos c : Nat}
    (hend : LineEnd req req' s pos c) (hlf : lf ∉ req'.method.view req'.buffer) :
    s < h.requestLine.length + 1 := by
  have hat : req.buffer[h.requestLine.length + 1]? = some lf := by
    rw [hbuf]
    exact idxOf?_get (head_firstLf hl body)
  have hsp : req.buffer[s]? = some sp := idxOf?_get hend.space
  by_contra hge
  have hne : s ≠ h.requestLine.length + 1 := by
    rintro rfl
    rw [hat] at hsp
    revert hsp; decide
  refine hlf ?_
  rw [hend.method, hend.buffer, Slice.view, List.drop_zero, Int.toNat_natCast]
  refine List.mem_of_getElem? (i := h.requestLine.length + 1) ?_
  rw [List.getElem?_take_of_lt (by omega), hat]

end Body

/-- **The decoded body is the framed one.**  On a message whose decoded method has no line end in
it: a `content_length` is the length of the body, and then there is no Transfer-Encoding; without
one the body is empty or chunked, and Transfer-Encoding is there; and the two look-ups agree on
what is there. -/
theorem decoded_body_is_framed (b : List UInt8) (n : Nat) (req req' : HttpRequest)
    (hframe : frameRequestLengthLimIdx b 0 0 = n) (hbuf : req.buffer = b.take n)
    (hdec : decodeInto req = (true, req'))
    (hmethod : cr ∉ req'.method.view req'.buffer ∧ lf ∉ req'.method.view req'.buffer) :
    ∃ headLen, frameHeadLen b = some headLen ∧
      (0 ≤ contentLength req' →
        contentLength req' = (n : Int) - headLen ∧ req'.body.len = (n : Int) - headLen ∧
          getHeaderValueSlice req' (ascii "Transfer-Encoding") = none) ∧
      (contentLength req' = -1 → req'.body.len = 0 ∨
        (∃ v, getHeaderValueSlice req' (ascii "Transfer-Encoding") = some v) ∧
          ChunkedBody (req'.body.view req'.buffer)) ∧
      ∀ name, name ≠ [] → (getHeaderValueSlice req' name = none ↔ countHeader req' name = 0) := by
  obtain ⟨h, vs, ws, body, -, -, hm, hn, hok, hframes, hlen⟩ := framed_parts hframe
  rw [hm] at hbuf
  obtain ⟨s, _, _, hend, -⟩ := decodeInto_ok hdec
  have hspace := hend.space
  rw [hbuf] at hspace
  obtain ⟨pos, hend, hhf, hbody⟩ := decode_framed hok.lines hbuf hdec hspace
    (method_in_line hok.lines hbuf hend hmethod.2)
  have hbuf' : req'.buffer = h.bytes ++ body := hend.buffer.trans hbuf
  have hs : SectionOf req' h body := ⟨hok.lines, hbuf', hhf⟩
  obtain ⟨hblen, hbview⟩ := hbody.view hbuf'
  refine ⟨h.bytes.length, hlen, fun h0 => ?_, fun h1 => ?_, fun name hne => ?_⟩
  · obtain ⟨hcl, hte⟩ := contentLength_nonneg hs hok hframes h0
    exact ⟨by omega, by omega, hte⟩
  · rw [hblen, hbview]
    rcases contentLength_absent hs hok hframes h1 with rfl | hchunked
    · exact .inl rfl
    · exact .inr hchunked
  · exact getHeaderValueSlice_none_iff hs hne

/-- A request with a body of two bytes. -/
theorem decoded_body_is_framed_post :
    ∃ req, decodeInto { buffer := ascii "POST / HTTP/1.1\r\nContent-Length: 2\r\n\r\nab" } =
        (true, req) ∧ contentLength req = 2 ∧ req.body.len = 2 ∧
      getHeaderValueSlice req (ascii "Transfer-Encoding") = none := by
  obtain ⟨k, hk, h, -⟩ := decoded_body_is_framed
    (ascii "POST / HTTP/1.1\r\nContent-Length: 2\r\n\r\nab") 40
    { buffer := ascii "POST / HTTP/1.1\r\nContent-Length: 2\r\n\r\nab" } _ (by decide +kernel)
    (by decide +kernel) rfl (by decide +kernel)
  obtain rfl : k = 38 := Option.some.inj (hk.symm.trans (by decide +kernel))
  exact ⟨_, rfl, h (by decide +kernel)⟩

end Vanilla.RequestParser

import Vanilla.RequestParser.Chunked
import Vanilla.RequestParser.Fold
import Vanilla.RequestParser.Walkers

/-!
# Request parser — what the framer cuts off

The framer as a whole, in a buffer whose length is an `int`.

* `frameRequest_iff`: without limits, the framer answers `n` exactly where the first `n` bytes are
  a message of the grammar.
* `frameRequest_append`: without limits, its answers are final.
* `frameRequest_accept_append`: with limits, an accepted message stays accepted unless the chunked
  check counts the bytes behind it.
-/

namespace Vanilla.RequestParser
open Scan

/-! ### The request line -/

/-- The framer's look at the request line is the grammar's. -/
theorem requestLineIsHttp10_iff {h : Head} {rest : List UInt8} :
    requestLineIsHttp10 (h.bytes ++ rest) (h.requestLine.length + 1) = true ↔ h.Http10 := by
  obtain ⟨L, fs⟩ := h
  obtain ⟨t, ht⟩ : ∃ t, (Head.bytes ⟨L, fs⟩ ++ rest) = L ++ cr :: t := by
    simp [Head.bytes, crlf]
  simp only [ht]
  have hcr : (L ++ cr :: t)[L.length]? = some cr := by simp
  have hin : ∀ i, i < L.length → (L ++ cr :: t)[i]? = L[i]? := fun i hi =>
    List.getElem?_append_left hi
  have hv : 9 ≤ L.length → ((L ++ cr :: t).drop (L.length - 8)).take 8 = L.drop (L.length - 8) := by
    intro h9
    rw [List.drop_append_of_le_length (by omega), List.take_append_of_le_length (by simp; omega),
      List.take_of_length_le (by simp; omega)]
  simp only [requestLineIsHttp10, Nat.add_one_sub_one, hcr, Nat.succ_pos, and_self, if_true,
    Bool.and_eq_true, decide_eq_true_eq, beq_iff_eq]
  constructor
  · rintro ⟨⟨⟨h9, -⟩, hsp⟩, hver⟩
    rw [hin _ (by omega)] at hsp
    rw [hv h9] at hver
    refine ⟨L.take (L.length - 9), ?_⟩
    have e : L.drop (L.length - 9) = sp :: L.drop (L.length - 8) := by
      rw [List.drop_eq_getElem_cons (by omega)]
      rw [List.getElem?_eq_getElem (by omega), Option.some.injEq] at hsp
      rw [hsp, show L.length - 9 + 1 = L.length - 8 by omega]
    conv_lhs => rw [← List.take_append_drop (L.length - 9) L]
    rw [e, hver]
    rfl
  · rintro ⟨p, hp⟩
    simp only at hp
    subst hp
    have hlen : (p ++ ascii " HTTP/1.0").length = p.length + 9 := by
      rw [List.length_append]; rfl
    refine ⟨⟨⟨by omega, ?_⟩, ?_⟩, ?_⟩
    · rw [hin _ (by omega), hlen, List.getElem?_append_right (by omega),
        show p.length + 9 - 1 - p.length = 8 by omega]
      rfl
    · rw [hin _ (by omega), hlen, List.getElem?_append_right (by omega),
        show p.length + 9 - 9 - p.length = 0 by omega]
      rfl
    · rw [hv (by omega), hlen, List.drop_append, List.drop_eq_nil_of_le (by omega),
        show p.length + 9 - 8 - p.length = 1 by omega]
      rfl

/-! ### The body -/

section Body

variable {h : Head} {rest : List UInt8} {vs ws : List (List UInt8)} {p : Nat} {s : HeadState}

/-- The last coding of all Transfer-Encoding lines is chunked, and no other is. -/
def ChunkedLast (ws : List (List UInt8)) : Prop :=
  ∃ cs c, ws.flatMap codings = cs ++ [c] ∧ IsChunked c ∧ ∀ x ∈ cs, ¬ IsChunked x

theorem After.isSome (hs : After { pos := p } vs ws s) :
    s.contentLength.isSome = true ↔ vs ≠ [] := by
  rcases hs.length with ⟨hv, hc⟩ | ⟨v, hv, hc⟩
  · simp [hc, hv]
  · simp [hc, List.ne_nil_of_mem hv]

theorem After.teSeen (hs : After { pos := p } vs ws s) : s.teSeen = true ↔ ws ≠ [] := by
  rw [hs.seen]
  cases ws <;> simp

theorem After.chunked (hs : After { pos := p } vs ws s) : s.chunked = true ↔ ChunkedLast ws := by
  rw [ChunkedLast, ← codingFold_true, hs.codes]
  simp

/-- A body without Transfer-Encoding: the declared length, if it has arrived, or nothing. -/
theorem bodyVerdict_length (ha : Adds h.fields { pos := p } vs [])
    (hs : After { pos := p } vs [] s) {n : Nat} :
    bodyVerdict (h.bytes ++ rest) (h.requestLine.length + 1) 0 0 h.bytes.length s = .accept n ↔
      ∃ body rest', rest = body ++ rest' ∧ Frames vs [] body ∧
        n = h.bytes.length + body.length := by
  have hte : s.teSeen = false := by simpa using hs.seen
  have hch : s.chunked = false := by simpa [codingFold] using hs.codes.symm
  simp only [bodyVerdict, hte, hch, Bool.false_and, Bool.false_eq_true, if_false]
  rcases hs.length with ⟨rfl, hc⟩ | ⟨v, hv, hc⟩
  · simp only [hc, Verdict.accept.injEq]
    constructor
    · rintro rfl
      exact ⟨[], rest, rfl, .none rfl rfl, rfl⟩
    · rintro ⟨body, rest', -, hf, rfl⟩
      cases hf with
      | none => rfl
      | length hv _ _ => cases hv
      | chunked hw _ => exact absurd rfl hw
  · simp only [hc]
    rw [List.length_append]
    constructor
    · intro hacc
      split at hacc
      · rename_i hle
        obtain rfl := Verdict.accept.inj hacc
        refine ⟨rest.take (decValue 0 v), rest.drop (decValue 0 v), by simp,
          .length hv rfl (by rw [List.length_take]; omega), ?_⟩
        rw [List.length_take]; omega
      · cases hacc
    · rintro ⟨body, rest', rfl, hf, rfl⟩
      have hlen : body.length = decValue 0 v := by
        cases hf with
        | none hv' _ => rw [hv'] at hv; cases hv
        | length hv' _ e => rw [e]; exact ha.same _ hv' _ hv
        | chunked hw _ => exact absurd rfl hw
      rw [List.length_append, if_pos (by omega), hlen]

/-- A body with Transfer-Encoding: chunked, and nothing else declares a length. -/
theorem bodyVerdict_coded (hw : ws ≠ []) (hs : After { pos := p } vs ws s) {n : Nat} :
    bodyVerdict (h.bytes ++ rest) (h.requestLine.length + 1) 0 0 h.bytes.length s = .accept n ↔
      (ChunkedLast ws ∧ vs = [] ∧ ¬ h.Http10) ∧
        ∃ body rest', rest = body ++ rest' ∧ Frames vs ws body ∧
          n = h.bytes.length + body.length := by
  have hte : s.teSeen = true := hs.teSeen.mpr hw
  have hcond : (s.teSeen && (!s.chunked || s.contentLength.isSome ||
      requestLineIsHttp10 (h.bytes ++ rest) (h.requestLine.length + 1))) = false ↔
      ChunkedLast ws ∧ vs = [] ∧ ¬ h.Http10 := by
    rw [hte, Bool.true_and, Bool.or_eq_false_iff, Bool.or_eq_false_iff, Bool.not_eq_false',
      hs.chunked, ← Bool.not_eq_true, ← Bool.not_eq_true, hs.isSome, requestLineIsHttp10_iff,
      not_not, and_assoc]
  by_cases hc : ChunkedLast ws ∧ vs = [] ∧ ¬ h.Http10
  · have hbody : (∃ body rest', rest = body ++ rest' ∧ Frames vs ws body ∧
        n = h.bytes.length + body.length) ↔
        ∃ body rest', (h.bytes ++ rest).drop h.bytes.length = body ++ rest' ∧ ChunkedBody body ∧
          n = h.bytes.length + body.length := by
      rw [List.drop_left]
      refine exists_congr fun body => exists_congr fun rest' => and_congr_right fun _ =>
        and_congr_left fun _ => ⟨fun hf => ?_, fun hbody => .chunked hw hbody⟩
      cases hf with
      | none _ hw' => exact absurd hw' hw
      | length _ hw' _ => exact absurd hw' hw
      | chunked _ hbody => exact hbody
    rw [and_iff_right hc, hbody, ← frameChunkedTotal_iff, bodyVerdict,
      if_neg (Bool.eq_false_iff.mp (hcond.mpr hc)), if_pos (hs.chunked.mpr hc.1)]
    cases frameChunkedTotal (h.bytes ++ rest) h.bytes.length 0 0 <;> simp
  · have hcond' := mt hcond.mp hc
    rw [Bool.not_eq_false] at hcond'
    rw [bodyVerdict, if_pos hcond']
    exact ⟨fun e => (by cases e), fun e => absurd e.1 hc⟩

/-- The verdict on the body, whichever of the two it is. -/
theorem bodyVerdict_iff (ha : Adds h.fields { pos := p } vs ws)
    (hs : After { pos := p } vs ws s) {n : Nat} :
    bodyVerdict (h.bytes ++ rest) (h.requestLine.length + 1) 0 0 h.bytes.length s = .accept n ↔
      (ws ≠ [] → ChunkedLast ws ∧ vs = [] ∧ ¬ h.Http10) ∧
        ∃ body rest', rest = body ++ rest' ∧ Frames vs ws body ∧
          n = h.bytes.length + body.length := by
  by_cases hw : ws = []
  · subst hw
    rw [bodyVerdict_length ha hs]
    simp
  · rw [bodyVerdict_coded hw hs]
    simp [hw]

end Body

/-! ### The message -/

/-- What a complete head comes to, whatever the limits. -/
theorem headOf_read {mh mb : Int} {buf : List UInt8} {rl : Nat} {s : HeadState}
    (hh : headOf mh mb buf = .accept (rl, s)) :
    ∃ (h : Head) (rest : List UInt8) (vs ws : List (List UInt8)), buf = h.bytes ++ rest ∧
      h.Lines ∧ rl = h.requestLine.length + 1 ∧ s.pos + 2 = h.bytes.length ∧
      Adds h.fields { pos := h.requestLine.length + 2 } vs ws ∧
      After { pos := h.requestLine.length + 2 } vs ws s ∧
      ∀ v ∈ vs, ¬ (0 < mb ∧ mb < (decValue 0 v : Int)) := by
  obtain ⟨h, rest, rfl, hl, -, rfl, hfold⟩ := headOf_accept_iff.mp hh
  obtain ⟨vs, ws, ha, hs, hmb⟩ := foldlM_sound hfold
  refine ⟨h, rest, vs, ws, rfl, hl, rfl, ?_, ha, hs, hmb⟩
  rw [foldlM_pos hfold, head_length]

theorem Head.ok_iff {h : Head} {vs ws : List (List UInt8)} (p : Nat) :
    h.Ok Spaced vs ws ↔ h.Lines ∧ Adds h.fields { pos := p } vs ws ∧
      (ws ≠ [] → ChunkedLast ws ∧ vs = [] ∧ ¬ h.Http10) := by
  constructor
  · intro hok
    refine ⟨hok.lines, ⟨hok.good, hok.cl, hok.te, hok.digits, hok.same, by simp, hok.coded, ?_⟩,
      fun hw => ⟨hok.final hw, hok.alone hw⟩⟩
    by_cases hw : ws = []
    · simp [hw, codingFold]
    · rw [codingFold_true.mpr (hok.final hw)]
      simp
  · rintro ⟨hl, ha, hc⟩
    exact ⟨hl, ha.good, ha.cl, ha.te, ha.digits, ha.same, ha.coded, fun hw => (hc hw).1,
      fun hw => (hc hw).2⟩

/-- **The framer cuts off exactly the messages.** -/
theorem frameRequest_iff {buf : List UInt8} {n : Nat} :
    frameRequest buf 0 0 = .accept n ↔ n ≤ buf.length ∧ Message (buf.take n) := by
  rw [frameRequest_eq, Verdict.bind_eq_accept]
  constructor
  · rintro ⟨⟨rl, s⟩, hh, hbody⟩
    obtain ⟨h, rest, vs, ws, rfl, hl, rfl, hpos, ha, hs, -⟩ := headOf_read hh
    simp only [hpos] at hbody
    obtain ⟨hc, body, rest', rfl, hf, rfl⟩ := (bodyVerdict_iff ha hs).mp hbody
    have e : (h.bytes ++ (body ++ rest')).take (h.bytes.length + body.length) =
        h.bytes ++ body := by
      rw [← List.append_assoc, ← List.length_append, List.take_left]
    refine ⟨by simp only [List.length_append]; omega, h, vs, ws, body, e,
      (Head.ok_iff _).mpr ⟨hl, ha, hc⟩, hf⟩
  · rintro ⟨hn, h, vs, ws, body, e, hok, hf⟩
    obtain ⟨rest, rfl⟩ : ∃ rest, buf = h.bytes ++ (body ++ rest) :=
      ⟨buf.drop n, by rw [← List.append_assoc, ← e, List.take_append_drop]⟩
    obtain ⟨hl, ha, hc⟩ := (Head.ok_iff (h.requestLine.length + 2)).mp hok
    obtain ⟨s, hfold⟩ := foldlM_complete ha
    have hh : headOf 0 0 (h.bytes ++ (body ++ rest)) = .accept (h.requestLine.length + 1, s) :=
      headOf_accept_iff.mpr ⟨h, body ++ rest, rfl, hl, by simp, rfl, hfold⟩
    obtain ⟨vs', ws', ha', hs, -⟩ := foldlM_sound hfold
    obtain rfl := ha.cl.unique ha'.cl
    obtain rfl := ha.te.unique ha'.te
    have hpos : s.pos + 2 = h.bytes.length := by rw [foldlM_pos hfold, head_length]
    have hlen : n = h.bytes.length + body.length := by
      have := congrArg List.length e
      simp only [List.length_take, List.length_append] at this hn
      omega
    refine ⟨_, hh, ?_⟩
    simp only [hpos]
    exact (bodyVerdict_iff ha hs).mpr ⟨hc, body, rest, rfl, hf, hlen⟩

theorem frameIdx_nat {buf : List UInt8} {mh mb : Int} {n : Nat} :
    frameRequestLengthLimIdx buf mh mb = n ↔ frameRequest buf mh mb = .accept n := by
  unfold frameRequestLengthLimIdx
  split
  · rename_i h
    rw [h]
    exact ⟨fun hn => by omega, fun hn => by cases hn⟩
  · rename_i total h
    rw [h]
    exact ⟨fun hn => by rw [Int.ofNat_inj.mp hn], fun hn => by rw [Verdict.accept.inj hn]⟩
  all_goals
    rename_i h
    rw [h]
    exact ⟨fun hn => by omega, fun hn => by cases hn⟩

/-- **Request framing is exact.**  Without limits the framer answers `n` exactly where the first
`n` bytes are a message. -/
theorem frame_eq_iff_message (b : List UInt8) (n : Nat) :
    frameRequestLengthLimIdx b 0 0 = n ↔ n ≤ b.length ∧ Message (b.take n) := by
  rw [frameIdx_nat, frameRequest_iff]

/-- A field line with no colon at all is a line of the grammar that only forbids whitespace before
the colon, and the framer refuses it where it starts with `Content-Length` and a space. -/
theorem spaced_name_without_colon_refused :
    MessageOf SpacedColon (ascii "GET / HTTP/1.1\r\nContent-Length 5\r\n\r\n") ∧
      frameRequestLengthLimIdx (ascii "GET / HTTP/1.1\r\nContent-Length 5\r\n\r\n") 0 0 = -400 := by
  refine ⟨⟨⟨ascii "GET / HTTP/1.1", [ascii "Content-Length 5"]⟩, [], [], [], by decide, ?_,
    .none rfl rfl⟩, by decide +kernel⟩
  have hcolon : ∀ name, ¬ SpacedColon name (ascii "Content-Length 5") := by
    rintro name ⟨n, o, r, e, -⟩
    have hmem : colon ∈ ascii "Content-Length 5" := by rw [e]; simp
    revert hmem; decide
  have hnamed : ∀ name, ¬ Named name (ascii "Content-Length 5") := by
    rintro name ⟨v, n, o₁, o₂, e, -⟩
    have hmem : colon ∈ ascii "Content-Length 5" := by rw [e]; simp
    revert hmem; decide
  refine ⟨⟨by decide, ?_⟩, ?_, .other (hnamed _) .nil, .other (hnamed _) .nil, by simp, by simp,
    by simp, by simp, by simp⟩
  · intro l hl
    rw [List.mem_singleton.mp hl]
    exact ⟨by decide, by decide⟩
  · intro l hl
    rw [List.mem_singleton.mp hl]
    exact ⟨hcolon _, hcolon _⟩

theorem frameIdx_more {buf : List UInt8} {mh mb : Int} :
    frameRequestLengthLimIdx buf mh mb = -1 ↔ frameRequest buf mh mb = .more := by
  unfold frameRequestLengthLimIdx
  split <;> simp_all

/-! ### More bytes behind the message -/

theorem requestLineIsHttp10_append {b : List UInt8} {rl : Nat} (h : rl ≤ b.length)
    (x : List UInt8) : requestLineIsHttp10 (b ++ x) rl = requestLineIsHttp10 b rl := by
  unfold requestLineIsHttp10
  by_cases h0 : rl = 0
  · subst h0; rfl
  have e₀ : (b ++ x)[rl - 1]? = b[rl - 1]? := List.getElem?_append_left (by omega)
  rw [e₀]
  generalize he : (if 0 < rl ∧ b[rl - 1]? = some cr then rl - 1 else rl) = e
  have hle : e ≤ rl := by rw [← he]; split <;> omega
  by_cases h9 : 9 ≤ e
  · have e₁ : (b ++ x)[e - 1]? = b[e - 1]? := List.getElem?_append_left (by omega)
    have e₂ : (b ++ x)[e - 9]? = b[e - 9]? := List.getElem?_append_left (by omega)
    have e₃ : ((b ++ x).drop (e - 8)).take 8 = (b.drop (e - 8)).take 8 := by
      rw [List.drop_append_of_le_length (by omega),
        List.take_append_of_le_length (by rw [List.length_drop]; omega)]
    simp only [e₁, e₂, e₃]
  · simp [h9]

section Append

variable {b x : List UInt8} {rl bs : Nat} {s : HeadState}

theorem bodyVerdict_append (hrl : rl ≤ b.length)
    (h : bodyVerdict b rl 0 0 bs s ≠ .more) :
    bodyVerdict (b ++ x) rl 0 0 bs s = bodyVerdict b rl 0 0 bs s := by
  unfold bodyVerdict at h ⊢
  rw [requestLineIsHttp10_append hrl]
  split
  · rfl
  rename_i hc
  rw [if_neg hc] at h
  split
  · rename_i hch
    rw [if_pos hch] at h
    rw [frameChunkedTotal_append (fun e => h (by rw [e]))]
  · rename_i hch
    rw [if_neg hch] at h
    cases hn : s.contentLength with
    | none => rfl
    | some n =>
        simp only [hn] at h ⊢
        split at h
        · rename_i hle
          rw [if_pos hle, if_pos (by rw [List.length_append]; omega)]
        · exact absurd rfl h

/-- With limits, what is accepted stays accepted, but for the chunked check: it counts every byte
behind the head. -/
theorem bodyVerdict_accept_append {mh mb : Int} {n : Nat} (hrl : rl ≤ b.length)
    (h : bodyVerdict b rl mh mb bs s = .accept n) :
    bodyVerdict (b ++ x) rl mh mb bs s =
      if s.chunked = true ∧ 0 < mb ∧ mb < ((b ++ x).length - bs : Int) then .refuse .body
      else .accept n := by
  unfold bodyVerdict at h ⊢
  rw [requestLineIsHttp10_append hrl]
  split at h
  · cases h
  rename_i hc
  rw [if_neg hc]
  split at h
  · rename_i hch
    rw [if_pos hch]
    cases ht : frameChunkedTotal b bs mh mb with
    | more => rw [ht] at h; cases h
    | refuse e => rw [ht] at h; cases h
    | accept m =>
        rw [ht] at h
        cases h
        rw [frameChunkedTotal_accept_append ht]
        by_cases hlim : 0 < mb ∧ mb < ((b ++ x).length - bs : Int)
        · rw [if_pos hlim, if_pos ⟨hch, hlim⟩]
          rfl
        · rw [if_neg hlim, if_neg (fun h => hlim h.2)]
  · rename_i hch
    rw [if_neg hch, if_neg (fun hc' => hch hc'.1)]
    cases hn : s.contentLength with
    | none => simpa [hn] using h
    | some n =>
        simp only [hn] at h ⊢
        split at h
        · rename_i hle
          rw [if_pos (by rw [List.length_append]; omega), h]
        · cases h

end Append

theorem headOf_bounds {mh mb : Int} {b : List UInt8} {rl : Nat} {s : HeadState}
    (h : headOf mh mb b = .accept (rl, s)) : rl ≤ b.length := by
  obtain ⟨h, rest, rfl, -, -, rfl, -⟩ := headOf_accept_iff.mp h
  rw [List.length_append, head_length]
  omega

/-- **Without limits, the framer's answers are final.** -/
theorem frameRequest_append {b x : List UInt8} (h : frameRequest b 0 0 ≠ .more) :
    frameRequest (b ++ x) 0 0 = frameRequest b 0 0 := by
  rw [frameRequest_eq] at h
  rw [frameRequest_eq, frameRequest_eq]
  have hm : headOf 0 0 b ≠ .more := fun e => h (by rw [e]; rfl)
  rw [headOf_stable 0 0 b x hm]
  cases hh : headOf 0 0 b with
  | more => exact absurd hh hm
  | refuse e => simp only [Verdict.bind_refuse]
  | accept p =>
      rw [hh, Verdict.bind_accept] at h
      rw [Verdict.bind_accept, Verdict.bind_accept]
      exact bodyVerdict_append (headOf_bounds hh) h

/-- **With limits, an accepted message** stays accepted with bytes behind it, but for the chunked
check. -/
theorem frameRequest_accept_append {b x : List UInt8} {mh mb : Int} {n : Nat}
    (h : frameRequest b mh mb = .accept n) :
    ∃ rl s, headOf mh mb b = .accept (rl, s) ∧ frameRequest (b ++ x) mh mb =
      if s.chunked = true ∧ 0 < mb ∧ mb < ((b ++ x).length - (s.pos + 2 : Nat) : Int)
      then .refuse .body else .accept n := by
  rw [frameRequest_eq] at h
  obtain ⟨⟨rl, s⟩, hh, hbody⟩ := Verdict.bind_eq_accept.mp h
  refine ⟨rl, s, hh, ?_⟩
  rw [frameRequest_eq, headOf_stable mh mb b x (by rw [hh]; simp), hh, Verdict.bind_accept]
  exact bodyVerdict_accept_append (headOf_bounds hh) hbody

/-- The head at the front of `m` has a field `name`. -/
def HasField (name m : List UInt8) : Prop :=
  ∃ (h : Head) (rest l : List UInt8), m = h.bytes ++ rest ∧ h.Lines ∧ l ∈ h.fields ∧ Named name l

theorem hasField_iff {h : Head} (hl : h.Lines) {name rest : List UInt8} {vs : List (List UInt8)}
    (hv : Values name h.fields vs) : HasField name (h.bytes ++ rest) ↔ vs ≠ [] := by
  rw [hv.ne_nil_iff]
  constructor
  · rintro ⟨h', rest', l, e, hl', hm, hn⟩
    obtain ⟨rfl, -⟩ := head_unique hl hl' e
    exact ⟨l, hm, hn⟩
  · rintro ⟨l, hm, hn⟩
    exact ⟨h, rest, l, rfl, hl, hm, hn⟩

/-- An accepted body is chunked exactly where the head has a Transfer-Encoding field. -/
theorem bodyVerdict_chunked {h : Head} {rest b : List UInt8} {vs ws : List (List UInt8)}
    {p rl bs n : Nat} {s : HeadState} {mh mb : Int} (hl : h.Lines)
    (ha : Adds h.fields { pos := p } vs ws) (hs : After { pos := p } vs ws s)
    (hacc : bodyVerdict b rl mh mb bs s = .accept n) :
    s.chunked = true ↔ HasField teName (h.bytes ++ rest) := by
  rw [hasField_iff hl ha.te]
  constructor
  · rintro hc rfl
    rw [hs.chunked] at hc
    obtain ⟨cs, c, e, -⟩ := hc
    simp at e
  · intro hw
    by_contra hc
    rw [bodyVerdict, if_pos (by simp [hs.teSeen.mpr hw, Bool.eq_false_iff.mpr hc])] at hacc
    cases hacc

/-- **Bytes behind an accepted message.**  It stays accepted unless it is chunked, there is a limit
on the body, and all the bytes behind its head, those of later requests included, pass it. -/
theorem frame_append_iff (m ext : List UInt8) (mh mb : Int)
    (hacc : frameRequestLengthLimIdx m mh mb = m.length) :
    frameRequestLengthLimIdx (m ++ ext) mh mb = m.length ↔
      mb ≤ 0 ∨ ¬ HasField teName m ∨
        ∃ hl, frameHeadLen m = some hl ∧ ((m ++ ext).length - hl : Int) ≤ mb := by
  rw [frameIdx_nat] at hacc ⊢
  obtain ⟨rl, s, hh, hext⟩ := frameRequest_accept_append hacc
  rw [frameRequest_eq, hh, Verdict.bind_accept] at hacc
  obtain ⟨h, rest, vs, ws, rfl, hl, rfl, hpos, ha, hs, -⟩ := headOf_read hh
  rw [hext, ← bodyVerdict_chunked hl ha hs hacc, hpos]
  have hlen : (∃ k, frameHeadLen (h.bytes ++ rest) = some k ∧
      ((h.bytes ++ rest ++ ext).length - k : Int) ≤ mb) ↔
      ((h.bytes ++ rest ++ ext).length - h.bytes.length : Int) ≤ mb := by
    rw [frameHeadLen_head hl]
    constructor
    · rintro ⟨k, e, hle⟩
      obtain rfl := Option.some.inj e
      exact hle
    · exact fun hle => ⟨_, rfl, hle⟩
  rw [hlen]
  split
  · rename_i hc
    refine ⟨fun e => (by cases e), ?_⟩
    rintro (h0 | h0 | h0)
    · omega
    · exact absurd hc.1 h0
    · omega
  · rename_i hc
    refine ⟨fun _ => ?_, fun _ => rfl⟩
    by_cases h0 : mb ≤ 0
    · exact .inl h0
    · by_cases h1 : s.chunked = true
      · refine .inr (.inr ?_)
        by_contra h2
        exact hc ⟨h1, by omega, by omega⟩
      · exact .inr (.inl h1)

/-- A chunked request that is accepted alone, within its limit of five bytes of body, and refused
with 413 when one byte of the next request is behind it. -/
theorem chunked_refused_for_next_request :
    frameRequestLengthLimIdx
        (ascii "POST / HTTP/1.1\r\nTransfer-Encoding: chunked\r\n\r\n0\r\n\r\n") 0 5 = 52 ∧
      (ascii "POST / HTTP/1.1\r\nTransfer-Encoding: chunked\r\n\r\n0\r\n\r\n").length = 52 ∧
      frameRequestLengthLimIdx
        (ascii "POST / HTTP/1.1\r\nTransfer-Encoding: chunked\r\n\r\n0\r\n\r\n" ++ ascii "G") 0 5 =
          -413 := by
  decide +kernel

/-- The same request without a limit on its body. -/
theorem frame_append_iff_unlimited :
    frameRequestLengthLimIdx
      (ascii "POST / HTTP/1.1\r\nTransfer-Encoding: chunked\r\n\r\n0\r\n\r\n" ++ ascii "G") 0 0 =
        52 :=
  (frame_append_iff
    (ascii "POST / HTTP/1.1\r\nTransfer-Encoding: chunked\r\n\r\n0\r\n\r\n") (ascii "G")
    0 0 (by decide +kernel)).mpr (.inl (by decide))

end Vanilla.RequestParser

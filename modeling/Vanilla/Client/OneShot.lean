import Vanilla.Client.Resume

/-!
# Client — the framer and the one-shot parser

`frame_response` frames the response at the front of a buffer in one go.  `Framer.feed` skips the
interim responses before the final one, and gets to its answer stage by stage.

`Framer.verdict` says what each stage of the framer has left to read, in the words of the one-shot
functions: the meaning of a state.  A pass keeps it (`feedStep_verdict`), so a feed answers it
(`feed_verdict`).

* `frameResponse_eq`, `headLen_eq`: the one-shot functions, line by line.
* `finalAt_line`: the final response behind a status line, interim or not.
* `feed_refines_frame_response`: on a fresh framer, `feed` answers what `frame_response` does on
  the final response.
-/

namespace Vanilla.Client
open Scan Vanilla.Chunk

/-! ### A response further on in its buffer -/

section Shift

variable (buf : List UInt8) (k : Nat)

theorem chunkSizeLine_drop (pos : Nat) :
    chunkSizeLine buf (k + pos) =
      (chunkSizeLine (buf.drop k) pos).map fun p => (k + p.1, p.2) := by
  unfold chunkSizeLine
  rw [sizeLine_drop _ buf, sizeLine_drop _ (buf.drop k), List.drop_drop]
  cases sizeLine sizeBound (buf.drop (k + pos)) 0 with
  | more => rfl
  | refuse e => rfl
  | accept p => simp only [Verdict.map_accept, Verdict.mapErr_accept, Nat.add_assoc]

theorem trailerLine_drop (pos : Nat) :
    trailerLine buf (k + pos) = (trailerLine (buf.drop k) pos).map fun p => (k + p.1, p.2) := by
  rw [trailerLine_eq, trailerLine_eq, List.drop_drop]
  cases cutLine cr lf (buf.drop (k + pos)) with
  | more => rfl
  | bare => rfl
  | line l =>
      cases l with
      | nil => rfl
      | cons c l => simp only; split <;> simp [Nat.add_assoc]

theorem frameTrailerSection_drop (pos : Nat) :
    frameTrailerSection buf (k + pos) = (frameTrailerSection (buf.drop k) pos).map (k + ·) := by
  refine loop_sim trailerStep_descends trailerStep_descends (R := fun p q => p = k + q)
    (Q := fun a b => a = b.map (k + ·)) (fun p q _ _ e => .inr ?_) trivial trivial rfl
  subst e
  unfold trailerStep
  rw [trailerLine_drop]
  cases trailerLine (buf.drop k) q with
  | more => exact .exit rfl
  | refuse e => exact .exit rfl
  | accept p =>
      obtain ⟨next, last⟩ := p
      exact .ite (fun _ => .exit rfl) fun _ => .next rfl

theorem frameChunkedBody_drop (pos : Nat) :
    frameChunkedBody buf (k + pos) = (frameChunkedBody (buf.drop k) pos).map (k + ·) := by
  refine loop_sim chunkedStep_descends chunkedStep_descends (R := fun p q => p = k + q)
    (Q := fun a b => a = b.map (k + ·)) (fun p q _ _ e => .inr ?_) trivial trivial rfl
  subst e
  unfold chunkedStep
  rw [chunkSizeLine_drop]
  cases chunkSizeLine (buf.drop k) q with
  | more => exact .exit rfl
  | refuse e => exact .exit rfl
  | accept p =>
      obtain ⟨data, size⟩ := p
      have hlen : (buf.drop k).length ≤ data + size + 1 ↔ buf.length ≤ k + data + size + 1 := by
        rw [List.length_drop]; omega
      simp only [Verdict.map_accept, hlen, List.getElem?_drop, ← Nat.add_assoc]
      exact .ite (fun _ => .exit (frameTrailerSection_drop buf k data)) fun _ =>
        .ite (fun _ => .exit rfl) fun _ => .ite (fun _ => .exit rfl) fun _ => .next (by omega)

theorem responseBody_drop (hk : k ≤ buf.length) (bodyless : Bool) (hl : Nat) (s : RespState) :
    responseBody buf bodyless (k + hl) s =
      (responseBody (buf.drop k) bodyless hl s).map (k + ·) := by
  unfold responseBody
  split
  · rfl
  split
  · exact frameChunkedBody_drop buf k hl
  cases s.contentLength with
  | none => rfl
  | some n =>
      have hlen : (buf.drop k).length < hl + n ↔ buf.length < k + hl + n := by
        rw [List.length_drop]; omega
      simp only [hlen]
      split
      · rfl
      · simp [Nat.add_assoc]

end Shift

/-! ### The one-shot functions, line by line -/

section OneShot

variable {buf l : List UInt8}

/-- A field line, as `frame_response` folds it into what it knows. -/
def responseFold (bodyless : Bool) (s : RespState) (l : List UInt8) : Except ClientErr RespState :=
  if bodyless then .ok s
  else
    match responseOf l s with
    | none => .error .malformed
    | some s => .ok s

/-- The field lines from `pos` on, and the blank line: what they say, and where the body starts. -/
def fieldsAt (bodyless : Bool) (s : RespState) (buf : List UInt8) (pos : Nat) :
    Verdict ClientErr (RespState × Nat) :=
  (walkLines cr lf .malformed (responseFold bodyless) s (buf.drop pos)).map fun p =>
    (p.1, pos + p.2)

section Fields

variable {bodyless : Bool} {s : RespState} {pos : Nat}

theorem fieldsAt_more (h : cutLine cr lf (buf.drop pos) = .more) :
    fieldsAt bodyless s buf pos = .more := by
  rw [fieldsAt, walkLines_more h]; rfl

theorem fieldsAt_bare (h : cutLine cr lf (buf.drop pos) = .bare) :
    fieldsAt bodyless s buf pos = .refuse .malformed := by
  rw [fieldsAt, walkLines_bare h]; rfl

theorem fieldsAt_empty (h : cutLine cr lf (buf.drop pos) = .line []) :
    fieldsAt bodyless s buf pos = .accept (s, pos + 2) := by
  rw [fieldsAt, walkLines_empty h]; rfl

theorem fieldsAt_line (h : cutLine cr lf (buf.drop pos) = .line l) (hl : l ≠ []) :
    fieldsAt bodyless s buf pos =
      match responseFold bodyless s l with
      | .error e => .refuse e
      | .ok s => fieldsAt bodyless s buf (pos + (l.length + 2)) := by
  rw [fieldsAt, walkLines_line h hl]
  cases responseFold bodyless s l with
  | error e => rfl
  | ok s =>
      simp only [fieldsAt, List.drop_drop]
      cases walkLines cr lf .malformed (responseFold bodyless) s
        (buf.drop (pos + (l.length + 2))) with
      | more => rfl
      | refuse e => rfl
      | accept p => simp only [Verdict.map_accept]; congr 2; omega

theorem fieldsAt_drop (bodyless : Bool) (s : RespState) (buf : List UInt8) (k pos : Nat) :
    fieldsAt bodyless s buf (k + pos) =
      (fieldsAt bodyless s (buf.drop k) pos).map fun p => (p.1, k + p.2) := by
  unfold fieldsAt
  rw [List.drop_drop]
  cases walkLines cr lf .malformed (responseFold bodyless) s (buf.drop (k + pos)) with
  | more => rfl
  | refuse e => rfl
  | accept p => simp only [Verdict.map_accept, Nat.add_assoc]

end Fields

/-- Bodyless by status. -/
def bodylessStatus (st : Int) : Bool := st < 200 || st = 204 || st = 304

/-- A line ends in an LF, inside the buffer. -/
theorem cutLine_end {pos : Nat} (h : cutLine cr lf (buf.drop pos) = .line l) :
    buf[pos + (l.length + 2) - 1]? = some lf ∧ pos + (l.length + 2) ≤ buf.length := by
  have hlen := cutLine_line_length h
  rw [List.length_drop] at hlen
  obtain ⟨-, rest, hrest⟩ := (cutLine_line_iff cr_ne_lf).mp h
  refine ⟨?_, by omega⟩
  rw [show pos + (l.length + 2) - 1 = pos + (l.length + 1) by omega, ← List.getElem?_drop, hrest,
    List.getElem?_append_right (by omega), Nat.add_sub_cancel_left]
  rfl

theorem responseStep_next {bodyless : Bool} {s s' : RespState} {pos pos' : Nat}
    (hpos : buf[pos - 1]? = some lf)
    (h : responseStep buf bodyless (pos, s) = .next (pos', s')) :
    ∃ l, cutLine cr lf (buf.drop pos) = .line l ∧ l ≠ [] ∧ responseFold bodyless s l = .ok s' ∧
      pos' = pos + (l.length + 2) := by
  rw [responseStep_eq hpos] at h
  split at h
  · cases h
  · cases h
  · cases h
  · rename_i c l hl
    refine ⟨c :: l, hl, by simp, ?_⟩
    unfold responseFold
    split at h
    · rename_i hb
      cases h
      exact ⟨by rw [if_pos hb], rfl⟩
    · rename_i hb
      rw [if_neg hb]
      cases hr : responseOf (c :: l) s with
      | none =>
          rw [hr] at h
          cases h
      | some s₁ =>
          rw [hr] at h
          cases h
          exact ⟨rfl, rfl⟩

theorem responseStep_descends (bodyless : Bool) :
    Descends (responseStep buf bodyless) (fun s => buf.length - s.1)
      fun s => buf[s.1 - 1]? = some lf := by
  rintro ⟨pos, s⟩ ⟨pos', s'⟩ hpos h
  obtain ⟨l, hl, -, -, rfl⟩ := responseStep_next hpos h
  obtain ⟨hlf, hlen⟩ := cutLine_end hl
  exact ⟨hlf, by simp only; omega⟩

theorem responseLoop_eq (bodyless : Bool) (s : RespState) {pos : Nat}
    (hpos : buf[pos - 1]? = some lf) :
    loop (responseStep buf bodyless) (fun s => buf.length - s.1) .more (pos, s) =
      (fieldsAt bodyless s buf pos).bind fun p => responseBody buf bodyless p.2 p.1 := by
  refine loop_rule (responseStep_descends bodyless) (P := fun s a => a =
    (fieldsAt bodyless s.2 buf s.1).bind fun p => responseBody buf bodyless p.2 p.1) ?_ ?_ hpos
  · rintro ⟨pos, s⟩ a hpos h
    rw [responseStep_eq hpos] at h
    split at h
    · rename_i e; cases h; rw [fieldsAt_more e]; rfl
    · rename_i e; cases h; rw [fieldsAt_bare e]; rfl
    · rename_i e; cases h; rw [fieldsAt_empty e]; rfl
    · rename_i c l e
      split at h
      · cases h
      · rename_i hb
        split at h
        · rename_i hs
          cases h
          rw [fieldsAt_line e (by simp)]
          simp only [responseFold, if_neg hb, hs, Verdict.bind_refuse]
        · cases h
  · rintro ⟨pos, s⟩ ⟨pos', s'⟩ a hpos h ih
    obtain ⟨l, hl, hnil, hf, rfl⟩ := responseStep_next hpos h
    rw [ih, fieldsAt_line hl hnil, hf]

theorem frameResponse_more (h : cutLine cr lf buf = .more) : frameResponse buf = .more := by
  have hat := lfAt buf 0
  rw [List.drop_zero, h] at hat
  cases hat with
  | more hl => simp only [frameResponse, hl]

theorem frameResponse_bare (h : cutLine cr lf buf = .bare) :
    frameResponse buf = .refuse .malformed := by
  have hat := lfAt buf 0
  rw [List.drop_zero, h] at hat
  cases hat with
  | bare hl hb =>
      rw [Nat.zero_add] at hl hb
      simp only [frameResponse, hl]
      exact if_pos hb

/-- **`frame_response`, line by line**, behind a status line. -/
theorem frameResponse_line (h : cutLine cr lf buf = .line l) :
    frameResponse buf =
      if statusAt (l ++ crlf) 0 < 100 then .refuse .malformed
      else
        (fieldsAt (bodylessStatus (statusAt (l ++ crlf) 0)) {} buf (l.length + 2)).bind fun p =>
          responseBody buf (bodylessStatus (statusAt (l ++ crlf) 0)) p.2 p.1 := by
  have hat := lfAt buf 0
  have hend := @cutLine_end buf l 0 h
  rw [Nat.zero_add] at hend
  rw [List.drop_zero, h] at hat
  obtain ⟨-, rest, hrest⟩ := (cutLine_line_iff cr_ne_lf).mp h
  have hst : statusCode buf = statusAt (l ++ crlf) 0 := statusAt_line (p := 0) hrest
  cases hat with
  | line hl hc ht =>
      rw [Nat.zero_add] at hl hc
      simp only [frameResponse, hl, Nat.add_sub_cancel, hc, ne_eq, not_true_eq_false, or_false,
        Nat.succ_ne_zero, if_false, hst]
      split
      · rfl
      · exact responseLoop_eq _ {} hend.1

/-! ### `head_len` -/

theorem headLenStep_eq {pos : Nat} (hpos : pos = 0 ∨ buf[pos - 1]? = some lf) :
    headLenStep buf pos =
      match cutLine cr lf (buf.drop pos) with
      | .more => .exit .more
      | .bare => .exit (.refuse .malformed)
      | .line l => if l = [] ∧ 0 < pos then .exit (.accept (pos + 2))
        else .next (pos + (l.length + 2)) := by
  unfold headLenStep
  have hat := lfAt buf pos
  generalize cutLine cr lf (buf.drop pos) = cut at hat
  cases hat with
  | more hl => rw [hl]
  | bare hl hb =>
      rw [hl]
      simp only
      rw [if_pos]
      rcases hb with rfl | hb
      · rcases hpos with rfl | hpos
        · exact .inl rfl
        · exact .inr (by rw [Nat.add_zero, hpos]; decide)
      · exact .inr hb
  | @line l hl hc ht =>
      have e₁ : pos + (l.length + 1) - 1 = pos + l.length := by omega
      have e₂ : pos + (l.length + 1) + 1 = pos + (l.length + 2) := by omega
      rw [hl]
      simp only [e₁, e₂]
      rw [if_neg (by simp [hc])]
      cases l with
      | nil => simp
      | cons c l => rw [if_neg (by simp), if_neg (by simp)]

theorem headLenStep_descends :
    Descends (headLenStep buf) (fun pos => buf.length - pos)
      fun pos => pos = 0 ∨ buf[pos - 1]? = some lf := by
  intro pos pos' hpos h
  rw [headLenStep_eq hpos] at h
  split at h
  · cases h
  · cases h
  · rename_i l hl
    split at h
    · cases h
    · cases h
      obtain ⟨hlf, hlen⟩ := cutLine_end hl
      exact ⟨.inr hlf, by simp only; omega⟩

theorem headLenLoop_eq {pos : Nat} (h0 : 0 < pos) (hpos : buf[pos - 1]? = some lf) :
    loop (headLenStep buf) (fun pos => buf.length - pos) .more pos =
      (fieldsAt true {} buf pos).map Prod.snd := by
  refine loop_rule headLenStep_descends (P := fun pos a => 0 < pos → a =
    (fieldsAt true {} buf pos).map Prod.snd) ?_ ?_ (.inr hpos) h0
  · intro pos a hpos h h0
    rw [headLenStep_eq hpos] at h
    split at h
    · rename_i e; cases h; rw [fieldsAt_more e]; rfl
    · rename_i e; cases h; rw [fieldsAt_bare e]; rfl
    · rename_i l e
      split at h
      · rename_i hl
        obtain ⟨rfl, -⟩ := hl
        cases h
        rw [fieldsAt_empty e]; rfl
      · cases h
  · intro pos pos' a hpos h ih h0
    rw [headLenStep_eq hpos] at h
    split at h
    · cases h
    · cases h
    · rename_i l e
      split at h
      · cases h
      · rename_i hl
        cases h
        rw [ih (by omega), fieldsAt_line e fun hnil => hl ⟨hnil, h0⟩]
        rfl

/-- **`head_len`, line by line.** -/
theorem headLen_eq (buf : List UInt8) :
    headLen buf =
      match cutLine cr lf buf with
      | .more => .more
      | .bare => .refuse .malformed
      | .line l => (fieldsAt true {} buf (l.length + 2)).map Prod.snd := by
  have hstep := @headLenStep_eq buf 0 (.inl rfl)
  rw [List.drop_zero] at hstep
  cases h : cutLine cr lf buf with
  | more => rw [h] at hstep; exact loop_exit hstep
  | bare => rw [h] at hstep; exact loop_exit hstep
  | line l =>
      simp only [h, Nat.lt_irrefl, and_false, if_false, Nat.zero_add] at hstep
      obtain ⟨hlf, -⟩ := @cutLine_end buf l 0 h
      rw [Nat.zero_add] at hlf
      exact (loop_next headLenStep_descends (.inl rfl) hstep).trans
        (headLenLoop_eq (by omega) hlf)

end OneShot

/-! ### Interim responses -/

section Interim

variable {buf l : List UInt8} {k : Nat}

/-- 1xx, other than 101. -/
def Interim (st : Int) : Prop := 100 ≤ st ∧ st < 200 ∧ st ≠ 101

instance (st : Int) : Decidable (Interim st) := inferInstanceAs (Decidable (_ ∧ _ ∧ _))

theorem fieldsAt_bounds {bodyless : Bool} {s s' : RespState} {pos n : Nat}
    (h : fieldsAt bodyless s buf pos = .accept (s', n)) : pos < n ∧ n ≤ buf.length := by
  obtain ⟨⟨s'', m⟩, hw, e⟩ := Verdict.map_eq_accept.mp h
  cases e
  obtain ⟨ls, rest, hb, -, -, rfl⟩ := walkLines_accept cr_ne_lf hw
  have := congrArg List.length hb
  rw [List.length_drop, List.length_append, List.length_cons, List.length_cons] at this
  omega

theorem headLen_bounds {n : Nat} (h : headLen buf = .accept n) : 0 < n ∧ n ≤ buf.length := by
  rw [headLen_eq] at h
  split at h
  · cases h
  · cases h
  · obtain ⟨⟨s, m⟩, hw, rfl⟩ := Verdict.map_eq_accept.mp h
    have := fieldsAt_bounds hw
    exact ⟨by simp only; omega, this.2⟩

/-- Where the final response starts: behind the interim responses whose heads have arrived, each
skipped as a whole. -/
def skipInterim (r : List UInt8) : Nat :=
  if Interim (statusCode r) then
    match _h : headLen r with
    | .accept n => n + skipInterim (r.drop n)
    | _ => 0
  else 0
  termination_by r.length
  decreasing_by
    have := headLen_bounds _h
    rw [List.length_drop]
    omega

/-- `frame_response` on the response that starts at `k`, in offsets of the buffer. -/
def responseAt (buf : List UInt8) (k : Nat) : Verdict ClientErr Nat :=
  (frameResponse (buf.drop k)).map (k + ·)

/-- `frame_response` on the final response, the first one starting at `k`. -/
def finalAt (buf : List UInt8) (k : Nat) : Verdict ClientErr Nat :=
  responseAt buf (k + skipInterim (buf.drop k))

theorem finalAt_interim {n : Nat} (h : Interim (statusCode (buf.drop k)))
    (hn : headLen (buf.drop k) = .accept n) : finalAt buf k = finalAt buf (k + n) := by
  have e : skipInterim (buf.drop k) = n + skipInterim (buf.drop (k + n)) := by
    rw [skipInterim, if_pos h]
    split
    · rename_i m hm
      cases hn.symm.trans hm
      rw [List.drop_drop]
    · rename_i hm; exact absurd hn (hm n)
  rw [finalAt, finalAt, e, Nat.add_assoc]

theorem finalAt_final
    (h : ∀ n, Interim (statusCode (buf.drop k)) → headLen (buf.drop k) ≠ .accept n) :
    finalAt buf k = responseAt buf k := by
  have e : skipInterim (buf.drop k) = 0 := by
    rw [skipInterim]
    split
    · rename_i hi
      split
      · rename_i n hn; exact absurd hn (h n hi)
      · rfl
    · rfl
  rw [finalAt, e, Nat.add_zero]

theorem finalAt_more (h : cutLine cr lf (buf.drop k) = .more) : finalAt buf k = .more := by
  have hn : headLen (buf.drop k) = .more := by rw [headLen_eq, h]
  rw [finalAt_final (by simp [hn]), responseAt, frameResponse_more h]
  rfl

theorem finalAt_bare (h : cutLine cr lf (buf.drop k) = .bare) :
    finalAt buf k = .refuse .malformed := by
  have hn : headLen (buf.drop k) = .refuse .malformed := by rw [headLen_eq, h]
  rw [finalAt_final (by simp [hn]), responseAt, frameResponse_bare h]
  rfl

/-- What comes behind a head that ends at `n`. -/
def behindHead (buf : List UInt8) (st : Int) (n : Nat) (s : RespState) : Verdict ClientErr Nat :=
  if Interim st then finalAt buf n else responseBody buf (bodylessStatus st) n s

/-- **The final response, from a status line on.** -/
theorem finalAt_line (h : cutLine cr lf (buf.drop k) = .line l) :
    finalAt buf k =
      if statusAt (l ++ crlf) 0 < 100 then .refuse .malformed
      else
        (fieldsAt (bodylessStatus (statusAt (l ++ crlf) 0)) {} buf (k + (l.length + 2))).bind
          fun p => behindHead buf (statusAt (l ++ crlf) 0) p.2 p.1 := by
  obtain ⟨-, rest, hrest⟩ := (cutLine_line_iff cr_ne_lf).mp h
  have hst : statusCode (buf.drop k) = statusAt (l ++ crlf) 0 := statusAt_line (p := 0) hrest
  have hk : k ≤ buf.length := by
    have := (cutLine_end h).2
    omega
  by_cases hi : Interim (statusAt (l ++ crlf) 0)
  · -- interim: bodyless, and its head is all of it
    have hbl : bodylessStatus (statusAt (l ++ crlf) 0) = true := by
      simp [bodylessStatus, hi.2.1]
    have hn : headLen (buf.drop k) =
        (fieldsAt true {} (buf.drop k) (l.length + 2)).map Prod.snd := by rw [headLen_eq, h]
    rw [if_neg (Int.not_lt.mpr hi.1), hbl, fieldsAt_drop true {} buf k]
    cases hw : fieldsAt true {} (buf.drop k) (l.length + 2) with
    | more =>
        rw [finalAt_final (by simp [hn, hw]), responseAt, frameResponse_line h,
          if_neg (Int.not_lt.mpr hi.1), hbl, hw]
        rfl
    | refuse e =>
        rw [finalAt_final (by simp [hn, hw]), responseAt, frameResponse_line h,
          if_neg (Int.not_lt.mpr hi.1), hbl, hw]
        rfl
    | accept p =>
        rw [hw] at hn
        rw [finalAt_interim (by rw [hst]; exact hi) hn]
        simp only [Verdict.map_accept, Verdict.bind_accept, behindHead, if_pos hi]
  · rw [finalAt_final fun n hi' _ => hi (by rwa [hst] at hi'), responseAt, frameResponse_line h]
    split
    · rfl
    · rw [fieldsAt_drop _ _ buf k]
      cases fieldsAt (bodylessStatus (statusAt (l ++ crlf) 0)) {} (buf.drop k) (l.length + 2) with
      | more => rfl
      | refuse e => rfl
      | accept p =>
          simp only [Verdict.map_accept, Verdict.bind_accept, behindHead, if_neg hi]
          exact (responseBody_drop buf k hk _ _ _).symm

end Interim

/-! ### What a framer has left to read -/

namespace Framer

/-- What the field lines so far have said. -/
def fields (f : Framer) : RespState := ⟨f.contentLength, f.te⟩

/-- A chunk's data up to `need`, its CRLF, and the chunks behind it. -/
def dataVerdict (buf : List UInt8) (need : Nat) : Verdict ClientErr Nat :=
  if buf.length ≤ need + 1 then .more
  else if buf[need]? ≠ some cr ∨ buf[need + 1]? ≠ some lf then .refuse .malformed
  else frameChunkedBody buf (need + 2)

theorem frameChunkedBody_chunk {buf : List UInt8} {pos data size : Nat}
    (hs : chunkSizeLine buf pos = .accept (data, size)) (h0 : size ≠ 0) :
    frameChunkedBody buf pos = dataVerdict buf (data + size) := by
  unfold dataVerdict
  split
  · rename_i hlen
    exact loop_exit (by simp only [chunkedStep, hs, if_neg h0, if_pos hlen])
  rename_i hlen
  split
  · rename_i hc
    exact loop_exit (by simp only [chunkedStep, hs, if_neg h0, if_neg hlen, if_pos hc])
  · rename_i hc
    exact loop_next chunkedStep_descends trivial
      (by simp only [chunkedStep, hs, if_neg h0, if_neg hlen, if_neg hc])

/-- The meaning of a framer: the one-shot verdict on what it has left to read. -/
def verdict (buf : List UInt8) (f : Framer) : Verdict ClientErr Nat :=
  match f.stage with
  | .head =>
    if f.pos = f.start then finalAt buf f.start
    else
      (fieldsAt f.bodyless f.fields buf f.pos).bind fun p => behindHead buf f.status p.2 p.1
  | .bodyLen => if buf.length < f.need then .more else .accept f.need
  | .chunkSize => frameChunkedBody buf f.pos
  | .chunkData => dataVerdict buf f.need
  | .trailers => frameTrailerSection buf f.pos
  | .untilClose => .refuse .untilClose
  | .done => .accept f.endAt.toNat
  | .failed => .refuse .malformed

/-- What `feed` makes of a verdict: where the buffer ends too soon the flag decides, and a body
delimited by the close of the connection ends where the buffer does. -/
def answerFor (buf : List UInt8) (eof : Bool) : Verdict ClientErr Nat → Int
  | .more => if eof then ClientErr.truncated.code else incomplete
  | .refuse .untilClose => if eof then buf.length else incomplete
  | .refuse e => e.code
  | .accept n => n

/-- What holds of a framer in a head, for a request other than HEAD. -/
structure HeadFacts (f : Framer) : Prop where
  request : f.headRequest = false
  le : f.start ≤ f.pos
  fresh : f.pos = f.start → f.fields = {}
  read : f.pos ≠ f.start → f.bodyless = bodylessStatus f.status ∧ 100 ≤ f.status

/-- What holds of a framer that has not failed. -/
def Reads (f : Framer) : Prop :=
  match f.stage with
  | .head => f.HeadFacts
  | .done => 0 ≤ f.endAt
  | .failed => False
  | _ => True

/-- A pass keeps the meaning, or answers it. -/
def Keeps (buf : List UInt8) (eof : Bool) (f : Framer) : Turn Framer (Framer × Int) → Prop
  | .next g => g.Reads ∧ answerFor buf eof (g.verdict buf) = answerFor buf eof (f.verdict buf)
  | .exit p => p.2 = answerFor buf eof (f.verdict buf)

section Step

variable {buf l : List UInt8} {eof : Bool} {f g : Framer}

theorem reads_head (h : f.stage = .head) : f.Reads ↔ f.HeadFacts := by
  simp only [Reads, h]

theorem verdict_start (h : f.stage = .head) (hp : f.pos = f.start) :
    f.verdict buf = finalAt buf f.start := by
  simp only [verdict, h, if_pos hp]

theorem verdict_fields (h : f.stage = .head) (hp : f.pos ≠ f.start) :
    f.verdict buf =
      (fieldsAt f.bodyless f.fields buf f.pos).bind fun p => behindHead buf f.status p.2 p.1 := by
  simp only [verdict, h, if_neg hp]

/-- A field line says the same to both parsers. -/
theorem fieldOf_none (h : f.fieldOf l = none) :
    responseFold f.bodyless f.fields l = .error .malformed := by
  rw [fieldOf, Option.map_eq_none_iff] at h
  unfold fieldLine at h
  unfold responseFold responseOf responseField fields
  simp only at h ⊢
  split at h
  · cases h
  rename_i hb
  rw [if_neg hb]
  split at h
  · split at h
    · rfl
    · split at h
      · rename_i hc; simp only [if_pos hc]
      · cases h
  · split at h
    · split at h
      · rename_i hc; simp only [if_pos hc]
      · cases h
    · cases h

theorem connectionField_facts (f : Framer) (buf : List UInt8) (n : Nat) :
    (f.connectionField buf n).fields = f.fields ∧
      (f.connectionField buf n).bodyless = f.bodyless ∧
      (f.connectionField buf n).status = f.status ∧ (f.connectionField buf n).start = f.start ∧
      (f.connectionField buf n).headRequest = f.headRequest := by
  unfold connectionField
  split <;> exact ⟨rfl, rfl, rfl, rfl, rfl⟩

theorem fieldOf_some (h : f.fieldOf l = some g) :
    responseFold f.bodyless f.fields l = .ok g.fields ∧ g.bodyless = f.bodyless ∧
      g.status = f.status ∧ g.start = f.start ∧ g.headRequest = f.headRequest := by
  obtain ⟨g, hg, rfl⟩ := Option.map_eq_some_iff.mp h
  unfold fieldLine at hg
  unfold responseFold responseOf responseField
  simp only at hg ⊢
  split at hg
  · rename_i hb
    cases hg
    obtain ⟨hf, hfacts⟩ := connectionField_facts { f with pos := 0 } l l.length
    refine ⟨?_, hfacts⟩
    rw [if_pos hb]
    exact congrArg Except.ok hf.symm
  rename_i hb
  rw [if_neg hb]
  split at hg
  · split at hg
    · cases hg
    · split at hg
      · cases hg
      · rename_i n hn hc
        cases hg
        refine ⟨?_, rfl, rfl, rfl, rfl⟩
        have hc : ¬ (f.fields.contentLength.isSome = true ∧ f.fields.contentLength ≠ some n) := hc
        rw [if_neg hc]
        rfl
  · split at hg
    · split at hg
      · cases hg
      · rename_i hc
        cases hg
        refine ⟨?_, rfl, rfl, rfl, rfl⟩
        simp only [fields, if_neg hc]
    · cases hg
      obtain ⟨hf, hfacts⟩ := connectionField_facts { f with pos := 0 } l l.length
      exact ⟨congrArg Except.ok hf.symm, hfacts⟩

theorem statusOf_facts (f : Framer) (l : List UInt8) (h : ¬ statusAt (l ++ crlf) 0 < 0) :
    (f.statusOf l).status = statusAt (l ++ crlf) 0 ∧
      (f.statusOf l).bodyless = (f.headRequest || bodylessStatus (statusAt (l ++ crlf) 0)) ∧
      (f.statusOf l).fields = f.fields ∧ (f.statusOf l).headRequest = f.headRequest := by
  unfold statusOf statusLine
  simp only [if_neg h, bodylessStatus, Bool.or_assoc]
  exact ⟨trivial, trivial, rfl, trivial⟩

theorem statusOf_status (f : Framer) (l : List UInt8) :
    (f.statusOf l).status = statusAt (l ++ crlf) 0 := by
  unfold statusOf statusLine
  simp only
  split <;> rfl

theorem statusOf_start (f : Framer) (l : List UInt8) : (f.statusOf l).start = f.start := rfl

/-- Behind the head of the final response, the framer has its body left. -/
theorem headFinal_keeps (buf : List UInt8) (f : Framer) (n : Nat) :
    (f.headFinal n).Reads ∧
      (f.headFinal n).verdict buf = responseBody buf f.bodyless n f.fields := by
  unfold headFinal responseBody fields
  simp only
  split
  · refine ⟨?_, ?_⟩ <;> simp [Reads, verdict]
  split
  · refine ⟨?_, ?_⟩ <;> simp [Reads, verdict]
  · cases f.contentLength with
    | none => refine ⟨?_, ?_⟩ <;> simp [Reads, verdict]
    | some m => refine ⟨?_, ?_⟩ <;> simp [Reads, verdict]

theorem headDone_keeps (buf : List UInt8) (hst : f.stage = .head) (h : f.HeadFacts)
    (hp : f.pos ≠ f.start) (n : Nat) :
    (f.headDone n).Reads ∧ (f.headDone n).verdict buf = behindHead buf f.status n f.fields := by
  obtain ⟨hbl, h100⟩ := h.read hp
  unfold headDone behindHead
  by_cases hi : f.status < 200 ∧ f.status ≠ 101
  · rw [if_pos hi, if_pos ⟨h100, hi⟩]
    refine ⟨(reads_head ?_).mpr ?_, verdict_start ?_ rfl⟩
    · exact hst
    · exact ⟨h.request, Nat.le_refl _, fun _ => rfl, fun h => absurd rfl h⟩
    · exact hst
  · rw [if_neg hi, if_neg fun h => hi h.2, ← hbl]
    exact headFinal_keeps buf f n

/-- Behind a line that is not the blank line, the framer has the rest of the head left. -/
theorem advance_keeps (buf : List UInt8) (hst : g.stage = .head) (hr : g.headRequest = false)
    (hle : g.start ≤ g.pos) (hbl : g.bodyless = bodylessStatus g.status) (h100 : 100 ≤ g.status)
    {n : Nat} (hn : n ≠ 0) :
    (g.advance n).Reads ∧ (g.advance n).verdict buf =
      (fieldsAt (bodylessStatus g.status) g.fields buf (g.pos + n)).bind fun p =>
        behindHead buf g.status p.2 p.1 := by
  have hne : (g.advance n).pos ≠ (g.advance n).start := by
    simp only [advance]; omega
  refine ⟨(reads_head ?_).mpr ⟨hr, ?_, fun e => absurd e hne, fun _ => ⟨hbl, h100⟩⟩, ?_⟩
  · exact hst
  · simp only [advance]; omega
  · rw [verdict_fields (f := g.advance n) hst hne, ← hbl]
    rfl

/-- A line of the head keeps the meaning. -/
theorem lineStep_keeps (hst : f.stage = .head) (h : f.HeadFacts)
    (hcut : cutLine cr lf (buf.drop f.pos) = .line l) : Keeps buf eof f (f.lineStep l) := by
  unfold lineStep
  by_cases hp : f.pos = f.start
  · -- the status line
    have hv : f.verdict buf = _ := verdict_start hst hp
    rw [finalAt_line (by rwa [← hp])] at hv
    simp only [if_pos hp, statusOf_status]
    by_cases h100 : statusAt (l ++ crlf) 0 < 100
    · rw [if_pos h100] at hv ⊢
      simp only [Keeps, hv]
      rfl
    · rw [if_neg h100] at hv ⊢
      obtain ⟨e₁, e₂, e₃, e₄⟩ := statusOf_facts f l (by omega)
      rw [h.request, Bool.false_or] at e₂
      obtain ⟨hreads, hverdict⟩ := advance_keeps buf (g := f.statusOf l) (n := l.length + 2)
        ((statusOf_stage f l).trans hst) (e₄.trans h.request)
        (by rw [statusOf_pos, statusOf_start]; exact h.le) (by rw [e₁, e₂])
        (by rw [e₁]; omega) (by omega)
      refine ⟨hreads, ?_⟩
      rw [hv, hverdict, e₁, e₃, h.fresh hp, statusOf_pos, hp]
  obtain ⟨hbl, h100⟩ := h.read hp
  have hv : f.verdict buf = _ := verdict_fields hst hp
  simp only [if_neg hp]
  by_cases hnil : l = []
  · -- the blank line
    subst hnil
    rw [fieldsAt_empty hcut] at hv
    rw [if_pos rfl]
    obtain ⟨hreads, hverdict⟩ := headDone_keeps buf hst h hp (f.pos + 2)
    exact ⟨hreads, by rw [hv, hverdict]; rfl⟩
  · rw [if_neg hnil]
    rw [fieldsAt_line hcut hnil] at hv
    cases hf : f.fieldOf l with
    | none =>
        rw [fieldOf_none hf] at hv
        simp only [Keeps, hv]
        rfl
    | some g =>
        obtain ⟨hfold, e₁, e₂, e₃, e₄⟩ := fieldOf_some hf
        rw [hfold] at hv
        obtain ⟨hreads, hverdict⟩ := advance_keeps buf (n := l.length + 2)
          ((fieldOf_stage hf).trans hst) (e₄.trans h.request)
          (by rw [e₃, fieldOf_pos hf]; exact h.le) (by rw [e₁, e₂, hbl]) (by rw [e₂]; exact h100)
          (by omega)
        refine ⟨hreads, ?_⟩
        rw [hv, hverdict, e₂, fieldOf_pos hf, hbl]

theorem verdict_more (hst : f.stage = .head) (hcut : cutLine cr lf (buf.drop f.pos) = .more) :
    f.verdict buf = .more := by
  by_cases hp : f.pos = f.start
  · rw [verdict_start hst hp, finalAt_more (by rwa [← hp])]
  · rw [verdict_fields hst hp, fieldsAt_more hcut]
    rfl

theorem verdict_bare (hst : f.stage = .head) (hcut : cutLine cr lf (buf.drop f.pos) = .bare) :
    f.verdict buf = .refuse .malformed := by
  by_cases hp : f.pos = f.start
  · rw [verdict_start hst hp, finalAt_bare (by rwa [← hp])]
  · rw [verdict_fields hst hp, fieldsAt_bare hcut]
    rfl

theorem keeps_short (g : Framer) (hv : f.verdict buf = .more) :
    Keeps buf eof f (.exit (g.short eof)) := by
  rw [Keeps, hv]
  cases eof <;> rfl

theorem keeps_fail (hv : f.verdict buf = .refuse .malformed) :
    Keeps buf eof f (.exit (f.fail ClientErr.malformed.code)) := by
  rw [Keeps, hv]
  rfl

theorem keeps_next (hg : g.Reads) (hv : g.verdict buf = f.verdict buf) :
    Keeps buf eof f (.next g) :=
  ⟨hg, by rw [hv]⟩

/-- **A pass keeps the meaning of the framer, or answers it.** -/
theorem feedStep_verdict (hp : Placed buf f) (h : f.Reads) :
    Keeps buf eof f (feedStep buf eof f) := by
  cases hst : f.stage with
  | head =>
      have hf := (reads_head hst).mp h
      rw [feedStep_head hst, headStep_eq ((placed_head hst).mp hp)]
      cases hcut : cutLine cr lf (buf.drop f.pos) with
      | more => exact keeps_short _ (verdict_more hst hcut)
      | bare => exact keeps_fail (verdict_bare hst hcut)
      | line l => exact lineStep_keeps hst hf hcut
  | bodyLen =>
      have hv : f.verdict buf = if buf.length < f.need then .more else .accept f.need := by
        simp only [verdict, hst]
      simp only [feedStep, hst]
      split
      · rename_i hlen
        exact keeps_short f (hv.trans (if_pos hlen))
      · rename_i hlen
        exact keeps_next (Int.natCast_nonneg _) (hv.trans (if_neg hlen)).symm
  | chunkSize =>
      have hv : f.verdict buf = frameChunkedBody buf f.pos := by simp only [verdict, hst]
      simp only [feedStep, hst]
      cases hs : chunkSizeLine buf f.pos with
      | more => exact keeps_short f (hv.trans (loop_exit (by simp only [chunkedStep, hs])))
      | refuse e =>
          cases chunkSizeLine_refuse hs
          exact keeps_fail (hv.trans (loop_exit (by simp only [chunkedStep, hs])))
      | accept p =>
          obtain ⟨data, size⟩ := p
          simp only
          split
          · rename_i h0
            refine keeps_next trivial (hv.trans (loop_exit ?_)).symm
            simp only [chunkedStep, hs, if_pos h0]
            rfl
          · rename_i h0
            exact keeps_next trivial (hv.trans (frameChunkedBody_chunk hs h0)).symm
  | chunkData =>
      have hv : f.verdict buf = dataVerdict buf f.need := by simp only [verdict, hst]
      unfold dataVerdict at hv
      simp only [feedStep, hst]
      split
      · rename_i hlen
        exact keeps_short f (hv.trans (if_pos hlen))
      rename_i hlen
      rw [if_neg hlen] at hv
      split
      · rename_i hc
        exact keeps_fail (hv.trans (if_pos hc))
      · rename_i hc
        exact keeps_next trivial (hv.trans (if_neg hc)).symm
  | trailers =>
      have hv : f.verdict buf = frameTrailerSection buf f.pos := by simp only [verdict, hst]
      simp only [feedStep, hst]
      cases hs : trailerLine buf f.pos with
      | more => exact keeps_short f (hv.trans (loop_exit (by simp only [trailerStep, hs])))
      | refuse e =>
          cases trailerLine_refuse hs
          exact keeps_fail (hv.trans (loop_exit (by simp only [trailerStep, hs])))
      | accept p =>
          obtain ⟨next, last⟩ := p
          simp only
          split
          · rename_i hl
            refine keeps_next (Int.natCast_nonneg _) (hv.trans (loop_exit ?_)).symm
            simp only [trailerStep, hs, if_pos hl]
            rfl
          · rename_i hl
            have hstep : trailerStep buf f.pos = .next next := by
              simp only [trailerStep, hs, if_neg hl]
            exact keeps_next trivial
              (hv.trans (loop_next trailerStep_descends trivial hstep)).symm
  | untilClose =>
      have hv : f.verdict buf = .refuse .untilClose := by simp only [verdict, hst]
      simp only [feedStep, hst]
      cases eof with
      | false => simp only [Keeps, hv]; rfl
      | true => exact ⟨Int.natCast_nonneg _, by rw [hv]; rfl⟩
  | done =>
      have hv : f.verdict buf = .accept f.endAt.toNat := by simp only [verdict, hst]
      have h0 : 0 ≤ f.endAt := by simpa only [Reads, hst] using h
      simp only [feedStep, hst, Keeps, hv, answerFor, Int.toNat_of_nonneg h0]
  | failed => simp only [Reads, hst] at h

end Step

/-! ### Runs -/

/-- **A feed answers the meaning of its framer.** -/
theorem feed_verdict {buf : List UInt8} {f : Framer} (hp : Placed buf f) (h : f.Reads)
    (eof : Bool) : (f.feed buf eof).2 = answerFor buf eof (f.verdict buf) := by
  have hk : ∀ {f o}, Placed buf f ∧ f.Reads → feedStep buf eof f = o → Keeps buf eof f o :=
    fun h e => e ▸ feedStep_verdict h.1 h.2
  have hd : Descends (feedStep buf eof) (passes buf) fun f => Placed buf f ∧ f.Reads := by
    intro f g h e
    obtain ⟨hp', hlt⟩ := feedStep_next h.1 e
    exact ⟨⟨hp', (hk h e).1⟩, hlt⟩
  exact loop_rule hd (P := fun f p => p.2 = answerFor buf eof (f.verdict buf))
    (fun f p h e => hk h e) (fun f g p h e ih => ih.trans (hk h e).2) ⟨hp, h⟩

theorem feed_fresh (r : List UInt8) (eof : Bool) :
    ((reset false).feed r eof).2 = answerFor r eof (responseAt r (skipInterim r)) := by
  have h : (reset false).Reads := ⟨rfl, Nat.le_refl 0, fun _ => rfl, fun h => absurd rfl h⟩
  have hp : Placed r (reset false) := (placed_reset false).grow r
  rw [feed_verdict hp h, verdict_start rfl rfl, show (reset false).start = 0 from rfl, finalAt,
    List.drop_zero, Nat.zero_add]

/-- The response behind the interim responses. -/
def finalResponse (r : List UInt8) : List UInt8 := r.drop (skipInterim r)

/-- **The framer refines the one-shot parser.**  With the interim responses skipped, a feed of a
fresh framer completes where `frame_response` does and is malformed where it is; it waits where
`frame_response` does, and where the body is delimited by the close of the connection, and then the
close ends it. -/
theorem feed_refines_frame_response (r : List UInt8) :
    (∀ n : Nat, ((reset false).feed r false).2 = n ↔
      ∃ m, frameResponse (finalResponse r) = .accept m ∧ n = skipInterim r + m) ∧
    (((reset false).feed r false).2 = ClientErr.malformed.code ↔
      frameResponse (finalResponse r) = .refuse .malformed) ∧
    (((reset false).feed r false).2 = incomplete ↔
      frameResponse (finalResponse r) = .more ∨
      frameResponse (finalResponse r) = .refuse .untilClose) ∧
    (frameResponse (finalResponse r) = .refuse .untilClose →
      ((reset false).feed r true).2 = r.length) := by
  rw [feed_fresh r false, feed_fresh r true]
  unfold responseAt finalResponse
  cases frameResponse (r.drop (skipInterim r)) with
  | more => refine ⟨fun n => ?_, ?_, ?_, ?_⟩ <;> simp [answerFor, incomplete, ClientErr.code]
  | refuse e =>
      cases e <;> refine ⟨fun n => ?_, ?_, ?_, ?_⟩ <;>
        simp [answerFor, incomplete, ClientErr.code]
  | accept m =>
      refine ⟨fun n => ?_, ?_, ?_, fun e => by cases e⟩ <;>
        simp [answerFor, incomplete, ClientErr.code] <;> omega

end Framer

end Vanilla.Client

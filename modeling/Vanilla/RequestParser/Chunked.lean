import Vanilla.RequestParser.Grammar

/-!
# Request parser — chunked bodies

The two loops of a chunked body, `frame_trailer_section` and `frame_chunked_total`.

* `trailerStep_eq`, `chunkedStep_eq`: what one pass of each does.
* `frameChunkedTotal_iff`: without limits, the loop accepts exactly the chunked bodies.
* `frameChunkedTotal_append`: without limits, its answers are final.
* `frameChunkedTotal_accept_append`: with limits, what it accepts it accepts with more bytes
  behind it, as long as those stay within the limit too.
-/

namespace Vanilla.RequestParser
open Scan Vanilla.Chunk

/-! ### The trailer section -/

section Trailer

variable {buf : List UInt8} {start : Nat} {mh : Int} {pos : Nat}

/-- One pass over the trailer section, where the next line has arrived. -/
theorem trailerStep_eq (hm : ¬ (0 < mh ∧ mh < (pos - start : Int)))
    (hcut : cutLine cr lf (buf.drop pos) ≠ .more) :
    trailerStep buf start mh pos =
      match cutLine cr lf (buf.drop pos) with
      | .more => .exit .more
      | .bare => .exit (.refuse (.error "trailer line not terminated by CRLF" 400))
      | .line [] => .exit (.accept (pos + 2))
      | .line (c :: l) =>
        if trailerLineOk (c :: l) then .next (pos + ((c :: l).length + 2))
        else .exit (.refuse (.error "malformed trailer field" 400)) := by
  unfold trailerStep findByteIdx
  simp only [if_neg hm]
  have hat := lineAt cr_ne_lf buf pos
  generalize cutLine cr lf (buf.drop pos) = cut at hat hcut
  cases hat with
  | past h => exact absurd rfl hcut
  | half h hc h' => exact absurd rfl hcut
  | part h h₁ h₂ hf => exact absurd rfl hcut
  | blank h hc hl =>
      simp only [if_neg (Nat.not_le.mpr (Nat.lt_of_succ_lt h)), hc, hl, true_and, if_true,
        if_neg (Nat.not_le.mpr h)]
  | bare h h₁ h₂ hf hb =>
      simp only [if_neg (Nat.not_le.mpr h), if_neg h₁, if_neg h₂, hf]
      rw [if_pos]
      rcases hb with hb | hb
      · exact .inl hb
      · exact .inr hb
  | full h h₁ h₂ hl hf hc ht =>
      rename_i l
      obtain ⟨c, l, rfl⟩ := List.exists_cons_of_ne_nil hl
      have e₁ : pos + ((c :: l).length + 1) - 1 = pos + (c :: l).length := by omega
      have e₂ : (c :: l).length + 1 - 1 = (c :: l).length := by omega
      simp only [if_neg (Nat.not_le.mpr h), if_neg h₁, if_neg h₂, hf, e₁, e₂, hc, ht, ne_eq,
        Nat.succ_ne_zero, not_true_eq_false, or_self, if_false]
      cases trailerLineOk (c :: l) <;> simp [Nat.add_assoc]

/-- Where it has not, the section needs more, or is too large already. -/
theorem trailerStep_more (hcut : cutLine cr lf (buf.drop pos) = .more) :
    ∃ a, trailerStep buf start mh pos = .exit a ∧
      (a = .more ∨ 0 < mh ∧ a = .refuse (.error "trailer section too large" 431)) := by
  unfold trailerStep findByteIdx
  have hat := lineAt cr_ne_lf buf pos
  rw [hcut] at hat
  split
  · rename_i hm
    exact ⟨_, rfl, .inr ⟨hm.1, rfl⟩⟩
  cases hat with
  | past h => exact ⟨_, by rw [if_pos h], .inl rfl⟩
  | half h hc h' =>
      exact ⟨_, by rw [if_neg (Nat.not_le.mpr h), if_pos ⟨hc, h'⟩], .inl rfl⟩
  | part h h₁ h₂ hf =>
      simp only [if_neg (Nat.not_le.mpr h), if_neg h₁, if_neg h₂, hf]
      split
      · rename_i hm
        exact ⟨_, rfl, .inr ⟨hm.1, rfl⟩⟩
      · exact ⟨_, rfl, .inl rfl⟩

/-- What a pass that goes round again has read. -/
theorem trailerStep_next {pos' : Nat} (h : trailerStep buf start mh pos = .next pos') :
    ¬ (0 < mh ∧ mh < (pos - start : Int)) ∧ ∃ l, l ≠ [] ∧ TrailerLine l ∧
      cutLine cr lf (buf.drop pos) = .line l ∧ pos' = pos + (l.length + 2) := by
  have hm : ¬ (0 < mh ∧ mh < (pos - start : Int)) := by
    intro hm
    rw [trailerStep, if_pos hm] at h
    cases h
  refine ⟨hm, ?_⟩
  by_cases hcut : cutLine cr lf (buf.drop pos) = .more
  · obtain ⟨a, ha, -⟩ := @trailerStep_more buf start mh pos hcut
    rw [ha] at h
    cases h
  rw [trailerStep_eq hm hcut] at h
  split at h
  · cases h
  · cases h
  · cases h
  · rename_i c l hl
    split at h
    · rename_i hok
      cases h
      exact ⟨c :: l, by simp, trailerLineOk_iff.mp hok, hl, rfl⟩
    · cases h

theorem trailerStep_descends :
    Descends (trailerStep buf start mh) (fun pos => buf.length - pos) fun _ => True := by
  intro pos pos' _ h
  obtain ⟨-, l, -, -, hcut, rfl⟩ := trailerStep_next h
  have := cutLine_line_length hcut
  rw [List.length_drop] at this
  exact ⟨trivial, by simp only; omega⟩

/-- What is accepted is accepted with more bytes behind it. -/
theorem frameTrailerSection_accept_append {n : Nat}
    (h : frameTrailerSection buf start mh = .accept n) (x : List UInt8) :
    frameTrailerSection (buf ++ x) start mh = .accept n := by
  refine (loop_append (fun a => ∃ n, a = .accept n) (fun b => trailerStep b start mh)
    (fun b pos => b.length - pos) trailerStep_descends trailerStep_descends
    (fun pos _ hF => ?_) trivial ⟨n, h⟩).trans h
  by_cases hm : 0 < mh ∧ mh < (pos - start : Int)
  · obtain ⟨n, hn⟩ := hF _ (by rw [trailerStep, if_pos hm])
    cases hn
  by_cases hcut : cutLine cr lf (buf.drop pos) = .more
  · obtain ⟨a, ha, hmore⟩ := @trailerStep_more buf start mh pos hcut
    obtain ⟨n, rfl⟩ := hF a ha
    rcases hmore with e | ⟨-, e⟩ <;> cases e
  · have hpos : pos ≤ buf.length := by
      by_contra hlt
      exact hcut (by rw [List.drop_eq_nil_of_le (by omega)]; rfl)
    have e := cutLine_append hcut x
    rw [trailerStep_eq hm hcut, trailerStep_eq hm, List.drop_append_of_le_length hpos, e]
    rw [List.drop_append_of_le_length hpos, e]
    exact hcut

/-- A trailer line, read and dropped. -/
def trailerFold (_ : Unit) (l : List UInt8) : Except VError Unit :=
  if trailerLineOk l then .ok () else .error (.error "malformed trailer field" 400)

/-- Without a limit, the section is walked line by line. -/
theorem frameTrailerSection_eq (buf : List UInt8) (start : Nat) :
    frameTrailerSection buf start 0 =
      (walkLines cr lf (.error "trailer line not terminated by CRLF" 400) trailerFold ()
        (buf.drop start)).map fun p => start + p.2 := by
  refine loop_rule trailerStep_descends (P := fun pos a => a =
    (walkLines cr lf (.error "trailer line not terminated by CRLF" 400) trailerFold ()
      (buf.drop pos)).map fun p => pos + p.2) ?_ ?_ trivial
  · intro pos a _ h
    by_cases hcut : cutLine cr lf (buf.drop pos) = .more
    · obtain ⟨b, hb, hmore⟩ := @trailerStep_more buf start 0 pos hcut
      cases hb.symm.trans h
      rw [walkLines_more hcut]
      rcases hmore with e | ⟨h0, -⟩
      · exact e
      · omega
    rw [trailerStep_eq (by omega) hcut] at h
    split at h
    · rename_i e; exact absurd e hcut
    · rename_i e; cases h; rw [walkLines_bare e]; rfl
    · rename_i e; cases h; rw [walkLines_empty e]; rfl
    · rename_i c l e
      split at h
      · cases h
      · rename_i hok
        cases h
        rw [walkLines_line e (by simp)]
        simp [trailerFold, hok]
  · intro pos pos' a _ h ih
    obtain ⟨-, l, hl, hok, hcut, rfl⟩ := trailerStep_next h
    rw [ih, walkLines_line hcut hl, List.drop_drop]
    simp only [trailerFold, trailerLineOk_iff.mpr hok, if_true]
    cases walkLines cr lf (.error "trailer line not terminated by CRLF" 400) trailerFold ()
      (buf.drop (pos + (l.length + 2))) with
    | more => rfl
    | refuse e => rfl
    | accept p =>
        simp only [Verdict.map_accept, Verdict.accept.injEq]
        omega

theorem trailerFold_ok {ls : List (List UInt8)} :
    ls.foldlM trailerFold () = .ok () ↔ ∀ l ∈ ls, TrailerLine l := by
  induction ls with
  | nil => simp [pure, Except.pure]
  | cons l ls ih =>
      rw [List.foldlM_cons]
      by_cases h : TrailerLine l
      · have e : trailerFold () l = .ok () := by
          simp [trailerFold, trailerLineOk_iff.mpr h]
        rw [e]
        simpa [h, bind, Except.bind] using ih
      · have hf : trailerLineOk l = false := by
          simpa using fun e => h (trailerLineOk_iff.mp e)
        have e : trailerFold () l = .error (.error "malformed trailer field" 400) := by
          simp [trailerFold, hf]
        rw [e]
        refine ⟨fun h' => (by cases h'), fun h' => absurd (h' l (by simp)) h⟩

/-- **The trailer section**: `*( field-line CRLF ) CRLF`. -/
theorem frameTrailerSection_iff {n : Nat} :
    frameTrailerSection buf start 0 = .accept n ↔
      ∃ t rest, buf.drop start = t ++ rest ∧ TrailerSection t ∧ n = start + t.length := by
  rw [frameTrailerSection_eq, Verdict.map_eq_accept]
  constructor
  · rintro ⟨⟨⟨⟩, k⟩, hw, rfl⟩
    obtain ⟨ls, rest, e, hls, hf, rfl⟩ := walkLines_accept cr_ne_lf hw
    refine ⟨unlines cr lf ls ++ crlf, rest, by rw [e]; simp [crlf], ⟨ls, trailerFold_ok.mp hf, rfl⟩,
      by simp [crlf]⟩
  · rintro ⟨_, rest, e, ⟨ls, hls, rfl⟩, rfl⟩
    refine ⟨((), (unlines cr lf ls).length + 2), ?_, by simp [crlf]⟩
    refine (walkLines_accept_iff cr_ne_lf).mpr ⟨ls, rest, by rw [e]; simp [crlf],
      fun l hl => (hls l hl).isLine, trailerFold_ok.mpr hls, rfl⟩

theorem frameTrailerSection_stable (start : Nat) :
    Stable fun b => frameTrailerSection b start 0 := by
  intro b x h
  simp only [frameTrailerSection_eq] at h ⊢
  rw [ne_eq, Verdict.map_eq_more] at h
  have hpos : start ≤ b.length := by
    by_contra hlt
    exact h (by rw [List.drop_eq_nil_of_le (by omega), walkLines_more cutLine_nil])
  rw [List.drop_append_of_le_length hpos, walkLines_stable _ _ x h]

end Trailer

/-! ### Chunks -/

theorem sizeBound_anti (a b i j : Nat) (h : a ≤ b) (_ : i ≤ j) (hb : sizeBound b j = true) :
    sizeBound a i = true := by
  simp only [sizeBound, decide_eq_true_eq] at hb ⊢
  omega

section Chunks

variable {buf : List UInt8} {mh : Int} {pos : Nat}

/-- One pass over the chunks. -/
theorem chunkedStep_eq :
    chunkedStep buf mh pos =
      match sizeLine sizeBound buf pos with
      | .more => .exit .more
      | .refuse e => .exit (.refuse (sizeError e))
      | .accept (data, size) =>
        if size = 0 then .exit (frameTrailerSection buf data mh)
        else if buf.length ≤ data + size + 1 then .exit .more
        else if buf[data + size]? = some cr ∧ buf[data + size + 1]? = some lf then
          .next (data + size + 2)
        else .exit (.refuse (.error "chunk-data not terminated by CRLF" 400)) := by
  unfold chunkedStep chunkSizeAt
  cases sizeLine sizeBound buf pos with
  | more => rfl
  | refuse e => rfl
  | accept p =>
      obtain ⟨data, size⟩ := p
      simp only [Verdict.mapErr_accept, ← not_and_or, ite_not]

/-- What a pass that goes round again has read: one chunk. -/
theorem chunkedStep_next {pos' : Nat}
    (h : chunkedStep buf mh pos = .next pos') :
    ∃ data size, sizeLine sizeBound buf pos = .accept (data, size) ∧ size ≠ 0 ∧
      data + size + 1 < buf.length ∧ buf[data + size]? = some cr ∧
      buf[data + size + 1]? = some lf ∧ pos' = data + size + 2 := by
  rw [chunkedStep_eq] at h
  split at h
  · cases h
  · cases h
  rename_i data size hs
  split at h
  · cases h
  rename_i h0
  split at h
  · cases h
  rename_i hlen
  split at h
  · rename_i hcrlf
    cases h
    exact ⟨data, size, hs, h0, by omega, hcrlf.1, hcrlf.2, rfl⟩
  · cases h

theorem chunkedStep_descends :
    Descends (chunkedStep buf mh) (fun pos => buf.length - pos) fun _ => True := by
  intro pos pos' _ h
  obtain ⟨data, size, hs, -, hlen, -, -, rfl⟩ := chunkedStep_next h
  obtain ⟨hd, -⟩ := sizeLine_bounds sizeBound_anti hs
  exact ⟨trivial, by simp only; omega⟩

/-- **The chunks, with more bytes behind them.**  Answers are final; with a limit on the trailer
section, those that accept are. -/
theorem chunkedLoop_append {x : List UInt8} {F : Verdict VError Nat → Prop} (hmore : ¬ F .more)
    (htrailer : ∀ data, F (frameTrailerSection buf data mh) →
      frameTrailerSection (buf ++ x) data mh = frameTrailerSection buf data mh)
    (h : F (loop (chunkedStep buf mh) (fun pos => buf.length - pos) .more pos)) :
    loop (chunkedStep (buf ++ x) mh) (fun pos => (buf ++ x).length - pos) .more pos =
      loop (chunkedStep buf mh) (fun pos => buf.length - pos) .more pos := by
  refine loop_append F (fun b => chunkedStep b mh) (fun b pos => b.length - pos)
    chunkedStep_descends chunkedStep_descends (fun pos _ hF => ?_) trivial h
  simp only [chunkedStep_eq] at hF ⊢
  cases hs : sizeLine sizeBound buf pos with
  | more => exact absurd (hF .more (by rw [hs])) hmore
  | refuse e =>
      have e' := sizeLine_stable sizeBound pos buf x (by simp [hs])
      simp only [e', hs]
  | accept p =>
      obtain ⟨data, size⟩ := p
      have e' := sizeLine_stable sizeBound pos buf x (by simp [hs])
      simp only [e', hs] at hF ⊢
      by_cases h0 : size = 0
      · simp only [if_pos h0] at hF ⊢
        rw [htrailer data (hF _ rfl)]
      simp only [if_neg h0] at hF ⊢
      by_cases hlen : buf.length ≤ data + size + 1
      · exact absurd (hF .more (by rw [if_pos hlen])) hmore
      · have hlen' : ¬ (buf ++ x).length ≤ data + size + 1 := by rw [List.length_append]; omega
        simp only [if_neg hlen, if_neg hlen',
          List.getElem?_append_left (show data + size < buf.length by omega),
          List.getElem?_append_left (show data + size + 1 < buf.length by omega)]

theorem frameChunkedTotal_append {x : List UInt8}
    (h : frameChunkedTotal buf pos 0 0 ≠ .more) :
    frameChunkedTotal (buf ++ x) pos 0 0 = frameChunkedTotal buf pos 0 0 := by
  simp only [frameChunkedTotal, Int.lt_irrefl, false_and, if_false] at h ⊢
  exact chunkedLoop_append (F := (· ≠ .more)) (by simp)
    (fun data hd => frameTrailerSection_stable data buf x hd) h

/-- With limits: what is accepted stays accepted exactly while the bytes behind `pos`, the body's
or not, are within the body's limit. -/
theorem frameChunkedTotal_accept_append {x : List UInt8} {mb : Int} {n : Nat}
    (h : frameChunkedTotal buf pos mh mb = .accept n) :
    frameChunkedTotal (buf ++ x) pos mh mb =
      if 0 < mb ∧ mb < ((buf ++ x).length - pos : Int) then
        .refuse (.error s!"body exceeds {mb} bytes" 413)
      else .accept n := by
  unfold frameChunkedTotal at h ⊢
  split at h
  · cases h
  split
  · rfl
  · rw [← h]
    refine chunkedLoop_append (F := fun a => ∃ n, a = .accept n) (by simp)
      (fun data ⟨m, hm⟩ => ?_) ⟨n, h⟩
    rw [hm, frameTrailerSection_accept_append hm]

/-! ### The grammar -/

theorem chunkedStep_accept {n : Nat} (h : chunkedStep buf 0 pos = .exit (.accept n)) :
    ∃ body rest, buf.drop pos = body ++ rest ∧ ChunkedBody body ∧ n = pos + body.length := by
  rw [chunkedStep_eq] at h
  split at h
  · cases h
  · cases h
  rename_i data size hs
  split at h
  · rename_i h0
    subst h0
    obtain ⟨ds, e, r, hr, hd, -, he, rfl⟩ := (sizeLine_at_iff sizeBound_anti).mp hs
    obtain ⟨t, rest, ht, htr, rfl⟩ := frameTrailerSection_iff.mp (Turn.exit.inj h)
    have hr' : buf.drop pos = (ds ++ (e ++ crlf)) ++ r := by rw [hr]; simp
    have hdata : pos + (ds.length + e.length + 2) = pos + (ds ++ (e ++ crlf)).length := by
      simp only [List.length_append, crlf, List.length_cons, List.length_nil]; omega
    rw [hdata, drop_behind hr'] at ht
    refine ⟨ds ++ (e ++ (crlf ++ t)), rest, by rw [hr, ht]; simp, .last hd he htr, ?_⟩
    simp only [List.length_append, crlf, List.length_cons, List.length_nil]; omega
  · split at h
    · cases h
    split at h
    · cases h
    · cases h

/-- A pass goes round again exactly behind a chunk. -/
theorem chunkedStep_next_iff {pos' : Nat} :
    chunkedStep buf mh pos = .next pos' ↔
      ∃ c d rest, buf.drop pos = c ++ rest ∧ ChunkOf sizeBound c d ∧ pos' = pos + c.length := by
  constructor
  · intro h
    obtain ⟨data, size, hs, h0, -, hcr, hlf, rfl⟩ := chunkedStep_next h
    obtain ⟨c, d, rest, hc, hd, e⟩ := chunk_at sizeBound_anti hs h0 hcr hlf
    exact ⟨c, d, rest, hc, hd, e⟩
  · rintro ⟨c, d, rest, hc, hd, rfl⟩
    obtain ⟨data, hs, h0, hcr, hlf, e⟩ := hd.read sizeBound_anti hc
    have hlen : data + d.length + 1 < buf.length := (List.getElem?_eq_some_iff.mp hlf).1
    rw [chunkedStep_eq]
    simp only [hs, if_neg h0, if_neg (Nat.not_le.mpr hlen), hcr, hlf, and_self, if_true, e]

theorem chunkedBody_cons {c d r : List UInt8} (h : ChunkOf sizeBound c d) (hr : ChunkedBody r) :
    ChunkedBody (c ++ r) := by
  obtain ⟨ds, e, rfl, hd, hmax, hne, he⟩ := h
  have := ChunkedBody.chunk hd hne (of_decide_eq_true hmax) he hr
  simpa using this

/-- **Without limits, `frame_chunked_total` accepts exactly the chunked bodies.** -/
theorem frameChunkedTotal_iff {n : Nat} :
    frameChunkedTotal buf pos 0 0 = .accept n ↔
      ∃ body rest, buf.drop pos = body ++ rest ∧ ChunkedBody body ∧ n = pos + body.length := by
  simp only [frameChunkedTotal, Int.lt_irrefl, false_and, if_false]
  constructor
  · refine loop_rule chunkedStep_descends (P := fun pos a => a = .accept n →
      ∃ body rest, buf.drop pos = body ++ rest ∧ ChunkedBody body ∧ n = pos + body.length)
      ?_ ?_ trivial
    · intro pos a _ h ha
      subst ha
      exact chunkedStep_accept h
    · intro pos pos' a _ h ih ha
      obtain ⟨body, rest, hr, hbody, rfl⟩ := ih ha
      obtain ⟨c, d, rest', hc, hd, rfl⟩ := chunkedStep_next_iff.mp h
      obtain rfl := (drop_behind hc).symm.trans hr
      refine ⟨c ++ body, rest, by rw [hc, List.append_assoc], chunkedBody_cons hd hbody, ?_⟩
      rw [List.length_append]; omega
  · rintro ⟨body, rest, hr, hbody, rfl⟩
    induction hbody generalizing pos with
    | @last ds e t hd he ht =>
        have hs : sizeLine sizeBound buf pos = .accept (pos + (ds.length + e.length + 2), 0) :=
          (sizeLine_at_iff sizeBound_anti).mpr
            ⟨ds, e, t ++ rest, by rw [hr]; simp, hd, by simp [sizeBound], he, rfl⟩
        have hr' : buf.drop pos = (ds ++ (e ++ crlf)) ++ (t ++ rest) := by rw [hr]; simp
        have hdata : pos + (ds.length + e.length + 2) = pos + (ds ++ (e ++ crlf)).length := by
          simp only [List.length_append, crlf, List.length_cons, List.length_nil]; omega
        have ht' := frameTrailerSection_iff.mpr ⟨t, rest, drop_behind hr', ht, rfl⟩
        rw [← hdata] at ht'
        refine (loop_exit (a := .accept _) ?_).trans rfl
        rw [chunkedStep_eq]
        simp only [hs, if_true, ht']
        congr 2
        simp only [List.length_append, crlf, List.length_cons, List.length_nil]; omega
    | @chunk ds e data r hd hpos hmax he t ih =>
        have hc : buf.drop pos = (ds ++ (e ++ (crlf ++ (data ++ crlf)))) ++ (r ++ rest) := by
          rw [hr]; simp
        have hstep := (@chunkedStep_next_iff buf 0 pos _).mpr
          ⟨_, data, _, hc, ⟨ds, e, rfl, hd, by simpa [sizeBound] using hmax, hpos, he⟩, rfl⟩
        rw [loop_next chunkedStep_descends trivial hstep, ih (drop_behind hc)]
        congr 1
        simp only [List.length_append, crlf, List.length_cons, List.length_nil]
        omega

end Chunks

end Vanilla.RequestParser

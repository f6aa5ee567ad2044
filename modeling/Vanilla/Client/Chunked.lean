import Vanilla.Client.Lines
import Vanilla.RequestParser.Chunked

/-!
# Client — chunked bodies, and the server's reading of them

`frame_chunked_body` in `client.v` and `frame_chunked_total` in `request_parser.v` read the same
grammar with different bounds on a chunk's size.

* `trailerLine_eq`: the client's `trailer_line`, in the words of the line.
* `same_verdict`: on sizes both accept, the two agree.
-/

namespace Vanilla.Client
open Scan Vanilla.Chunk
open RequestParser (VError frameChunkedTotal)

/-! ### The client's loops -/

section Loops

variable {buf : List UInt8} {pos : Nat}

/-- `trailer_line` in the words of the line. -/
theorem trailerLine_eq (buf : List UInt8) (pos : Nat) :
    trailerLine buf pos =
      match cutLine cr lf (buf.drop pos) with
      | .more => .more
      | .bare => .refuse .malformed
      | .line [] => .accept (pos + 2, true)
      | .line (c :: l) =>
        if trailerLineOk (c :: l) then .accept (pos + ((c :: l).length + 2), false)
        else .refuse .malformed := by
  unfold trailerLine
  have hat := lineAt cr_ne_lf buf pos
  generalize cutLine cr lf (buf.drop pos) = cut at hat
  cases hat with
  | past h => rw [if_pos h]
  | half h hc h' => rw [if_neg (Nat.not_le.mpr h), if_pos ⟨hc, h'⟩]
  | blank h hc hl =>
      rw [if_neg (Nat.not_le.mpr (Nat.lt_of_succ_lt h)), if_neg fun h' => by omega,
        if_pos ⟨hc, hl⟩]
  | part h h₁ h₂ hf =>
      rw [if_neg (Nat.not_le.mpr h), if_neg h₁, if_neg h₂, lfIdx_none hf]
  | bare h h₁ h₂ hf hb =>
      rw [if_neg (Nat.not_le.mpr h), if_neg h₁, if_neg h₂, lfIdx_some hf]
      simp only
      rw [if_pos]
      rcases hb with rfl | hb
      · exact .inl rfl
      · exact .inr hb
  | full h h₁ h₂ hl hf hc ht =>
      rename_i l
      obtain ⟨c, l, rfl⟩ := List.exists_cons_of_ne_nil hl
      have e₁ : pos + ((c :: l).length + 1) - 1 = pos + (c :: l).length := by omega
      have e₂ : pos + (c :: l).length - pos = (c :: l).length := by omega
      rw [if_neg (Nat.not_le.mpr h), if_neg h₁, if_neg h₂, lfIdx_some hf]
      simp only [e₁, e₂, hc, ht, ne_eq, not_true_eq_false, or_false]
      rw [if_neg (by omega)]
      cases trailerLineOk (c :: l) <;> simp [Nat.add_assoc]

/-- A trailer line ends further on, inside the buffer. -/
theorem trailerLine_bounds {next : Nat} {last : Bool}
    (h : trailerLine buf pos = .accept (next, last)) : pos < next ∧ next ≤ buf.length := by
  rw [trailerLine_eq] at h
  split at h
  · cases h
  · cases h
  · rename_i hl
    have := cutLine_line_length hl
    simp only [List.length_drop, List.length_nil] at this
    cases h
    omega
  · rename_i c l hl
    have := cutLine_line_length hl
    rw [List.length_drop] at this
    split at h
    · cases h
      omega
    · cases h

theorem trailerLine_refuse {e : ClientErr} (h : trailerLine buf pos = .refuse e) :
    e = .malformed := by
  rw [trailerLine_eq] at h
  split at h
  · cases h
  · cases h
    rfl
  · cases h
  · split at h
    · cases h
    · cases h
      rfl

theorem trailerStep_descends :
    Descends (trailerStep buf) (fun pos => buf.length - pos) fun _ => True := by
  intro pos pos' _ h
  unfold trailerStep at h
  split at h
  · cases h
  · cases h
  · rename_i next last hl
    split at h
    · cases h
    · cases h
      obtain ⟨h₁, h₂⟩ := trailerLine_bounds hl
      exact ⟨trivial, by simp only; omega⟩

theorem sizeBound_iff {n j : Nat} : sizeBound n j = true ↔ n ≤ maxLength ∧ j < 16 := by
  simp [sizeBound]

theorem sizeBound_anti (a b i j : Nat) (h : a ≤ b) (h' : i ≤ j) (hb : sizeBound b j = true) :
    sizeBound a i = true := by
  rw [sizeBound_iff] at hb ⊢
  omega

theorem chunkSizeLine_refuse {e : ClientErr} (h : chunkSizeLine buf pos = .refuse e) :
    e = .malformed := by
  unfold chunkSizeLine at h
  cases hs : Chunk.sizeLine sizeBound buf pos with
  | more => simp [hs] at h
  | accept p => simp [hs] at h
  | refuse e' =>
      rw [hs] at h
      cases h
      rfl

/-- The data starts further on, inside the buffer. -/
theorem chunkSizeLine_bounds {data size : Nat} (h : chunkSizeLine buf pos = .accept (data, size)) :
    pos < data ∧ data ≤ buf.length :=
  sizeLine_bounds sizeBound_anti (Verdict.mapErr_eq_accept.mp h)

theorem chunkedStep_descends :
    Descends (chunkedStep buf) (fun pos => buf.length - pos) fun _ => True := by
  intro pos pos' _ h
  unfold chunkedStep at h
  split at h
  · cases h
  · cases h
  · rename_i data size hs
    obtain ⟨h₁, h₂⟩ := chunkSizeLine_bounds hs
    split at h
    · cases h
    dsimp only at h
    split at h
    · cases h
    split at h
    · cases h
    · cases h
      exact ⟨trivial, by simp only; omega⟩

end Loops

/-! ### Two readers of one grammar -/

/-- The same verdict: the same end, both waiting, or both refusing.  A read outside the buffer is
like no verdict. -/
inductive SameVerdict : Verdict VError Nat → Verdict ClientErr Nat → Prop where
  | more : SameVerdict .more .more
  | refuse (msg : String) (code : Nat) :
      SameVerdict (.refuse (.error msg code)) (.refuse .malformed)
  | accept (n : Nat) : SameVerdict (.accept n) (.accept n)

/-- The two read trailer sections alike. -/
theorem frameTrailerSection_same (buf : List UInt8) (start : Nat) :
    SameVerdict (RequestParser.frameTrailerSection buf start 0)
      (frameTrailerSection buf start) := by
  refine loop_sim RequestParser.trailerStep_descends trailerStep_descends (R := Eq)
    (fun pos pos' _ _ e => .inr ?_) trivial trivial rfl
  subst e
  unfold trailerStep
  rw [trailerLine_eq]
  by_cases hcut : cutLine cr lf (buf.drop pos) = .more
  · obtain ⟨a, ha, hmore⟩ := @RequestParser.trailerStep_more buf start 0 pos hcut
    rw [ha, hcut]
    rcases hmore with rfl | ⟨h, -⟩
    · exact .exit .more
    · omega
  · rw [RequestParser.trailerStep_eq (by omega) hcut]
    cases e : cutLine cr lf (buf.drop pos) with
    | more => exact absurd e hcut
    | bare => exact .exit (.refuse _ _)
    | line l =>
        cases l with
        | nil => exact .exit (.accept _)
        | cons c l =>
            cases hok : trailerLineOk (c :: l) with
            | true => simp only [hok, if_true]; exact .next rfl
            | false => simp only [hok]; exact .exit (.refuse _ _)

/-- A chunk-size stands at `pos`: at the body's start, or behind a chunk. -/
inductive SizeAt (buf : List UInt8) (start : Nat) : Nat → Prop where
  | first : SizeAt buf start start
  | next {pos : Nat} {c d rest : List UInt8} (h : SizeAt buf start pos)
      (hb : buf.drop pos = c ++ rest) (hc : ChunkOf (fun _ _ => true) c d) :
      SizeAt buf start (pos + c.length)

/-- The run of hex digits at `pos`. -/
def sizeRun (buf : List UInt8) (pos : Nat) : List UInt8 := (buf.drop pos).takeWhile isHex

/-- Every chunk-size has at most 16 digits and denotes at most 2^30. -/
def SmallSizes (buf : List UInt8) (start : Nat) : Prop :=
  ∀ pos, SizeAt buf start pos →
    (sizeRun buf pos).length ≤ 16 ∧ hexValue 0 (sizeRun buf pos) ≤ 2 ^ 30

section Same

variable {buf : List UInt8} {start pos : Nat}

/-- Both bounds hold of a small size, so neither shows. -/
theorem SmallSizes.sizeLine (h : SmallSizes buf start) (hp : SizeAt buf start pos) :
    sizeLine RequestParser.sizeBound buf pos = sizeLine (fun _ _ => true) buf pos ∧
      sizeLine sizeBound buf pos = sizeLine (fun _ _ => true) buf pos := by
  obtain ⟨h₁, h₂⟩ := h pos hp
  have hserver : RequestParser.sizeBound (hexValue 0 (sizeRun buf pos))
      ((sizeRun buf pos).length - 1) = true := decide_eq_true h₂
  have hclient :
      sizeBound (hexValue 0 (sizeRun buf pos)) ((sizeRun buf pos).length - 1) = true := by
    rw [sizeBound_iff, maxLength]
    omega
  exact ⟨sizeLine_within RequestParser.sizeBound_anti (.inr hserver),
    sizeLine_within sizeBound_anti (.inr hclient)⟩

/-- One pass of each. -/
theorem chunkedStep_same (h : SmallSizes buf start) (hp : SizeAt buf start pos) :
    Turn.Rel (fun p q => p = q ∧ SizeAt buf start p) SameVerdict
      (RequestParser.chunkedStep buf 0 pos) (chunkedStep buf pos) := by
  obtain ⟨e₁, e₂⟩ := h.sizeLine hp
  rw [RequestParser.chunkedStep_eq, e₁]
  unfold chunkedStep chunkSizeLine
  rw [e₂]
  cases hs : Chunk.sizeLine (fun _ _ => true) buf pos with
  | more => exact .exit .more
  | refuse e => cases e <;> exact .exit (.refuse _ _)
  | accept p =>
      obtain ⟨data, size⟩ := p
      simp only [Verdict.mapErr_accept]
      by_cases h0 : size = 0
      · simp only [if_pos h0]
        exact .exit (frameTrailerSection_same buf data)
      simp only [if_neg h0]
      by_cases hlen : buf.length ≤ data + size + 1
      · simp only [if_pos hlen]
        exact .exit .more
      simp only [if_neg hlen]
      by_cases hcrlf : buf[data + size]? = some cr ∧ buf[data + size + 1]? = some lf
      · obtain ⟨c, d, rest, hc, hco, hend⟩ :=
          chunk_at (fun _ _ _ _ _ _ _ => rfl) hs h0 hcrlf.1 hcrlf.2
        simp only [hcrlf, and_self, if_true, ne_eq, not_true_eq_false, or_self, if_false]
        refine .next ⟨rfl, ?_⟩
        rw [hend]
        exact hp.next hc hco
      · rw [if_neg hcrlf, if_pos (by rwa [← not_and_or])]
        exact .exit (.refuse _ _)

/-- The chunk-sizes, from the body's start on. -/
theorem SizeAt.from_start (hp : SizeAt buf start pos) :
    pos = start ∨ ∃ data n, Chunk.sizeLine (fun _ _ => true) buf start = .accept (data, n) ∧
      n ≠ 0 ∧ data + n + 1 < buf.length ∧ SizeAt buf (data + n + 2) pos := by
  induction hp with
  | first => exact .inl rfl
  | @next pos c d rest hp hb hc ih =>
      rcases ih with rfl | ⟨data, n, hs, hn, hlen, hp'⟩
      · obtain ⟨data, hs, hn, -, hlf, e⟩ := hc.read (fun _ _ _ _ _ _ _ => rfl) hb
        exact .inr ⟨data, d.length, hs, hn, (List.getElem?_eq_some_iff.mp hlf).1, e ▸ .first⟩
      · exact .inr ⟨data, n, hs, hn, hlen, hp'.next hb hc⟩

end Same

/-- **Server and client accept the same chunked bodies**: where every chunk-size is small enough for
both, they give the same verdict. -/
theorem same_verdict (b : List UInt8) (start : Nat) (h : SmallSizes b start) :
    SameVerdict (frameChunkedTotal b start 0 0) (frameChunkedBody b start) := by
  simp only [frameChunkedTotal, Int.lt_irrefl, false_and, if_false, frameChunkedBody]
  refine loop_sim RequestParser.chunkedStep_descends chunkedStep_descends
    (R := fun p q => p = q ∧ SizeAt b start p) (fun p q _ _ hpq => .inr ?_) trivial trivial
    ⟨rfl, .first⟩
  obtain ⟨rfl, hp⟩ := hpq
  exact chunkedStep_same h hp

/-- One chunk, the last chunk, and no trailers. -/
theorem same_verdict_hello : SmallSizes (ascii "5\r\nhello\r\n0\r\n\r\n") 0 ∧
    SameVerdict (frameChunkedTotal (ascii "5\r\nhello\r\n0\r\n\r\n") 0 0 0)
      (frameChunkedBody (ascii "5\r\nhello\r\n0\r\n\r\n") 0) ∧
    frameChunkedBody (ascii "5\r\nhello\r\n0\r\n\r\n") 0 = .accept 15 := by
  have h : SmallSizes (ascii "5\r\nhello\r\n0\r\n\r\n") 0 := by
    intro pos hp
    rcases hp.from_start with rfl | ⟨data, n, hs, -, -, hp⟩
    · decide
    cases hs.symm.trans (show _ = Verdict.accept (3, 5) by decide)
    rcases hp.from_start with rfl | ⟨data, n, hs, hn, -⟩
    · decide
    cases hs.symm.trans (show _ = Verdict.accept (13, 0) by decide)
    exact absurd rfl hn
  exact ⟨h, same_verdict _ 0 h, by decide +kernel⟩

end Vanilla.Client

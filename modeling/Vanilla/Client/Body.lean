import Vanilla.Client.OneShot

/-!
# Client — the body of a framed response

`body_in_place` of `framer.v` and `append_body` of `client.v`, on a response a `Framer` has framed
at the start of its buffer.  The first moves the data of the chunks down over their framing, in the
buffer; the second copies it, with a reader of its own for the size lines.

`ChunkedData raw body` is the grammar of a chunked body with the data of its chunks.  Both loops are
read along it: in place, what is written so far ends at `w`, not behind the size line to be read
next at `pos`, and what is behind `pos` is as it was received.

* `framed_head`: the head of a framed response is the one `head_len` finds, and it is chunked when
  it has a Transfer-Encoding.
* `dechunk_spec`, `appendLoop_spec`: the two loops.
* `body_in_place_exact`: the two give the data of the chunks, and the rest of the buffer stays.
-/

namespace Vanilla.Client
open Scan Vanilla.Chunk

/-! ### The functions -/

namespace Framer

/-- `is_chunked`. -/
def isChunked (f : Framer) : Bool := f.te && !f.bodyless

end Framer

/-- A `Framer` with the two fields that only `body_in_place` uses. -/
structure BodyFramer where
  framer : Framer
  dechunked : Bool := false
  bodyLen : Nat := 0

/-- `vmemmove` of `size` bytes from `src` to `dst`, in one buffer. -/
def moveBytes (buf : List UInt8) (dst src size : Nat) : List UInt8 :=
  buf.take dst ++ ((buf.drop src).take size ++ buf.drop (dst + size))

/-- The loop variables of `body_in_place`, with the buffer it writes to. -/
structure Dechunk where
  buf : List UInt8
  w : Nat
  pos : Nat

/-- One pass of the loop of `body_in_place`. -/
def dechunkStep (s : Dechunk) : Turn Dechunk Dechunk :=
  match chunkSizeLine s.buf s.pos with
  | .accept (data, size) =>
    if size = 0 then .exit s
    else
      .next
        { buf := if s.w ≠ data then moveBytes s.buf s.w data size else s.buf
          w := s.w + size
          pos := data + size + 2 }
  | _ => .exit s

/-- The loop of `body_in_place`. -/
def dechunk (s : Dechunk) : Dechunk := loop dechunkStep (fun s => s.buf.length - s.pos) s s

/-- `body_in_place`: the framer, the buffer, and the bytes of the view. -/
def bodyInPlace (f : BodyFramer) (buf : List UInt8) : BodyFramer × List UInt8 × List UInt8 :=
  if f.framer.stage ≠ .done then (f, buf, [])
  else
    let body := f.framer.start + f.framer.headLen
    if f.framer.isChunked ∧ ¬ f.dechunked then
      let s := dechunk ⟨buf, body, body⟩
      ({ f with bodyLen := s.w - body, dechunked := true }, s.buf,
        (s.buf.drop body).take (s.w - body))
    else
      let f := if f.framer.isChunked then f
        else { f with bodyLen := (f.framer.endAt - body).toNat }
      (f, buf, (buf.drop body).take f.bodyLen)

/-- One pass of `header_value_in`; the state is `pos`. -/
def headerValueStep (buf : List UInt8) (stop : Nat) (name : List UInt8) (pos : Nat) :
    Turn Nat (Option (Nat × Nat)) :=
  if pos + 2 < stop then
    match lfIdx buf pos with
    | none => .exit none
    | some lfAt =>
      match fieldValue buf pos (lfAt - 1) name with
      | some v => .exit (some v)
      | none => .next (lfAt + 1)
  else .exit none

/-- `header_value_in`: `none` for its (-1, 0). -/
def headerValueIn (buf : List UInt8) (start stop : Nat) (name : List UInt8) :
    Option (Nat × Nat) :=
  match lfIdx buf start with
  | none => none
  | some lfAt => loop (headerValueStep buf stop name) (fun pos => buf.length - pos) none (lfAt + 1)

/-- `header_value_from`. -/
def headerValueFrom (buf : List UInt8) (hl : Nat) (name : List UInt8) : Option (Nat × Nat) :=
  headerValueIn buf 0 hl name

/-- The cap `append_body` has on a chunk's size. -/
def appendBound (size _j : Nat) : Bool := size ≤ maxLength

/-- One pass of the loop of `append_body`; the state is `pos` and the bytes appended. -/
def appendStep (buf : List UInt8) (total : Nat) (s : Nat × List UInt8) :
    Turn (Nat × List UInt8) (List UInt8 × Bool) :=
  let (pos, out) := s
  if total ≤ pos then .exit (out, true)
  else
    match hexRun appendBound ((buf.take total).drop pos) 0 0 with
    | none => .exit (out, false)
    | some (size, digits) =>
      let j := pos + digits
      if digits = 0 ∨ total ≤ j ∨ (buf[j]? ≠ some cr ∧ buf[j]? ≠ some semicolon ∧
          buf[j]? ≠ some sp ∧ buf[j]? ≠ some htab) then .exit (out, false)
      else
        let data := j + (((buf.take total).drop j).takeWhile (· != cr)).length + 2
        if size = 0 then .exit (out, true)
        else if data + size > total then .exit (out, false)
        else .next (data + size + 2, out ++ (buf.drop data).take size)

/-- `append_body`: the bytes it appends, and what it returns. -/
def appendBody (buf : List UInt8) (total : Nat) : List UInt8 × Bool :=
  match headLen buf with
  | .accept hl =>
    if total ≤ hl then ([], true)
    else
      match headerValueFrom buf hl (ascii "transfer-encoding") with
      | none => ((buf.drop hl).take (total - hl), true)
      | some _ => loop (appendStep buf total) (fun s => total - s.1) ([], true) (hl, [])
  | _ => ([], false)

/-! ### Chunked bodies with their data -/

/-- `chunked-body`, and the data of its chunks. -/
inductive ChunkedData : List UInt8 → List UInt8 → Prop where
  | last {ds e t : List UInt8} (hd : HexSize ds 0) (hok : sizeBound 0 (ds.length - 1) = true)
      (he : ChunkExt e) (ht : TrailerSection t) : ChunkedData (ds ++ (e ++ (crlf ++ t))) []
  | chunk {c d r body : List UInt8} (h : ChunkOf sizeBound c d) (t : ChunkedData r body) :
      ChunkedData (c ++ r) (d ++ body)

theorem ChunkedData.ne_nil {raw body : List UInt8} (h : ChunkedData raw body) : raw ≠ [] := by
  cases h with
  | last => simp [crlf]
  | chunk hc =>
      obtain ⟨ds, e, rfl, -⟩ := hc
      simp [crlf]

theorem frameTrailerSection_accept {buf : List UInt8} {start n : Nat}
    (h : frameTrailerSection buf start = .accept n) :
    ∃ t rest, buf.drop start = t ++ rest ∧ TrailerSection t ∧ n = start + t.length := by
  have hsame := frameTrailerSection_same buf start
  rw [h] at hsame
  generalize hr : RequestParser.frameTrailerSection buf start 0 = r at hsame
  cases hsame
  exact RequestParser.frameTrailerSection_iff.mp hr

/-- What `frame_chunked_body` accepts is a chunked body. -/
theorem frameChunkedBody_accept {buf : List UInt8} {pos n : Nat}
    (h : frameChunkedBody buf pos = .accept n) :
    ∃ raw body rest, buf.drop pos = raw ++ rest ∧ ChunkedData raw body ∧ n = pos + raw.length := by
  revert h
  refine loop_rule chunkedStep_descends (P := fun pos a => a = .accept n →
    ∃ raw body rest, buf.drop pos = raw ++ rest ∧ ChunkedData raw body ∧ n = pos + raw.length)
    ?_ ?_ trivial
  · intro pos a _ h ha
    subst ha
    unfold chunkedStep at h
    split at h
    · cases h
    · cases h
    · rename_i data size hs
      split at h
      · rename_i h0
        subst h0
        obtain ⟨t, rest, ht, hsection, rfl⟩ := frameTrailerSection_accept (Turn.exit.inj h)
        obtain ⟨ds, e, r, hr, hd, hok, he, rfl⟩ :=
          (sizeLine_at_iff sizeBound_anti).mp (Verdict.mapErr_eq_accept.mp hs)
        have hdrop : buf.drop (pos + (ds.length + e.length + 2)) = r := by
          rw [← List.drop_drop, hr, ← List.append_assoc, ← List.append_assoc]
          exact List.drop_left' (by simp [crlf]; omega)
        refine ⟨ds ++ (e ++ (crlf ++ t)), [], rest, ?_, .last hd hok he hsection, ?_⟩
        · rw [hr, ← hdrop, ht]
          simp
        · simp only [List.length_append, crlf, List.length_cons, List.length_nil]
          omega
      · dsimp only at h
        split at h
        · cases h
        · split at h <;> cases h
  · intro pos pos' a _ h ih ha
    unfold chunkedStep at h
    split at h
    · cases h
    · cases h
    · rename_i data size hs
      split at h
      · cases h
      · rename_i h0
        dsimp only at h
        split at h
        · cases h
        · split at h
          · cases h
          · rename_i hcrlf
            rw [not_or, not_not, not_not] at hcrlf
            cases h
            obtain ⟨c, d, r, hc, hchunk, hend⟩ := chunk_at sizeBound_anti
              (Verdict.mapErr_eq_accept.mp hs) h0 hcrlf.1 hcrlf.2
            obtain ⟨raw, body, rest, hr, hdata, rfl⟩ := ih ha
            have hdrop : buf.drop (pos + c.length) = r := by
              rw [← List.drop_drop, hc, List.drop_left]
            rw [hend, hdrop] at hr
            refine ⟨c ++ raw, d ++ body, rest, by rw [hc, hr, List.append_assoc],
              .chunk hchunk hdata, ?_⟩
            rw [List.length_append]
            omega

/-! ### In place -/

section Dechunk

variable {buf r rest : List UInt8} {w pos : Nat}

/-- What a move down leaves. -/
theorem moveBytes_spec {src k : Nat} (size : Nat) (hsrc : src + size ≤ buf.length) (hw : w ≤ src)
    (hk : w + size ≤ k) :
    (moveBytes buf w src size).take (w + size) = buf.take w ++ (buf.drop src).take size ∧
      (moveBytes buf w src size).drop k = buf.drop k ∧
      (moveBytes buf w src size).length = buf.length := by
  have htake : (buf.take w).length = w := by rw [List.length_take]; omega
  have hmid : ((buf.drop src).take size).length = size := by
    rw [List.length_take, List.length_drop]; omega
  have hfront : (buf.take w ++ (buf.drop src).take size).length = w + size := by
    rw [List.length_append, htake, hmid]
  rw [moveBytes, ← List.append_assoc]
  refine ⟨List.take_left' hfront, ?_, ?_⟩
  · rw [List.drop_append, hfront, List.drop_eq_nil_of_le (by omega), List.nil_append,
      List.drop_drop]
    congr 1
    omega
  · rw [List.length_append, hfront, List.length_drop]
    omega

/-- A pass at a chunk. -/
theorem dechunkStep_chunk {c d : List UInt8} (hc : ChunkOf sizeBound c d)
    (hb : buf.drop pos = c ++ r) (hw : w ≤ pos) : ∃ b,
    dechunkStep ⟨buf, w, pos⟩ = .next ⟨b, w + d.length, pos + c.length⟩ ∧
      b.take (w + d.length) = buf.take w ++ d ∧ b.drop (pos + c.length) = r ∧
      b.length = buf.length ∧ w + d.length ≤ pos + c.length ∧ pos < pos + c.length ∧
      pos + c.length ≤ buf.length := by
  obtain ⟨data, hs, hne, -, hlf, hend⟩ := hc.read sizeBound_anti hb
  have hsize : chunkSizeLine buf pos = .accept (data, d.length) := by
    rw [chunkSizeLine, hs]
    rfl
  obtain ⟨hlt, -⟩ := chunkSizeLine_bounds hsize
  have hlen := (List.getElem?_eq_some_iff.mp hlf).1
  obtain ⟨htake, hdrop, hlength⟩ := moveBytes_spec d.length
    (show data + d.length ≤ buf.length by omega) (show w ≤ data by omega)
    (show w + d.length ≤ pos + c.length by omega)
  have hdata : (buf.drop data).take d.length = d := by
    obtain ⟨ds, e, rfl, -, -, -, -⟩ := hc
    have hat : data = pos + (ds ++ (e ++ crlf)).length := by
      simp only [List.length_append, crlf, List.length_cons, List.length_nil] at hend ⊢
      omega
    have hsplit : ds ++ (e ++ (crlf ++ (d ++ crlf))) ++ r =
        (ds ++ (e ++ crlf)) ++ (d ++ (crlf ++ r)) := by simp
    rw [hat, ← List.drop_drop, hb, hsplit, List.drop_left, List.take_left]
  refine ⟨moveBytes buf w data d.length, ?_, by rw [htake, hdata], ?_, hlength, by omega, by omega,
    by omega⟩
  · rw [dechunkStep, hsize]
    dsimp only
    rw [if_neg hne, if_pos (by omega), hend]
  · rw [hdrop, ← List.drop_drop, hb, List.drop_left]

theorem dechunkStep_last {ds e t : List UInt8} (hd : HexSize ds 0)
    (hok : sizeBound 0 (ds.length - 1) = true) (he : ChunkExt e)
    (hb : buf.drop pos = ds ++ (e ++ (crlf ++ t))) :
    dechunkStep ⟨buf, w, pos⟩ = .exit ⟨buf, w, pos⟩ := by
  have hs : chunkSizeLine buf pos = .accept (pos + (ds.length + e.length + 2), 0) := by
    rw [chunkSizeLine, (sizeLine_at_iff sizeBound_anti).mpr ⟨ds, e, t, hb, hd, hok, he, rfl⟩]
    rfl
  rw [dechunkStep, hs]
  exact if_pos rfl

/-- The size line to be read next is that of a chunked body, and what is written is not past it. -/
def Dechunk.Sound (s : Dechunk) : Prop :=
  s.w ≤ s.pos ∧ ∃ raw body rest, s.buf.drop s.pos = raw ++ rest ∧ ChunkedData raw body

theorem dechunkStep_descends :
    Descends dechunkStep (fun s => s.buf.length - s.pos) Dechunk.Sound := by
  rintro ⟨buf, w, pos⟩ s' ⟨hw, raw, body, rest, hb, hdata⟩ h
  cases hdata with
  | last hd hok he ht =>
      rw [dechunkStep_last hd hok he (by simpa using hb)] at h
      cases h
  | chunk hc hr =>
      obtain ⟨b, hstep, -, hdrop, hlen, hle, hlt, hin⟩ :=
        dechunkStep_chunk hc (by simpa using hb) hw
      rw [hstep] at h
      cases h
      exact ⟨⟨hle, _, _, rest, hdrop, hr⟩, by dsimp only at hlt hin ⊢; omega⟩

/-- **De-chunking in place.**  The data of the chunks ends up behind what was written before; the
buffer behind the body is untouched. -/
theorem dechunk_spec {raw body : List UInt8} (hdata : ChunkedData raw body)
    (hb : buf.drop pos = raw ++ rest) (hw : w ≤ pos) (hpos : pos ≤ buf.length) :
    (dechunk ⟨buf, w, pos⟩).w = w + body.length ∧
      (dechunk ⟨buf, w, pos⟩).buf.take (w + body.length) = buf.take w ++ body ∧
      (dechunk ⟨buf, w, pos⟩).buf.drop (pos + raw.length) = rest ∧
      (dechunk ⟨buf, w, pos⟩).buf.length = buf.length ∧ w + body.length ≤ pos + raw.length := by
  induction hdata generalizing buf w pos with
  | @last ds e t hd hok he ht =>
      have hexit : dechunk ⟨buf, w, pos⟩ = ⟨buf, w, pos⟩ :=
        loop_exit (dechunkStep_last hd hok he (by simpa using hb))
      rw [hexit]
      refine ⟨rfl, by simp, ?_, rfl, by simp only [List.length_nil]; omega⟩
      rw [← List.drop_drop, hb, List.drop_left]
  | @chunk c d r body hc hr ih =>
      rw [List.append_assoc] at hb
      obtain ⟨b, hstep, htake, hdrop, hlen, hle, hlt, hin⟩ := dechunkStep_chunk hc hb hw
      have hnext : dechunk ⟨buf, w, pos⟩ = dechunk ⟨b, w + d.length, pos + c.length⟩ := by
        refine (loop_next dechunkStep_descends ?_ hstep).trans (loop_out dechunkStep_descends ?_ _)
        · exact ⟨hw, _, _, rest, by rw [← List.append_assoc] at hb; exact hb, .chunk hc hr⟩
        · exact ⟨hle, _, _, rest, hdrop, hr⟩
      obtain ⟨h₁, h₂, h₃, h₄, h₅⟩ := ih hdrop hle (by omega)
      rw [hnext, List.length_append, List.length_append, ← Nat.add_assoc, ← Nat.add_assoc]
      exact ⟨h₁, by rw [h₂, htake, List.append_assoc], h₃, h₄.trans hlen, h₅⟩

end Dechunk

/-! ### Appended -/

section Append

variable {buf rest : List UInt8} {pos : Nat}

theorem appendBound_anti (a b i j : Nat) (h : a ≤ b) (_ : i ≤ j) (hb : appendBound b j = true) :
    appendBound a i = true := by
  simp only [appendBound, decide_eq_true_eq] at hb ⊢
  omega

theorem appendStep_descends (total : Nat) :
    Descends (appendStep buf total) (fun s => total - s.1) fun _ => True := by
  rintro ⟨pos, out⟩ s' - h
  refine ⟨trivial, ?_⟩
  dsimp only [appendStep] at h
  split at h
  · cases h
  · split at h
    · cases h
    · split at h
      · cases h
      · split at h
        · cases h
        · split at h <;> cases h
          dsimp only
          omega

/-- The size line of a chunk, as `append_body` reads it. -/
theorem append_sizeLine {total n : Nat} {ds e r : List UInt8} (hd : HexSize ds n)
    (hn : n ≤ maxLength) (he : ChunkExt e)
    (hb : (buf.take total).drop pos = ds ++ (e ++ (crlf ++ r))) :
    hexRun appendBound ((buf.take total).drop pos) 0 0 = some (n, ds.length) ∧ pos < total ∧
      ¬ (ds.length = 0 ∨ total ≤ pos + ds.length ∨ (buf[pos + ds.length]? ≠ some cr ∧
        buf[pos + ds.length]? ≠ some semicolon ∧ buf[pos + ds.length]? ≠ some sp ∧
        buf[pos + ds.length]? ≠ some htab)) ∧
      (((buf.take total).drop (pos + ds.length)).takeWhile (· != cr)).length = e.length := by
  have hrun := hexRun_run appendBound_anti hd (decide_eq_true hn) (he.notAt_hex r)
  have hlen := congrArg List.length hb
  simp only [List.length_drop, List.length_take, List.length_append, crlf, List.length_cons] at hlen
  have hrest : (buf.take total).drop (pos + ds.length) = e ++ (crlf ++ r) := by
    rw [← List.drop_drop, hb, List.drop_left]
  have hat : buf[pos + ds.length]? = (e ++ (crlf ++ r))[0]? := by
    rw [← hrest, List.getElem?_drop, List.getElem?_take_of_lt (by omega), Nat.add_zero]
  refine ⟨by rw [hb, hrun], by omega, ?_, ?_⟩
  · rw [hat, not_or, not_or]
    refine ⟨fun h0 => hd.1 (List.eq_nil_of_length_eq_zero h0), by omega, ?_⟩
    rcases he.start with rfl | ⟨o, t, ho, rfl⟩
    · exact fun h => h.1 rfl
    · cases o with
      | nil => exact fun h => h.2.1 rfl
      | cons c o =>
          have hc := ho c (by simp)
          rintro ⟨-, -, hsp, htab⟩
          simp only [isOws, Bool.or_eq_true, beq_iff_eq] at hc
          rcases hc with rfl | rfl
          · exact hsp rfl
          · exact htab rfl
  · have hcr : ∀ c ∈ e, (c != cr) = true := by
      intro c hc
      rw [bne_iff_ne]
      rintro rfl
      have := he.no_ctl _ hc
      revert this
      decide
    have hstop : NotAt (· != cr) (crlf ++ r) := notAt_cons.mpr (by decide)
    rw [hrest, takeWhile_run hcr hstop]

/-- **Appending.**  The loop of `append_body` over a chunked body. -/
theorem appendLoop_spec {raw body : List UInt8} (hdata : ChunkedData raw body)
    (hb : buf.drop pos = raw ++ rest) (out : List UInt8) :
    loop (appendStep buf (pos + raw.length)) (fun s => pos + raw.length - s.1) ([], true)
      (pos, out) = (out ++ body, true) := by
  have hraw {raw : List UInt8} {pos : Nat} (hb : buf.drop pos = raw ++ rest) :
      (buf.take (pos + raw.length)).drop pos = raw := by
    rw [List.drop_take, hb, Nat.add_sub_cancel_left, List.take_left]
  generalize htotal : pos + raw.length = total
  induction hdata generalizing pos out with
  | @last ds e t hd hok he ht =>
      have hline := hraw hb
      rw [htotal] at hline
      obtain ⟨hrun, hlt, hsep, -⟩ := append_sizeLine hd (Nat.zero_le _) he hline
      refine loop_exit ?_
      dsimp only [appendStep]
      rw [if_neg (by omega), hrun]
      dsimp only
      rw [if_neg hsep, if_pos rfl, List.append_nil]
  | @chunk c d r body hc hr ih =>
      have hline := hraw hb
      rw [htotal] at hline
      rw [List.append_assoc] at hb
      have hdata := hc
      obtain ⟨ds, e, rfl, hd, hok, hne0, he⟩ := hc
      have hsplit : ds ++ (e ++ (crlf ++ (d ++ crlf))) ++ r =
          ds ++ (e ++ (crlf ++ (d ++ (crlf ++ r)))) := by simp
      rw [hsplit] at hline
      obtain ⟨hrun, hlt, hsep, hskip⟩ :=
        append_sizeLine hd (sizeBound_iff.mp hok).1 he hline
      have hlen : pos + (ds.length + (e.length + (2 + (d.length + 2)))) + r.length = total := by
        simp only [List.length_append, crlf, List.length_cons, List.length_nil] at htotal
        omega
      have hbytes : (buf.drop (pos + ds.length + e.length + 2)).take d.length = d := by
        have hfront : ds ++ (e ++ (crlf ++ (d ++ crlf))) ++ (r ++ rest) =
            (ds ++ (e ++ crlf)) ++ (d ++ (crlf ++ (r ++ rest))) := by simp
        have hat : pos + ds.length + e.length + 2 = pos + (ds ++ (e ++ crlf)).length := by
          simp only [List.length_append, crlf, List.length_cons, List.length_nil]
          omega
        rw [hat, ← List.drop_drop, hb, hfront, List.drop_left, List.take_left]
      have hstep : appendStep buf total (pos, out) =
          .next (pos + (ds ++ (e ++ (crlf ++ (d ++ crlf)))).length, out ++ d) := by
        dsimp only [appendStep]
        rw [if_neg (by omega), hrun]
        dsimp only
        rw [if_neg hsep, hskip, if_neg fun h0 => hne0 (List.eq_nil_of_length_eq_zero h0),
          if_neg (by omega), hbytes]
        simp only [List.length_append, crlf, List.length_cons, List.length_nil]
        congr 2
        omega
      rw [loop_next (appendStep_descends total) trivial hstep,
        ih (by rw [← List.drop_drop, hb, List.drop_left]) (out ++ d)
          (by simp only [List.length_append] at htotal ⊢; omega), List.append_assoc]

end Append

/-! ### The field lines of a head -/

section Fields

variable {buf : List UInt8} {bodyless : Bool} {s s' : RespState} {pos n : Nat}

/-- Induction on the lines of a head that is read to its end. -/
theorem fieldsAt_induction {P : Nat → RespState → Prop}
    (hend : ∀ pos, cutLine cr lf (buf.drop pos) = .line [] → n = pos + 2 → P pos s')
    (hline : ∀ pos s l s₁, cutLine cr lf (buf.drop pos) = .line l → l ≠ [] →
      responseFold bodyless s l = .ok s₁ →
      fieldsAt bodyless s₁ buf (pos + (l.length + 2)) = .accept (s', n) →
      P (pos + (l.length + 2)) s₁ → P pos s)
    (h : fieldsAt bodyless s buf pos = .accept (s', n)) : P pos s := by
  induction hk : buf.length - pos using Nat.strongRecOn generalizing pos s with
  | ind k ih =>
      subst hk
      cases hcut : cutLine cr lf (buf.drop pos) with
      | more => rw [fieldsAt_more hcut] at h; cases h
      | bare => rw [fieldsAt_bare hcut] at h; cases h
      | line l =>
          by_cases hl : l = []
          · subst hl
            rw [fieldsAt_empty hcut] at h
            cases h
            exact hend pos hcut rfl
          · rw [fieldsAt_line hcut hl] at h
            cases hfold : responseFold bodyless s l with
            | error e => rw [hfold] at h; cases h
            | ok s₁ =>
                rw [hfold] at h
                have hlen := (cutLine_end hcut).2
                exact hline pos s l s₁ hcut hl hfold h (ih _ (by omega) h rfl)

/-- The head ends at the same place for a reader that reads no field. -/
theorem fieldsAt_skip (h : fieldsAt bodyless s buf pos = .accept (s', n)) (t : RespState) :
    fieldsAt true t buf pos = .accept (t, n) := by
  refine fieldsAt_induction (P := fun pos _ => fieldsAt true t buf pos = .accept (t, n)) ?_ ?_ h
  · rintro pos hcut rfl
    rw [fieldsAt_empty hcut]
  · intro pos s l s₁ hcut hl _ _ ih
    rw [fieldsAt_line hcut hl]
    exact ih

theorem headLen_of_fields {l : List UInt8} (hcut : cutLine cr lf buf = .line l)
    (h : fieldsAt bodyless s buf (l.length + 2) = .accept (s', n)) : headLen buf = .accept n := by
  rw [headLen_eq, hcut]
  dsimp only
  rw [fieldsAt_skip h {}]
  rfl

/-- No line has both names. -/
theorem fieldValue_other {l : List UInt8} {v : Nat × Nat}
    (h : fieldValue l 0 l.length (ascii "content-length") = some v) :
    fieldValue l 0 l.length (ascii "transfer-encoding") = none := by
  have hhead {name : List UInt8} {v : Nat × Nat} (h : fieldValue l 0 l.length name = some v) :
      (l.take name.length).map lower = name := by
    unfold fieldValue at h
    simp only [Nat.sub_zero, List.drop_zero, List.take_length] at h
    split at h
    · cases h
    · split at h
      · cases h
      · rename_i hne
        exact not_not.mp hne
  cases hte : fieldValue l 0 l.length (ascii "transfer-encoding") with
  | none => rfl
  | some v' =>
      have h₁ := congrArg List.head? (hhead h)
      have h₂ := congrArg List.head? (hhead hte)
      cases l with
      | nil => simp [fieldValue, ascii] at h
      | cons c l =>
          have e₁ : some (lower c) = some 99 := h₁
          have e₂ : some (lower c) = some 116 := h₂
          rw [e₁] at e₂
          cases e₂

/-- A field line of a response with a body, to the reader of Transfer-Encoding. -/
theorem responseFold_chunked {l : List UInt8} (h : responseFold false s l = .ok s') :
    s'.chunked = (s.chunked ||
      (fieldValue l 0 l.length (ascii "transfer-encoding")).isSome) := by
  unfold responseFold responseOf responseField at h
  simp only [Bool.false_eq_true, if_false] at h
  cases hcl : fieldValue l 0 l.length (ascii "content-length") with
  | some v =>
      rw [fieldValue_other hcl]
      simp only [hcl] at h
      cases hn : parseContentLength (window l v) with
      | none => simp [hn] at h
      | some m =>
          simp only [hn] at h
          split at h
          · cases h
          · rename_i hif
            split at hif <;> cases hif
            cases h
            simp
  | none =>
      simp only [hcl] at h
      cases hte : fieldValue l 0 l.length (ascii "transfer-encoding") with
      | none =>
          simp only [hte] at h
          cases h
          simp
      | some v =>
          simp only [hte] at h
          split at h
          · cases h
          · rename_i hif
            split at hif <;> cases hif
            cases h
            simp

/-- `header_value_in` at a line of the head. -/
theorem headerValueStep_line {l : List UInt8} (name : List UInt8)
    (hcut : cutLine cr lf (buf.drop pos) = .line l) (hn : pos + 2 < n) :
    headerValueStep buf n name pos =
      match fieldValue l 0 l.length name with
      | some v => .exit (some (pos + v.1, v.2))
      | none => .next (pos + (l.length + 2)) := by
  have hat := lfAt buf pos
  rw [hcut] at hat
  cases hat with
  | line hl hc ht =>
      rw [headerValueStep, if_pos hn, hl]
      dsimp only
      rw [show pos + (l.length + 1) - 1 = pos + l.length by omega, fieldValue_line ht]
      cases fieldValue l 0 l.length name with
      | some v => rfl
      | none => rfl

/-- **Chunked is Transfer-Encoding.**  The head walk notes it where `header_value_in` finds it. -/
theorem headerValueIn_chunked {l : List UInt8} (hcut : cutLine cr lf buf = .line l)
    (h : fieldsAt false {} buf (l.length + 2) = .accept (s', n)) :
    (headerValueIn buf 0 n (ascii "transfer-encoding")).isSome = s'.chunked := by
  have hdesc : Descends (headerValueStep buf n (ascii "transfer-encoding"))
      (fun pos => buf.length - pos) fun pos => ∃ s, fieldsAt false s buf pos = .accept (s', n) := by
    rintro pos pos' ⟨s, hs⟩ hstep
    cases hcut : cutLine cr lf (buf.drop pos) with
    | more => rw [fieldsAt_more hcut] at hs; cases hs
    | bare => rw [fieldsAt_bare hcut] at hs; cases hs
    | line l =>
        by_cases hl : l = []
        · subst hl
          rw [fieldsAt_empty hcut] at hs
          cases hs
          rw [headerValueStep, if_neg (by omega)] at hstep
          cases hstep
        · rw [fieldsAt_line hcut hl] at hs
          cases hfold : responseFold false s l with
          | error e => rw [hfold] at hs; cases hs
          | ok s₁ =>
              rw [hfold] at hs
              have hlt := (fieldsAt_bounds hs).1
              rw [headerValueStep_line _ hcut (by omega)] at hstep
              split at hstep <;> cases hstep
              have := (cutLine_end hcut).2
              exact ⟨⟨s₁, hs⟩, by dsimp only; omega⟩
  have hloop : ∀ {pos s}, fieldsAt false s buf pos = .accept (s', n) →
      s'.chunked = (s.chunked || (loop (headerValueStep buf n (ascii "transfer-encoding"))
        (fun pos => buf.length - pos) none pos).isSome) := by
    intro pos s h
    refine fieldsAt_induction (P := fun pos s => s'.chunked = (s.chunked ||
      (loop (headerValueStep buf n (ascii "transfer-encoding"))
        (fun pos => buf.length - pos) none pos).isSome)) ?_ ?_ h
    · rintro pos - rfl
      rw [loop_exit (a := none) (by rw [headerValueStep, if_neg (by omega)])]
      simp
    · intro pos s l s₁ hcut hl hfold hrest ih
      have hlt := (fieldsAt_bounds hrest).1
      have hstep := headerValueStep_line (ascii "transfer-encoding") hcut
        (show pos + 2 < n by omega)
      rw [responseFold_chunked hfold] at ih
      cases hte : fieldValue l 0 l.length (ascii "transfer-encoding") with
      | some v =>
          rw [hte] at hstep ih
          rw [loop_exit hstep, ih]
          simp
      | none =>
          rw [hte] at hstep ih
          have hs : fieldsAt false s buf pos = .accept (s', n) := by
            rw [fieldsAt_line hcut hl, hfold]
            exact hrest
          rw [loop_next hdesc ⟨s, hs⟩ hstep, ih]
          simp
  have hat := lfAt buf 0
  rw [List.drop_zero, hcut] at hat
  cases hat with
  | line hl hc ht =>
      rw [headerValueIn, hl]
      dsimp only
      rw [show 0 + (l.length + 1) + 1 = l.length + 2 by omega, hloop h, Bool.false_or]

end Fields

/-! ### The head a framer has read -/

namespace Framer

/-- The framer is behind the head at the front of the buffer, and has its fields. -/
structure HeadRead (buf : List UInt8) (f : Framer) : Prop where
  line : ∃ l, cutLine cr lf buf = .line l ∧ f.status = statusAt (l ++ crlf) 0 ∧
    fieldsAt f.bodyless {} buf (l.length + 2) = .accept (f.fields, f.headLen)
  bodyless : f.bodyless = bodylessStatus f.status
  status : 100 ≤ f.status
  final : ¬ Interim f.status

/-- The framer is in the head at the front of the buffer. -/
structure InHead (buf : List UInt8) (f : Framer) : Prop where
  request : f.headRequest = false
  fresh : f.pos = 0 → f.fields = {}
  read : f.pos ≠ 0 → 100 ≤ f.status ∧ f.bodyless = bodylessStatus f.status ∧
    ∃ l, cutLine cr lf buf = .line l ∧ f.status = statusAt (l ++ crlf) 0 ∧
      fieldsAt f.bodyless {} buf (l.length + 2) = fieldsAt f.bodyless f.fields buf f.pos

/-- What the framer knows of the head, unless it has skipped an interim response. -/
def KnowsHead (buf : List UInt8) (f : Framer) : Prop :=
  f.start = 0 → (f.stage = .head → InHead buf f) ∧ (f.stage ≠ .head → HeadRead buf f)

section Knows

variable {buf l : List UInt8} {eof : Bool} {f g : Framer}

theorem headFinal_read (hp : f.start = 0) (hr : f.pos ≠ 0)
    (hin : InHead buf f) (hcut : cutLine cr lf (buf.drop f.pos) = .line [])
    (hfinal : ¬ (f.status < 200 ∧ f.status ≠ 101)) :
    HeadRead buf (f.headFinal (f.pos + 2)) ∧ (f.headFinal (f.pos + 2)).stage ≠ .head := by
  obtain ⟨h100, hbl, l, hl, hst, hfields⟩ := hin.read hr
  rw [fieldsAt_empty hcut] at hfields
  have hhead : (f.headFinal (f.pos + 2)).status = f.status ∧
      (f.headFinal (f.pos + 2)).bodyless = f.bodyless ∧
      (f.headFinal (f.pos + 2)).fields = f.fields ∧
      (f.headFinal (f.pos + 2)).headLen = f.pos + 2 ∧
      (f.headFinal (f.pos + 2)).stage ≠ .head := by
    unfold headFinal fields
    dsimp only
    split
    · exact ⟨rfl, rfl, rfl, by rw [hp]; rfl, by simp⟩
    · split
      · exact ⟨rfl, rfl, rfl, by rw [hp]; rfl, by simp⟩
      · cases f.contentLength <;> exact ⟨rfl, rfl, by simp, by rw [hp]; rfl, by simp⟩
  obtain ⟨e₁, e₂, e₃, e₄, e₅⟩ := hhead
  refine ⟨⟨⟨l, hl, by rw [e₁, hst], by rw [e₂, e₃, e₄, hfields]⟩, by rw [e₁, e₂, hbl],
    by rw [e₁]; exact h100, ?_⟩, e₅⟩
  rw [e₁]
  exact fun h => hfinal h.2

theorem lineStep_knows (hst : f.stage = .head) (hk : KnowsHead buf f)
    (hcut : cutLine cr lf (buf.drop f.pos) = .line l) (h : f.lineStep l = .next g) :
    KnowsHead buf g := by
  unfold lineStep at h
  split at h
  · rename_i hpos
    dsimp only at h
    split at h
    · cases h
    · rename_i h100
      cases h
      intro hstart
      have hin := (hk hstart).1 hst
      have hp0 : f.pos = 0 := hpos.trans hstart
      have hstatus := statusOf_status f l
      rw [hstatus] at h100
      obtain ⟨-, hbl, hfields, hreq⟩ := statusOf_facts f l (by omega)
      rw [hin.request, Bool.false_or, ← hstatus] at hbl
      rw [hp0, List.drop_zero] at hcut
      refine ⟨fun _ => ⟨hreq.trans hin.request, fun h0 => ?_,
        fun _ => ⟨?_, hbl, l, hcut, hstatus, ?_⟩⟩,
        fun hne => absurd (statusOf_stage f l ▸ hst) hne⟩
      · have : f.pos + (l.length + 2) = 0 := by rw [← statusOf_pos f l]; exact h0
        omega
      · exact hstatus ▸ Int.not_lt.mp h100
      · have e : ((f.statusOf l).advance (l.length + 2)).fields = {} :=
          hfields.trans (hin.fresh hp0)
        have e' : ((f.statusOf l).advance (l.length + 2)).pos = l.length + 2 := by
          show (f.statusOf l).pos + (l.length + 2) = _
          rw [statusOf_pos, hp0, Nat.zero_add]
        rw [e, e']
  · rename_i hpos
    split at h
    · rename_i hl
      cases h
      subst hl
      unfold headDone
      split
      · intro hstart
        have : f.pos + 2 = 0 := hstart
        omega
      · rename_i hfinal
        intro hstart
        have hstart' : f.start = 0 := by
          have e : (f.headFinal (f.pos + 2)).start = f.start := by
            unfold headFinal
            dsimp only
            split
            · rfl
            · split
              · rfl
              · cases f.contentLength <;> rfl
          rw [← e]
          exact hstart
        have hin := (hk hstart').1 hst
        obtain ⟨hread, hstage⟩ := headFinal_read hstart' (by omega) hin hcut hfinal
        exact ⟨fun h => absurd h hstage, fun _ => hread⟩
    · rename_i hl
      split at h
      · cases h
      · rename_i g' hf
        cases h
        obtain ⟨hfold, hbl, hstatus, hstart', hreq⟩ := fieldOf_some hf
        intro hstart
        have hs0 : f.start = 0 := hstart'.symm.trans hstart
        have hin := (hk hs0).1 hst
        obtain ⟨h100, hbl', l', hl', hst', hfields⟩ := hin.read (by omega)
        rw [fieldsAt_line hcut hl, hfold] at hfields
        refine ⟨fun _ => ⟨hreq.trans hin.request, fun h0 => ?_, fun _ =>
          ⟨hstatus ▸ h100, ?_, l', hl', hstatus.trans hst', ?_⟩⟩,
          fun hne => absurd (fieldOf_stage hf ▸ hst) hne⟩
        · have : g'.pos + (l.length + 2) = 0 := h0
          omega
        · show g'.bodyless = bodylessStatus g'.status
          rw [hbl, hstatus, hbl']
        · show fieldsAt g'.bodyless {} buf (l'.length + 2) =
            fieldsAt g'.bodyless g'.fields buf (g'.pos + (l.length + 2))
          rw [hbl, fieldOf_pos hf]
          exact hfields

/-- Behind the head only places change. -/
theorem KnowsHead.moved (hk : KnowsHead buf f) (hst : f.stage ≠ .head) (st : Stage)
    (pos need : Nat) (endAt : Int) (hne : st ≠ .head) :
    KnowsHead buf { f with stage := st, pos := pos, need := need, endAt := endAt } := by
  intro h0
  have hread := (hk h0).2 hst
  exact ⟨fun h => absurd h hne, fun _ => ⟨hread.line, hread.bodyless, hread.status, hread.final⟩⟩

/-- A pass keeps what the framer knows of the head. -/
theorem feedStep_knows (hp : Placed buf f) (hk : KnowsHead buf f)
    (h : feedStep buf eof f = .next g) : KnowsHead buf g := by
  cases hst : f.stage with
  | head =>
      rw [feedStep_head hst, headStep_eq ((placed_head hst).mp hp)] at h
      cases hcut : cutLine cr lf (buf.drop f.pos) with
      | more => rw [hcut] at h; cases h
      | bare => rw [hcut] at h; cases h
      | line l =>
          rw [hcut] at h
          exact lineStep_knows hst hk hcut h
  | bodyLen =>
      simp only [feedStep, hst] at h
      split at h <;> cases h
      exact hk.moved (by simp [hst]) .done _ _ _ (by decide)
  | chunkSize =>
      simp only [feedStep, hst] at h
      split at h
      · cases h
      · cases h
      · split at h <;> cases h
        · exact hk.moved (by simp [hst]) .trailers _ _ _ (by decide)
        · exact hk.moved (by simp [hst]) .chunkData _ _ _ (by decide)
  | chunkData =>
      simp only [feedStep, hst] at h
      split at h
      · cases h
      · split at h <;> cases h
        exact hk.moved (by simp [hst]) .chunkSize _ _ _ (by decide)
  | trailers =>
      simp only [feedStep, hst] at h
      split at h
      · cases h
      · cases h
      · split at h <;> cases h
        · exact hk.moved (by simp [hst]) .done _ _ _ (by decide)
        · exact hk.moved (by simp [hst]) .trailers _ _ _ (by decide)
  | untilClose =>
      simp only [feedStep, hst] at h
      split at h <;> cases h
      exact hk.moved (by simp [hst]) .done _ _ _ (by decide)
  | done => simp only [feedStep, hst] at h; cases h
  | failed => simp only [feedStep, hst] at h; cases h

/-- A pass that leaves the framer done has found it done. -/
theorem feedStep_exit_done {p : Framer × Int} (hp : Placed buf f)
    (h : feedStep buf eof f = .exit p) (hdone : p.1.stage = .done) :
    p = (f, f.endAt) ∧ f.stage = .done := by
  have hshort (g : Framer) (hg : g.stage ≠ .done) (h : .exit (g.short eof) =
      (Turn.exit p : Turn Framer (Framer × Int))) : False := by
    cases h
    cases eof with
    | false => exact hg hdone
    | true => cases hdone
  cases hst : f.stage with
  | head =>
      rw [feedStep_head hst, headStep_eq ((placed_head hst).mp hp)] at h
      cases hcut : cutLine cr lf (buf.drop f.pos) with
      | more =>
          rw [hcut] at h
          exact (hshort { f with scan := buf.length } (by simp [hst]) h).elim
      | bare =>
          rw [hcut] at h
          cases h
          cases hdone
      | line l =>
          rw [hcut] at h
          simp only [lineStep] at h
          split at h
          · split at h
            · cases h
              cases hdone
            · cases h
          · split at h
            · cases h
            · split at h
              · cases h
                cases hdone
              · cases h
  | bodyLen =>
      simp only [feedStep, hst] at h
      split at h
      · exact (hshort f (by simp [hst]) h).elim
      · cases h
  | chunkSize =>
      simp only [feedStep, hst] at h
      split at h
      · exact (hshort f (by simp [hst]) h).elim
      · cases h
        cases hdone
      · split at h <;> cases h
  | chunkData =>
      simp only [feedStep, hst] at h
      split at h
      · exact (hshort f (by simp [hst]) h).elim
      · split at h
        · cases h
          cases hdone
        · cases h
  | trailers =>
      simp only [feedStep, hst] at h
      split at h
      · exact (hshort f (by simp [hst]) h).elim
      · cases h
        cases hdone
      · split at h <;> cases h
  | untilClose =>
      simp only [feedStep, hst] at h
      split at h
      · cases h
        exact absurd (hst.symm.trans hdone) (by decide)
      · cases h
  | done =>
      simp only [feedStep, hst] at h
      cases h
      exact ⟨rfl, rfl⟩
  | failed =>
      simp only [feedStep, hst] at h
      cases h
      exact absurd (hst.symm.trans hdone) (by decide)

/-- **The head of a framed response.** -/
theorem framed_head (buf : List UInt8) (eof : Bool)
    (hdone : ((reset false).feed buf eof).1.stage = .done) :
    ((reset false).feed buf eof).2 = ((reset false).feed buf eof).1.endAt ∧
      0 ≤ ((reset false).feed buf eof).1.endAt ∧
      (((reset false).feed buf eof).1.start = 0 → HeadRead buf ((reset false).feed buf eof).1) := by
  have hd : Descends (feedStep buf eof) (passes buf)
      fun f => Placed buf f ∧ f.Reads ∧ KnowsHead buf f := by
    rintro f g ⟨hp, hr, hk⟩ e
    obtain ⟨hp', hlt⟩ := feedStep_next hp e
    have hr' : Keeps buf eof f (.next g) := e ▸ feedStep_verdict hp hr
    exact ⟨⟨hp', hr'.1, feedStep_knows hp hk e⟩, hlt⟩
  have hp : Placed buf (reset false) := (placed_reset false).grow buf
  have hr : (reset false).Reads := ⟨rfl, Nat.le_refl 0, fun _ => rfl, fun h => absurd rfl h⟩
  have hk : KnowsHead buf (reset false) := fun _ =>
    ⟨fun _ => ⟨rfl, fun _ => rfl, fun h => absurd rfl h⟩, fun h => absurd rfl h⟩
  refine loop_rule hd (P := fun _ p => p.1.stage = .done →
    p.2 = p.1.endAt ∧ 0 ≤ p.1.endAt ∧ (p.1.start = 0 → HeadRead buf p.1)) ?_ ?_ ⟨hp, hr, hk⟩ hdone
  · rintro f p ⟨hp, hr, hk⟩ e hdone
    obtain ⟨rfl, hst⟩ := feedStep_exit_done hp e hdone
    exact ⟨rfl, by simpa only [Reads, hst] using hr, fun h0 => (hk h0).2 (by simp [hst])⟩
  · intro f g p _ _ ih hdone
    exact ih hdone

end Knows

end Framer

theorem frameTrailerSection_refuse {buf : List UInt8} {start : Nat} {e : ClientErr}
    (h : frameTrailerSection buf start = .refuse e) : e = .malformed := by
  have hsame := frameTrailerSection_same buf start
  rw [h] at hsame
  generalize RequestParser.frameTrailerSection buf start 0 = r at hsame
  cases hsame
  rfl

theorem frameChunkedBody_refuse {buf : List UInt8} {pos : Nat} {e : ClientErr}
    (h : frameChunkedBody buf pos = .refuse e) : e = .malformed := by
  revert h
  refine loop_rule chunkedStep_descends (P := fun _ a => a = .refuse e → e = .malformed) ?_
    (fun _ _ _ _ _ ih => ih) trivial
  intro pos a _ h ha
  subst ha
  unfold chunkedStep at h
  split at h
  · cases h
  · rename_i hs
    cases h
    exact chunkSizeLine_refuse hs
  · split at h
    · exact frameTrailerSection_refuse (Turn.exit.inj h)
    · dsimp only at h
      split at h
      · cases h
      · split at h <;> cases h
        rfl

/-! ### The body -/

/-- Where the body of a framed response is: none, the chunks, or all up to the end. -/
structure BodyAt (buf : List UInt8) (f : Framer) (raw rest : List UInt8) : Prop where
  split : buf.drop f.headLen = raw ++ rest
  head : f.headLen ≤ buf.length
  ends : f.endAt = (f.headLen + raw.length : Nat)
  bodyless : f.bodyless = true → raw = []
  chunked : f.isChunked = true → ∃ body, ChunkedData raw body

theorem answerFor_more_neg (buf : List UInt8) (eof : Bool) :
    ¬ 0 ≤ Framer.answerFor buf eof .more := by
  cases eof with
  | false => exact show ¬ (0 : Int) ≤ incomplete by decide
  | true => exact show ¬ (0 : Int) ≤ ClientErr.truncated.code by decide

theorem framed_body {buf : List UInt8} (eof : Bool) {f : Framer} (hread : f.HeadRead buf)
    (hanswer : f.endAt = Framer.answerFor buf eof (finalAt buf 0)) (hpos : 0 ≤ f.endAt) :
    ∃ raw rest, BodyAt buf f raw rest := by
  obtain ⟨l, hcut, hst, hfields⟩ := hread.line
  have hhead := (fieldsAt_bounds hfields).2
  have h100 := hread.status
  rw [finalAt_line (l := l) (by rw [List.drop_zero]; exact hcut), Nat.zero_add, ← hst,
    if_neg (by omega), ← hread.bodyless, hfields, Verdict.bind_accept, behindHead,
    if_neg hread.final, ← hread.bodyless, responseBody] at hanswer
  dsimp only at hanswer
  split at hanswer
  · rename_i hbl
    exact ⟨[], buf.drop f.headLen, rfl, hhead, hanswer, fun _ => rfl, fun h => by
      simp [Framer.isChunked, hbl] at h⟩
  · rename_i hbl
    split at hanswer
    · rename_i hte
      cases hframe : frameChunkedBody buf f.headLen with
      | more =>
          rw [hframe] at hanswer
          exact absurd (hanswer ▸ hpos) (answerFor_more_neg buf eof)
      | refuse e =>
          cases frameChunkedBody_refuse hframe
          rw [hframe] at hanswer
          rw [hanswer] at hpos
          exact absurd hpos (show ¬ (0 : Int) ≤ ClientErr.malformed.code by decide)
      | accept n =>
          rw [hframe] at hanswer
          obtain ⟨raw, body, rest, hsplit, hdata, rfl⟩ := frameChunkedBody_accept hframe
          exact ⟨raw, rest, hsplit, hhead, hanswer, fun h => absurd h hbl, fun _ => ⟨body, hdata⟩⟩
    · rename_i hte
      have hplain : ¬ f.isChunked = true := by
        intro h
        rw [Framer.isChunked, Bool.and_eq_true] at h
        exact hte h.1
      split at hanswer
      · cases eof with
        | false =>
            rw [hanswer] at hpos
            exact absurd hpos (show ¬ (0 : Int) ≤ incomplete by decide)
        | true =>
            refine ⟨buf.drop f.headLen, [], (List.append_nil _).symm, hhead, ?_,
              fun h => absurd h hbl, fun h => absurd h hplain⟩
            rw [hanswer, List.length_drop, Nat.add_sub_cancel' hhead]
            rfl
      · rename_i n hn
        split at hanswer
        · exact absurd (hanswer ▸ hpos) (answerFor_more_neg buf eof)
        · rename_i hlen
          refine ⟨(buf.drop f.headLen).take n, (buf.drop f.headLen).drop n,
            (List.take_append_drop ..).symm, hhead, ?_, fun h => absurd h hbl,
            fun h => absurd h hplain⟩
          rw [hanswer, List.length_take, List.length_drop, Nat.min_eq_left (by omega)]
          rfl

/-- What `append_body` appends of a framed response. -/
theorem appendBody_framed {buf raw rest body : List UInt8} {f : Framer} (hread : f.HeadRead buf)
    (hat : BodyAt buf f raw rest) (hchunked : f.isChunked = true → ChunkedData raw body)
    (hplain : f.isChunked = false → body = raw) :
    appendBody buf f.endAt.toNat = (body, true) := by
  obtain ⟨l, hcut, hst, hfields⟩ := hread.line
  rw [appendBody, headLen_of_fields hcut hfields]
  dsimp only
  rw [hat.ends, Int.toNat_natCast]
  split
  · rename_i hle
    have hnil : raw = [] := List.eq_nil_of_length_eq_zero (by omega)
    cases hch : f.isChunked with
    | false => rw [hplain hch, hnil]
    | true => exact absurd hnil (hchunked hch).ne_nil
  · rename_i hlt
    have hbl : f.bodyless = false := by
      cases hbl : f.bodyless with
      | false => rfl
      | true =>
          rw [hat.bodyless hbl, List.length_nil] at hlt
          omega
    rw [hbl] at hfields
    have hte := headerValueIn_chunked hcut hfields
    have hch : f.isChunked = f.te := by rw [Framer.isChunked, hbl]; simp
    rw [headerValueFrom]
    cases hv : headerValueIn buf 0 f.headLen (ascii "transfer-encoding") with
    | none =>
        rw [hv] at hte
        have hfalse : f.isChunked = false := hch.trans hte.symm
        rw [hplain hfalse, Nat.add_sub_cancel_left, hat.split, List.take_left]
    | some v =>
        rw [hv] at hte
        have htrue : f.isChunked = true := hch.trans hte.symm
        dsimp only
        rw [appendLoop_spec (hchunked htrue) hat.split, List.nil_append]

/-- `body_in_place` of a framed response, the first time. -/
theorem bodyInPlace_framed {buf raw rest body : List UInt8} {f : Framer} (hdone : f.stage = .done)
    (hstart : f.start = 0) (hat : BodyAt buf f raw rest)
    (hchunked : f.isChunked = true → ChunkedData raw body)
    (hplain : f.isChunked = false → body = raw) :
    ∃ raw', raw'.length = raw.length ∧ body <+: raw' ∧
      bodyInPlace { framer := f } buf =
        (⟨f, f.isChunked, body.length⟩, buf.take f.headLen ++ (raw' ++ rest), body) := by
  have hbuf : buf.take f.headLen ++ (raw ++ rest) = buf := by
    rw [← hat.split, List.take_append_drop]
  cases hch : f.isChunked with
  | false =>
      have hlen : (f.endAt - (0 + f.headLen : Nat)).toNat = raw.length := by
        rw [hat.ends]
        omega
      refine ⟨raw, rfl, hplain hch ▸ List.prefix_refl _, ?_⟩
      rw [bodyInPlace, if_neg (not_not.mpr hdone)]
      dsimp only
      rw [hch, if_neg (by simp), if_neg (by simp), hstart, hlen, hbuf, hplain hch, Nat.zero_add,
        hat.split, List.take_left]
  | true =>
      obtain ⟨hw, htake, hdrop, hlen, hle⟩ := dechunk_spec (hchunked hch) hat.split
        (Nat.le_refl _) hat.head
      generalize hs : dechunk ⟨buf, f.headLen, f.headLen⟩ = s at hw htake hdrop hlen
      have hfit := hat.head
      have hraw := congrArg List.length hat.split
      rw [List.length_drop, List.length_append] at hraw
      have hhead : s.buf.take f.headLen = buf.take f.headLen := by
        have h := congrArg (List.take f.headLen) htake
        rw [List.take_take, Nat.min_eq_left (Nat.le_add_right _ _)] at h
        rw [h, List.take_left' (by rw [List.length_take]; omega)]
      have hbody : (s.buf.drop f.headLen).take body.length = body := by
        have h := congrArg (List.drop f.headLen) htake
        rwa [List.drop_take, Nat.add_sub_cancel_left,
          List.drop_left' (by rw [List.length_take]; omega)] at h
      refine ⟨(s.buf.drop f.headLen).take raw.length, ?_, ?_, ?_⟩
      · rw [List.length_take, List.length_drop]
        omega
      · refine ⟨((s.buf.drop f.headLen).take raw.length).drop body.length, ?_⟩
        have h := List.take_append_drop body.length ((s.buf.drop f.headLen).take raw.length)
        rwa [List.take_take, Nat.min_eq_left (by omega), hbody] at h
      · have hall : buf.take f.headLen ++ ((s.buf.drop f.headLen).take raw.length ++ rest) =
            s.buf := by
          rw [← hhead, ← hdrop, ← List.drop_drop, List.take_append_drop, List.take_append_drop]
        rw [bodyInPlace, if_neg (not_not.mpr hdone)]
        dsimp only
        rw [hch, if_pos ⟨rfl, by simp⟩, hstart, Nat.zero_add, hs, hw, Nat.add_sub_cancel_left,
          hall, hbody]

/-- `body_in_place` again. -/
theorem bodyInPlace_again {raw' front rest body : List UInt8} {f : Framer} (hdone : f.stage = .done)
    (hstart : f.start = 0) (hfront : front.length = f.headLen) (hbody : body <+: raw')
    (hplain : f.isChunked = false → f.endAt = (f.headLen + body.length : Nat)) :
    bodyInPlace ⟨f, f.isChunked, body.length⟩ (front ++ (raw' ++ rest)) =
      (⟨f, f.isChunked, body.length⟩, front ++ (raw' ++ rest), body) := by
  obtain ⟨stale, rfl⟩ := hbody
  have hview : ((front ++ (body ++ stale ++ rest)).drop (0 + f.headLen)).take body.length =
      body := by
    rw [Nat.zero_add, List.drop_left' hfront, List.append_assoc, List.take_left]
  rw [bodyInPlace, if_neg (not_not.mpr hdone)]
  dsimp only
  cases hch : f.isChunked with
  | false =>
      have hlen : (f.endAt - (0 + f.headLen : Nat)).toNat = body.length := by
        rw [hplain hch]
        omega
      rw [if_neg (by simp), if_neg (by simp), hstart, hlen, hview]
  | true => rw [if_neg (by simp), if_pos rfl, hstart, hview]

/-- A response framed from any reads of its buffer, none before it. -/
theorem framed_alone {eof : Bool} {ps : List (List UInt8)} {buf : List UInt8}
    (hps : (ps ++ [buf]).Pairwise (· <+: ·)) {f : Framer}
    (hf : f = (feedAll Framer.feed eof (Framer.reset false) ps buf).1) (hdone : f.stage = .done)
    (hstart : f.start = 0) : f.HeadRead buf ∧ ∃ raw rest, BodyAt buf f raw rest := by
  obtain ⟨hview, -⟩ := Framer.feedStep_resumable.feedAll_eq (Framer.placed_reset false) hps eof
  have hg : ((Framer.reset false).feed buf eof).1 =
      f.withScan ((Framer.reset false).feed buf eof).1.scan := hf ▸ Framer.view_eq hview
  have hfresh := Framer.feed_fresh buf eof
  have hhead := Framer.framed_head buf eof
  generalize (Framer.reset false).feed buf eof = p at hg hfresh hhead
  obtain ⟨g, a⟩ := p
  dsimp only at hg hfresh hhead
  -- the note on the search is all they can differ in
  have hdone' : g.stage = .done := by rw [hg]; exact hdone
  have hstart' : g.start = 0 := by rw [hg]; exact hstart
  have hend : g.endAt = f.endAt := by rw [hg]; rfl
  obtain ⟨ha, hpos, hknown⟩ := hhead hdone'
  have hread : f.HeadRead buf := by
    have h := hknown hstart'
    rw [hg] at h
    exact ⟨h.line, h.bodyless, h.status, h.final⟩
  refine ⟨hread, framed_body eof hread ?_ (hend ▸ hpos)⟩
  rw [finalAt, List.drop_zero, Nat.zero_add, ← hfresh, ha, hend]

/-- **The body of a framed response.**  A framer that has framed a response at the start of its
buffer gives, in place, the data of its chunks, or its body as it is; `append_body` gives the same
of the buffer as it was; the buffer is as before but for the body; and asked again, the framer gives
the same. -/
theorem body_in_place_exact (eof : Bool) (ps : List (List UInt8)) (buf : List UInt8)
    (hps : (ps ++ [buf]).Pairwise (· <+: ·)) (f : Framer)
    (hf : f = (feedAll Framer.feed eof (Framer.reset false) ps buf).1) (hdone : f.stage = .done)
    (hstart : f.start = 0) :
    ∃ head raw rest body raw' f', buf = head ++ (raw ++ rest) ∧
      head.length = f.headLen ∧ f.endAt = (head ++ raw).length ∧
      (f.isChunked = true → ChunkedData raw body) ∧ (f.isChunked = false → body = raw) ∧
      appendBody buf f.endAt.toNat = (body, true) ∧
      bodyInPlace { framer := f } buf = (f', head ++ (raw' ++ rest), body) ∧
      raw'.length = raw.length ∧
      bodyInPlace f' (head ++ (raw' ++ rest)) = (f', head ++ (raw' ++ rest), body) := by
  obtain ⟨hread, raw, rest, hat⟩ := framed_alone hps hf hdone hstart
  obtain ⟨body, hchunked, hplain⟩ : ∃ body, (f.isChunked = true → ChunkedData raw body) ∧
      (f.isChunked = false → body = raw) := by
    cases hch : f.isChunked with
    | false => exact ⟨raw, nofun, fun _ => rfl⟩
    | true =>
        obtain ⟨body, hdata⟩ := hat.chunked hch
        exact ⟨body, fun _ => hdata, nofun⟩
  obtain ⟨raw', hlen, hpre, hplace⟩ := bodyInPlace_framed hdone hstart hat hchunked hplain
  have hhead : (buf.take f.headLen).length = f.headLen := by
    rw [List.length_take, Nat.min_eq_left hat.head]
  refine ⟨buf.take f.headLen, raw, rest, body, raw', _, ?_, hhead, ?_, hchunked, hplain,
    appendBody_framed hread hat hchunked hplain, hplace, hlen,
    bodyInPlace_again hdone hstart hhead hpre fun h => ?_⟩
  · rw [← hat.split, List.take_append_drop]
  · rw [List.length_append, hhead]
    exact hat.ends
  · rw [hplain h]
    exact hat.ends

/-- Two chunks, one with an extension, and a trailer. -/
def chunkedReply : List UInt8 :=
  ascii "HTTP/1.1 200 OK\r\nTransfer-Encoding: chunked\r\n\r\n" ++
    ascii "3\r\nabc\r\n2;x=y\r\nde\r\n0\r\nT: v\r\n\r\n"

/-- The framer of that reply, in two reads. -/
def chunkedFramer : Framer :=
  (feedAll Framer.feed false (Framer.reset false) [chunkedReply.take 20] chunkedReply).1

theorem body_in_place_exact_chunks :
    ∃ f' buf', bodyInPlace { framer := chunkedFramer } chunkedReply =
      (f', buf', ascii "abcde") := by
  obtain ⟨head, raw, rest, body, raw', f', -, -, -, -, -, happend, hplace, -⟩ :=
    body_in_place_exact false [chunkedReply.take 20] chunkedReply (by decide +kernel) chunkedFramer
      rfl (by decide +kernel) (by decide +kernel)
  have hbody : appendBody chunkedReply chunkedFramer.endAt.toNat = (ascii "abcde", true) := by
    decide +kernel
  cases happend.symm.trans hbody
  exact ⟨f', _, hplace⟩

end Vanilla.Client

import Vanilla.Http2.Accepted

/-!
# HTTP/2 — the streams of a connection, event by event

The state of a stream has a side that belongs to the request and one that belongs to the response.
Reading requests leaves the response side alone (`SameResponse`), sending leaves the request side
alone (`SameRequest`), and only the end of a header block opens a stream, one whose id could still
be opened (`Pending`).

* `Sound`: how many streams a connection without error can have, and how their ids stand to the
  last stream and to the block that is being read.
* `Trace.sound`: it holds along every run.
-/

namespace Vanilla.Http2
open ServerConn

/-! ### The two sides of a stream -/

namespace StreamState

/-- A state without what belongs to the response. -/
def requestSide (s : StreamState) : StreamState :=
  { s with
    sendWindow := 0
    pending := []
    pendingOff := 0
    pendingEnd := false
    trailers := []
    trailersPending := false }

/-- A state without what belongs to the request. -/
def responseSide (s : StreamState) : StreamState :=
  { s with
    headers := []
    body := []
    remoteDone := false
    rejected := false
    declaredLen := none
    recvWindow := 0 }

/-- The request side is the same. -/
def SameRequest (s s' : StreamState) : Prop := s'.requestSide = s.requestSide

/-- The response side is the same. -/
def SameResponse (s s' : StreamState) : Prop := s'.responseSide = s.responseSide

instance : Std.Refl SameRequest := ⟨fun _ => rfl⟩

instance : Std.Refl SameResponse := ⟨fun _ => rfl⟩

instance : Trans SameRequest SameRequest SameRequest := ⟨fun h h' => Eq.trans h' h⟩

instance : Trans SameResponse SameResponse SameResponse := ⟨fun h h' => Eq.trans h' h⟩

end StreamState

open StreamState Streams

namespace ServerConn

variable (c : ServerConn)

/-! ### Reading requests -/

/-- `complete_stream` leaves the other streams alone. -/
theorem completeStream_get_ne {id i : Nat} (h : i ≠ id) :
    (c.completeStream id).conn.streams.get i = c.streams.get i := by
  unfold completeStream
  split
  · rfl
  · dsimp only
    split
    · simp [releaseStream, updateStream, h]
    · split
      · simp [resetStream, releaseStream, updateStream, h]
      · simp [updateStream, h]

theorem completeStream_kept (id : Nat) :
    Kept SameResponse c.streams (c.completeStream id).conn.streams := by
  have hdone : Kept SameResponse c.streams
      (c.streams.update id fun s => { s with remoteDone := true }) :=
    Kept.update (fun _ => by rfl) c.streams id
  unfold completeStream
  split
  · exact Kept.refl _
  · dsimp only
    split
    · exact hdone.trans (Kept.release _ id)
    · split
      · exact hdone.trans (Kept.release _ id)
      · exact hdone

theorem takeData_kept (f : Frame) (data : List UInt8) :
    Kept SameResponse c.streams (c.takeData f data).conn.streams := by
  have htake : Kept SameResponse c.streams (c.streams.update f.streamId (·.take f data)) :=
    Kept.update (fun _ => by rfl) c.streams f.streamId
  unfold takeData
  dsimp only
  split
  · exact htake.trans (completeStream_kept _ f.streamId)
  · exact htake

/-- An id that can still be opened: one above the last stream, or the one whose block is read. -/
def Pending (id : Nat) : Prop :=
  c.lastStream < id ∨ c.hdrExpecting = true ∧ c.hdrTrailers = false ∧ id = c.hdrStream

theorem pending_of_headerPart {c c' : ServerConn} (h : c'.headerPart = c.headerPart) {id : Nat} :
    c'.Pending id ↔ c.Pending id := by
  unfold Pending
  rw [show c'.lastStream = c.lastStream from (congrArg lastStream h :),
    show c'.hdrExpecting = c.hdrExpecting from (congrArg hdrExpecting h :),
    show c'.hdrTrailers = c.hdrTrailers from (congrArg hdrTrailers h :),
    show c'.hdrStream = c.hdrStream from (congrArg hdrStream h :)]

/-- What holds of a block that is finished: its stream is a client's; if the block opens it, there
is no such stream yet and there is room for it; and if it is its trailers, its request is not
complete. -/
structure Block : Prop where
  odd : c.hdrStream % 2 = 1
  le : c.hdrStream ≤ c.lastStream
  reading : c.hdrTrailers = true → ∀ st, c.streams.get c.hdrStream = some st →
    st.remoteDone = false
  room : c.hdrTrailers = false → c.hdrRefused = false →
    c.streams.get c.hdrStream = none ∧ c.streams.len < maxConcurrentStreams

variable {c}

/-- What the end of a block that opens a stream leaves under an id. -/
theorem openRequest_get (hb : c.Block) (ht : c.hdrTrailers = false) (hr : c.hdrRefused = false)
    (fields : List HeaderField) (malformed : Bool) (declared : Option Nat) (i : Nat) :
    (c.openRequest c.hdrStream fields malformed declared).streams.get i =
      if i = c.hdrStream then
        some { headers := fields, rejected := malformed, declaredLen := declared,
               recvWindow := defaultWindowSize, sendWindow := c.initSendWindow }
      else c.streams.get i := by
  have h0 : c.hdrStream ≠ 0 := fun h => by
    have := hb.odd
    omega
  have hlen : c.streams.len + 1 < streamSlots := by
    have := (hb.room ht hr).2
    simp only [maxConcurrentStreams, streamSlots] at *
    omega
  unfold openRequest newStream updateStream
  dsimp only
  rw [get_update, get_openStream _ h0 hlen]
  split
  · rw [Option.map_some, List.nil_append]
  · rfl

/-- **The end of a block** leaves streams that were there, the same on the response side, and the
stream it opens, with nothing of a response yet. -/
theorem finishFields_get (hb : c.Block) (fields : List HeaderField) {i : Nat} {st' : StreamState}
    (h : (c.finishFields fields).conn.streams.get i = some st') :
    (∃ st, c.streams.get i = some st ∧ SameResponse st st') ∨
      c.hdrTrailers = false ∧ c.hdrRefused = false ∧ i = c.hdrStream ∧
        SameResponse { sendWindow := c.initSendWindow } st' := by
  unfold finishFields at h
  dsimp only at h
  split at h
  · split at h
    · obtain ⟨st, hst, hs, -⟩ := Kept.release (R := SameResponse) _ _ i st' h
      exact .inl ⟨st, hst, hs⟩
    · obtain ⟨st, hst, hs, -⟩ := completeStream_kept c c.hdrStream i st' h
      exact .inl ⟨st, hst, hs⟩
  · rename_i ht
    split at h
    · exact .inl ⟨st', h, rfl⟩
    · rename_i hr
      have ht : c.hdrTrailers = false := by simpa using ht
      have hr : c.hdrRefused = false := by simpa using hr
      have hopen := openRequest_get hb ht hr fields
        (c.hdrMalformed || (validateRequestFields fields).isNone)
        ((validateRequestFields fields).getD none)
      by_cases hi : i = c.hdrStream
      · refine .inr ⟨ht, hr, hi, ?_⟩
        split at h
        · obtain ⟨st, hst, hs, -⟩ := completeStream_kept _ _ i st' h
          rw [hopen, if_pos hi, Option.some.injEq] at hst
          exact Trans.trans (r := SameResponse) (by rw [← hst]; rfl) hs
        · rw [hopen, if_pos hi, Option.some.injEq] at h
          rw [← h]
          rfl
      · refine .inl ⟨st', ?_, rfl⟩
        split at h
        · rwa [Reply.after, completeStream_get_ne _ hi, hopen, if_neg hi] at h
        · rwa [hopen, if_neg hi] at h

/-! ### Sending -/

variable (c)

theorem writeResponseHeaders_kept (id : Nat) (block : List UInt8) (endStream : Bool) :
    Kept SameRequest c.streams (c.writeResponseHeaders id block endStream).conn.streams := by
  unfold writeResponseHeaders
  dsimp only
  split
  · exact Kept.release _ _
  · exact Kept.refl _

theorem flushPending_kept (id : Nat) :
    Kept SameRequest c.streams (c.flushPending id).conn.streams := by
  unfold flushPending
  split
  · exact Kept.refl _
  · rename_i st _
    dsimp only
    generalize sendLoop id c.peerMaxFrame st.pendingEnd st.parked c.connSendWindow st.sendWindow =
      sent
    have hsent : Kept SameRequest c.streams (c.streams.update id fun s =>
        { s with sendWindow := sent.send, pendingOff := s.pending.length - sent.rest.length }) :=
      Kept.update (fun _ => by rfl) c.streams id
    split
    · exact hsent
    · split
      · exact hsent.trans (Kept.release _ id)
      · split
        · refine (hsent.trans ?_).trans
            (writeResponseHeaders_kept _ id st.trailers true)
          exact Kept.update (fun _ => by rfl) _ id
        · exact hsent

theorem flushAll_kept (ids : List Nat) :
    Kept SameRequest c.streams (c.flushAll ids).conn.streams := by
  induction ids generalizing c with
  | nil => exact Kept.refl _
  | cons id ids ih => exact (flushPending_kept c id).trans (ih _)

theorem writeResponseBody_kept (id : Nat) (body : List UInt8) (endStream : Bool) :
    Kept SameRequest c.streams (c.writeResponseBody id body endStream).conn.streams := by
  unfold writeResponseBody
  split
  · exact Kept.refl _
  · rename_i st _
    split
    · split
      · exact Kept.release _ _
      · exact Kept.refl _
    · dsimp only
      generalize sendLoop id c.peerMaxFrame endStream body c.connSendWindow st.sendWindow = sent
      have hsent : Kept SameRequest c.streams
          (c.streams.update id fun s => { s with sendWindow := sent.send }) :=
        Kept.update (fun _ => by rfl) c.streams id
      split
      · refine hsent.trans ?_
        exact Kept.update (fun _ => by rfl) _ id
      · dsimp only
        split
        · exact hsent.trans (Kept.release _ id)
        · exact hsent

theorem writeResponseTrailers_kept (id : Nat) (block : List UInt8) :
    Kept SameRequest c.streams (c.writeResponseTrailers id block).conn.streams := by
  unfold writeResponseTrailers
  split
  · exact Kept.refl _
  · split
    · exact Kept.update (fun _ => by rfl) _ id
    · exact writeResponseHeaders_kept c id block true

/-- Writing leaves the request side of every stream alone. -/
theorem write_kept (w : Write) : Kept SameRequest c.streams (w.exec c).conn.streams := by
  cases w with
  | headers id block endStream => exact writeResponseHeaders_kept c id block endStream
  | body id bytes endStream => exact writeResponseBody_kept c id bytes endStream
  | data id bytes => exact writeResponseBody_kept c id bytes true
  | trailers id block => exact writeResponseTrailers_kept c id block
  | abort id code => exact Kept.release _ id

theorem onSetting_kept (st : Setting) :
    Kept SameRequest c.streams (c.onSetting st).1.streams := by
  unfold onSetting
  split
  · split
    · exact Kept.refl _
    · exact Kept.addToSendWindows (fun _ => by rfl) _
  · split
    · split <;> exact Kept.refl _
    · split
      · split <;> exact Kept.refl _
      · exact Kept.refl _

theorem onSettingList_kept (sts : List Setting) :
    Kept SameRequest c.streams (c.onSettingList sts).1.streams :=
  onSettingList_rule (P := fun c' => Kept SameRequest c.streams c'.streams)
    (fun c' st h => h.trans (onSetting_kept c' st))
    (Kept.refl _) sts

theorem takeSettings_kept (sts : List Setting) :
    Kept SameRequest c.streams (c.takeSettings sts).conn.streams := by
  unfold takeSettings
  split
  · exact flushAll_kept c _
  · exact Kept.refl _

theorem onSettingList_maxFrame {c : ServerConn} (h : defaultMaxFrameSize ≤ c.peerMaxFrame)
    (sts : List Setting) : defaultMaxFrameSize ≤ (c.onSettingList sts).1.peerMaxFrame := by
  refine onSettingList_rule (P := fun c => defaultMaxFrameSize ≤ c.peerMaxFrame)
    (fun c st h => ?_) h sts
  unfold onSetting
  split
  · split <;> exact h
  · split
    · split
      · exact h
      · rename_i hv
        exact Nat.le_of_not_lt fun hlt => hv (.inl hlt)
    · split
      · split <;> exact h
      · exact h

theorem takeSettings_base (sts : List Setting) : (c.takeSettings sts).conn.base = c.base := by
  unfold takeSettings
  split
  · exact flushAll_base c _
  · rfl

end ServerConn

/-! ### Requests -/

/-- What a frame without error does to the requests: DATA and header blocks are parts of them, and
any other frame leaves them alone. -/
inductive Receives (c : ServerConn) (f : Frame) : Reply → Prop where
  | data {st : StreamState} {data : List UInt8} (ht : f.type = .data)
      (hget : c.streams.get f.streamId = some st) (hopen : st.remoteDone = false)
      (hunpad : f.unpadded = some data) : Receives c f (c.takeData f data)
  | fragment {c₁ : ServerConn} (ha : Assembled c f c₁) :
      Receives c f { conn := { c₁ with hdrExpecting := true } }
  | block {c₁ : ServerConn} {fields : List HeaderField} {dec : HpackDecoder}
      (ha : Assembled c f c₁) :
      Receives c f (finishFields { c₁ with hdrExpecting := false, dec := dec } fields)
  | other {r : Reply} (hd : f.type ≠ .data) (hh : f.type ≠ .headers)
      (hpart : r.conn.headerPart = c.headerPart) (hk : Kept SameRequest c.streams r.conn.streams)
      (hreqs : r.reqs = []) : Receives c f r

/-- **What a frame without error does to the requests.** -/
theorem ServerConn.frame_receives {c : ServerConn} {f : Frame}
    (hok : (c.frame f).code = .noError) : Receives c f (c.frame f) := by
  have ha := frame_accepted hok
  have hpart := frame_headerPart c (f := f)
  generalize c.frame f = r at *
  have hrelease : Kept SameRequest c.streams (c.releaseStream f.streamId).streams :=
    Kept.release _ _
  have hshift : Kept SameRequest c.streams
      (c.updateStream f.streamId (shifted f.increment)).streams :=
    Kept.update (fun _ => by rfl) _ _
  have hother : f.type ≠ .data ∧ f.type ≠ .headers ∧ f.type ≠ .continuation →
      Kept SameRequest c.streams r.conn.streams → r.reqs = [] → Receives c f r :=
    fun ht => .other ht.1 ht.2.1 (hpart ht.2.1 ht.2.2)
  cases ha with
  | data ht _ hget hopen hunpad => exact .data ht hget hopen hunpad
  | fragment ha => exact .fragment ha
  | block ha => exact .block ha
  | dependent ht => exact hother (by simp [ht]) hrelease rfl
  | reset ht => exact hother (by simp [ht]) hrelease rfl
  | @settings sts c₁ ht _ _ _ hlist =>
      have hk := onSettingList_kept c sts
      rw [hlist] at hk
      exact hother (by simp [ht]) (hk.trans (takeSettings_kept c₁ sts))
        (takeSettings_reqs c₁ sts)
  | connCredit ht =>
      exact hother (by simp [ht]) (flushAll_kept { c with connSendWindow := _ } _)
        (flushAll_reqs _ _)
  | zeroCredit ht => exact hother (by simp [ht]) hrelease rfl
  | staleCredit ht => exact hother (by simp [ht]) (Kept.refl _) rfl
  | overflow ht =>
      exact hother (by simp [ht]) (hshift.trans
        (Kept.release _ _)) rfl
  | credit ht =>
      exact hother (by simp [ht]) (hshift.trans (flushPending_kept _ _))
        (flushPending_reqs _ _)
  | ping ht => exact hother (by simp [ht]) (Kept.refl _) rfl
  | ignored _ ht => exact hother ⟨ht.1, ht.2.1, ht.2.2.1⟩ (Kept.refl _) rfl

/-! ### Soundness -/

/-- What holds of every connection without error. -/
structure Sound (c : ServerConn) : Prop where
  maxFrame : defaultMaxFrameSize ≤ c.peerMaxFrame
  len : c.streams.len ≤ maxConcurrentStreams
  odd : ∀ id st, c.streams.get id = some st → id % 2 = 1
  fresh : ∀ id, c.Pending id → c.streams.get id = none
  block : c.hdrExpecting = true → c.Block

theorem sound_new : Sound newServerConn where
  maxFrame := Nat.le_refl _
  len := by decide
  odd id st h := by
    rw [show newServerConn.streams = .new from rfl, get_new] at h
    cases h
  fresh id _ := get_new id
  block h := by cases h

namespace Assembled

variable {c c₁ : ServerConn} {f : Frame}

theorem streams (ha : Assembled c f c₁) : c₁.streams = c.streams := by
  cases ha with
  | begins ht hidle hn => cases hn <;> rfl
  | continues => rfl

theorem restHeaders (ha : Assembled c f c₁) : c₁.restHeaders = c.restHeaders := by
  cases ha with
  | begins ht hidle hn => cases hn <;> rfl
  | continues => rfl

theorem lastStream_le (ha : Assembled c f c₁) : c.lastStream ≤ c₁.lastStream := by
  cases ha with
  | begins ht hidle hn =>
      cases hn with
      | trailers => exact Nat.le_refl _
      | opens _ _ hlt => exact Nat.le_of_lt hlt
  | continues => exact Nat.le_refl _

/-- A block opens a stream that could still be opened. -/
theorem pending (ha : Assembled c f c₁) (ht : c₁.hdrTrailers = false) : c.Pending c₁.hdrStream := by
  cases ha with
  | begins _ _ hn =>
      cases hn with
      | trailers => cases ht
      | opens _ _ hlt => exact .inl hlt
  | continues _ hx => exact .inr ⟨hx, ht, rfl⟩

theorem block (ha : Assembled c f c₁) (hs : Sound c) : c₁.Block := by
  cases ha with
  | begins _ _ hn _ hodd =>
      cases hn with
      | @trailers st _ hget hopen =>
          refine ⟨hodd, ?_, fun _ st' hst' => ?_, fun h => (by cases h)⟩
          · refine Nat.le_of_not_lt fun hlt => ?_
            rw [hs.fresh _ (.inl hlt)] at hget
            cases hget
          · rw [show c.streams.get f.streamId = some st' from hst', Option.some.injEq] at hget
            rw [hget]
            exact hopen
      | opens _ hget hlt =>
          exact ⟨hodd, Nat.le_refl _, fun h => (by cases h), fun _ hr => ⟨hget, by simpa using hr⟩⟩
  | continues _ hx =>
      have hb := hs.block hx
      exact ⟨hb.odd, hb.le, hb.reading, hb.room⟩

/-- The same with the block decoded. -/
theorem ready (ha : Assembled c f c₁) (hs : Sound c) (dec : HpackDecoder) :
    ServerConn.Block { c₁ with hdrExpecting := false, dec := dec } :=
  ⟨(ha.block hs).odd, (ha.block hs).le, (ha.block hs).reading, (ha.block hs).room⟩

end Assembled

namespace Sound

variable {c c' : ServerConn} {f : Frame}

theorem le (hs : Sound c) {id : Nat} {st : StreamState} (h : c.streams.get id = some st) :
    id ≤ c.lastStream := by
  refine Nat.le_of_not_lt fun hlt => ?_
  rw [hs.fresh id (.inl hlt)] at h
  cases h

theorem pos (hs : Sound c) : 0 < c.peerMaxFrame := Nat.lt_of_lt_of_le (by decide) hs.maxFrame

/-- No stream is opened and no header block read; while one is, no request is completed. -/
theorem of_kept (hs : Sound c) {R : StreamState → StreamState → Prop}
    (hk : Kept R c.streams c'.streams) (hpart : c'.headerPart = c.headerPart)
    (hmax : defaultMaxFrameSize ≤ c'.peerMaxFrame)
    (hreq : c.hdrExpecting = true → ∀ st st', R st st' → st'.remoteDone = st.remoteDone) :
    Sound c' := by
  have hlast : c'.lastStream = c.lastStream := (congrArg lastStream hpart :)
  have hx : c'.hdrExpecting = c.hdrExpecting := (congrArg hdrExpecting hpart :)
  have hst : c'.hdrStream = c.hdrStream := (congrArg hdrStream hpart :)
  have ht : c'.hdrTrailers = c.hdrTrailers := (congrArg hdrTrailers hpart :)
  have hr : c'.hdrRefused = c.hdrRefused := (congrArg hdrRefused hpart :)
  have hnone : ∀ id, c.streams.get id = none → c'.streams.get id = none := fun id h => by
    refine Option.eq_none_iff_forall_ne_some.mpr fun st' hst' => ?_
    obtain ⟨st, hst, -⟩ := hk id st' hst'
    rw [h] at hst
    cases hst
  refine ⟨hmax, hk.len.trans hs.len, fun id st' h => ?_, fun id hp => ?_, fun h => ?_⟩
  · obtain ⟨st, h, -⟩ := hk id st' h
    exact hs.odd id st h
  · exact hnone id (hs.fresh id ((pending_of_headerPart hpart).mp hp))
  · have hb := hs.block (hx ▸ h)
    refine ⟨hst ▸ hb.odd, hst ▸ hlast ▸ hb.le, fun ht' st' hst' => ?_, fun ht' hr' => ?_⟩
    · obtain ⟨st, hget, hrel, -⟩ := hk _ st' hst'
      rw [hreq (hx ▸ h) st st' hrel]
      exact hb.reading (ht ▸ ht') st (hst ▸ hget)
    · obtain ⟨hget, hlen⟩ := hb.room (ht ▸ ht') (hr ▸ hr')
      exact ⟨hst ▸ hnone _ hget, Nat.lt_of_le_of_lt hk.len hlen⟩

/-- No request side changes. -/
theorem of_sameRequest (hs : Sound c) (hk : Kept SameRequest c.streams c'.streams)
    (hpart : c'.headerPart = c.headerPart) (hmax : defaultMaxFrameSize ≤ c'.peerMaxFrame) :
    Sound c' :=
  hs.of_kept hk hpart hmax fun _ _ _ h => (congrArg StreamState.remoteDone h :)

theorem preface (hs : Sound c) : Sound (Event.preface.exec c).conn :=
  hs.of_sameRequest (Kept.refl _) rfl hs.maxFrame

theorem withWindow (hs : Sound c) (win : Int) : Sound { c with connSendWindow := win } :=
  hs.of_sameRequest (Kept.refl _) rfl hs.maxFrame

theorem shift (hs : Sound c) (id inc : Nat) : Sound (c.updateStream id (shifted inc)) :=
  hs.of_sameRequest (Kept.update (fun _ => by rfl) _ id) rfl hs.maxFrame

theorem flushPending (hs : Sound c) (id : Nat) : Sound (c.flushPending id).conn := by
  have hbase := flushPending_base c id
  refine hs.of_sameRequest (flushPending_kept c id)
    (headerPart_of_base hbase) ?_
  rw [show (c.flushPending id).conn.peerMaxFrame = c.peerMaxFrame from
    (congrArg peerMaxFrame hbase :)]
  exact hs.maxFrame

theorem onSettingList (hs : Sound c) {sts : List Setting} {c₁ : ServerConn} {code : ErrorCode}
    (h : c.onSettingList sts = (c₁, code)) : Sound c₁ := by
  have hk := onSettingList_kept c sts
  have hm := onSettingList_maxFrame hs.maxFrame sts
  have hpart := onSettingList_baseSettings c sts
  rw [h] at hk hm hpart
  exact hs.of_sameRequest hk (congrArg headerPart hpart :) hm

/-- A fragment of a header block that goes on. -/
theorem fragment (hs : Sound c) {c₁ : ServerConn} (ha : Assembled c f c₁) :
    Sound { c₁ with hdrExpecting := true } := by
  have hmax : c₁.peerMaxFrame = c.peerMaxFrame :=
    (congrArg peerMaxFrame ha.restHeaders :)
  have hb := ha.block hs
  refine ⟨hmax ▸ hs.maxFrame, ?_, ?_, fun id hp => ?_,
    fun _ => ⟨hb.odd, hb.le, hb.reading, hb.room⟩⟩
  · show c₁.streams.len ≤ _
    rw [ha.streams]
    exact hs.len
  · show ∀ id st, c₁.streams.get id = some st → _
    rw [ha.streams]
    exact hs.odd
  · show c₁.streams.get id = none
    rw [ha.streams]
    apply hs.fresh
    rcases hp with hlt | ⟨-, ht, rfl⟩
    · exact .inl (Nat.lt_of_le_of_lt ha.lastStream_le hlt)
    · exact ha.pending ht

/-- A header block that ends. -/
theorem finish (hs : Sound c) {c₁ : ServerConn} (ha : Assembled c f c₁) (dec : HpackDecoder)
    (fields : List HeaderField) :
    Sound (finishFields { c₁ with hdrExpecting := false, dec := dec } fields).conn := by
  have hb := ha.ready hs dec
  have hrest := finishFields_rest { c₁ with hdrExpecting := false, dec := dec } fields
  have hget := fun i st' => @ServerConn.finishFields_get _ hb fields i st'
  generalize finishFields { c₁ with hdrExpecting := false, dec := dec } fields = r at *
  have hmax : r.conn.peerMaxFrame = c₁.peerMaxFrame := (congrArg peerMaxFrame hrest :)
  have hmax₁ : c₁.peerMaxFrame = c.peerMaxFrame :=
    (congrArg peerMaxFrame ha.restHeaders :)
  have hlast : r.conn.lastStream = c₁.lastStream := (congrArg lastStream hrest :)
  have hx : r.conn.hdrExpecting = false := (congrArg hdrExpecting hrest :)
  simp only [ha.streams] at hget
  refine ⟨hmax ▸ hmax₁ ▸ hs.maxFrame, ?_, fun id st' h => ?_, fun id hp => ?_, fun h => ?_⟩
  · by_cases hopen : c₁.hdrTrailers = false ∧ c₁.hdrRefused = false
    · have hlt := (hb.room hopen.1 hopen.2).2
      simp only [ha.streams] at hlt
      have hle : r.conn.streams.len ≤ c.streams.len + 1 := len_le_succ fun i hi => by
        obtain ⟨st', hst'⟩ := Option.isSome_iff_exists.mp hi
        rcases hget i st' hst' with ⟨st, hst, -⟩ | ⟨-, -, hi, -⟩
        · exact .inr (by rw [hst]; rfl)
        · exact .inl hi
      omega
    · refine (len_le fun i hi => ?_).trans hs.len
      obtain ⟨st', hst'⟩ := Option.isSome_iff_exists.mp hi
      obtain ⟨st, hst, -⟩ := (hget i st' hst').resolve_right fun h => hopen ⟨h.1, h.2.1⟩
      rw [hst]
      rfl
  · rcases hget id st' h with ⟨st, hst, -⟩ | ⟨-, -, rfl, -⟩
    · exact hs.odd id st hst
    · exact hb.odd
  · refine Option.eq_none_iff_forall_ne_some.mpr fun st' hst' => ?_
    rcases hp with hlt | ⟨he, -⟩
    · rw [hlast] at hlt
      rcases hget id st' hst' with ⟨st, hst, -⟩ | ⟨-, -, rfl, -⟩
      · exact Nat.not_lt.mpr (hs.le hst) (Nat.lt_of_le_of_lt ha.lastStream_le hlt)
      · exact Nat.not_lt.mpr hb.le hlt
    · rw [hx] at he
      cases he
  · rw [hx] at h
    cases h

/-- **One frame** keeps a connection sound. -/
theorem frame (hs : Sound c) (hok : (c.frame f).code = .noError) : Sound (c.frame f).conn := by
  have ha := frame_accepted hok
  have hpart := frame_headerPart c (f := f)
  have hlimits := frame_limits c (f := f)
  generalize c.frame f = r at *
  have hmax : f.type ≠ .settings → defaultMaxFrameSize ≤ r.conn.peerMaxFrame := fun ht => by
    rw [show r.conn.peerMaxFrame = c.peerMaxFrame from (congrArg Prod.fst (hlimits ht) :)]
    exact hs.maxFrame
  have hrelease : Sound (c.releaseStream f.streamId) :=
    hs.of_sameRequest (Kept.release c.streams f.streamId) rfl hs.maxFrame
  cases ha with
  | data ht hidle =>
      exact hs.of_kept (takeData_kept c f _) (hpart (by simp [ht]) (by simp [ht]))
        (hmax (by simp [ht])) (by simp [hidle])
  | fragment ha => exact hs.fragment ha
  | block ha _ hd => exact hs.finish ha _ _
  | dependent ht => exact hrelease
  | reset ht => exact hrelease
  | @settings settings c₁ ht _ _ _ hlist =>
      have hs₁ := hs.onSettingList hlist
      have hbase := takeSettings_base c₁ settings
      refine hs₁.of_sameRequest (takeSettings_kept c₁ settings)
        (headerPart_of_base hbase) ?_
      rw [show (c₁.takeSettings settings).conn.peerMaxFrame = c₁.peerMaxFrame from
        (congrArg peerMaxFrame hbase :)]
      exact hs₁.maxFrame
  | connCredit ht =>
      exact hs.of_sameRequest (flushAll_kept _ _) (hpart (by simp [ht]) (by simp [ht]))
        (hmax (by simp [ht]))
  | zeroCredit => exact hrelease
  | staleCredit => exact hs
  | overflow =>
      have hs₁ := hs.shift f.streamId f.increment
      exact hs₁.of_sameRequest (Kept.release _ f.streamId) rfl hs₁.maxFrame
  | credit => exact (hs.shift f.streamId f.increment).flushPending f.streamId
  | ping => exact hs
  | ignored => exact hs

theorem write (hs : Sound c) (w : Write) : Sound (w.exec c).conn := by
  have hbase := write_base c w
  refine hs.of_sameRequest (write_kept c w) (headerPart_of_base hbase) ?_
  rw [show (w.exec c).conn.peerMaxFrame = c.peerMaxFrame from
    (congrArg peerMaxFrame hbase :)]
  exact hs.maxFrame

end Sound

/-- **Every connection without error is sound.** -/
theorem Trace.sound {h : List Done} {c : ServerConn} (t : Trace newServerConn h c)
    (hok : ∀ d ∈ h, d.Ok) : Sound c :=
  t.rule sound_new (fun _ hs => hs.preface)
    (fun _ _ hs hf => hs.frame hf) (fun _ w hs => hs.write w) hok

/-- **Open streams are bounded.**  In every session, closed or not, at most
`max_concurrent_streams` streams are open, under odd ids not above the last stream. -/
theorem open_streams_bounded (calls : List Call) :
    (session calls).conn.streams.len ≤ maxConcurrentStreams ∧
      ∀ id st, (session calls).conn.streams.get id = some st →
        id % 2 = 1 ∧ id ≤ (session calls).conn.lastStream := by
  obtain ⟨t, -⟩ := runCalls_trace newServerConn calls
  rcases t.last with hok | ⟨_, d, -, t, hok, hbad, hc⟩
  · have hs := t.sound hok
    exact ⟨hs.len, fun id st h => ⟨hs.odd id st h, hs.le h⟩⟩
  · -- the error that closed it has opened no stream
    have hs := t.sound hok
    have hh := d.halted hbad
    rw [session, hc]
    refine ⟨hh.len ▸ hs.len, fun id st h => ?_⟩
    have hget := hh.store.get id
    rw [h, Option.map_some, eq_comm, Option.map_eq_some_iff] at hget
    obtain ⟨st', hst', -⟩ := hget
    exact ⟨hs.odd id st' hst', (hs.le hst').trans hh.last⟩

end Vanilla.Http2

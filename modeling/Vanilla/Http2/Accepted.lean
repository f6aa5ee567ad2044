import Vanilla.Http2.HeaderBlocks

/-!
# HTTP/2 — what an accepted frame does

`Accepted c f r`: the frame `f` is no error of the connection `c`, and `r` is the reply.  One
constructor for each thing that can happen, with the checks that led to it: the invariants of the
connection are proved by cases on it, and never look into the handlers again.

* `Assembled`: the connection with the fragment of a HEADERS or CONTINUATION frame noted.
* `frame_accepted`: every frame that is not an error is accepted.
* `frame_bare`: a frame that is an error has nothing appended, and leaves the responses alone.
-/

namespace Vanilla.Http2

/-! ### Header blocks -/

/-- What a HEADERS or CONTINUATION frame leaves to be finished, or to wait for more: it begins a
block, or goes on with the one that is read. -/
inductive Assembled (c : ServerConn) (f : Frame) : ServerConn → Prop where
  | begins {c₁ : ServerConn} {b : List UInt8} (ht : f.type = .headers)
      (hidle : c.hdrExpecting = false) (hn : Noted c f c₁) (hfrag : f.fragment = some b)
      (hodd : f.streamId % 2 = 1) :
      Assembled c f
        { c₁ with hdrStream := f.streamId, hdrEndStream := f.endStream, hdrBlock := b }
  | continues (ht : f.type = .continuation) (hx : c.hdrExpecting = true)
      (hid : f.streamId = c.hdrStream) :
      Assembled c f { c with hdrBlock := c.hdrBlock ++ f.payload }

theorem Assembled.type_ne {c c₁ : ServerConn} {f : Frame} (ha : Assembled c f c₁) {t : FrameType}
    (hh : t ≠ .headers) (hc : t ≠ .continuation) : f.type ≠ t := by
  rintro rfl
  cases ha with
  | begins ht => exact hh ht
  | continues ht => exact hc ht

/-! ### DATA -/

/-- The state of a stream that has taken a DATA frame with these bytes behind its padding. -/
def StreamState.take (s : StreamState) (f : Frame) (data : List UInt8) : StreamState :=
  { s with
    body := if s.rejected then s.body else s.body ++ data
    recvWindow := if f.endStream then s.recvWindow - f.payload.length else s.recvWindow }

/-- The WINDOW_UPDATEs that answer a DATA frame. -/
def replenished (f : Frame) : List Frame :=
  if f.payload.length > 0 then
    writeWindowUpdate 0 f.payload.length ::
      if f.endStream then [] else [writeWindowUpdate f.streamId f.payload.length]
  else []

namespace ServerConn

variable (c : ServerConn)

/-- The reply to a DATA frame that is no error. -/
def takeData (f : Frame) (data : List UInt8) : Reply :=
  let c := c.updateStream f.streamId (·.take f data)
  if f.endStream then (c.completeStream f.streamId).after (replenished f)
  else { conn := c, out := replenished f }

/-- The reply to a SETTINGS frame that is no error, and the connection with the settings. -/
def takeSettings (settings : List Setting) : Reply :=
  if settings.any (·.id = settingInitialWindowSize) then
    (c.flushAll c.streams.ids).after [writeSettingsAck]
  else { conn := c, out := [writeSettingsAck] }

end ServerConn

/-! ### Frames -/

/-- What a frame that is no error does, and what it found. -/
inductive Accepted (c : ServerConn) (f : Frame) : Reply → Prop where
  | data {st : StreamState} {data : List UInt8} (ht : f.type = .data)
      (hidle : c.hdrExpecting = false) (hget : c.streams.get f.streamId = some st)
      (hopen : st.remoteDone = false) (hunpad : f.unpadded = some data)
      (hrecv : f.payload.length ≤ c.connRecvWindow ∧ f.payload.length ≤ st.recvWindow)
      (hbody : st.rejected = true ∨ st.body.length + data.length ≤ maxBodyBytes) :
      Accepted c f (c.takeData f data)
  | fragment {c₁ : ServerConn} (ha : Assembled c f c₁) (he : f.endHeaders = false) :
      Accepted c f { conn := { c₁ with hdrExpecting := true } }
  | block {c₁ : ServerConn} {fields : List HeaderField} {dec : HpackDecoder}
      (ha : Assembled c f c₁) (he : f.endHeaders = true)
      (hd : (decodeInto c₁.hdrBlock).run c₁.dec = .ok fields dec) :
      Accepted c f (ServerConn.finishFields { c₁ with hdrExpecting := false, dec := dec } fields)
  | dependent (ht : f.type = .priority) (hidle : c.hdrExpecting = false) (h0 : f.streamId ≠ 0)
      (hself : dependency f.payload = f.streamId) :
      Accepted c f (c.resetStream f.streamId .protocolError)
  | reset (ht : f.type = .rstStream) (hidle : c.hdrExpecting = false) (h0 : f.streamId ≠ 0)
      (hle : f.streamId ≤ c.lastStream) : Accepted c f { conn := c.releaseStream f.streamId }
  | settings {settings : List Setting} {c₁ : ServerConn} (ht : f.type = .settings)
      (hidle : c.hdrExpecting = false) (hack : f.has flagAck = false)
      (hparse : parseSettings f.payload = some settings)
      (hlist : c.onSettingList settings = (c₁, .noError)) :
      Accepted c f (c₁.takeSettings settings)
  | connCredit (ht : f.type = .windowUpdate) (hidle : c.hdrExpecting = false)
      (h0 : f.streamId = 0) (hinc : f.increment ≠ 0)
      (hle : c.connSendWindow + f.increment ≤ maxWindow) :
      Accepted c f
        (ServerConn.flushAll { c with connSendWindow := c.connSendWindow + f.increment }
          c.streams.ids)
  | zeroCredit (ht : f.type = .windowUpdate) (hidle : c.hdrExpecting = false)
      (h0 : f.streamId ≠ 0) (hle : f.streamId ≤ c.lastStream) (hinc : f.increment = 0) :
      Accepted c f (c.resetStream f.streamId .protocolError)
  | staleCredit (ht : f.type = .windowUpdate) (hidle : c.hdrExpecting = false)
      (h0 : f.streamId ≠ 0) (hle : f.streamId ≤ c.lastStream) (hinc : f.increment ≠ 0)
      (hget : c.streams.get f.streamId = none) : Accepted c f { conn := c }
  | overflow {st : StreamState} (ht : f.type = .windowUpdate) (hidle : c.hdrExpecting = false)
      (h0 : f.streamId ≠ 0) (hle : f.streamId ≤ c.lastStream) (hinc : f.increment ≠ 0)
      (hget : c.streams.get f.streamId = some st)
      (hover : st.sendWindow + f.increment > maxWindow) :
      Accepted c f
        ((c.updateStream f.streamId (Streams.shifted f.increment)).resetStream f.streamId
          .flowControlError)
  | credit {st : StreamState} (ht : f.type = .windowUpdate) (hidle : c.hdrExpecting = false)
      (h0 : f.streamId ≠ 0) (hle : f.streamId ≤ c.lastStream) (hinc : f.increment ≠ 0)
      (hget : c.streams.get f.streamId = some st)
      (hroom : st.sendWindow + f.increment ≤ maxWindow) :
      Accepted c f
        ((c.updateStream f.streamId (Streams.shifted f.increment)).flushPending f.streamId)
  | ping (ht : f.type = .ping) (hidle : c.hdrExpecting = false) (hlen : f.payload.length = 8) :
      Accepted c f { conn := c, out := if f.has flagAck then [] else [writePingAck f.payload] }
  | ignored (hidle : c.hdrExpecting = false) (ht : f.type ≠ .data ∧ f.type ≠ .headers ∧
      f.type ≠ .continuation ∧ f.type ≠ .rstStream ∧ f.type ≠ .windowUpdate)
      (hp : f.type = .priority → dependency f.payload ≠ f.streamId)
      (hs : f.type = .settings → f.has flagAck = true) : Accepted c f { conn := c }

namespace ServerConn

variable {c : ServerConn} {f : Frame}

/-- What `on_data` has done to the stream before it answers: its bytes are in the body, unless the
stream is rejected. -/
theorem taken_eq {st : StreamState} (hget : c.streams.get f.streamId = some st) (win : Int)
    (data : List UInt8) :
    (if st.rejected then
      updateStream { c with connRecvWindow := win } f.streamId
        fun s => { s with recvWindow := s.recvWindow - f.payload.length }
    else
      (updateStream { c with connRecvWindow := win } f.streamId
        fun s => { s with recvWindow := s.recvWindow - f.payload.length }).updateStream
        f.streamId fun s => { s with body := s.body ++ data }) =
      updateStream { c with connRecvWindow := win } f.streamId
        fun s => { s with
          recvWindow := s.recvWindow - f.payload.length
          body := if s.rejected then s.body else s.body ++ data } := by
  cases hr : st.rejected with
  | true => exact updateStream_congr hget (by simp [hr])
  | false =>
      rw [if_neg Bool.false_ne_true, updateStream_updateStream]
      exact updateStream_congr hget (by simp [hr])

/-- `on_data` puts what it takes off the windows back into them, but for the stream's at its
end. -/
theorem replenish_eq (c : ServerConn) (f : Frame) (data : List UInt8) :
    replenish
        (updateStream { c with connRecvWindow := c.connRecvWindow - f.payload.length } f.streamId
          fun s => { s with
            recvWindow := s.recvWindow - f.payload.length
            body := if s.rejected then s.body else s.body ++ data }) f =
      { conn := c.updateStream f.streamId (·.take f data), out := replenished f } := by
  unfold replenish replenished updateStream StreamState.take
  dsimp only
  split
  · split
    · simp only [Int.sub_add_cancel]
    · simp only [Int.sub_add_cancel, Streams.update_update]
  · rename_i hlen
    have h0 : f.payload.length = 0 := by omega
    simp only [h0, Int.ofNat_zero, Int.sub_zero, ite_self]

/-- What `on_data` does with a DATA frame that passes its checks. -/
theorem onData_eq {st : StreamState} {data : List UInt8} (h0 : f.streamId ≠ 0)
    (hget : c.streams.get f.streamId = some st) (hopen : st.remoteDone = false)
    (hunpad : f.unpadded = some data)
    (hrecv : f.payload.length ≤ c.connRecvWindow ∧ f.payload.length ≤ st.recvWindow)
    (hbody : st.rejected = true ∨ st.body.length + data.length ≤ maxBodyBytes) :
    c.onData f = c.takeData f data := by
  have hfits : ¬ (st.rejected = false ∧ st.body.length + data.length > maxBodyBytes) := by
    rintro ⟨hrej, hlt⟩
    rcases hbody with h | h
    · simp [h] at hrej
    · omega
  unfold onData
  rw [if_neg h0, hget]
  dsimp only
  rw [if_neg (by simp [hopen])]
  split
  · rename_i hroom
    simp only [updateStream] at hroom
    omega
  · rw [hunpad]
    dsimp only
    rw [if_neg hfits, taken_eq hget, replenish_eq]
    rfl

theorem onData_accepted (ht : f.type = .data) (hidle : c.hdrExpecting = false)
    (h : (c.onData f).code = .noError) : Accepted c f (c.onData f) := by
  have hchecks := h
  unfold onData at hchecks
  split at hchecks
  · cases hchecks
  · rename_i h0
    cases hget : c.streams.get f.streamId with
    | none => simp [hget, fail] at hchecks; split at hchecks <;> cases hchecks
    | some st =>
        simp only [hget] at hchecks
        split at hchecks
        · cases hchecks
        · rename_i hopen
          split at hchecks
          · cases hchecks
          · rename_i hroom
            have hrecv : f.payload.length ≤ c.connRecvWindow ∧
                f.payload.length ≤ st.recvWindow := by
              simp only [updateStream, not_or, Int.not_lt] at hroom
              omega
            cases hunpad : f.unpadded with
            | none =>
                rw [hunpad] at hchecks
                cases hchecks
            | some data =>
                simp only [hunpad] at hchecks
                split at hchecks
                · cases hchecks
                · rename_i hfits
                  have hbody : st.rejected = true ∨
                      st.body.length + data.length ≤ maxBodyBytes := by
                    cases hr : st.rejected with
                    | true => exact .inl rfl
                    | false => exact .inr (Nat.le_of_not_lt fun hlt => hfits ⟨hr, hlt⟩)
                  have hopen := eq_false_of_ne_true hopen
                  rw [onData_eq h0 hget hopen hunpad hrecv hbody]
                  exact .data ht hidle hget hopen hunpad hrecv hbody

theorem takeData_rest (c : ServerConn) (f : Frame) (data : List UInt8) :
    (c.takeData f data).conn.rest = c.rest := by
  unfold takeData
  dsimp only
  split
  · exact completeStream_rest _ _
  · rfl

theorem finishHeaderBlock_accepted {c₁ : ServerConn} (ha : Assembled c f c₁)
    (he : f.endHeaders = true) (h : c₁.finishHeaderBlock.code = .noError) :
    Accepted c f c₁.finishHeaderBlock := by
  obtain ⟨fields, dec, hd, hfin⟩ := finishHeaderBlock_ok h
  rw [hfin]
  exact .block ha he hd

theorem onHeaders_accepted (ht : f.type = .headers) (hidle : c.hdrExpecting = false)
    (h : (c.onHeaders f).code = .noError) : Accepted c f (c.onHeaders f) := by
  obtain ⟨c₁, b, hn, hfrag, hodd, hbegin⟩ := onHeaders_ok h
  have ha := Assembled.begins ht hidle hn hfrag hodd
  rw [hbegin] at h ⊢
  unfold beginBlock at h ⊢
  dsimp only at h ⊢
  cases he : f.endHeaders with
  | true =>
      rw [he, if_pos rfl] at h
      exact finishHeaderBlock_accepted ha he h
  | false => exact .fragment ha he

theorem onContinuation_accepted (ht : f.type = .continuation)
    (h : (c.onContinuation f).code = .noError) : Accepted c f (c.onContinuation f) := by
  obtain ⟨hx, hid, hcont⟩ := onContinuation_ok h
  have ha := Assembled.continues ht hx hid
  rw [hcont] at h ⊢
  cases he : f.endHeaders with
  | true =>
      rw [he, if_pos rfl] at h
      exact finishHeaderBlock_accepted ha he h
  | false =>
      have hc : { c with hdrBlock := c.hdrBlock ++ f.payload } =
          { c with hdrBlock := c.hdrBlock ++ f.payload, hdrExpecting := true } := by rw [← hx]
      rw [if_neg Bool.false_ne_true, hc]
      exact .fragment ha he

theorem onPriority_accepted (ht : f.type = .priority) (hidle : c.hdrExpecting = false)
    (h : (c.onPriority f).code = .noError) : Accepted c f (c.onPriority f) := by
  unfold onPriority at h ⊢
  split at h
  · cases h
  · rename_i h0
    rw [if_neg h0]
    split at h
    · cases h
    · rename_i hlen
      rw [if_neg hlen]
      split
      · rename_i hself
        exact .dependent ht hidle h0 hself
      · rename_i hself
        exact .ignored hidle (by simp [ht]) (fun _ => hself) (by simp [ht])

theorem onRstStream_accepted (ht : f.type = .rstStream) (hidle : c.hdrExpecting = false)
    (h : (c.onRstStream f).code = .noError) : Accepted c f (c.onRstStream f) := by
  unfold onRstStream at h ⊢
  split at h
  · cases h
  · rename_i hid
    rw [if_neg hid]
    rw [not_or, Nat.not_lt] at hid
    split at h
    · cases h
    · rename_i hlen
      rw [if_neg hlen]
      exact .reset ht hidle hid.1 hid.2

theorem onSettings_accepted (ht : f.type = .settings) (hidle : c.hdrExpecting = false)
    (h : (c.onSettings f).code = .noError) : Accepted c f (c.onSettings f) := by
  unfold onSettings at h ⊢
  split at h
  · cases h
  · rename_i h0
    rw [if_neg h0]
    split at h
    · rename_i hack
      rw [if_pos hack]
      split at h
      · cases h
      · rename_i hlen
        rw [if_neg hlen]
        exact .ignored hidle (by simp [ht]) (by simp [ht]) fun _ => hack
    · rename_i hack
      rw [if_neg hack]
      cases hparse : parseSettings f.payload with
      | none =>
          rw [hparse] at h
          cases h
      | some settings =>
          simp only [hparse] at h ⊢
          split at h
          · rename_i hcode
            exact absurd h hcode
          · rename_i hcode
            rw [if_neg hcode]
            exact .settings ht hidle (by simpa using hack) hparse (Prod.ext rfl (not_not.mp hcode))

theorem onWindowUpdate_accepted (ht : f.type = .windowUpdate) (hidle : c.hdrExpecting = false)
    (h : (c.onWindowUpdate f).code = .noError) : Accepted c f (c.onWindowUpdate f) := by
  unfold onWindowUpdate at h ⊢
  split at h
  · cases h
  · rename_i hlen
    rw [if_neg hlen]
    split at h
    · rename_i h0
      rw [if_pos h0]
      split at h
      · cases h
      · rename_i hinc
        rw [if_neg hinc]
        dsimp only at h ⊢
        split at h
        · cases h
        · rename_i hle
          rw [if_neg hle]
          exact .connCredit ht hidle h0 hinc (Int.not_lt.mp hle)
    · rename_i h0
      rw [if_neg h0]
      split at h
      · cases h
      · rename_i hle
        have hle' := Nat.le_of_not_lt hle
        rw [if_neg hle]
        split
        · rename_i hinc
          exact .zeroCredit ht hidle h0 hle' hinc
        · rename_i hinc
          cases hget : c.streams.get f.streamId with
          | none => exact .staleCredit ht hidle h0 hle' hinc hget
          | some st =>
              dsimp only
              split
              · rename_i hover
                exact .overflow ht hidle h0 hle' hinc hget hover
              · rename_i hover
                exact .credit ht hidle h0 hle' hinc hget (Int.not_lt.mp hover)

theorem onPing_accepted (ht : f.type = .ping) (hidle : c.hdrExpecting = false)
    (h : (c.onPing f).code = .noError) : Accepted c f (c.onPing f) := by
  unfold onPing at h ⊢
  split at h
  · cases h
  · rename_i h0
    rw [if_neg h0]
    split at h
    · cases h
    · rename_i hlen
      rw [if_neg hlen]
      exact .ping ht hidle (not_not.mp hlen)

theorem onGoaway_accepted (ht : f.type = .goaway) (hidle : c.hdrExpecting = false)
    (h : (c.onGoaway f).code = .noError) : Accepted c f (c.onGoaway f) := by
  unfold onGoaway at h ⊢
  split at h
  · cases h
  · rename_i h0
    rw [if_neg h0]
    split at h
    · cases h
    · rename_i hlen
      rw [if_neg hlen]
      exact .ignored hidle (by simp [ht]) (by simp [ht]) (by simp [ht])

/-- **What a frame without error does.** -/
theorem frame_accepted (h : (c.frame f).code = .noError) : Accepted c f (c.frame f) := by
  obtain ⟨hd, hx⟩ := frame_ok c h
  have hidle : f.type ≠ .continuation → c.hdrExpecting = false := fun ht => by
    cases he : c.hdrExpecting with
    | true => exact absurd (hx he) ht
    | false => rfl
  rw [hd] at h ⊢
  unfold dispatch at h ⊢
  cases ht : f.type with
  | data =>
      rw [ht] at h hidle
      exact onData_accepted ht (hidle (by decide)) h
  | headers =>
      rw [ht] at h hidle
      exact onHeaders_accepted ht (hidle (by decide)) h
  | priority =>
      rw [ht] at h hidle
      exact onPriority_accepted ht (hidle (by decide)) h
  | rstStream =>
      rw [ht] at h hidle
      exact onRstStream_accepted ht (hidle (by decide)) h
  | settings =>
      rw [ht] at h hidle
      exact onSettings_accepted ht (hidle (by decide)) h
  | pushPromise =>
      rw [ht] at h
      cases h
  | ping =>
      rw [ht] at h hidle
      exact onPing_accepted ht (hidle (by decide)) h
  | goaway =>
      rw [ht] at h hidle
      exact onGoaway_accepted ht (hidle (by decide)) h
  | windowUpdate =>
      rw [ht] at h hidle
      exact onWindowUpdate_accepted ht (hidle (by decide)) h
  | continuation =>
      rw [ht] at h
      exact onContinuation_accepted ht h
  | unknown b =>
      rw [ht] at hidle
      exact .ignored (hidle (by simp)) (by simp [ht]) (by simp [ht]) (by simp [ht])

/-! ### Errors -/

theorem completeStream_ok (c : ServerConn) (id : Nat) : (c.completeStream id).code = .noError := by
  unfold completeStream
  split
  · rfl
  · dsimp only
    split
    · rfl
    · split <;> rfl

theorem finishFields_ok (c : ServerConn) (fields : List HeaderField) :
    (c.finishFields fields).code = .noError := by
  unfold finishFields
  dsimp only
  split
  · split
    · rfl
    · exact completeStream_ok c _
  · split
    · rfl
    · split
      · exact completeStream_ok _ _
      · rfl

theorem flushAll_ok (c : ServerConn) (ids : List Nat) : (c.flushAll ids).code = .noError := by
  induction ids generalizing c with
  | nil => rfl
  | cons id ids ih => exact ih _

theorem flushPending_ok (c : ServerConn) (id : Nat) : (c.flushPending id).code = .noError := by
  unfold flushPending
  split
  · rfl
  · dsimp only
    split
    · rfl
    · split
      · rfl
      · split <;> rfl

theorem flushPending_reqs (c : ServerConn) (id : Nat) : (c.flushPending id).reqs = [] := by
  unfold flushPending
  split
  · rfl
  · dsimp only
    split
    · rfl
    · split
      · rfl
      · split <;> rfl

theorem flushAll_reqs (c : ServerConn) (ids : List Nat) : (c.flushAll ids).reqs = [] := by
  induction ids generalizing c with
  | nil => rfl
  | cons id ids ih => exact ih _

theorem takeSettings_reqs (c : ServerConn) (sts : List Setting) :
    (c.takeSettings sts).reqs = [] := by
  unfold takeSettings
  split
  · exact flushAll_reqs c _
  · rfl

/-- What an error of the connection leaves: nothing is appended, and of the streams only windows
have changed. -/
structure Halted (c : ServerConn) (r : Reply) : Prop where
  out : r.out = []
  reqs : r.reqs = []
  store : Streams.SameStore c.streams r.conn.streams
  last : c.lastStream ≤ r.conn.lastStream

theorem Halted.parked {r : Reply} (h : Halted c r) (id : Nat) :
    r.conn.parkedOn id = c.parkedOn id := by
  have hget := congrArg (Option.map StreamState.parked) (h.store.get id)
  rw [Option.map_map, Option.map_map] at hget
  exact congrArg (Option.getD · []) hget

theorem Halted.len {r : Reply} (h : Halted c r) : r.conn.streams.len = c.streams.len :=
  congrArg StreamTable.len h.store.table

/-- No error, or one that leaves this. -/
def Bare (c : ServerConn) (r : Reply) : Prop := r.code ≠ .noError → Halted c r

theorem halted_fail (c : ServerConn) (code : ErrorCode) : Halted c (c.fail code) :=
  ⟨rfl, rfl, .refl _, Nat.le_refl _⟩

theorem bare_fail (c : ServerConn) (code : ErrorCode) : Bare c (c.fail code) :=
  fun _ => halted_fail c code

theorem bare_ok {r : Reply} (h : r.code = .noError) : Bare c r := fun h' => absurd h h'

/-- The handler has noted something, that is about the windows of the streams at most. -/
theorem Bare.of_store {c' : ServerConn} {r : Reply} (h : Bare c' r)
    (hs : Streams.SameStore c.streams c'.streams) (hl : c.lastStream ≤ c'.lastStream) : Bare c r :=
  fun he => ⟨(h he).out, (h he).reqs, hs.trans (h he).store, hl.trans (h he).last⟩

theorem Bare.of_streams {c' : ServerConn} {r : Reply} (h : Bare c' r)
    (hs : c'.streams = c.streams) (hl : c.lastStream ≤ c'.lastStream) : Bare c r :=
  h.of_store (hs ▸ .refl _) hl

theorem onSetting_store (c : ServerConn) (st : Setting) :
    Streams.SameStore c.streams (c.onSetting st).1.streams := by
  unfold onSetting
  split
  · split
    · exact .refl _
    · exact .addToSendWindows _ _
  · split
    · split <;> exact .refl _
    · split
      · split <;> exact .refl _
      · exact .refl _

theorem onSettingList_store (c : ServerConn) (sts : List Setting) :
    Streams.SameStore c.streams (c.onSettingList sts).1.streams :=
  onSettingList_rule (P := fun c' => Streams.SameStore c.streams c'.streams)
    (fun c' st h => h.trans (onSetting_store c' st)) (.refl _) sts

theorem finishHeaderBlock_bare (c : ServerConn) : Bare c c.finishHeaderBlock := by
  unfold finishHeaderBlock
  split
  · exact (bare_fail _ _).of_streams rfl (Nat.le_refl _)
  · exact bare_ok (finishFields_ok _ _)

theorem beginBlock_bare (c : ServerConn) (f : Frame) (b : List UInt8) :
    Bare c (c.beginBlock f b) := by
  unfold beginBlock
  dsimp only
  split
  · exact (finishHeaderBlock_bare _).of_streams rfl (Nat.le_refl _)
  · exact bare_ok rfl

theorem onHeaderFragment_bare (c : ServerConn) (f : Frame) (b : List UInt8) :
    Bare c (c.onHeaderFragment f b) := by
  unfold onHeaderFragment
  split
  · split
    · exact bare_fail _ _
    · split
      · exact bare_fail _ _
      · exact (beginBlock_bare _ _ _).of_streams rfl (Nat.le_refl _)
  · split
    · exact bare_fail _ _
    · rename_i hlt
      exact (beginBlock_bare _ _ _).of_streams rfl (Nat.le_of_not_le hlt)

theorem onHeaders_bare (c : ServerConn) (f : Frame) : Bare c (c.onHeaders f) := by
  unfold onHeaders
  split
  · exact bare_fail _ _
  · split
    · exact bare_fail _ _
    · dsimp only
      split
      · split
        · exact (bare_fail _ _).of_streams rfl (Nat.le_refl _)
        · split
          · exact (onHeaderFragment_bare _ _ _).of_streams rfl (Nat.le_refl _)
          · exact (onHeaderFragment_bare _ _ _).of_streams rfl (Nat.le_refl _)
      · exact (onHeaderFragment_bare _ _ _).of_streams rfl (Nat.le_refl _)

theorem onContinuation_bare (c : ServerConn) (f : Frame) : Bare c (c.onContinuation f) := by
  unfold onContinuation
  split
  · exact bare_fail _ _
  · split
    · exact bare_fail _ _
    · dsimp only
      split
      · exact (finishHeaderBlock_bare _).of_streams rfl (Nat.le_refl _)
      · exact bare_ok rfl

theorem onData_bare (c : ServerConn) (f : Frame) : Bare c (c.onData f) := by
  have hfail : ∀ (win : Int) (code : ErrorCode), Bare c
      (fail (updateStream { c with connRecvWindow := win } f.streamId
        fun s => { s with recvWindow := s.recvWindow - f.payload.length }) code) :=
    fun win code => by
      refine (bare_fail _ code).of_store ?_ (Nat.le_refl _)
      exact @Streams.SameStore.update c.streams f.streamId
        (fun s => { s with recvWindow := s.recvWindow - f.payload.length }) fun _ => rfl
  unfold onData
  split
  · exact bare_fail _ _
  · split
    · exact bare_fail _ _
    · split
      · exact bare_fail _ _
      · dsimp only
        split
        · exact hfail _ _
        · split
          · exact hfail _ _
          · split
            · exact hfail _ _
            · rename_i st hget _ _ _ _ _ _
              rw [taken_eq hget, replenish_eq]
              split
              · exact bare_ok (completeStream_ok _ _)
              · exact bare_ok rfl

theorem onSettings_bare (c : ServerConn) (f : Frame) : Bare c (c.onSettings f) := by
  unfold onSettings
  split
  · exact bare_fail _ _
  · split
    · split
      · exact bare_fail _ _
      · exact bare_ok rfl
    · split
      · exact bare_fail _ _
      · dsimp only
        split
        · refine (bare_fail _ _).of_store (onSettingList_store c _) (Nat.le_of_eq ?_)
          exact (congrArg lastStream (onSettingList_baseSettings c _) :).symm
        · split
          · exact bare_ok (flushAll_ok _ _)
          · exact bare_ok rfl

theorem onWindowUpdate_bare (c : ServerConn) (f : Frame) : Bare c (c.onWindowUpdate f) := by
  unfold onWindowUpdate
  split
  · exact bare_fail _ _
  · split
    · split
      · exact bare_fail _ _
      · dsimp only
        split
        · exact (bare_fail _ _).of_streams rfl (Nat.le_refl _)
        · exact bare_ok (flushAll_ok _ _)
    · split
      · exact bare_fail _ _
      · split
        · exact bare_ok rfl
        · split
          · exact bare_ok rfl
          · dsimp only
            split
            · exact bare_ok rfl
            · exact bare_ok (flushPending_ok _ _)

/-- **An error of the connection appends nothing**, and leaves the streams open that were. -/
theorem frame_bare (c : ServerConn) (f : Frame) : Bare c (c.frame f) := by
  unfold frame dispatch
  split
  · exact bare_fail _ _
  · split
    · exact onData_bare c f
    · exact onHeaders_bare c f
    · unfold onPriority
      split
      · exact bare_fail _ _
      · split
        · exact bare_fail _ _
        · split <;> exact bare_ok rfl
    · unfold onRstStream
      split
      · exact bare_fail _ _
      · split
        · exact bare_fail _ _
        · exact bare_ok rfl
    · exact onSettings_bare c f
    · exact bare_fail _ _
    · unfold onPing
      split
      · exact bare_fail _ _
      · split
        · exact bare_fail _ _
        · exact bare_ok rfl
    · unfold onGoaway
      split
      · exact bare_fail _ _
      · split
        · exact bare_fail _ _
        · exact bare_ok rfl
    · exact onWindowUpdate_bare c f
    · exact onContinuation_bare c f
    · exact bare_ok rfl

end ServerConn

/-- What an event that is an error leaves. -/
theorem Done.halted (d : Done) (h : ¬ d.Ok) : ServerConn.Halted d.before d.reply := by
  obtain ⟨c, e⟩ := d
  cases e with
  | preface => exact absurd rfl h
  | recv f => exact ServerConn.frame_bare c f h
  | write w => exact absurd (write_ok c w) h

end Vanilla.Http2

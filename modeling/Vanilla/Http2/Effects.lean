import Vanilla.Http2.Invariants

/-!
# HTTP/2 — what frames do to the responses

Most frames have no part in any response.  For the responses there are four kinds of them
(`Effect`): those that have none, the settings of the peer, and credit for the connection or for a
stream.

* `Quiet`: a reply that writes control frames only and leaves the response side of the streams
  alone.
* `Settled`: a stream whose request is complete, or that is gone; no frame touches it any more, but
  to reset it (`Resets`) or to give it credit.
* `Sound.effect`: a frame without error has one of the effects.
-/

namespace Vanilla.Http2

open StreamState Streams ServerConn

/-! ### Settled streams -/

/-- There is nothing of its request to come: the stream is gone, or its request is complete. -/
structure Settled (c : ServerConn) (s : Nat) : Prop where
  pos : s ≠ 0
  le : s ≤ c.lastStream
  idle : c.hdrExpecting = true → c.hdrStream ≠ s
  done : ∀ st, c.streams.get s = some st → st.remoteDone = true

/-- The frame resets the stream: with RST_STREAM, or as a stream error. -/
def Resets (c : ServerConn) (f : Frame) (s : Nat) : Prop :=
  f.streamId = s ∧
    (f.type = .rstStream ∨ (f.type = .priority ∧ dependency f.payload = s) ∨
      (f.type = .windowUpdate ∧ (f.increment = 0 ∨
        ∃ st, c.streams.get s = some st ∧ st.sendWindow + f.increment > maxWindow)))

theorem Sound.settled {c : ServerConn} (hs : Sound c) {s : Nat} {st : StreamState}
    (hget : c.streams.get s = some st) (hdone : st.remoteDone = true) : Settled c s := by
  refine ⟨fun h0 => ?_, hs.le hget, fun hx he => ?_, fun st' h => ?_⟩
  · have := hs.odd s st hget
    omega
  · subst he
    cases ht : c.hdrTrailers with
    | true =>
        rw [(hs.block hx).reading ht st hget] at hdone
        cases hdone
    | false =>
        rw [hs.fresh _ (.inr ⟨hx, ht, rfl⟩)] at hget
        cases hget
  · rw [hget, Option.some.injEq] at h
    rw [← h]
    exact hdone

namespace Settled

variable {c : ServerConn} {f : Frame} {s : Nat}

/-- No header block is about a settled stream. -/
theorem assembled (h : Settled c s) {c₁ : ServerConn} (ha : Assembled c f c₁) :
    c₁.hdrStream ≠ s := by
  cases ha with
  | begins _ _ hn =>
      rintro rfl
      cases hn with
      | trailers _ hget hopen =>
          rw [h.done _ hget] at hopen
          cases hopen
      | opens _ _ hlt => exact Nat.not_lt.mpr h.le hlt
  | continues _ hx => exact h.idle hx

/-- No header block is read, and the stream's request is not one that begins. -/
theorem of_done (h : Settled c s) {c' : ServerConn} (hpart : c'.headerPart = c.headerPart)
    (hdone : ∀ st, c'.streams.get s = some st → st.remoteDone = true) : Settled c' s := by
  have hlast : c'.lastStream = c.lastStream := (congrArg lastStream hpart :)
  have hst : c'.hdrStream = c.hdrStream := (congrArg hdrStream hpart :)
  have hx : c'.hdrExpecting = c.hdrExpecting := (congrArg hdrExpecting hpart :)
  exact ⟨h.pos, hlast ▸ h.le, fun he => hst ▸ h.idle (hx ▸ he), hdone⟩

/-- Nothing of the request side changes. -/
theorem of_kept (h : Settled c s) {c' : ServerConn} (hk : Kept SameRequest c.streams c'.streams)
    (hpart : c'.headerPart = c.headerPart) : Settled c' s := by
  refine h.of_done hpart fun st' hst' => ?_
  obtain ⟨st, hst, he, -⟩ := hk s st' hst'
  rw [show st'.remoteDone = st.remoteDone from (congrArg StreamState.remoteDone he :)]
  exact h.done st hst

end Settled

/-! ### Control frames -/

/-- A frame that is part of no response. -/
def Frame.Control (g : Frame) : Prop :=
  g.type ≠ .data ∧ g.type ≠ .headers ∧ g.type ≠ .continuation ∧ g.payload.length ≤ 8

theorem control_rstStream (id : Nat) (code : ErrorCode) : (writeRstStream id code).Control := by
  refine ⟨?_, ?_, ?_, ?_⟩ <;> simp [writeRstStream, writeU32]

theorem control_windowUpdate (id n : Nat) : (writeWindowUpdate id n).Control := by
  refine ⟨?_, ?_, ?_, ?_⟩ <;> simp [writeWindowUpdate, writeU32]

/-- A control frame about a stream, or about the connection. -/
def Frame.ControlOf (g : Frame) (id : Nat) : Prop := g.Control ∧ (g.streamId = id ∨ g.streamId = 0)

namespace ServerConn

variable {c : ServerConn} {f g : Frame}

theorem controlOf_rstStream {id : Nat} {code : ErrorCode} {b : Bool}
    (h : g ∈ if b then [writeRstStream id code] else []) : g.ControlOf id := by
  cases b with
  | true =>
      rw [List.mem_singleton.mp h]
      exact ⟨control_rstStream _ _, .inl rfl⟩
  | false => cases h

theorem controlOf_replenished (h : g ∈ replenished f) : g.ControlOf f.streamId := by
  unfold replenished at h
  split at h
  · rcases List.mem_cons.mp h with rfl | h
    · exact ⟨control_windowUpdate _ _, .inr rfl⟩
    · split at h
      · cases h
      · rw [List.mem_singleton.mp h]
        exact ⟨control_windowUpdate _ _, .inl rfl⟩
  · cases h

theorem completeStream_out {id : Nat} (h : g ∈ (c.completeStream id).out) : g.ControlOf id := by
  unfold completeStream at h
  split at h
  · cases h
  · dsimp only at h
    split at h
    · cases h
    · split at h
      · exact controlOf_rstStream (b := true) h
      · cases h

theorem takeData_out {data : List UInt8} (h : g ∈ (c.takeData f data).out) :
    g.ControlOf f.streamId := by
  unfold takeData at h
  dsimp only at h
  split at h
  · rcases List.mem_append.mp h with h | h
    · exact controlOf_replenished h
    · exact completeStream_out h
  · exact controlOf_replenished h

theorem finishFields_out (c : ServerConn) (fields : List HeaderField)
    (h : g ∈ (c.finishFields fields).out) : g.ControlOf c.hdrStream := by
  unfold finishFields at h
  dsimp only at h
  split at h
  · split at h
    · exact controlOf_rstStream (b := true) h
    · exact completeStream_out h
  · split at h
    · exact controlOf_rstStream (b := true) h
    · split at h
      · rcases List.mem_append.mp h with h | h
        · exact controlOf_rstStream h
        · exact completeStream_out h
      · exact controlOf_rstStream h

/-! ### Other streams -/

theorem takeData_get_ne {data : List UInt8} {i : Nat} (hi : i ≠ f.streamId) :
    (c.takeData f data).conn.streams.get i = c.streams.get i := by
  have hne : (c.updateStream f.streamId (·.take f data)).streams.get i = c.streams.get i := by
    rw [updateStream, get_update, if_neg hi]
  unfold takeData
  dsimp only
  split
  · exact (completeStream_get_ne _ hi).trans hne
  · exact hne

theorem finishFields_get_ne (hb : c.Block) {fields : List HeaderField} {i : Nat}
    (hi : i ≠ c.hdrStream) : (c.finishFields fields).conn.streams.get i = c.streams.get i := by
  unfold finishFields
  dsimp only
  split
  · split
    · rw [resetStream, releaseStream, get_release, if_neg hi]
    · exact completeStream_get_ne c hi
  · rename_i ht
    split
    · rfl
    · rename_i hr
      have hopen : ∀ malformed declared, (c.openRequest c.hdrStream fields malformed
          declared).streams.get i = c.streams.get i := fun malformed declared => by
        rw [openRequest_get hb (eq_false_of_ne_true ht) (eq_false_of_ne_true hr), if_neg hi]
      split
      · exact (completeStream_get_ne _ hi).trans (hopen _ _)
      · exact hopen _ _

theorem finishFields_table_ne {fields : List HeaderField} {i : Nat} (hi : i ≠ c.hdrStream) :
    (c.finishFields fields).conn.streams.table.get i = c.streams.table.get i := by
  have hcomplete : ∀ c' : ServerConn, (c'.completeStream c.hdrStream).conn.streams.table.get i =
      c'.streams.table.get i := fun c' => by
    unfold completeStream
    split
    · rfl
    · dsimp only
      split
      · exact (table_release_ne _ hi).trans (congrArg (·.get i) (table_update _ _ _))
      · split
        · exact (table_release_ne _ hi).trans (congrArg (·.get i) (table_update _ _ _))
        · exact congrArg (·.get i) (table_update _ _ _)
  unfold finishFields
  dsimp only
  split
  · split
    · exact table_release_ne _ hi
    · exact hcomplete c
  · split
    · rfl
    · have hopen : ∀ malformed declared, (c.openRequest c.hdrStream fields malformed
          declared).streams.table.get i = c.streams.table.get i := fun malformed declared =>
        (congrArg (·.get i) (table_update _ _ _)).trans (table_openStream_ne _ _ hi)
      split
      · exact (hcomplete _).trans (hopen _ _)
      · exact hopen _ _

end ServerConn

/-! ### Quiet replies -/

/-- A reply that has no part in any response: the streams are as they were on the response side,
but for those that are gone and one that is new. -/
structure Quiet (c : ServerConn) (r : Reply) : Prop where
  streams : ∀ id st', r.conn.streams.get id = some st' →
    (∃ st, c.streams.get id = some st ∧ SameResponse st st') ∨
      c.Pending id ∧ SameResponse { sendWindow := c.initSendWindow } st'
  pending : ∀ id, r.conn.Pending id → c.Pending id
  conn : r.conn.connSendWindow = c.connSendWindow
  limits : r.conn.limits = c.limits
  out : ∀ g ∈ r.out, g.Control

namespace Quiet

variable {c : ServerConn} {f : Frame}

theorem of_kept {r : Reply} (hk : Kept SameResponse c.streams r.conn.streams)
    (hpart : r.conn.headerPart = c.headerPart) (hconn : r.conn.connSendWindow = c.connSendWindow)
    (hlimits : r.conn.limits = c.limits) (hout : ∀ g ∈ r.out, g.Control) : Quiet c r :=
  ⟨fun id st' h => (hk id st' h).elim fun st h => .inl ⟨st, h.1, h.2.1⟩,
    fun _ => (pending_of_headerPart hpart).mp, hconn, hlimits, hout⟩

/-- Nothing happens. -/
theorem same (c : ServerConn) {out : List Frame} (hout : ∀ g ∈ out, g.Control) :
    Quiet c { conn := c, out := out } :=
  of_kept (Kept.refl _) rfl rfl rfl hout

/-- A stream is released. -/
theorem released (c : ServerConn) (id : Nat) {out : List Frame} (hout : ∀ g ∈ out, g.Control) :
    Quiet c { conn := c.releaseStream id, out := out } :=
  of_kept (Kept.release _ id) rfl rfl rfl hout

/-- A fragment of a header block that goes on. -/
theorem fragment {c₁ : ServerConn} (ha : Assembled c f c₁) :
    Quiet c { conn := { c₁ with hdrExpecting := true } } := by
  refine ⟨fun id st' h => ?_, fun id hp => ?_, ?_, ?_, fun g hg => (by cases hg)⟩
  · refine .inl ⟨st', ?_, rfl⟩
    rw [← ha.streams]
    exact h
  · rcases hp with hlt | ⟨-, ht, rfl⟩
    · exact .inl (Nat.lt_of_le_of_lt ha.lastStream_le hlt)
    · exact ha.pending ht
  · exact (congrArg connSendWindow ha.restHeaders :)
  · exact (congrArg ServerConn.limits ha.restHeaders :)

/-- A header block that ends. -/
theorem finish (hs : Sound c) {c₁ : ServerConn} (ha : Assembled c f c₁) (dec : HpackDecoder)
    (fields : List HeaderField) :
    Quiet c (finishFields { c₁ with hdrExpecting := false, dec := dec } fields) := by
  have hb : ServerConn.Block { c₁ with hdrExpecting := false, dec := dec } := ha.ready hs dec
  have hget := fun i st' => @ServerConn.finishFields_get _ hb fields i st'
  have hrest := finishFields_rest { c₁ with hdrExpecting := false, dec := dec } fields
  have hout := fun g => @ServerConn.finishFields_out g
    { c₁ with hdrExpecting := false, dec := dec } fields
  generalize finishFields { c₁ with hdrExpecting := false, dec := dec } fields = r at *
  have hlast : r.conn.lastStream = c₁.lastStream := (congrArg lastStream hrest :)
  have hx : r.conn.hdrExpecting = false := (congrArg hdrExpecting hrest :)
  have hinit : c₁.initSendWindow = c.initSendWindow :=
    (congrArg initSendWindow ha.restHeaders :)
  refine ⟨fun id st' h => ?_, fun id hp => ?_, ?_, ?_, fun g hg => (hout g hg).1⟩
  · rcases hget id st' h with ⟨st, hst, hsame⟩ | ⟨ht, -, rfl, hsame⟩
    · refine .inl ⟨st, ?_, hsame⟩
      rw [← ha.streams]
      exact hst
    · exact .inr ⟨ha.pending ht, hinit ▸ hsame⟩
  · rcases hp with hlt | ⟨he, -⟩
    · rw [hlast] at hlt
      exact .inl (Nat.lt_of_le_of_lt ha.lastStream_le hlt)
    · rw [hx] at he
      cases he
  · have h₁ : r.conn.connSendWindow = c₁.connSendWindow :=
      (congrArg connSendWindow hrest :)
    exact h₁.trans (congrArg connSendWindow ha.restHeaders :)
  · have h₁ : r.conn.limits = c₁.limits := (congrArg ServerConn.limits hrest :)
    exact h₁.trans (congrArg ServerConn.limits ha.restHeaders :)

end Quiet

/-! ### Effects -/

/-- What a frame does to the responses: nothing, or it changes the peer's limits, or it gives
credit to the connection or to a stream. -/
inductive Effect (c : ServerConn) (f : Frame) : Reply → Prop where
  | quiet {r : Reply} (hq : Quiet c r) (hs : f.type = .settings → f.has flagAck = true)
      (hw : f.type = .windowUpdate →
        f.streamId ≠ 0 ∧ ¬ c.Pending f.streamId ∧ r.conn.streams.get f.streamId = none)
      (hkeep : ∀ s, Settled c s → ¬ Resets c f s →
        r.conn.streams.get s = c.streams.get s ∧ ∀ g ∈ r.out, g.streamId ≠ s) :
      Effect c f r
  | settings {settings : List Setting} {c₁ : ServerConn} (ht : f.type = .settings)
      (hack : f.has flagAck = false) (hparse : parseSettings f.payload = some settings)
      (hlist : c.onSettingList settings = (c₁, .noError)) : Effect c f (c₁.takeSettings settings)
  | connCredit (ht : f.type = .windowUpdate) (h0 : f.streamId = 0)
      (hle : c.connSendWindow + f.increment ≤ maxWindow) :
      Effect c f
        (flushAll { c with connSendWindow := c.connSendWindow + f.increment }
          c.streams.ids)
  | credit {st : StreamState} (ht : f.type = .windowUpdate) (h0 : f.streamId ≠ 0)
      (hget : c.streams.get f.streamId = some st)
      (hroom : st.sendWindow + f.increment ≤ maxWindow) :
      Effect c f
        ((c.updateStream f.streamId (shifted f.increment)).flushPending f.streamId)

section Effect

variable {c : ServerConn} {f : Frame}

/-- Control frames about one stream are not about another. -/
theorem Settled.out_ne {s id : Nat} (h : Settled c s) (hne : s ≠ id) {out : List Frame}
    (hout : ∀ g ∈ out, g.ControlOf id) : ∀ g ∈ out, g.streamId ≠ s := by
  rintro g hg rfl
  exact (hout g hg).2.elim hne h.pos

/-- **What a frame without error does to the responses.** -/
theorem Sound.effect (hs : Sound c) (hok : (c.frame f).code = .noError) :
    Effect c f (c.frame f) := by
  have ha := frame_accepted hok
  have hpart := frame_headerPart c (f := f)
  have hlimits := frame_limits c (f := f)
  have hconn := frame_connSendWindow c (f := f)
  generalize c.frame f = r at *
  have hclosed : c.hdrExpecting = false → f.streamId ≤ c.lastStream → ¬ c.Pending f.streamId :=
    fun hidle hle hp => by
      rcases hp with hlt | ⟨hx, -⟩
      · exact Nat.not_lt.mpr hle hlt
      · rw [hidle] at hx
        cases hx
  have hgone : ∀ c' : ServerConn, (c'.releaseStream f.streamId).streams.get f.streamId = none :=
    fun c' => by rw [releaseStream, get_release, if_pos rfl]
  have hrst : ∀ code, ∀ g ∈ [writeRstStream f.streamId code], g.ControlOf f.streamId :=
    fun code g hg => controlOf_rstStream (b := true) hg
  have hnil : ∀ g : Frame, g ∈ [] → g.ControlOf f.streamId := fun g hg => (by cases hg)
  -- a frame that releases its stream leaves the other streams alone
  have hrelease : ∀ {out : List Frame}, (∀ g ∈ out, g.ControlOf f.streamId) →
      Resets c f f.streamId → ∀ s, Settled c s → ¬ Resets c f s →
      (c.releaseStream f.streamId).streams.get s = c.streams.get s ∧ ∀ g ∈ out, g.streamId ≠ s :=
    fun hout hr s hset hno => by
      have hne : s ≠ f.streamId := fun h => hno (h ▸ hr)
      refine ⟨?_, hset.out_ne hne hout⟩
      rw [releaseStream, get_release, if_neg hne]
  cases ha with
  | data ht _ hget hopen =>
      refine .quiet (.of_kept (takeData_kept c f _) (hpart (by simp [ht]) (by simp [ht]))
        (hconn (by simp [ht]) (by simp [ht])) (hlimits (by simp [ht]))
        fun g hg => (takeData_out hg).1) (by simp [ht]) (by simp [ht])
        fun s hset _ => ?_
      have hne : s ≠ f.streamId := fun h => by
        subst h
        rw [hset.done _ hget] at hopen
        cases hopen
      exact ⟨takeData_get_ne hne,
        hset.out_ne hne fun g hg => takeData_out hg⟩
  | fragment ha =>
      refine .quiet (.fragment ha) (fun ht => absurd ht (ha.type_ne (by decide) (by decide)))
        (fun ht => absurd ht (ha.type_ne (by decide) (by decide)))
        fun s hset _ => ⟨?_, fun g hg => (by cases hg)⟩
      rw [← ha.streams]
  | @block c₁ fields dec ha =>
      refine .quiet (.finish hs ha _ _) (fun ht => absurd ht (ha.type_ne (by decide) (by decide)))
        (fun ht => absurd ht (ha.type_ne (by decide) (by decide))) fun s hset _ => ?_
      have hne := (hset.assembled ha).symm
      refine ⟨?_, hset.out_ne hne fun g hg => finishFields_out
        { c₁ with hdrExpecting := false, dec := dec } fields hg⟩
      rw [finishFields_get_ne (ha.ready hs dec) hne]
      exact congrArg (fun x : Streams => x.get s) ha.streams
  | dependent ht _ _ hself =>
      exact .quiet (.released c _ fun g hg => (hrst _ g hg).1) (by simp [ht]) (by simp [ht])
        (hrelease (hrst _) ⟨rfl, .inr (.inl ⟨ht, hself⟩)⟩)
  | reset ht =>
      exact .quiet (.released c _ fun g hg => (by cases hg)) (by simp [ht]) (by simp [ht])
        (hrelease hnil ⟨rfl, .inl ht⟩)
  | settings ht _ hack hparse hlist => exact .settings ht hack hparse hlist
  | connCredit ht _ h0 _ hle => exact .connCredit ht h0 hle
  | zeroCredit ht hidle h0 hle hinc =>
      exact .quiet (.released c _ fun g hg => (hrst _ g hg).1) (by simp [ht])
        (fun _ => ⟨h0, hclosed hidle hle, hgone c⟩)
        (hrelease (hrst _) ⟨rfl, .inr (.inr ⟨ht, .inl hinc⟩)⟩)
  | staleCredit ht hidle h0 hle _ hget =>
      exact .quiet (.same c fun g hg => (by cases hg)) (by simp [ht])
        (fun _ => ⟨h0, hclosed hidle hle, hget⟩) fun s _ _ => ⟨rfl, fun g hg => (by cases hg)⟩
  | @overflow st ht hidle h0 hle _ hget hover =>
      have hother : ∀ i, i ≠ f.streamId → ((c.updateStream f.streamId
          (shifted f.increment)).releaseStream f.streamId).streams.get i = c.streams.get i :=
        fun i hi => by
          rw [releaseStream, get_release, if_neg hi, updateStream, get_update,
            if_neg hi]
      refine .quiet (.of_kept (fun i st' h => ?_) rfl rfl rfl fun g hg => (hrst _ g hg).1)
        (by simp [ht]) (fun _ => ⟨h0, hclosed hidle hle, hgone _⟩) fun s hset hno => ?_
      · -- the window that moved is the one of the stream that goes
        by_cases hi : i = f.streamId
        · rw [hi, resetStream, hgone] at h
          cases h
        · refine ⟨st', (hother i hi).symm.trans h, rfl, ?_⟩
          exact (table_release_ne _ hi).trans (congrArg (·.get i) (table_update _ _ _))
      · have hne : s ≠ f.streamId := fun h =>
          hno (h ▸ ⟨rfl, .inr (.inr ⟨ht, .inr ⟨st, hget, hover⟩⟩)⟩)
        exact ⟨hother s hne, hset.out_ne hne (hrst _)⟩
  | credit ht _ h0 _ _ hget hroom => exact .credit ht h0 hget hroom
  | ping ht _ hlen =>
      have hout : ∀ g ∈ (if f.has flagAck then [] else [writePingAck f.payload]),
          g.ControlOf 0 := fun g hg => by
        split at hg
        · cases hg
        · rw [List.mem_singleton.mp hg]
          exact ⟨⟨by simp [writePingAck], by simp [writePingAck], by simp [writePingAck],
            Nat.le_of_eq hlen⟩, .inl rfl⟩
      exact .quiet (.same c fun g hg => (hout g hg).1) (by simp [ht]) (by simp [ht])
        fun s hset _ => ⟨rfl, hset.out_ne hset.pos hout⟩
  | ignored _ ht _ hack =>
      exact .quiet (.same c fun g hg => (by cases hg)) hack (fun h => absurd h ht.2.2.2.2)
        fun s _ _ => ⟨rfl, fun g hg => (by cases hg)⟩

/-- **A settled stream is the same**, on the request side and in the table, while it is open. -/
theorem Settled.same {s : Nat} (h : Settled c s) (hs : Sound c)
    (hok : (c.frame f).code = .noError) {st' : StreamState}
    (hget' : (c.frame f).conn.streams.get s = some st') :
    ∃ st, c.streams.get s = some st ∧ SameRequest st st' ∧
      (c.frame f).conn.streams.table.get s = c.streams.table.get s := by
  have hr := frame_receives hok
  generalize c.frame f = r at *
  cases hr with
  | data ht hget hopen =>
      have hne : s ≠ f.streamId := fun he => by
        subst he
        rw [h.done _ hget] at hopen
        cases hopen
      obtain ⟨st, hst, -, htab⟩ := takeData_kept c f _ s st' hget'
      rw [takeData_get_ne hne] at hget'
      exact ⟨st', hget', rfl, htab⟩
  | fragment ha =>
      refine ⟨st', ?_, rfl, congrArg (fun x : Streams => x.table.get s) ha.streams⟩
      rw [← ha.streams]
      exact hget'
  | @block c₁ fields dec ha =>
      have hne := (h.assembled ha).symm
      refine ⟨st', ?_, rfl, ?_⟩
      · rw [← ha.streams]
        exact (finishFields_get_ne (ha.ready hs dec) hne).symm.trans hget'
      · rw [← ha.streams]
        exact finishFields_table_ne hne
  | other _ _ _ hk => exact hk s st' hget'

/-- **A settled stream stays settled.** -/
theorem Settled.frame {s : Nat} (h : Settled c s) (hs : Sound c)
    (hok : (c.frame f).code = .noError) : Settled (c.frame f).conn s := by
  have hdone : ∀ st', (c.frame f).conn.streams.get s = some st' → st'.remoteDone = true :=
    fun st' hst' => by
      obtain ⟨st, hst, he, -⟩ := h.same hs hok hst'
      rw [show st'.remoteDone = st.remoteDone from (congrArg StreamState.remoteDone he :)]
      exact h.done st hst
  have hr := frame_receives hok
  generalize c.frame f = r at *
  cases hr with
  | data =>
      exact h.of_done (congrArg headerPart (takeData_rest c f _) :) hdone
  | fragment ha =>
      exact ⟨h.pos, h.le.trans ha.lastStream_le, fun _ => (h.assembled ha :), hdone⟩
  | @block c₁ fields dec ha =>
      have hrest :=
        finishFields_rest { c₁ with hdrExpecting := false, dec := dec } fields
      generalize finishFields _ fields = r at *
      have hlast : r.conn.lastStream = c₁.lastStream := (congrArg lastStream hrest :)
      have hx : r.conn.hdrExpecting = false := (congrArg hdrExpecting hrest :)
      exact ⟨h.pos, hlast ▸ h.le.trans ha.lastStream_le, by simp [hx], hdone⟩
  | other _ _ hpart => exact h.of_done hpart hdone

theorem Settled.write {s : Nat} (h : Settled c s) (w : Write) : Settled (w.exec c).conn s :=
  h.of_kept (write_kept c w) (headerPart_of_base (write_base c w))

end Effect

end Vanilla.Http2

import Vanilla.Http2.Surfacing
import Vanilla.Http2.Windows

/-!
# HTTP/2 — the server's own windows

What the server allows the peer to send.  `on_data` takes each DATA frame off the two windows it
counts against, padding included, and gives it back at once; only a stream whose request ends keeps
what its last frame took.

* `Full`: both windows are open as on the first day, but for streams whose request is complete.
* `receive_windows_exact`: so they are after every frame that is no error, the WINDOW_UPDATEs of the
  connection add up to the DATA received, and no DATA ever finds a window too small.
-/

namespace Vanilla.Http2

open StreamState Streams ServerConn

/-! ### Frames are bounded -/

theorem headFrame_size {b rest : List UInt8} {f : Frame} (h : headFrame b = .frame f rest) :
    f.payload.length ≤ defaultMaxFrameSize := by
  unfold headFrame at h
  split at h
  · cases h
  · split at h
    · cases h
    · rename_i hsize
      split at h
      · cases h
      · cases h
        rw [List.length_take]
        omega

/-- The frames handed over so far are not above the size limit. -/
def Sized (l : List Handled) : Prop := ∀ d ∈ l, d.frame.payload.length ≤ defaultMaxFrameSize

theorem Sized.handle {s : ConsumeState} {f : Frame} {rest : List UInt8} (h : Sized s.handled)
    (hf : headFrame s.rest = .frame f rest) : Sized (s.handle f rest).handled := by
  intro d hd
  rcases List.mem_append.mp hd with hd | hd
  · exact h d hd
  · rw [List.mem_singleton.mp hd]
    exact headFrame_size hf

theorem ConsumeState.run_sized (s : ConsumeState) : Sized s.handled → Sized s.run.handled := by
  refine run_rule (P := fun s r => Sized s.handled → Sized r.handled) (fun s r e h => ?_)
    (fun s s' r e ih h => ?_) s
  · unfold step at e
    split at e
    · cases e
      exact h
    · cases e
      exact h
    · rename_i hf
      split at e
      · split at e <;> cases e
        exact h
      · dsimp only at e
        split at e <;> cases e
        exact h.handle hf
  · unfold step at e
    split at e
    · cases e
    · cases e
    · rename_i hf
      split at e
      · split at e <;> cases e
        exact ih h
      · dsimp only at e
        split at e <;> cases e
        exact ih (h.handle hf)

theorem consume_sized (c : ServerConn) (buf : List UInt8) : Sized (c.consume buf).handled := by
  have hnil : Sized [] := fun d hd => (by cases hd)
  unfold consume
  split
  · exact ConsumeState.run_sized _ hnil
  · split
    · exact hnil
    · split
      · exact hnil
      · exact ConsumeState.run_sized _ hnil

/-- An event is no frame above the size limit. -/
def Done.Fits (d : Done) : Prop :=
  ∀ f, d.event = .recv f → f.payload.length ≤ defaultMaxFrameSize

theorem consumeEvents_fit (c : ServerConn) (buf : List UInt8) :
    ∀ d ∈ consumeEvents c buf, d.Fits := by
  have hev : ∀ d ∈ events (c.consume buf).handled, d.Fits := by
    intro d hd f hf
    obtain ⟨x, hx, rfl⟩ := List.mem_map.mp hd
    cases hf
    exact consume_sized c buf x hx
  unfold consumeEvents
  split
  · exact hev
  · split
    · intro d hd
      rcases List.mem_cons.mp hd with rfl | hd
      · exact fun f hf => (by cases hf)
      · exact hev d hd
    · exact fun d hd => (by cases hd)

theorem runCalls_fit (c : ServerConn) (calls : List Call) :
    ∀ d ∈ (runCalls c calls).history, d.Fits := by
  induction calls generalizing c with
  | nil => exact fun d hd => (by cases hd)
  | cons call calls ih =>
      cases call with
      | write w =>
          intro d hd
          rcases List.mem_cons.mp hd with rfl | hd
          · exact fun f hf => (by cases hf)
          · exact ih _ d hd
      | consume buf =>
          unfold runCalls
          dsimp only
          split
          · exact consumeEvents_fit c buf
          · intro d hd
            rcases List.mem_append.mp hd with hd | hd
            · exact consumeEvents_fit c buf d hd
            · exact ih _ d hd

/-! ### Credit to the peer -/

/-- What a frame adds to the peer's credit on the connection. -/
def Frame.grants (g : Frame) : Nat :=
  if g.type = .windowUpdate ∧ g.streamId = 0 then g.increment else 0

/-- How much the WINDOW_UPDATEs of the connection in some frames add. -/
def granted (fs : List Frame) : Nat := (fs.map Frame.grants).sum

/-- The flow-controlled length of an event: DATA, with its padding. -/
def Done.flow (d : Done) : Nat :=
  match d.event with
  | .recv f => if f.type = .data then f.payload.length else 0
  | _ => 0

/-- How much DATA a history has received. -/
def dataReceived (h : List Done) : Nat := (h.map Done.flow).sum

/-- How much the WINDOW_UPDATEs a history has written for the connection add. -/
def creditReturned (h : List Done) : Nat := granted (h.flatMap (·.reply.out))

theorem granted_append (fs gs : List Frame) : granted (fs ++ gs) = granted fs + granted gs := by
  rw [granted, List.map_append, List.sum_append]
  rfl

theorem granted_none {fs : List Frame} (h : ∀ g ∈ fs, g.type ≠ .windowUpdate) : granted fs = 0 := by
  induction fs with
  | nil => rfl
  | cons g fs ih =>
      have hg : g.grants = 0 := if_neg fun hw => h g List.mem_cons_self hw.1
      rw [granted, List.map_cons, List.sum_cons, hg, Nat.zero_add]
      exact ih fun g hg => h g (List.mem_cons_of_mem _ hg)

theorem increment_writeWindowUpdate {id n : Nat} (hn : n ≤ defaultMaxFrameSize) :
    (writeWindowUpdate id n).increment = n := by
  unfold defaultMaxFrameSize at hn
  simp only [writeWindowUpdate, Frame.increment, readU32, writeU32, bigEndian, List.drop_zero,
    List.take_succ_cons, List.take_zero, List.foldl_cons, List.foldl_nil, toNat_toUInt8]
  omega

/-- What `on_data` gives back. -/
theorem granted_replenished {f : Frame} (hn : f.payload.length ≤ defaultMaxFrameSize)
    (h0 : f.streamId ≠ 0) : granted (replenished f) = f.payload.length := by
  have hconn : (writeWindowUpdate 0 f.payload.length).grants = f.payload.length := by
    rw [Frame.grants, if_pos ⟨rfl, rfl⟩, increment_writeWindowUpdate hn]
  have hstream : (writeWindowUpdate f.streamId f.payload.length).grants = 0 :=
    if_neg fun h => h0 h.2
  unfold replenished
  split
  · split
    · simp only [granted, List.map_cons, List.map_nil, List.sum_cons, List.sum_nil, hconn,
        Nat.add_zero]
    · simp only [granted, List.map_cons, List.map_nil, List.sum_cons, List.sum_nil, hconn, hstream,
        Nat.add_zero]
  · rw [granted, List.map_nil, List.sum_nil]
    omega

/-! ### Who writes WINDOW_UPDATE -/

namespace ServerConn

variable {c : ServerConn}

theorem headerFrames_type {id m : Nat} {block : List UInt8} {es : Bool} {g : Frame}
    (h : g ∈ headerFrames id m block es) : g.type ≠ .windowUpdate := by
  have hcont : ∀ n rest, ∀ g ∈ continuationFrames id m n rest, g.type ≠ .windowUpdate := by
    intro n
    induction n with
    | zero => exact fun rest g hg => (by cases hg)
    | succ n ih =>
        intro rest g hg
        unfold continuationFrames at hg
        split at hg
        · cases hg
        · split at hg
          · rcases List.mem_cons.mp hg with rfl | hg
            · simp
            · exact ih _ g hg
          · rw [List.mem_singleton.mp hg]
            simp
  unfold headerFrames at h
  dsimp only at h
  split at h
  · rw [List.mem_singleton.mp h]
    simp
  · rcases List.mem_cons.mp h with rfl | h
    · simp
    · exact hcont _ _ g h

theorem Sends.type {id m : Nat} {st : StreamState} {b : List UInt8} {tail : List Frame} {r : Reply}
    (h : c.Sends id st b tail r) (ht : Tail id m tail) : ∀ g ∈ r.out, g.type ≠ .windowUpdate := by
  obtain ⟨last, fs, hrun, hout⟩ := h.out
  intro g hg
  rw [hout] at hg
  rcases List.mem_append.mp hg with hg | hg
  · simp [hrun.type g hg]
  · cases ht with
    | none => cases hg
    | trailers block => exact headerFrames_type hg
    | empty =>
        rw [List.mem_singleton.mp hg]
        simp [writeData]

theorem flushPending_type (hs : Sound c) (id : Nat) :
    ∀ g ∈ (c.flushPending id).out, g.type ≠ .windowUpdate := by
  cases hget : c.streams.get id with
  | none =>
      rw [flushPending_none c hget]
      exact fun g hg => (by cases hg)
  | some st =>
      obtain ⟨b, tail, hsend, ht⟩ := flushPending_sends hs.pos hget
      exact hsend.type ht

theorem flushAll_type (hs : Sound c) (ids : List Nat) :
    ∀ g ∈ (c.flushAll ids).out, g.type ≠ .windowUpdate := by
  induction ids generalizing c with
  | nil => exact fun g hg => (by cases hg)
  | cons id ids ih =>
      intro g hg
      rcases List.mem_append.mp hg with hg | hg
      · exact flushPending_type hs id g hg
      · exact ih (hs.flushPending id) g hg

theorem writeResponseBody_type (hs : Sound c) (id : Nat) (body : List UInt8) (endStream : Bool) :
    ∀ g ∈ (c.writeResponseBody id body endStream).out, g.type ≠ .windowUpdate := by
  cases hget : c.streams.get id with
  | none =>
      rw [writeResponseBody_none c hget]
      exact fun g hg => (by cases hg)
  | some st =>
      obtain ⟨b, tail, hsend, ht⟩ := writeResponseBody_sends hs.pos hget body endStream
      exact hsend.type ht

theorem write_type (hs : Sound c) (w : Write) : ∀ g ∈ (w.exec c).out, g.type ≠ .windowUpdate := by
  cases w with
  | headers id block endStream => exact fun g hg => headerFrames_type hg
  | body id bytes endStream => exact writeResponseBody_type hs id bytes endStream
  | data id bytes => exact writeResponseBody_type hs id bytes true
  | trailers id block =>
      show ∀ g ∈ (c.writeResponseTrailers id block).out, _
      unfold writeResponseTrailers
      split
      · exact fun g hg => (by cases hg)
      · split
        · exact fun g hg => (by cases hg)
        · exact fun g hg => headerFrames_type hg
  | abort id code =>
      intro g hg
      rw [List.mem_singleton.mp hg]
      simp [writeRstStream]

theorem completeStream_type {id : Nat} :
    ∀ g ∈ (c.completeStream id).out, g.type ≠ .windowUpdate := by
  unfold completeStream
  split
  · exact fun g hg => (by cases hg)
  · dsimp only
    split
    · exact fun g hg => (by cases hg)
    · split
      · intro g hg
        rw [List.mem_singleton.mp hg]
        simp [writeRstStream]
      · exact fun g hg => (by cases hg)

theorem finishFields_type (c : ServerConn) (fields : List HeaderField) :
    ∀ g ∈ (c.finishFields fields).out, g.type ≠ .windowUpdate := by
  have hrst : ∀ (b : Bool) code, ∀ g ∈ if b then [writeRstStream c.hdrStream code] else [],
      g.type ≠ .windowUpdate := by
    intro b code g hg
    cases b with
    | false => cases hg
    | true =>
        rw [List.mem_singleton.mp hg]
        simp [writeRstStream]
  unfold finishFields
  dsimp only
  split
  · split
    · exact hrst true _
    · exact completeStream_type
  · split
    · exact hrst true _
    · split
      · intro g hg
        rcases List.mem_append.mp hg with hg | hg
        · exact hrst _ _ g hg
        · exact completeStream_type g hg
      · exact hrst _ _

end ServerConn

/-! ### The windows are full -/

/-- The server's windows are as they were at first, but for streams whose request is complete. -/
structure Full (c : ServerConn) : Prop where
  conn : c.connRecvWindow = defaultWindowSize
  stream : ∀ id st, c.streams.get id = some st → st.remoteDone = false →
    st.recvWindow = defaultWindowSize

theorem full_new : Full newServerConn where
  conn := rfl
  stream id st h := by
    rw [show newServerConn.streams = .new from rfl, get_new] at h
    cases h

namespace Full

variable {c c' : ServerConn} {f : Frame}

/-- Nothing of the request side changes. -/
theorem of_kept (h : Full c) (hk : Kept SameRequest c.streams c'.streams)
    (hconn : c'.connRecvWindow = c.connRecvWindow) : Full c' := by
  refine ⟨hconn.trans h.conn, fun id st' hst' hopen => ?_⟩
  obtain ⟨st, hst, hsame, -⟩ := hk id st' hst'
  rw [show st'.recvWindow = st.recvWindow from (congrArg StreamState.recvWindow hsame :)]
  refine h.stream id st hst ?_
  rwa [show st.remoteDone = st'.remoteDone from (congrArg StreamState.remoteDone hsame :).symm]

theorem release (h : Full c) (id : Nat) : Full (c.releaseStream id) :=
  h.of_kept (Kept.release c.streams id) rfl

/-- A request is complete: its stream may have any window. -/
theorem complete {id : Nat} (hconn : c.connRecvWindow = defaultWindowSize)
    (h : ∀ i st, i ≠ id → c.streams.get i = some st → st.remoteDone = false →
      st.recvWindow = defaultWindowSize) : Full (c.completeStream id).conn := by
  refine ⟨?_, fun i st' hst' hopen => ?_⟩
  · have hrest := completeStream_rest c id
    exact (congrArg connRecvWindow hrest :).trans hconn
  · by_cases hi : i = id
    · subst hi
      unfold completeStream at hst'
      split at hst'
      · rename_i hget
        rw [hget] at hst'
        cases hst'
      · rename_i st hget
        dsimp only at hst'
        split at hst'
        · rw [release_get] at hst'
          cases hst'
        · split at hst'
          · rw [resetStream, release_get] at hst'
            cases hst'
          · rw [updateStream, get_update, if_pos rfl, hget] at hst'
            cases hst'
            cases hopen
    · rw [completeStream_get_ne _ hi] at hst'
      exact h i st' hi hst' hopen

/-- A DATA frame is given back. -/
theorem takeData (h : Full c) (data : List UInt8) : Full (c.takeData f data).conn := by
  unfold ServerConn.takeData
  dsimp only
  split
  · refine complete h.conn fun i st hi hst => ?_
    rw [updateStream, get_update, if_neg hi] at hst
    exact h.stream i st hst
  · rename_i hend
    refine ⟨h.conn, fun i st' hst' hopen => ?_⟩
    simp only [updateStream, get_update] at hst'
    split at hst'
    · obtain ⟨st, hst, rfl⟩ := Option.map_eq_some_iff.mp hst'
      exact (if_neg hend).trans (h.stream _ st hst hopen)
    · exact h.stream i st' hst' hopen

/-- A header block ends: the stream it opens has a full window. -/
theorem finishFields (h : Full c) (hb : c.Block) (fields : List HeaderField) :
    Full (c.finishFields fields).conn := by
  unfold ServerConn.finishFields
  dsimp only
  split
  · split
    · exact h.release c.hdrStream
    · exact complete h.conn fun i st _ => h.stream i st
  · rename_i ht
    split
    · exact h
    · rename_i hr
      have hopened : Full (c.openRequest c.hdrStream fields
          (c.hdrMalformed || (validateRequestFields fields).isNone)
          ((validateRequestFields fields).getD none)) := by
        refine ⟨h.conn, fun i st hst hopen => ?_⟩
        rw [openRequest_get hb (eq_false_of_ne_true ht) (eq_false_of_ne_true hr)] at hst
        split at hst
        · cases hst
          rfl
        · exact h.stream i st hst hopen
      split
      · exact complete hopened.conn fun i st _ => hopened.stream i st
      · exact hopened

/-- **One frame** that is no error leaves the windows full, and what it writes for the connection
is what it took. -/
theorem frame (h : Full c) (hs : Sound c) (hn : f.payload.length ≤ defaultMaxFrameSize)
    (hok : (c.frame f).code = .noError) :
    Full (c.frame f).conn ∧
      granted (c.frame f).out = if f.type = .data then f.payload.length else 0 := by
  have ha := frame_accepted hok
  generalize c.frame f = r at *
  have hnone : ∀ {out : List Frame}, f.type ≠ .data → (∀ g ∈ out, g.type ≠ .windowUpdate) →
      granted out = if f.type = .data then f.payload.length else 0 := fun ht hout => by
    rw [if_neg ht, granted_none hout]
  have hrst : ∀ code, ∀ g ∈ [writeRstStream f.streamId code], g.type ≠ .windowUpdate := by
    intro code g hg
    rw [List.mem_singleton.mp hg]
    simp [writeRstStream]
  have hnil : ∀ g ∈ ([] : List Frame), g.type ≠ .windowUpdate := fun g hg => (by cases hg)
  have hshift : Full (c.updateStream f.streamId (shifted f.increment)) :=
    h.of_kept (Kept.update (fun _ => by rfl) _ _) rfl
  cases ha with
  | @data st data ht _ hget =>
      refine ⟨h.takeData data, ?_⟩
      have h0 : f.streamId ≠ 0 := fun h0 => by
        have := hs.odd _ _ hget
        omega
      rw [if_pos ht, ServerConn.takeData]
      split
      · rw [Reply.after, granted_append, granted_replenished hn h0,
          granted_none completeStream_type, Nat.add_zero]
      · exact granted_replenished hn h0
  | @fragment c₁ ha =>
      refine ⟨⟨?_, ?_⟩, hnone (ha.type_ne (by simp) (by simp)) hnil⟩
      · exact (congrArg connRecvWindow ha.restHeaders :).trans h.conn
      · show ∀ id st, c₁.streams.get id = some st → _
        rw [ha.streams]
        exact h.stream
  | @block c₁ fields dec ha =>
      refine ⟨?_, hnone (ha.type_ne (by simp) (by simp)) (finishFields_type _ fields)⟩
      refine finishFields ⟨?_, ?_⟩ (ha.ready hs dec) fields
      · exact (congrArg connRecvWindow ha.restHeaders :).trans h.conn
      · show ∀ id st, c₁.streams.get id = some st → _
        rw [ha.streams]
        exact h.stream
  | dependent ht => exact ⟨h.release _, hnone (by simp [ht]) (hrst _)⟩
  | reset ht => exact ⟨h.release _, hnone (by simp [ht]) hnil⟩
  | @settings sts c₁ ht _ _ _ hlist =>
      have hs₁ := hs.onSettingList hlist
      have hk := onSettingList_kept c sts
      have hbase := onSettingList_baseSettings c sts
      rw [hlist] at hk hbase
      have h₁ : Full c₁ := h.of_kept hk (congrArg connRecvWindow hbase :)
      refine ⟨h₁.of_kept (takeSettings_kept c₁ sts)
        (congrArg connRecvWindow (takeSettings_base c₁ sts) :),
        hnone (by simp [ht]) ?_⟩
      unfold takeSettings
      split
      · intro g hg
        rcases List.mem_append.mp hg with hg | hg
        · rw [List.mem_singleton.mp hg]
          simp [writeSettingsAck]
        · exact flushAll_type hs₁ _ g hg
      · intro g hg
        rw [List.mem_singleton.mp hg]
        simp [writeSettingsAck]
  | connCredit ht =>
      have hbase := flushAll_base
        { c with connSendWindow := c.connSendWindow + f.increment } c.streams.ids
      exact ⟨h.of_kept (flushAll_kept _ _) (congrArg connRecvWindow hbase :),
        hnone (by simp [ht]) (flushAll_type (hs.withWindow _) _)⟩
  | zeroCredit ht => exact ⟨h.release _, hnone (by simp [ht]) (hrst _)⟩
  | staleCredit ht => exact ⟨h, hnone (by simp [ht]) hnil⟩
  | overflow ht => exact ⟨hshift.release _, hnone (by simp [ht]) (hrst _)⟩
  | credit ht =>
      have hbase := flushPending_base
        (c.updateStream f.streamId (shifted f.increment)) f.streamId
      exact ⟨hshift.of_kept (flushPending_kept _ _)
        (congrArg connRecvWindow hbase :),
        hnone (by simp [ht]) (flushPending_type (hs.shift _ _) _)⟩
  | ping ht =>
      refine ⟨h, hnone (by simp [ht]) fun g hg => ?_⟩
      split at hg
      · cases hg
      · rw [List.mem_singleton.mp hg]
        simp [writePingAck]
  | ignored _ ht => exact ⟨h, hnone ht.1 hnil⟩

theorem write (h : Full c) (w : Write) : Full (w.exec c).conn :=
  h.of_kept (write_kept c w)
    (congrArg connRecvWindow (write_base c w) :)

/-- DATA of a size the peer may send finds both windows large enough. -/
theorem not_flowControlError (h : Full c) (ht : f.type = .data)
    (hn : f.payload.length ≤ defaultMaxFrameSize) : (c.frame f).code ≠ .flowControlError := by
  have hroom : (defaultMaxFrameSize : Int) ≤ defaultWindowSize := by decide
  unfold ServerConn.frame ServerConn.dispatch
  rw [ht]
  dsimp only
  split
  · exact fun he => (by cases he)
  · unfold onData
    split
    · exact fun he => (by cases he)
    · split
      · dsimp only [fail]
        split <;> exact fun he => (by cases he)
      · rename_i st hget
        split
        · exact fun he => (by cases he)
        · rename_i hopen
          dsimp only
          split
          · rename_i hsmall
            have hconn := h.conn
            have hstream := h.stream _ st hget (eq_false_of_ne_true hopen)
            simp only [updateStream] at hsmall
            omega
          · split
            · exact fun he => (by cases he)
            · split
              · exact fun he => (by cases he)
              · split
                · rw [show ∀ r : Reply, ∀ out, (r.after out).code = r.code from fun _ _ => rfl,
                    completeStream_ok]
                  exact fun he => (by cases he)
                · unfold replenish
                  dsimp only
                  split
                  · split <;> exact fun he => (by cases he)
                  · exact fun he => (by cases he)

end Full

/-! ### Every run -/

theorem dataReceived_snoc (h : List Done) (d : Done) :
    dataReceived (h ++ [d]) = dataReceived h + d.flow := by
  simp [dataReceived]

theorem creditReturned_snoc (h : List Done) (d : Done) :
    creditReturned (h ++ [d]) = creditReturned h + granted d.reply.out := by
  rw [creditReturned, List.flatMap_append, granted_append, List.flatMap_singleton]
  rfl

/-- One event that is no error: the windows are full behind it, and what it writes for the
connection is what it took. -/
theorem Full.event {c : ServerConn} {e : Event} (h : Full c) (hs : Sound c)
    (hfit : Done.Fits ⟨c, e⟩) (hok : Done.Ok ⟨c, e⟩) :
    Full (e.exec c).conn ∧ granted (e.exec c).out = Done.flow ⟨c, e⟩ := by
  cases e with
  | preface => exact ⟨⟨h.conn, h.stream⟩, rfl⟩
  | recv f => exact h.frame hs (hfit f rfl) hok
  | write w => exact ⟨h.write w, granted_none (write_type hs w)⟩

/-- **Along every trace without errors** the windows are full and the credit returned is the DATA
received. -/
theorem Trace.full {h : List Done} {c : ServerConn} (t : Trace newServerConn h c)
    (hfit : ∀ d ∈ h, d.Fits) (hok : ∀ d ∈ h, d.Ok) :
    Full c ∧ creditReturned h = dataReceived h := by
  induction t with
  | nil => exact ⟨full_new, rfl⟩
  | @snoc h c t hok' e ih =>
      obtain ⟨hc, hsum⟩ := ih (fun d hd => hfit d (List.mem_append_left _ hd)) hok'
      have hmem : (⟨c, e⟩ : Done) ∈ h ++ [⟨c, e⟩] := List.mem_append_right _ (.head _)
      obtain ⟨hfull, hgrant⟩ := hc.event (t.sound hok') (hfit _ hmem) (hok _ hmem)
      refine ⟨hfull, ?_⟩
      rw [dataReceived_snoc, creditReturned_snoc, hsum]
      exact congrArg _ hgrant

/-- **Receive flow control is exact.**  Whatever is called on a new connection, with whatever bytes
in whatever pieces: behind every event that is no error of the connection both windows are full,
but for streams whose request is complete, and the WINDOW_UPDATEs of the connection add up to the
DATA received; and no DATA is ever refused for flow control. -/
theorem receive_windows_exact (calls : List Call) {h₁ h₂ : List Done} {d : Done}
    (hd : (session calls).history = h₁ ++ d :: h₂) :
    (d.Ok → Full d.reply.conn ∧ creditReturned (h₁ ++ [d]) = dataReceived (h₁ ++ [d])) ∧
      ∀ f, d.event = .recv f → f.type = .data → d.reply.code ≠ .flowControlError := by
  have hfit : ∀ x ∈ h₁ ++ d :: h₂, x.Fits := fun x hx =>
    runCalls_fit newServerConn calls x (hd ▸ hx)
  obtain ⟨t, -⟩ := runCalls_trace newServerConn calls
  obtain ⟨t₁, hok₁, -⟩ := Trace.cut (hd ▸ t)
  obtain ⟨hfull, hsum⟩ := t₁.full (fun x hx => hfit x (List.mem_append_left _ hx)) hok₁
  have hfd : d.Fits := hfit d (by simp)
  refine ⟨fun hok => ?_, fun f hf ht => ?_⟩
  · obtain ⟨hfull', hgrant⟩ := hfull.event (e := d.event) (t₁.sound hok₁) hfd hok
    refine ⟨hfull', ?_⟩
    rw [dataReceived_snoc, creditReturned_snoc, hsum]
    exact congrArg _ hgrant
  · rw [Done.reply, hf]
    exact hfull.not_flowControlError ht (hfd f hf)

/-- A request with a padded body of two DATA frames, and what has happened behind the first: the
three bytes of its payload are given back, and the stream may send as much as before. -/
theorem receive_windows_exact_padded :
    ∃ (h₁ h₂ : List Done) (d : Done),
      (session [.consume (prefaceTail ++ [0, 0, 3, 1, 4, 0, 0, 0, 1, 0x82, 0x86, 0x84]),
        .consume [0, 0, 3, 0, 8, 0, 0, 0, 1, 1, 65, 0],
        .consume [0, 0, 1, 0, 1, 0, 0, 0, 1, 66]]).history = h₁ ++ d :: h₂ ∧
      d.Ok ∧ d.flow = 3 ∧ Full d.reply.conn ∧
        creditReturned (h₁ ++ [d]) = dataReceived (h₁ ++ [d]) := by
  have hthird : (session
      [.consume (prefaceTail ++ [0, 0, 3, 1, 4, 0, 0, 0, 1, 0x82, 0x86, 0x84]),
        .consume [0, 0, 3, 0, 8, 0, 0, 0, 1, 1, 65, 0],
        .consume [0, 0, 1, 0, 1, 0, 0, 0, 1, 66]]).history[2]?.map
      (fun d => (d.reply.code, d.flow)) = some (.noError, 3) := by
    decide +kernel
  obtain ⟨d, hd, hx⟩ := Option.map_eq_some_iff.mp hthird
  obtain ⟨hok, hflow⟩ := Prod.mk.inj hx
  obtain ⟨hlt, rfl⟩ := List.getElem?_eq_some_iff.mp hd
  have hsplit := (List.take_append_drop 2 _).symm.trans
    (congrArg _ (List.drop_eq_getElem_cons hlt))
  exact ⟨_, _, _, hsplit, hok, hflow, (receive_windows_exact _ hsplit).1 hok⟩

end Vanilla.Http2

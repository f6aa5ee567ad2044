import Vanilla.PgAsync.Run

/-!
# PostgreSQL — a call of `async_on_readable`

What one call does to a connection, said of the stream: the messages it frames are those of the
first reply in what is unread, and it ends as the reading of that reply does.

* `pump_spec`: the framing loop.
* `asyncOnReadable_spec`: the call.
-/

namespace Vanilla.PgAsync

open Scan (Framing loop_exit loop_rule Descends)
open Buffers (Inbox)

/-- A ReadyForQuery. -/
def isReady (m : Msg) : Bool := m.typ == btReadyForQuery

@[simp] theorem framing_enc (m : Msg) : framing.enc m = m.bytes := rfl

theorem framing_next (b : List UInt8) : framing.next b = messageAt b 0 := rfl

namespace PgConn

theorem messageAt_recv (c : PgConn) :
    Vanilla.PgAsync.messageAt c.recv.buf c.recv.pos = framing.next c.recv.rest :=
  messageAt_drop c.recv.buf c.recv.pos

/-! ### A message -/

/-- `ready_status` is what the last ReadyForQuery reports, that of the bring-up or one that
completed a query, and that of a session not in a transaction before the first one. -/
def Told (c : PgConn) : Prop :=
  match c.lastReady with
  | none => c.readyStatus = txIdle
  | some payload => ∀ b ∈ payload.head?, c.readyStatus = b

theorem Told.congr {c c' : PgConn} (h : c.Told) (hl : c'.lastReady = c.lastReady)
    (hs : c'.readyStatus = c.readyStatus) : c'.Told := by
  unfold Told at h ⊢
  rwa [hl, hs]

/-- What a message leaves alone. -/
structure Onto (c : PgConn) (q : PendingQuery) (qs : List PendingQuery) (m : Msg)
    (c' : PgConn) : Prop where
  inflight : c'.inflight = q.onMessage (c.framesOf q) m :: qs
  state : c'.state = .ready ↔ c.state = .ready ∧
    ¬ (m.typ = btErrorResponse ∧ endsSession (parseErrorResponse m.payload).severity)
  link : Keeps c c'
  told : c.Told → c'.Told
  same : { c' with
    inflight := c.inflight, readyStatus := c.readyStatus, fatal := c.fatal, state := c.state
    loss := c.loss, lastReady := c.lastReady } = c

theorem onMessage_spec {c : PgConn} {q : PendingQuery} {qs : List PendingQuery}
    (h : c.inflight = q :: qs) (m : Msg) : Onto c q qs m (c.onMessage q m) := by
  have hq : q.onMessage (c.framesOf q) m :: c.inflight.drop 1 =
      q.onMessage (c.framesOf q) m :: qs := by simp [h]
  unfold onMessage
  dsimp only
  split
  · rename_i hz
    have hne : m.typ ≠ btErrorResponse := by rw [hz]; decide
    split
    · rename_i hp
      exact ⟨hq, by simp [hne], .inl rfl, fun _ => by simp [Told, hp], rfl⟩
    · rename_i hp
      exact ⟨hq, by simp [hne], .inl rfl, fun _ => by simp [Told, hp], rfl⟩
  split
  · rename_i he
    unfold lose
    dsimp only
    split
    · rename_i hs
      exact ⟨hq, by simp [he], .inr ⟨hs, rfl⟩, id, rfl⟩
    · rename_i hs
      exact ⟨hq, by simp [hs], .inl rfl, id, rfl⟩
  · rename_i he
    exact ⟨hq, by simp [he], .inl rfl, id, rfl⟩

@[simp] theorem onMessage_slot (q : PendingQuery) (frames : List UInt8) (m : Msg) :
    (q.onMessage frames m).frameSlot = q.frameSlot := by
  unfold PendingQuery.onMessage
  split
  · rfl
  · split <;> rfl

@[simp] theorem onMessage_ticket (q : PendingQuery) (frames : List UInt8) (m : Msg) :
    (q.onMessage frames m).ticket = q.ticket := by
  unfold PendingQuery.onMessage
  split
  · rfl
  · split <;> rfl

end PgConn

/-- A query after some messages of its reply. -/
def PendingQuery.onMessages (q : PendingQuery) (frames : List UInt8) : List Msg → PendingQuery
  | [] => q
  | m :: ms => (q.onMessage frames m).onMessages (frames ++ m.bytes) ms

/-- A message that ends the session: a FATAL or a PANIC. -/
def fatalMsg (m : Msg) : Bool :=
  m.typ == btErrorResponse && endsSession (parseErrorResponse m.payload).severity

namespace PgConn

/-- A connection whose front query `q` has taken the messages `ms`, which makes `q'` of it. -/
structure Took (c : PgConn) (q : PendingQuery) (qs : List PendingQuery) (ms : List Msg)
    (q' : PendingQuery) (c' : PgConn) : Prop where
  inflight : c'.inflight = q' :: qs
  slot : q'.frameSlot = q.frameSlot
  ticket : q'.ticket = q.ticket
  front : q.frameSlot < c.framePool.length → q' = q.onMessages (c.framesOf q) ms
  frames : q.frameSlot < c.framePool.length → c'.framesOf q' = c.framesOf q ++ framing.encs ms
  others : ∀ s, s ≠ q.frameSlot → c'.framePool[s]? = c.framePool[s]?
  length : c'.framePool.length = c.framePool.length
  rest : c.recv.rest = framing.encs ms ++ c'.recv.rest
  state : c'.state = .ready ↔ c.state = .ready ∧ ∀ m ∈ ms, fatalMsg m = false
  link : Keeps c c'
  told : c.Told → c'.Told
  same : { c' with
    inflight := c.inflight, readyStatus := c.readyStatus, fatal := c.fatal, state := c.state
    loss := c.loss, framePool := c.framePool, recv := c.recv, lastReady := c.lastReady } = c

namespace Took

variable {c c' c'' : PgConn} {q q' q'' : PendingQuery} {qs : List PendingQuery} {ms ms' : List Msg}

theorem refl (h : c.inflight = q :: qs) : Took c q qs [] q c where
  inflight := h
  slot := rfl
  ticket := rfl
  front _ := rfl
  frames _ := by simp
  others _ _ := rfl
  length := rfl
  rest := rfl
  state := by simp
  link := .refl c
  told := id
  same := rfl

theorem onMessages_append (q : PendingQuery) (frames : List UInt8) (ms ms' : List Msg) :
    q.onMessages frames (ms ++ ms') =
      (q.onMessages frames ms).onMessages (frames ++ framing.encs ms) ms' := by
  induction ms generalizing q frames with
  | nil => simp [PendingQuery.onMessages]
  | cons m ms ih => simp [PendingQuery.onMessages, ih]

theorem trans (h : Took c q qs ms q' c') (h' : Took c' q' qs ms' q'' c'') :
    Took c q qs (ms ++ ms') q'' c'' where
  inflight := h'.inflight
  slot := h'.slot.trans h.slot
  ticket := h'.ticket.trans h.ticket
  front hs := by
    have hs' : q'.frameSlot < c'.framePool.length := by rwa [h.slot, h.length]
    rw [h'.front hs', h.frames hs, h.front hs, onMessages_append]
  frames hs := by
    have hs' : q'.frameSlot < c'.framePool.length := by rwa [h.slot, h.length]
    rw [h'.frames hs', h.frames hs, List.append_assoc, ← framing.encs_append]
  others s hs := (h'.others s (by rwa [h.slot])).trans (h.others s hs)
  length := h'.length.trans h.length
  rest := by rw [h.rest, h'.rest, framing.encs_append, List.append_assoc]
  state := by
    rw [h'.state, h.state, List.forall_mem_append, and_assoc]
  link := h.link.trans h'.link
  told ht := h'.told (h.told ht)
  same := (congrArg (fun c₁ : PgConn => { c₁ with
    inflight := c.inflight, readyStatus := c.readyStatus, fatal := c.fatal, state := c.state
    loss := c.loss, framePool := c.framePool, recv := c.recv
    lastReady := c.lastReady }) h'.same).trans h.same

end Took

theorem consume_took {c : PgConn} {q : PendingQuery} {qs : List PendingQuery} {m : Msg}
    {r : List UInt8} (h : c.inflight = q :: qs) (hr : c.recv.rest = m.bytes ++ r) :
    Took c q qs [m] (q.onMessage (c.framesOf q) m) (c.consume q m) := by
  have ho := onMessage_spec h m
  have hpool : (c.onMessage q m).framePool = c.framePool := (congrArg framePool ho.same :)
  have hrecv : (c.onMessage q m).recv = c.recv := (congrArg recv ho.same :)
  have hframes : (c.onMessage q m).framesOf q = c.framesOf q := by simp only [framesOf, hpool]
  have htake : c.recv.rest.take m.size = m.bytes := by
    rw [hr, ← m.length_bytes, List.take_left]
  refine ⟨ho.inflight, onMessage_slot q _ m, onMessage_ticket q _ m, fun _ => rfl, fun hs => ?_,
    fun s hs => ?_, ?_, ?_, ?_, ho.link, ho.told, ?_⟩
  · simp only [consume, keepBytes, framesOf, onMessage_slot, hpool, hrecv, htake]
    simp [List.getD, List.getElem?_set_self hs]
  · simp only [consume, keepBytes, hpool]
    exact List.getElem?_set_ne (Ne.symm hs)
  · simp [consume, keepBytes, hpool]
  · simp only [consume, keepBytes, hrecv]
    rw [Inbox.rest_advance (by rw [hr, List.length_append, m.length_bytes]; omega), hr,
      ← m.length_bytes, List.drop_left]
    simp
  · have := ho.state
    simp only [consume, keepBytes, this, List.mem_singleton, forall_eq, fatalMsg,
      Bool.and_eq_false_iff, beq_eq_false_iff_ne, not_and, Bool.not_eq_true]
    tauto
  · exact (congrArg (fun c₁ : PgConn => { c₁ with
      framePool := c.framePool, recv := c.recv }) ho.same)

/-! ### The framing loop -/

/-- How the framing loop ends, with `q` in front. -/
inductive PumpedAs (c : PgConn) (q : PendingQuery) (qs : List PendingQuery) : Pumped → Prop where
  | complete {ms : List Msg} {q' : PendingQuery} {c' : PgConn}
      (hfirst : framing.first isReady c.recv.rest = (ms, .done c'.recv.rest))
      (ht : Took c q qs ms q' c') : PumpedAs c q qs (.complete q' (c'.framesOf q') c'.popFront)
  | stop {ms : List Msg} {q' : PendingQuery} {c' : PgConn}
      (hfirst : framing.first isReady c.recv.rest = (ms, .more c'.recv.rest))
      (ht : Took c q qs ms q' c') : PumpedAs c q qs (.stop c')

theorem pumpStep_descends :
    Descends pumpStep (fun c => c.recv.rest.length) fun _ => True := by
  rintro c c' - h
  refine ⟨trivial, ?_⟩
  unfold pumpStep at h
  split at h
  · cases h
  rename_i q qs hq
  rw [messageAt_recv] at h
  split at h
  · cases h
  rename_i m hm
  obtain ⟨hok, r, hr⟩ := Framing.next_split hm
  have ht := consume_took hq hr
  dsimp only at h
  split at h
  · cases h
  · cases h
    have hlen := congrArg List.length ht.rest
    have := framing.enc_pos hok
    simp only [framing_enc, Framing.encs_cons, Framing.encs_nil, List.length_append,
      List.append_nil] at hlen this
    show (c.consume q m).recv.rest.length < c.recv.rest.length
    omega

theorem pump_spec {c : PgConn} {q : PendingQuery} {qs : List PendingQuery}
    (h : c.inflight = q :: qs) : PumpedAs c q qs c.pump := by
  refine loop_rule pumpStep_descends
    (P := fun c r => ∀ q, c.inflight = q :: qs → PumpedAs c q qs r) ?_ ?_ trivial q h
  · intro c r _ hstep q hq
    simp only [pumpStep, hq, messageAt_recv] at hstep
    split at hstep
    · rename_i hm
      cases hstep
      exact .stop (Framing.first_more hm) (.refl hq)
    · rename_i m hm
      obtain ⟨hok, r, hr⟩ := Framing.next_split hm
      have ht := consume_took hq hr
      split at hstep
      · rename_i hz
        cases hstep
        have hrest : r = (c.consume q m).recv.rest := by
          have := ht.rest
          rw [hr] at this
          simpa using this
        have hfirst : framing.first isReady c.recv.rest =
            ([m], .done (c.consume q m).recv.rest) := by
          rw [hr, ← hrest]
          exact Framing.first_last hok (by simpa [isReady] using hz) r
        have hfr : (c.consume q m).framesOf q =
            (c.consume q m).framesOf (q.onMessage (c.framesOf q) m) := by
          simp only [framesOf, onMessage_slot]
        rw [ht.inflight, List.headD_cons, hfr]
        exact .complete hfirst ht
      · cases hstep
  · intro c c' r _ hstep ih q hq
    simp only [pumpStep, hq, messageAt_recv] at hstep
    split at hstep
    · cases hstep
    · rename_i m hm
      obtain ⟨hok, b, hr⟩ := Framing.next_split hm
      have ht := consume_took hq hr
      split at hstep
      · cases hstep
      · rename_i hz
        cases hstep
        have hrest : b = (c.consume q m).recv.rest := by
          have := ht.rest
          rw [hr] at this
          simpa using this
        have hfirst : framing.first isReady c.recv.rest =
            (m :: (framing.first isReady (c.consume q m).recv.rest).1,
              (framing.first isReady (c.consume q m).recv.rest).2) := by
          rw [← hrest, hr]
          exact Framing.first_next hok (by simpa [isReady] using hz) b
        cases ih _ ht.inflight with
        | complete hf ht' => exact .complete (by rw [hfirst, hf]; rfl) (ht.trans ht')
        | stop hf ht' => exact .stop (by rw [hfirst, hf]; rfl) (ht.trans ht')

theorem pump_idle {c : PgConn} (h : c.inflight = []) : c.pump = .stop c :=
  loop_exit (by simp only [pumpStep, h])

/-! ### The call -/

/-- What is unread once the transport has been read. -/
def unread (c : PgConn) (script : List Recv) : List UInt8 :=
  c.recv.rest ++ if c.state = .ready then Recv.arrived script else []

/-- How a call ends. -/
inductive Answers (c : PgConn) (script : List Recv) : Call × PgConn → Prop where
  /-- no query in flight, and the connection is live -/
  | idle {c₁ : PgConn} (hf : Filled c script c₁) (hq : c.inflight = []) (hs : c₁.state = .ready) :
      Answers c script (.notReady, c₁)
  /-- no query in flight, and the connection is lost -/
  | gone {c₁ : PgConn} (hf : Filled c script c₁) (hq : c.inflight = []) (hs : c₁.state ≠ .ready) :
      Answers c script (.lost c₁.lossError, c₁)
  /-- the reply of the front query is there -/
  | ready {c₁ c' : PgConn} {q q' : PendingQuery} {qs : List PendingQuery} {ms : List Msg}
      (hf : Filled c script c₁) (hq : c.inflight = q :: qs)
      (hfirst : framing.first isReady (c.unread script) = (ms, .done c'.recv.rest))
      (ht : Took c₁ q qs ms q' c') : Answers c script (.byReady q' (c'.framesOf q'), c'.popFront)
  /-- the reply of the front query is not all there -/
  | waiting {c₁ c' : PgConn} {q q' : PendingQuery} {qs : List PendingQuery} {ms : List Msg}
      (hf : Filled c script c₁) (hq : c.inflight = q :: qs)
      (hfirst : framing.first isReady (c.unread script) = (ms, .more c'.recv.rest))
      (ht : Took c₁ q qs ms q' c') (hs : c'.state = .ready) : Answers c script (.notReady, c')
  /-- the reply of the front query will never be there -/
  | fails {c₁ c' : PgConn} {q q' : PendingQuery} {qs : List PendingQuery} {ms : List Msg}
      (hf : Filled c script c₁) (hq : c.inflight = q :: qs)
      (hfirst : framing.first isReady (c.unread script) = (ms, .more c'.recv.rest))
      (ht : Took c₁ q qs ms q' c') (hs : c'.state ≠ .ready) :
      Answers c script
        (.byLoss q' (if q'.error ≠ [] then .pg q'.pgError else c'.lossError), c'.popFront)

/-- **A call frames the first reply of what is unread.** -/
theorem asyncOnReadable_spec (c : PgConn) (script : List Recv) :
    Answers c script (c.asyncOnReadable script) := by
  have hfill := fillRecvBuf_spec { c with recv := c.recv.rewind } script
  have hf : Filled c script (fillRecvBuf { c with recv := c.recv.rewind } script) :=
    ⟨by rw [hfill.rest, Inbox.rest_rewind], hfill.state, hfill.link,
      congrArg (fun c₁ : PgConn => { c₁ with recv := c.recv }) hfill.same⟩
  unfold asyncOnReadable
  dsimp only
  generalize fillRecvBuf { c with recv := c.recv.rewind } script = c₁ at hf
  have hin : c₁.inflight = c.inflight := (congrArg inflight hf.same :)
  have hrest : c₁.recv.rest = c.unread script := hf.rest
  cases hq : c.inflight with
  | nil =>
      rw [pump_idle (hin.trans hq)]
      dsimp only
      by_cases hs : c₁.state = .ready
      · rw [if_neg (not_not.mpr hs)]
        exact .idle hf hq hs
      · rw [if_pos hs, hin, hq]
        exact .gone hf hq hs
  | cons q qs =>
      have hp := pump_spec (hin.trans hq)
      generalize c₁.pump = r at hp
      cases hp with
      | complete hfirst ht => exact .ready hf hq (hrest ▸ hfirst) ht
      | @stop ms q' c' hfirst ht =>
          dsimp only
          by_cases hs : c'.state = .ready
          · rw [if_neg (not_not.mpr hs)]
            exact .waiting hf hq (hrest ▸ hfirst) ht hs
          · rw [if_pos hs, ht.inflight]
            exact .fails hf hq (hrest ▸ hfirst) ht hs

end PgConn

end Vanilla.PgAsync

import Vanilla.PgAsync.Conn

/-!
# PostgreSQL — runs of a connection

What an application does with one connection: it submits, flushes and calls `async_on_readable`, in
any order and against any transport.  `run` follows a connection through such operations and keeps
what the results are about: the queries that were accepted, the bytes the transport took and gave,
and how each call ended.

* `Submission.on_cases`: a submission is refused and changes nothing, or its frame is queued.
* `fillRecvBuf_spec`: what arrives comes behind what is unread.
-/

namespace Vanilla.PgAsync

open Scan (loop_rule Descends)
open Buffers (Window Inbox)

/-! ### The length of a frame -/

@[simp] theorem length_putU16 (v : Nat) : (putU16 v).length = 2 := Words.length_bytesOf 2 v

@[simp] theorem length_putU32 (v : Nat) : (putU32 v).length = 4 := Words.length_bytesOf 4 v

@[simp] theorem length_putCstrS (s : List UInt8) : (putCstrS s).length = s.length + 1 := by
  simp [putCstrS]

@[simp] theorem length_message (typ : UInt8) (body : List UInt8) :
    (message typ body).length = 5 + body.length := by
  simp [message]
  omega

theorem length_bindParam (p : Option (List UInt8)) :
    (bindParam p).length = 4 + (p.getD []).length := by
  cases p <;> simp [bindParam]

theorem length_bindParams (params : List (Option (List UInt8))) :
    (params.flatMap bindParam).length = (params.map fun p => 4 + (p.getD []).length).sum := by
  simp only [List.length_flatMap, length_bindParam]

theorem statementFrameLen_eq (s : Stmt) : statementFrameLen s = s.bytes.length := by
  simp only [statementFrameLen, Stmt.bytes, writeParse, writeBind, writeDescribePortal,
    writeExecute, List.length_append, length_message, length_putCstrS, length_putU16,
    length_putU32, length_bindParams, List.length_cons, List.length_nil]
  omega

theorem batchFrameLen_eq (stmts : List Stmt) : batchFrameLen stmts = (frameOf stmts).length := by
  have : statementFrameLen = List.length ∘ Stmt.bytes := funext statementFrameLen_eq
  simp only [batchFrameLen, frameOf, writeSync, List.length_append, List.length_flatMap, this,
    List.length_cons, length_putU32, syncLen, Function.comp_def]
  omega

theorem queryFrameLen_eq (s : Stmt) : queryFrameLen s = (frameOf [s]).length := by
  rw [← batchFrameLen_eq]
  simp [queryFrameLen, batchFrameLen, Nat.add_comm]

/-! ### Submitting -/

namespace SendBuf

theorem pending_le (s : SendBuf) : s.pending.length ≤ s.size := s.win.length_pending_le

@[simp] theorem pending_reset (s : SendBuf) : s.reset.pending = [] := s.win.pending_reset

@[simp] theorem size_reset (s : SendBuf) : s.reset.size = s.size := rfl

theorem pending_advance (s : SendBuf) (n : Nat) : (s.advance n).pending = s.pending.drop n :=
  s.win.pending_advance n

end SendBuf

namespace PgConn

theorem inflightLimit_pos (c : PgConn) : 0 < c.inflightLimit := by
  unfold inflightLimit
  split
  · assumption
  · decide

theorem pending_le_maxFrameLen (c : PgConn) : c.send.pending.length ≤ c.maxFrameLen := by
  have := c.send.pending_le
  unfold maxFrameLen
  split <;> omega

/-- A frame of `n` bytes can be queued now. -/
structure Takes (c : PgConn) (n : Nat) : Prop where
  ready : c.state = .ready
  slot : c.inflight.length < c.inflightLimit
  room : c.send.pending.length + n ≤ c.maxFrameLen

/-- **The send buffer takes what it has room for.** -/
theorem appendSend_spec {c : PgConn} {frame : List UInt8}
    (h : c.send.pending.length + frame.length ≤ c.maxFrameLen) :
    ∃ s, c.appendSend frame = (true, { c with send := s }) ∧
      s.pending = c.send.pending ++ frame ∧ s.size = c.maxFrameLen := by
  -- the buffer that is written to: allocated, and at the front if it is drained
  obtain ⟨b, hb, hpend, hsize⟩ : ∃ b : SendBuf,
      (if c.send.size = 0 then SendBuf.default else c.send) = b ∧
        b.pending = c.send.pending ∧ b.size = c.maxFrameLen := by
    refine ⟨_, rfl, ?_⟩
    split
    · rename_i h0
      have hnil : c.send.pending = [] := by
        have := c.send.pending_le
        exact List.length_eq_zero_iff.mp (by omega)
      rw [hnil, maxFrameLen, if_neg (by omega)]
      exact ⟨Window.pending_fresh _ _, Window.size_fresh _ _⟩
    · rw [maxFrameLen, if_pos (by omega)]
      exact ⟨rfl, rfl⟩
  obtain ⟨b', hb', hpend', hsize'⟩ : ∃ b' : SendBuf,
      (if b.win.off = b.win.len then b.reset else b) = b' ∧
        b'.pending = c.send.pending ∧ b'.size = c.maxFrameLen := by
    refine ⟨_, rfl, ?_⟩
    split
    · rename_i h0
      rw [← hpend, b.pending_reset, b.size_reset]
      exact ⟨(Window.pending_eq_nil.mpr h0).symm, hsize⟩
    · exact ⟨hpend, hsize⟩
  unfold appendSend
  simp only [hb, hb']
  have hlen : b'.win.len - b'.win.off = c.send.pending.length := by
    rw [← hpend', SendBuf.pending, Window.length_pending]
  split
  · rw [if_neg (by omega)]
    refine ⟨_, rfl, ?_, ?_⟩
    · refine (Window.pending_write ?_).trans ?_
      · show b'.win.slide.len + frame.length ≤ b'.win.slide.size
        rw [Window.len_slide, Window.length_pending, Window.size_slide, hlen]
        exact Nat.le_trans h (Nat.le_of_eq hsize'.symm)
      · rw [← hpend']
        exact congrArg (· ++ frame) b'.win.pending_slide
    · exact (Window.size_write _ _).trans ((Window.size_slide _).trans hsize')
  · refine ⟨_, rfl, ?_, (Window.size_write _ _).trans hsize'⟩
    rw [← hpend']
    exact Window.pending_write (Nat.le_of_not_lt ‹_›)

theorem sendRoom_lt {c : PgConn} {n : Nat} :
    c.sendRoom < n ↔ c.maxFrameLen < c.send.pending.length + n := by
  have := c.pending_le_maxFrameLen
  unfold sendRoom
  omega

theorem cannotTake_eq_false {c : PgConn} {n : Nat} : c.cannotTake n = false ↔ c.Takes n := by
  simp only [cannotTake, Bool.or_eq_false_iff, decide_eq_false_iff_not, sendRoom_lt, ne_eq,
    Decidable.not_not, Nat.not_lt, Nat.not_le]
  exact ⟨fun h => ⟨h.1.1, h.1.2, h.2⟩, fun h => ⟨⟨h.ready, h.slot⟩, h.room⟩⟩

theorem checkSubmit_ok {c : PgConn} {n : Nat} : c.checkSubmit n = .ok () ↔ c.Takes n := by
  unfold checkSubmit
  constructor
  · intro h
    split at h
    · cases h
    split at h
    · cases h
    split at h
    · cases h
    split at h
    · cases h
    · rename_i h₁ h₂ h₃ h₄
      exact ⟨not_not.mp h₂, Nat.lt_of_not_le h₃, Nat.le_of_not_lt (mt sendRoom_lt.mpr h₄)⟩
  · rintro ⟨h₁, h₂, h₃⟩
    have h₄ : ¬ c.sendRoom < n := fun h => absurd (sendRoom_lt.mp h) (Nat.not_lt.mpr h₃)
    rw [if_neg (by omega), if_neg (not_not.mpr h₁), if_neg (Nat.not_le.mpr h₂), if_neg h₄]

/-- A connection with one more query: its frame behind what is pending. -/
def queued (c : PgConn) (frame : List UInt8) : PgConn := (c.appendSend frame).2.pushInflight

theorem enqueue_eq {c : PgConn} {frame : List UInt8} (h : c.Takes frame.length) :
    c.enqueue frame = (true, c.queued frame) := by
  obtain ⟨s, hs, -, -⟩ := appendSend_spec h.room
  simp only [enqueue, queued, hs]

theorem queued_pending {c : PgConn} {frame : List UInt8} (h : c.Takes frame.length) :
    (c.queued frame).send.pending = c.send.pending ++ frame := by
  obtain ⟨s, hs, hpend, -⟩ := appendSend_spec h.room
  simp only [queued, hs]
  exact hpend

end PgConn

/-- The four ways to submit. -/
inductive Submission where
  | asyncSubmit (s : Stmt)
  | asyncSubmitBatch (stmts : List Stmt)
  | submit (s : Stmt)
  | submitBatch (stmts : List Stmt)
  deriving DecidableEq, Repr

namespace Submission

/-- What is submitted. -/
def stmts : Submission → List Stmt
  | asyncSubmit s => [s]
  | asyncSubmitBatch stmts => stmts
  | submit s => [s]
  | submitBatch stmts => stmts

/-- Whether it is accepted, and the connection afterwards. -/
def on (c : PgConn) : Submission → Bool × PgConn
  | asyncSubmit s => c.asyncSubmit s
  | asyncSubmitBatch stmts =>
    match c.asyncSubmitBatch stmts with
    | (.ok b, c) => (b, c)
    | (.error _, c) => (false, c)
  | submit s =>
    match c.submit s with
    | (.ok (), c) => (true, c)
    | (.error _, c) => (false, c)
  | submitBatch stmts =>
    match c.submitBatch stmts with
    | (.ok (), c) => (true, c)
    | (.error _, c) => (false, c)

/-- How a submission ends. -/
inductive Outcome (c : PgConn) (sub : Submission) : Bool × PgConn → Prop where
  | refused : Outcome c sub (false, c)
  | accepted (h : c.Takes (frameOf sub.stmts).length) :
      Outcome c sub (true, c.queued (frameOf sub.stmts))

/-- **A submission is refused and changes nothing, or its frame is queued.** -/
theorem on_cases (c : PgConn) (sub : Submission) : Outcome c sub (sub.on c) := by
  cases sub with
  | asyncSubmit s =>
      simp only [on, PgConn.asyncSubmit, queryFrameLen_eq]
      cases hc : c.cannotTake (frameOf [s]).length with
      | true => exact .refused
      | false =>
          have ht := PgConn.cannotTake_eq_false.mp hc
          rw [if_neg (by decide), PgConn.enqueue_eq ht]
          exact .accepted ht
  | asyncSubmitBatch stmts =>
      simp only [on, PgConn.asyncSubmitBatch, batchFrameLen_eq]
      split
      · rename_i h
        split at h
        · cases h
        split at h
        · cases h
        cases hc : c.cannotTake (frameOf stmts).length with
        | true =>
            rw [hc, if_pos rfl] at h
            cases h
            exact .refused
        | false =>
            have ht := PgConn.cannotTake_eq_false.mp hc
            rw [hc, if_neg (by decide), PgConn.enqueue_eq ht] at h
            cases h
            exact .accepted ht
      · rename_i h
        split at h
        · cases h; exact .refused
        split at h
        · cases h; exact .refused
        split at h <;> cases h
  | submit s =>
      simp only [on, PgConn.submit, queryFrameLen_eq]
      cases hc : c.checkSubmit (frameOf [s]).length with
      | error e => exact .refused
      | ok u =>
          have ht := PgConn.checkSubmit_ok.mp hc
          simp only [PgConn.queueScratch, PgConn.enqueue_eq ht]
          exact .accepted ht
  | submitBatch stmts =>
      simp only [on, PgConn.submitBatch, batchFrameLen_eq]
      by_cases h0 : stmts.length = 0
      · rw [if_pos h0]
        exact .refused
      · rw [if_neg h0]
        cases hc : c.checkSubmit (frameOf stmts).length with
        | error e => exact .refused
        | ok u =>
            have ht := PgConn.checkSubmit_ok.mp hc
            simp only [PgConn.queueScratch, PgConn.enqueue_eq ht]
            exact .accepted ht

end Submission

/-! ### Receiving -/

namespace Recv

/-- The bytes a script brings, up to where it does not go on. -/
def arrived : List Recv → List UInt8
  | data b bs :: rest => b :: bs ++ arrived rest
  | _ => []

/-- How a script ends. -/
def ending : List Recv → Ending
  | [] => .again
  | data _ _ :: rest => ending rest
  | again :: _ => .again
  | blocked :: _ => .blocked
  | eof :: _ => .eof
  | failed errno :: _ => .failed errno

end Recv

theorem drainStep_descends :
    Descends drainStep (fun s => (s.2.map Recv.weight).sum) fun _ => True := by
  rintro ⟨inbox, script⟩ s' - h
  refine ⟨trivial, ?_⟩
  have hspare := Inbox.spare_makeRoom (by decide : 0 < recvFloor) inbox
  simp only [drainStep] at h
  split at h
  case h_6 b bs rest =>
      obtain ⟨k, hk⟩ := Nat.exists_eq_succ_of_ne_zero (Nat.ne_of_gt hspare)
      rw [hk, List.drop_succ_cons] at h
      split at h
      · cases h
        simp [Recv.weight]
      · rename_i b' bs' hd
        cases h
        have := congrArg List.length hd
        simp only [List.length_drop, List.length_cons] at this
        simp only [List.map_cons, List.sum_cons, Recv.weight]
        omega
  all_goals cases h

/-- **What arrives comes behind what is unread**, however the buffer was made room in. -/
theorem drain_spec (inbox : Inbox UInt8) (script : List Recv) :
    (drain inbox script).1.rest = inbox.rest ++ Recv.arrived script ∧
      (drain inbox script).2 = Recv.ending script := by
  refine loop_rule drainStep_descends
    (P := fun s r => r.1.rest = s.1.rest ++ Recv.arrived s.2 ∧ r.2 = Recv.ending s.2) ?_ ?_
    (s := (inbox, script)) trivial
  · rintro ⟨inbox, script⟩ r - h
    simp only [drainStep] at h
    split at h
    case h_6 => split at h <;> cases h
    all_goals cases h; simp [Recv.arrived, Recv.ending]
  · rintro ⟨inbox, script⟩ s' r - h ⟨hr, he⟩
    simp only [drainStep] at h
    split at h
    case h_6 b bs rest =>
        split at h
        all_goals
          rename_i hd
          cases h
          simp only [Inbox.rest_extend, Inbox.rest_makeRoom, Recv.arrived, Recv.ending] at hr he ⊢
          refine ⟨?_, he⟩
          rw [hr]
        · have := List.take_append_drop (inbox.makeRoom recvFloor).spare (b :: bs)
          rw [hd, List.append_nil] at this
          rw [this, List.append_assoc]
        · have := List.take_append_drop (inbox.makeRoom recvFloor).spare (b :: bs)
          rw [hd] at this
          rw [List.append_assoc, ← List.append_assoc (List.take _ _), this]
    all_goals cases h

namespace PgConn

/-- The script ends in a loss: the end of the stream, or a failure. -/
def Lossy (script : List Recv) : Prop :=
  Recv.ending script ≠ .again ∧ Recv.ending script ≠ .blocked

/-- A live link may be lost; a lost one stays as it is. -/
def Keeps (c c' : PgConn) : Prop := c'.state = c.state ∨ c.state = .ready ∧ c'.state = .broken

theorem Keeps.refl (c : PgConn) : Keeps c c := .inl rfl

theorem Keeps.trans {c c' c'' : PgConn} (h : Keeps c c') (h' : Keeps c' c'') : Keeps c c'' := by
  rcases h with h | ⟨h, hb⟩
  · rcases h' with h' | ⟨h', hb'⟩
    · exact .inl (h'.trans h)
    · exact .inr ⟨h.symm.trans h', hb'⟩
  · rcases h' with h' | ⟨h', -⟩
    · exact .inr ⟨h, h'.trans hb⟩
    · rw [hb] at h'
      cases h'

theorem keeps_lose (c : PgConn) (reason : String) : Keeps c (c.lose reason) := by
  unfold lose
  split
  · rename_i hs
    exact .inr ⟨hs, rfl⟩
  · exact .refl c

/-- What `fill_recv_buf` makes of a connection. -/
structure Filled (c : PgConn) (script : List Recv) (c' : PgConn) : Prop where
  rest : c'.recv.rest = c.recv.rest ++ if c.state = .ready then Recv.arrived script else []
  state : c'.state = .ready ↔ c.state = .ready ∧ ¬ Lossy script
  link : Keeps c c'
  same : { c' with
    recv := c.recv, state := c.state, loss := c.loss, tlsReadBlocked := c.tlsReadBlocked } = c

theorem fillRecvBuf_spec (c : PgConn) (script : List Recv) :
    Filled c script (c.fillRecvBuf script) := by
  -- the flag is taken down first; nothing below reads it
  obtain ⟨b, hb⟩ : ∃ b, (if c.tls then { c with tlsReadBlocked := false } else c) =
      { c with tlsReadBlocked := b } :=
    ⟨if c.tls then false else c.tlsReadBlocked, by split <;> rfl⟩
  obtain ⟨hrest, hend⟩ := drain_spec c.recv script
  simp only [fillRecvBuf, hb]
  by_cases hs : c.state = .ready
  · rw [if_neg (not_not.mpr hs)]
    generalize drain c.recv script = d at hrest hend
    obtain ⟨inbox, e⟩ := d
    simp only at hrest hend
    subst hend
    have hr : inbox.rest = c.recv.rest ++ if c.state = .ready then Recv.arrived script else [] := by
      rw [if_pos hs, hrest]
    cases he : Recv.ending script with
    | again => exact ⟨hr, by simp [hs, Lossy, he], .inl rfl, rfl⟩
    | blocked =>
        dsimp only
        split <;> exact ⟨hr, by simp [hs, Lossy, he], .inl rfl, rfl⟩
    | eof | failed errno =>
        dsimp only [lose]
        rw [if_pos hs]
        exact ⟨hr, by simp [Lossy, he], .inr ⟨hs, rfl⟩, rfl⟩
  · rw [if_pos hs]
    exact ⟨by simp [hs], by simp [hs], .inl rfl, rfl⟩

/-! ### Sending -/

/-- What the send loop makes of a connection: the bytes it hands over come off what is pending. -/
structure Drains (c : PgConn) (r : Except QueryError Bool × PgConn × List UInt8) : Prop where
  pending : r.2.2 ++ r.2.1.send.pending = c.send.pending
  same : { r.2.1 with
    send := c.send, state := c.state, loss := c.loss, tlsWlen := c.tlsWlen } = c
  ready : r.2.1.state = .ready → c.state = .ready
  link : Keeps c r.2.1

theorem sendLoop_spec (c : PgConn) (script : List Sent) (hc : c.state = .ready) :
    Drains c (c.sendLoop script) := by
  induction script generalizing c with
  | nil =>
      unfold sendLoop
      split
      · rename_i h
        exact ⟨by simp [h], rfl, fun _ => hc, .inl rfl⟩
      · dsimp only
        split <;> exact ⟨rfl, rfl, fun _ => hc, .inl rfl⟩
  | cons s rest ih =>
      unfold sendLoop
      split
      · rename_i h
        exact ⟨by simp [h], rfl, fun _ => hc, .inl rfl⟩
      cases s with
      | again =>
          dsimp only
          split <;> exact ⟨rfl, rfl, fun _ => hc, .inl rfl⟩
      | failed errno =>
          dsimp only [lose]
          rw [if_pos hc]
          exact ⟨rfl, rfl, fun _ => hc, .inr ⟨hc, rfl⟩⟩
      | took n =>
          dsimp only
          generalize min n _ = k
          split
          · rename_i hk
            subst hk
            dsimp only [lose]
            rw [if_pos hc]
            exact ⟨by simp [SendBuf.pending_advance], rfl, fun _ => hc, .inr ⟨hc, rfl⟩⟩
          · have := ih { c with
              tlsWlen := if c.tls then 0 else c.tlsWlen, send := c.send.advance k } hc
            generalize sendLoop _ rest = r at this
            refine ⟨?_, ?_, fun _ => hc, .trans (.inl rfl) this.link⟩
            · have hp := this.pending
              rw [SendBuf.pending_advance] at hp
              rw [List.append_assoc, hp, List.take_append_drop]
            · have hs := congrArg (fun c' : PgConn => { c' with
                send := c.send, tlsWlen := c.tlsWlen }) this.same
              exact hs

/-- What a flush makes of a connection. -/
structure Flushed (c : PgConn) (recvs : List Recv)
    (r : Except QueryError Bool × PgConn × List UInt8) : Prop where
  pending : r.2.2 ++ r.2.1.send.pending = c.send.pending
  rest : r.2.1.recv.rest =
    c.recv.rest ++ if c.state = .ready ∧ c.tlsReadBlocked then Recv.arrived recvs else []
  same : { r.2.1 with
    recv := c.recv, send := c.send, state := c.state, loss := c.loss, tlsWlen := c.tlsWlen
    tlsReadBlocked := c.tlsReadBlocked } = c
  ready : r.2.1.state = .ready → c.state = .ready
  link : Keeps c r.2.1

theorem asyncFlush_spec (c : PgConn) (recvs : List Recv) (sends : List Sent) :
    Flushed c recvs (c.asyncFlush recvs sends) := by
  unfold asyncFlush
  split
  · rename_i h
    exact ⟨rfl, by simp [h], rfl, id, .inl rfl⟩
  rename_i hc
  rw [ne_eq, not_not] at hc
  split
  · rename_i hb
    have hf := c.fillRecvBuf_spec recvs
    have hsend : (c.fillRecvBuf recvs).send = c.send :=
      (congrArg PgConn.send hf.same :)
    have hrest : (c.fillRecvBuf recvs).recv.rest =
        c.recv.rest ++ if c.state = .ready ∧ c.tlsReadBlocked then Recv.arrived recvs else [] := by
      rw [hf.rest, if_pos hc, if_pos ⟨hc, hb⟩]
    have hsame : { c.fillRecvBuf recvs with
        recv := c.recv, send := c.send, state := c.state, loss := c.loss, tlsWlen := c.tlsWlen
        tlsReadBlocked := c.tlsReadBlocked } = c :=
      congrArg (fun c' : PgConn => { c' with send := c.send, tlsWlen := c.tlsWlen }) hf.same
    dsimp only
    split
    · exact ⟨by rw [hsend]; rfl, hrest, hsame, fun _ => hc, hf.link⟩
    split
    · exact ⟨by rw [hsend]; rfl, hrest, hsame, fun _ => hc, hf.link⟩
    rename_i hc' _
    rw [ne_eq, not_not] at hc'
    have hd := (c.fillRecvBuf recvs).sendLoop_spec sends hc'
    generalize c.fillRecvBuf recvs = c₁ at *
    generalize c₁.sendLoop sends = r at *
    refine ⟨hd.pending.trans (congrArg _ hsend), ?_, ?_, fun _ => hc, hf.link.trans hd.link⟩
    · exact (congrArg (·.recv.rest) hd.same).trans hrest
    · exact (congrArg (fun c' : PgConn => { c' with
        recv := c.recv, send := c.send, state := c.state, loss := c.loss, tlsWlen := c.tlsWlen
        tlsReadBlocked := c.tlsReadBlocked }) hd.same).trans hsame
  · rename_i hb
    have hd := c.sendLoop_spec sends hc
    generalize c.sendLoop sends = r at *
    refine ⟨hd.pending, ?_, ?_, hd.ready, hd.link⟩
    · rw [if_neg fun h => hb h.2, List.append_nil]
      exact congrArg (·.recv.rest) hd.same
    · exact congrArg (fun c' : PgConn => { c' with
        recv := c.recv, tlsReadBlocked := c.tlsReadBlocked }) hd.same

end PgConn

/-! ### Runs -/

/-- What an application does with a connection. -/
inductive Op where
  | submit (sub : Submission)
  | flush (recvs : List Recv) (sends : List Sent)
  | readable (recvs : List Recv)
  deriving DecidableEq, Repr

/-- A call of `async_on_readable`: how it ended, whether a query was in flight when it was made,
and whether the connection was lost when it returned. -/
structure Called where
  call : Call
  waiting : Bool
  lost : Bool

/-- A connection and what has happened on it. -/
structure History where
  conn : PgConn
  /-- the queries accepted, in order -/
  accepted : List (List Stmt)
  /-- the bytes the transport took -/
  sent : List UInt8
  /-- the bytes the transport gave, from what the bring-up left unread on -/
  received : List UInt8
  calls : List Called

namespace History

def start (c : PgConn) : History := ⟨c, [], [], c.recv.rest, []⟩

/-- One operation. -/
def step (h : History) : Op → History
  | .submit sub =>
    let r := sub.on h.conn
    { h with conn := r.2, accepted := if r.1 then h.accepted ++ [sub.stmts] else h.accepted }
  | .flush recvs sends =>
    let r := h.conn.asyncFlush recvs sends
    let fills := h.conn.state = .ready ∧ h.conn.tlsReadBlocked
    { h with
      conn := r.2.1
      sent := h.sent ++ r.2.2
      received := h.received ++ if fills then Recv.arrived recvs else [] }
  | .readable recvs =>
    let r := h.conn.asyncOnReadable recvs
    { h with
      conn := r.2
      received := h.received ++ if h.conn.state = .ready then Recv.arrived recvs else []
      calls := h.calls ++ [⟨r.1, !h.conn.inflight.isEmpty, r.2.state ≠ .ready⟩] }

end History

/-- A run of a connection. -/
def run (c : PgConn) (ops : List Op) : History := ops.foldl History.step (.start c)

theorem run_concat (c : PgConn) (ops : List Op) (op : Op) :
    run c (ops ++ [op]) = (run c ops).step op := by
  simp [run]

end Vanilla.PgAsync

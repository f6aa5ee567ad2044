import Vanilla.PgAsync.Redial
import Vanilla.Support.Sweep

/-!
# PostgreSQL — a pool

`pg_async/pool.v`, `maintenance.v` and `acquire_pipelined_for` of `shed.v`: the connections of a
worker.  `acquire` lends one to a borrower until `release`; `acquire_pipelined` and
`acquire_pipelined_for` share one; `maintain` looks after those nobody uses.  All of them pass over
the slots in turn, and may finish a ROLLBACK or advance a re-dial on the way.

The source has `conns` and `idle`, two arrays of one length; here they are one list of slots.  What
the calls find is handed to them, by slot: `SlotEnv`.
-/

namespace Vanilla.PgAsync

open Scan (Turn loop sweep)

/-- `rollback_timeout`: five seconds. -/
def rollbackTimeout : Nat := 5000 * millisecond
/-- `maintenance_idle_ms`. -/
def maintenanceIdleMs : Nat := 1000
/-- `maintenance_busy_ms`. -/
def maintenanceBusyMs : Nat := 5

/-! ### Idle connections -/

/-- What the peek of `probe_idle` finds: nothing, a failure, the end of the stream, or bytes, and
then what a receive finds. -/
inductive Probe where
  | nothing
  | failed (errno : Nat)
  | closed
  | bytes (recvs : List Recv)
  deriving DecidableEq, Repr

/-- One pass of the loop of `probe_idle`, at the position `pos`: whether the message there ends the
session. -/
def fatalAtStep (buf : List UInt8) (pos : Nat) : Turn Nat (Option PgError) :=
  match messageAt buf pos with
  | none => .exit none
  | some m =>
    let info := parseErrorResponse m.payload
    if m.typ = btErrorResponse ∧ endsSession info.severity then
      .exit (some ⟨info.severity, info.code, info.message, 0⟩)
    else .next (pos + m.size)

/-- The loop of `probe_idle`. -/
def fatalAt (buf : List UInt8) (pos : Nat) : Option PgError :=
  loop (fatalAtStep buf) (fun pos => buf.length - pos) none pos

namespace PgConn

/-- `probe_idle`. -/
def probeIdle (c : PgConn) (probe : Probe) : PgConn :=
  if c.state ≠ .ready ∨ 0 < c.inflight.length ∨ c.fd < 0 then c
  else
    match probe with
    | .nothing => c
    | .failed errno => c.lose ("recv failed while idle (errno " ++ toString errno ++ ")")
    | .closed => c.lose "connection closed by server while idle"
    | .bytes recvs =>
      let c := c.fillRecvBuf recvs
      match fatalAt c.recv.buf c.recv.pos with
      | none => c
      | some e => { c with fatal := e }.lose "connection closed by server"

/-- `async_wants_write`. -/
def asyncWantsWrite (c : PgConn) : Bool := c.send.pending ≠ [] || c.tlsReadBlocked

/-- `expires_at <= now`. -/
def expired (c : PgConn) (now : Nat) : Bool :=
  match c.expiresAt with
  | none => false
  | some t => t ≤ now

end PgConn

/-! ### Slots -/

/-- A connection of a pool, and whether it is idle. -/
structure Slot where
  conn : PgConn
  idle : Bool

/-- What a step of a release-time ROLLBACK finds. -/
structure RollbackEnv where
  flushRecvs : List Recv
  sends : List Sent
  recvs : List Recv
  now : Nat
  deriving DecidableEq, Repr

/-- What a pass over a slot finds. -/
structure SlotEnv where
  finish : RollbackEnv
  start : RollbackEnv
  probe : Probe
  redial : RedialEnv
  deriving DecidableEq, Repr

namespace Slot

/-- `start_rollback`. -/
def startRollback (s : Slot) (env : RollbackEnv) : Slot :=
  match s.conn.asyncSubmit ⟨ascii "rollback", []⟩ with
  | (false, c) => ⟨c.lose "could not queue a ROLLBACK at release", true⟩
  | (true, c) =>
    let c := (c.asyncFlush env.flushRecvs env.sends).2.1
    ⟨{ c with rollbackDeadline := env.now + rollbackTimeout }, false⟩

/-- The end of `finish_rollback`: the slot goes back to the idle set. -/
def rolledBack (c : PgConn) : Slot := ⟨{ c with inflight := [], rollbackDeadline := 0 }, true⟩

/-- `finish_rollback`. -/
def finishRollback (s : Slot) (env : RollbackEnv) : Bool × Slot :=
  let c :=
    if s.conn.asyncWantsWrite then (s.conn.asyncFlush env.flushRecvs env.sends).2.1 else s.conn
  let r := c.asyncOnReadable env.recvs
  let c := r.2
  match r.1.poll with
  | .ok none =>
    if env.now < c.rollbackDeadline then (false, ⟨c, s.idle⟩)
    else (true, rolledBack (c.lose "no answer to the ROLLBACK queued at release"))
  | .ok (some _) =>
    (true, rolledBack (if c.readyStatus ≠ txIdle then
      c.lose "the ROLLBACK queued at release left the session in a transaction" else c))
  | .error _ => (true, rolledBack (c.lose "the ROLLBACK queued at release failed"))

/-- The first test of `acquire` and of `pipelinable`: whether the slot is idle, or is so now that
its ROLLBACK is finished. -/
def free (s : Slot) (env : SlotEnv) : Bool × Slot :=
  if s.idle then (true, s)
  else if s.conn.rollbackDeadline = 0 then (false, s)
  else s.finishRollback env.finish

end Slot

section

variable (K : Crypto) (cfg : ConnConfig)

namespace Slot

/-- `state == .ready || redial(i)`. -/
def live (s : Slot) (env : SlotEnv) : Bool × Slot :=
  if s.conn.state = .ready then (true, s)
  else
    let r := s.conn.redial K cfg env.redial
    (r.1, ⟨r.2, s.idle⟩)

/-- The last two tests of `acquire` and of `pipelinable`. -/
def serving (s : Slot) (env : SlotEnv) : Bool × Slot :=
  let r := s.live K cfg env
  (r.1 && r.2.conn.readyStatus == txIdle, r.2)

/-- `pipelinable`. -/
def pipelinable (s : Slot) (env : SlotEnv) : Bool × Slot :=
  match s.free env with
  | (false, s) => (false, s)
  | (true, s) => s.serving K cfg env

/-- What `acquire` asks of a slot. -/
def acquirable (s : Slot) (env : SlotEnv) : Bool × Slot :=
  match s.free env with
  | (false, s) => (false, s)
  | (true, s) => if s.conn.inflight ≠ [] then (false, s) else s.serving K cfg env

end Slot

/-! ### The pool -/

/-- `PgPool`: its slots, the time of the last `maintain`, the slot being recycled. -/
structure PgPool where
  slots : List Slot
  clock : Nat := 0
  recycling : Option Nat := none

/-- The loop of `acquire`. -/
def acquireAt (env : Nat → SlotEnv) (i : Nat) (_ : Unit) (s : Slot) :
    Turn Unit (Option Nat) × Slot :=
  match s.acquirable K cfg (env i) with
  | (false, s) => (.next (), s)
  | (true, s) => (.exit (some i), { s with idle := false })

/-- The loop of `acquire_pipelined`; `best` is the shortest pipeline so far, with its depth. -/
def acquirePipelinedAt (env : Nat → SlotEnv) (i : Nat) (best : Option (Nat × Nat)) (s : Slot) :
    Turn (Option (Nat × Nat)) (Option Nat) × Slot :=
  match s.pipelinable K cfg (env i) with
  | (false, s) => (.next best, s)
  | (true, s) =>
    let d := s.conn.inflight.length
    if d = 0 then (.exit (some i), s)
    else if d < s.conn.inflightLimit ∧ best.all (d < ·.2) then (.next (some (i, d)), s)
    else (.next best, s)

/-- The locals of `acquire_pipelined_for`; `widest` has the buffer and the error of a connection. -/
structure Search where
  best : Option (Nat × Nat) := none
  fits : Bool := false
  widest : Option (Nat × Nat) := none
  fullBuffer : Bool := false
  fullPipeline : Bool := false
  deriving DecidableEq, Repr

/-- What `acquire_pipelined_for` answers when it has seen every slot. -/
def Search.answer (q : Search) : Except Refusal Nat :=
  match q.best with
  | some (i, _) => .ok i
  | none =>
    match q.fits, q.widest with
    | false, some (_, cap) => .error (.frameTooLarge cap)
    | _, _ =>
      if q.fullBuffer then .error (.shed .sendBufferFull)
      else if q.fullPipeline then .error (.shed .pipelineFull)
      else .error (.shed .noConnection)

/-- A connection whose send buffer is smaller than the frame. -/
def Search.tooSmall (q : Search) (c : PgConn) : Search :=
  if q.widest.all (·.1 < c.maxFrameLen) then
    { q with widest := some (c.maxFrameLen, c.frameTooLarge) }
  else q

/-- What `acquire_pipelined_for` does at a slot whose connection may take a pipelined query and
whose send buffer is large enough. -/
def Search.candidate (q : Search) (n i : Nat) (c : PgConn) : Turn Search (Except Refusal Nat) :=
  let d := c.inflight.length
  if c.inflightLimit ≤ d then .next { q with fullPipeline := true }
  else if c.sendRoom < n then .next { q with fullBuffer := true }
  else if d = 0 then .exit (.ok i)
  else if q.best.all (d < ·.2) then .next { q with best := some (i, d) }
  else .next q

/-- The loop of `acquire_pipelined_for`. -/
def acquirePipelinedForAt (n : Nat) (env : Nat → SlotEnv) (i : Nat) (q : Search) (s : Slot) :
    Turn Search (Except Refusal Nat) × Slot :=
  if s.conn.maxFrameLen < n then (.next (q.tooSmall s.conn), s)
  else
    let q := { q with fits := true }
    match s.pipelinable K cfg (env i) with
    | (false, s) => (.next q, s)
    | (true, s) => (q.candidate n i s.conn, s)

namespace PgPool

/-- `acquire`. -/
def acquire (p : PgPool) (env : Nat → SlotEnv) : Option Nat × PgPool :=
  let r := sweep (acquireAt K cfg env) (fun _ => none) 0 () p.slots
  (r.1, { p with slots := r.2 })

/-- `acquire_pipelined`. -/
def acquirePipelined (p : PgPool) (env : Nat → SlotEnv) : Option Nat × PgPool :=
  let r := sweep (acquirePipelinedAt K cfg env) (Option.map Prod.fst) 0 none p.slots
  (r.1, { p with slots := r.2 })

/-- `acquire_pipelined_for`. -/
def acquirePipelinedFor (p : PgPool) (n : Nat) (env : Nat → SlotEnv) :
    Except Refusal Nat × PgPool :=
  let r := sweep (acquirePipelinedForAt K cfg n env) Search.answer 0 {} p.slots
  (r.1, { p with slots := r.2 })

end PgPool

/-! ### Releasing -/

/-- What `release` does to the connection first. -/
def Slot.retire (s : Slot) : Slot :=
  if 0 < s.conn.inflight.length then
    { s with conn := { s.conn.lose "released with a query in flight" with
      inflight := [], rollbackDeadline := 0 } }
  else s

/-- `release`. -/
def PgPool.release (p : PgPool) (i : Nat) (env : RollbackEnv) : PgPool :=
  match p.slots[i]? with
  | none => p
  | some s =>
    if s.conn.inflight = [] ∧ s.conn.readyStatus ≠ txIdle ∧ s.conn.state = .ready then
      { p with slots := p.slots.set i (s.startRollback env) }
    else
      let s := s.retire
      if s.conn.expired p.clock ∧ p.recycling = none then
        { p with slots := p.slots.set i s, recycling := some i }
      else { p with slots := p.slots.set i { s with idle := true } }

/-! ### Maintenance -/

/-- The milliseconds until a time, at least one. -/
def msUntil (t now : Nat) : Nat := (t - now) / millisecond + 1

/-- What `maintain` does with a slot once it is neither held nor rolling back. -/
def maintainFree (now next : Nat) (s : Slot) (env : SlotEnv) : Nat × Slot :=
  if 0 < s.conn.inflight.length then (next, s)
  else
    let s : Slot := ⟨s.conn.probeIdle env.probe, s.idle⟩
    if s.conn.state = .ready ∧ s.conn.readyStatus ≠ txIdle then
      (min next maintenanceBusyMs, s.startRollback env.start)
    else
      match s.live K cfg env with
      | (true, s) => (next, s)
      | (false, s) =>
        let wait :=
          if s.conn.state = .broken ∧ now < s.conn.retryAt then msUntil s.conn.retryAt now
          else maintenanceBusyMs
        (min next wait, s)

/-- `maintain` at a slot, its lifetime aside. -/
def maintainSlot (now next : Nat) (s : Slot) (env : SlotEnv) : Nat × Slot :=
  if s.idle then maintainFree K cfg now next s env
  else if s.conn.rollbackDeadline = 0 then (next, s)
  else
    match s.finishRollback env.finish with
    | (true, s) => maintainFree K cfg now next s env
    | (false, s) => (min next maintenanceBusyMs, s)

/-- The loop of `maintain`: the slot being recycled, and the milliseconds until the next tick.  A
connection past its lifetime leaves the idle set, or waits for its turn. -/
def maintainAt (now : Nat) (env : Nat → SlotEnv) (i : Nat) (t : Option Nat × Nat) (s : Slot) :
    Turn (Option Nat × Nat) (Option Nat × Nat) × Slot :=
  if s.idle ∧ s.conn.expired now ∧ s.conn.state = .ready then
    if t.1 = none then
      let r := maintainSlot K cfg now t.2 { s with idle := false } (env i)
      (.next (some i, r.1), r.2)
    else
      let r := maintainSlot K cfg now maintenanceBusyMs s (env i)
      (.next (t.1, r.1), r.2)
  else
    let r := maintainSlot K cfg now t.2 s (env i)
    (.next (t.1, r.1), r.2)

/-- `recycle_step`, on the connection being recycled: the milliseconds it wants, whether the
connection is back, and the connection. -/
def recycleStep (now : Nat) (c : PgConn) (env : RedialEnv) : Nat × Bool × PgConn :=
  if 0 < c.inflight.length then (maintenanceBusyMs, false, c)
  else
    let c :=
      if c.state = .ready then { c.lose "recycled: max_lifetime_ms reached" with retryAt := 0 }
      else c
    match c.redial K cfg env with
    | (true, c) => (maintenanceIdleMs, true, c)
    | (false, c) =>
      if c.state = .broken ∧ now < c.retryAt then (msUntil c.retryAt now, false, c)
      else (maintenanceBusyMs, false, c)

/-- The last loop of `maintain`: the next lifetime deadline. -/
def nextDeadline (now : Nat) : Nat → List Slot → Nat
  | next, [] => next
  | next, s :: rest =>
    match s.conn.expiresAt with
    | none => nextDeadline now next rest
    | some t =>
      if now < t ∧ t - now < next * millisecond then nextDeadline now (msUntil t now) rest
      else nextDeadline now next rest

/-- `maintain`: the milliseconds until it wants to run again, and the pool.  The slot being recycled
is one of the pool's (`PoolRun.Ok.inRange`). -/
def PgPool.maintain (p : PgPool) (now : Nat) (env : Nat → SlotEnv) (recycle : RedialEnv) :
    Nat × PgPool :=
  let ((recycling, next), slots) :=
    sweep (maintainAt K cfg now env) id 0 (p.recycling, maintenanceIdleMs) p.slots
  match recycling with
  | none => (nextDeadline now next slots, ⟨slots, now, none⟩)
  | some i =>
    match slots[i]? with
    | none => (nextDeadline now next slots, ⟨slots, now, some i⟩)
    | some s =>
      let (wait, back, c) := recycleStep K cfg now s.conn recycle
      let slots := slots.set i ⟨c, if back then true else s.idle⟩
      (nextDeadline now (min next wait) slots, ⟨slots, now, if back then none else some i⟩)

end

end Vanilla.PgAsync

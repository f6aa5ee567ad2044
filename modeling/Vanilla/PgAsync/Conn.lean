import Vanilla.PgAsync.Startup
import Vanilla.Support.Window

/-!
# PostgreSQL — a connection

`pg_async/conn.v`, `conn_async.v` and `shed.v`: the state of a connection and its non-blocking query
path.  A query is serialized into the send buffer and pushed onto the in-flight queue
(`async_submit`, `async_submit_batch`, `submit`, `submit_batch`), `async_flush` sends, and
`async_on_readable` frames what arrives into the front query until its ReadyForQuery.

What the transport answers is handed to the functions that call it, as scripts: `Recv` for each
`recv_some`, `Sent` for each `send_some`.  A script that has run out answers `io_again`.

* A reply accumulates in the buffer of its query's slot in `frame_pool`.  The source's
  `PendingQuery.frames` is a view of that memory; here the slot is all a query has.
* `PendingQuery.ticket` and `PgConn.submitted` are not in the source.  They number the queries in
  the order they were pushed.
* `PgConn.heard`, `PgConn.dials` and `PgConn.lastReady` are not in the source either: the messages
  of the bring-up so far, how many queries were in flight each time a re-dial closed the socket, and
  the payload of the last ReadyForQuery, that of the bring-up or one that completed a query.
-/

namespace Vanilla.PgAsync

open Scan (Turn loop)
open Buffers (Window Inbox)

/-! ### Constants -/

/-- `max_inflight`. -/
def maxInflight : Nat := 8
/-- `send_buf_cap`. -/
def sendBufCap : Nat := 64 * 1024
/-- `min_send_buf_cap`. -/
def minSendBufCap : Nat := 16 * 1024
/-- `max_send_buf_cap`. -/
def maxSendBufCap : Nat := 16 * 1024 * 1024
/-- The floor `fill_recv_buf` grows an empty buffer to, and the capacity of a fresh one. -/
def recvFloor : Nat := 16 * 1024

/-! ### The state -/

/-- `LinkState`. -/
inductive LinkState where
  | ready
  | broken
  | connecting
  | sslRequest
  | tlsHandshake
  | starting
  deriving DecidableEq, Repr

/-- An error of a query: the server's, or one the client words itself. -/
inductive QueryError where
  | pg (e : PgError)
  | text (s : String)
  deriving DecidableEq, Repr

/-- `PendingQuery`. -/
structure PendingQuery where
  error : List UInt8 := []
  sqlstate : List UInt8 := []
  severity : List UInt8 := []
  errStmt : Nat := 0
  rowsAffected : Nat := 0
  frameSlot : Nat
  ticket : Nat
  deriving DecidableEq, Repr

/-- `pg_error`. -/
def PendingQuery.pgError (q : PendingQuery) : PgError :=
  ⟨q.severity, q.sqlstate, q.error, q.errStmt⟩

/-- `send_buf`, `send_off` and `send_len`.  `check_send_buf_cap` bounds the buffer of every
connection that `connect` makes. -/
structure SendBuf where
  win : Window UInt8
  size_le : win.size ≤ maxSendBufCap

namespace SendBuf

/-- An operation on the window that keeps its size. -/
def lift (s : SendBuf) (f : Window UInt8 → Window UInt8) (h : ∀ w, (f w).size = w.size) : SendBuf :=
  ⟨f s.win, by rw [h]; exact s.size_le⟩

/-- The bytes that are written and not yet sent. -/
def pending (s : SendBuf) : List UInt8 := s.win.pending

def size (s : SendBuf) : Nat := s.win.size

/-- `[]u8{len: n}`, nothing written. -/
def fresh (n : Nat) (h : n ≤ maxSendBufCap) : SendBuf := ⟨.fresh n 0, by simpa using h⟩

/-- No buffer: a connection made without `connect`, before its first submit. -/
def none : SendBuf := fresh 0 (Nat.zero_le _)

/-- The buffer a connection made without `connect` gets at its first submit. -/
def default : SendBuf := fresh sendBufCap (by decide)

/-- Both cursors to the front. -/
def reset (s : SendBuf) : SendBuf := s.lift Window.reset Window.size_reset

def slide (s : SendBuf) : SendBuf := s.lift Window.slide Window.size_slide

def write (s : SendBuf) (frame : List UInt8) : SendBuf :=
  s.lift (·.write frame) fun w => w.size_write frame

def advance (s : SendBuf) (n : Nat) : SendBuf := s.lift (·.advance n) fun w => w.size_advance n

end SendBuf

/-- `PgConn`. -/
structure PgConn where
  fd : Int := -1
  state : LinkState := .ready
  fatal : PgError := {}
  loss : String := ""
  recv : Inbox UInt8 := .fresh recvFloor
  send : SendBuf := .none
  inflight : List PendingQuery := []
  inflightCap : Nat := 0
  readyStatus : UInt8 := txIdle
  rollbackDeadline : Nat := 0
  framePool : List (List UInt8) := []
  frameRing : Nat := 0
  scram : ScramClient := ⟨[], [], [], [], [], false⟩
  heard : List Heard := []
  retryAt : Nat := 0
  dialDeadline : Nat := 0
  addrCursor : Nat := 0
  tls : Bool := false
  tlsCfg : Bool := false
  tlsWlen : Nat := 0
  tlsReadBlocked : Bool := false
  /-- `max_u64` is `none`. -/
  expiresAt : Option Nat := none
  frameTooLarge : Nat := sendBufCap
  submitted : Nat := 0
  dials : List Nat := []
  lastReady : Option (List UInt8) := none

namespace PgConn

/-! ### Health -/

/-- `lose`: the first cause wins. -/
def lose (c : PgConn) (reason : String) : PgConn :=
  if c.state = .ready then { c with state := .broken, loss := reason } else c

/-- `loss_error`. -/
def lossError (c : PgConn) : QueryError :=
  if c.fatal.sqlstate ≠ [] then .pg c.fatal else .text ("pg: " ++ c.loss)

/-- `io_error`. -/
def ioError (c : PgConn) (op : String) (errno : Nat) : String :=
  if c.tls then "TLS " ++ op ++ " failed" else op ++ " failed (errno " ++ toString errno ++ ")"

/-! ### Submitting -/

/-- `inflight_limit`. -/
def inflightLimit (c : PgConn) : Nat := if 0 < c.inflightCap then c.inflightCap else maxInflight

/-- `max_frame_len`. -/
def maxFrameLen (c : PgConn) : Nat := if 0 < c.send.size then c.send.size else sendBufCap

/-- `send_room`. -/
def sendRoom (c : PgConn) : Nat := c.maxFrameLen - c.send.pending.length

end PgConn

/-- `statement_frame_len`: `parse_overhead`, `bind_overhead`, `describe_len`, `execute_len`. -/
def statementFrameLen (s : Stmt) : Nat :=
  (1 + 4 + 1 + 1 + 2) + s.sql.length + (1 + 4 + 1 + 1 + 2 + 2 + 2 + 2) + (1 + 4 + 1 + 1) +
    (1 + 4 + 1 + 4) + (s.params.map fun p => 4 + (p.getD []).length).sum

/-- `sync_len`. -/
def syncLen : Nat := 1 + 4

/-- `query_frame_len`. -/
def queryFrameLen (s : Stmt) : Nat := statementFrameLen s + syncLen

/-- `batch_frame_len`. -/
def batchFrameLen (stmts : List Stmt) : Nat := syncLen + (stmts.map statementFrameLen).sum

/-- `ShedReason`. -/
inductive ShedReason where
  | noConnection
  | pipelineFull
  | sendBufferFull
  deriving DecidableEq, Repr

/-- Why a query is not queued: the errors of `submit`, `submit_batch` and `async_submit_batch`. -/
inductive Refusal where
  | frameTooLarge (cap : Nat)
  | connBroken (reason : String)
  | shed (reason : ShedReason)
  | batchEmpty
  | batchTooLarge
  deriving DecidableEq, Repr

namespace PgConn

/-- `append_send`. -/
def appendSend (c : PgConn) (frame : List UInt8) : Bool × PgConn :=
  let buf := if c.send.size = 0 then .default else c.send
  let buf := if buf.win.off = buf.win.len then buf.reset else buf
  if buf.win.len + frame.length > buf.size then
    let unsent := buf.win.len - buf.win.off
    if unsent + frame.length > buf.size then (false, { c with send := buf })
    else (true, { c with send := buf.slide.write frame })
  else (true, { c with send := buf.write frame })

/-- `push_inflight`: the query takes the next slot of the pool, whose buffer is emptied. -/
def pushInflight (c : PgConn) : PgConn :=
  let limit := c.inflightLimit
  let pool := if c.framePool.length < limit then List.replicate limit [] else c.framePool
  let slot := c.frameRing
  { c with
    framePool := pool.set slot []
    frameRing := (c.frameRing + 1) % limit
    inflight := c.inflight ++ [{ frameSlot := slot, ticket := c.submitted }]
    submitted := c.submitted + 1 }

/-- What `async_submit` and `async_submit_batch` ask before they serialize a frame of `n` bytes. -/
def cannotTake (c : PgConn) (n : Nat) : Bool :=
  c.state ≠ .ready || c.inflight.length ≥ c.inflightLimit || c.sendRoom < n

/-- Append a frame and push its query; a frame that does not fit is not pushed. -/
def enqueue (c : PgConn) (frame : List UInt8) : Bool × PgConn :=
  match c.appendSend frame with
  | (true, c) => (true, c.pushInflight)
  | (false, c) => (false, c)

/-- `async_submit`. -/
def asyncSubmit (c : PgConn) (s : Stmt) : Bool × PgConn :=
  if c.cannotTake (queryFrameLen s) then (false, c) else c.enqueue (frameOf [s])

/-- `async_submit_batch`. -/
def asyncSubmitBatch (c : PgConn) (stmts : List Stmt) : Except Refusal Bool × PgConn :=
  if stmts.length = 0 then (.error .batchEmpty, c)
  else if batchFrameLen stmts > c.maxFrameLen then (.error .batchTooLarge, c)
  else if c.cannotTake (batchFrameLen stmts) then (.ok false, c)
  else
    let r := c.enqueue (frameOf stmts)
    (.ok r.1, r.2)

/-- `check_submit`. -/
def checkSubmit (c : PgConn) (frameLen : Nat) : Except Refusal Unit :=
  if frameLen > c.maxFrameLen then .error (.frameTooLarge c.frameTooLarge)
  else if c.state ≠ .ready then .error (.connBroken c.loss)
  else if c.inflight.length ≥ c.inflightLimit then .error (.shed .pipelineFull)
  else if c.sendRoom < frameLen then .error (.shed .sendBufferFull)
  else .ok ()

/-- `queue_scratch`. -/
def queueScratch (c : PgConn) (frame : List UInt8) : Except Refusal Unit × PgConn :=
  match c.enqueue frame with
  | (true, c) => (.ok (), c)
  | (false, c) => (.error (.shed .sendBufferFull), c)

/-- `submit`. -/
def submit (c : PgConn) (s : Stmt) : Except Refusal Unit × PgConn :=
  match c.checkSubmit (queryFrameLen s) with
  | .error e => (.error e, c)
  | .ok () => c.queueScratch (frameOf [s])

/-- `submit_batch`. -/
def submitBatch (c : PgConn) (stmts : List Stmt) : Except Refusal Unit × PgConn :=
  if stmts.length = 0 then (.error .batchEmpty, c)
  else
    match c.checkSubmit (batchFrameLen stmts) with
    | .error e => (.error e, c)
    | .ok () => c.queueScratch (frameOf stmts)

end PgConn

/-! ### Receiving -/

/-- What one `recv_some` finds: bytes (more of them than fit stay where they are), nothing now,
over TLS a read that waits for a write, the end of the stream, a failure. -/
inductive Recv where
  | data (b : UInt8) (bs : List UInt8)
  | again
  | blocked
  | eof
  | failed (errno : Nat)
  deriving DecidableEq, Repr

/-- How many passes a script can keep `fill_recv_buf` busy. -/
def Recv.weight : Recv → Nat
  | data _ bs => bs.length + 2
  | _ => 1

/-- How the reading of a script ends. -/
inductive Recv.Ending where
  | again
  | blocked
  | eof
  | failed (errno : Nat)
  deriving DecidableEq, Repr

/-- One pass of `fill_recv_buf`: make room, read as much as fits. -/
def drainStep : Inbox UInt8 × List Recv → Turn (Inbox UInt8 × List Recv) (Inbox UInt8 × Recv.Ending)
  | (inbox, script) =>
    let inbox := inbox.makeRoom recvFloor
    match script with
    | [] => .exit (inbox, .again)
    | .again :: _ => .exit (inbox, .again)
    | .blocked :: _ => .exit (inbox, .blocked)
    | .eof :: _ => .exit (inbox, .eof)
    | .failed errno :: _ => .exit (inbox, .failed errno)
    | .data b bs :: rest =>
      match (b :: bs).drop inbox.spare with
      | [] => .next (inbox.extend (b :: bs), rest)
      | b' :: bs' => .next (inbox.extend (b :: bs), .data b' bs' :: rest)

/-- The loop of `fill_recv_buf`, while the connection is live. -/
def drain (inbox : Inbox UInt8) (script : List Recv) : Inbox UInt8 × Recv.Ending :=
  loop drainStep (fun s => (s.2.map Recv.weight).sum) (inbox, .again) (inbox, script)

namespace PgConn

/-- `fill_recv_buf`. -/
def fillRecvBuf (c : PgConn) (script : List Recv) : PgConn :=
  let c := if c.tls then { c with tlsReadBlocked := false } else c
  if c.state ≠ .ready then c
  else
    let (inbox, ending) := drain c.recv script
    let c := { c with recv := inbox }
    match ending with
    | .again => c
    | .blocked => if c.tls then { c with tlsReadBlocked := true } else c
    | .eof => c.lose "connection closed by server"
    | .failed errno => c.lose (c.ioError "async recv" errno)

/-- The accumulator of a query: the pool's buffer in its slot. -/
def framesOf (c : PgConn) (q : PendingQuery) : List UInt8 := c.framePool.getD q.frameSlot []

end PgConn

/-- What a message of its reply writes to the front query; `frames` are those before it. -/
def PendingQuery.onMessage (q : PendingQuery) (frames : List UInt8) (m : Msg) : PendingQuery :=
  if m.typ = btCommandComplete then { q with rowsAffected := parseCommandComplete m.payload }
  else if m.typ = btErrorResponse then
    let info := parseErrorResponse m.payload
    { q with
      error := info.message
      sqlstate := info.code
      severity := info.severity
      errStmt := statementsDone frames }
  else q

namespace PgConn

/-- What `async_on_readable` does at a message before it keeps its bytes; `q` is the front query. -/
def onMessage (c : PgConn) (q : PendingQuery) (m : Msg) : PgConn :=
  let q := q.onMessage (c.framesOf q) m
  let c := { c with inflight := q :: c.inflight.drop 1 }
  if m.typ = btReadyForQuery then
    let c := { c with lastReady := some m.payload }
    match m.payload with
    | [] => c
    | b :: _ => { c with readyStatus := b }
  else if m.typ = btErrorResponse ∧ endsSession (parseErrorResponse m.payload).severity then
    { c with fatal := q.pgError }.lose "connection closed by server"
  else c

/-- `inflight[0].frames << recv_buf[recv_pos..recv_pos + total]`, and the cursor behind it. -/
def keepBytes (c : PgConn) (q : PendingQuery) (n : Nat) : PgConn :=
  { c with
    framePool := c.framePool.set q.frameSlot (c.framesOf q ++ c.recv.rest.take n)
    recv := c.recv.advance n }

/-- A pass of the framing loop over a message. -/
def consume (c : PgConn) (q : PendingQuery) (m : Msg) : PgConn :=
  (c.onMessage q m).keepBytes q m.size

/-- `pop_front`: the accumulator is in its slot already. -/
def popFront (c : PgConn) : PgConn := { c with inflight := c.inflight.drop 1 }

end PgConn

/-- How the framing loop of `async_on_readable` ends: at a ReadyForQuery, with the query it
completes and that query's frames, or with nothing more to frame. -/
inductive Pumped where
  | complete (q : PendingQuery) (frames : List UInt8) (c : PgConn)
  | stop (c : PgConn)

namespace PgConn

/-- One pass of the framing loop. -/
def pumpStep (c : PgConn) : Turn PgConn Pumped :=
  match c.inflight with
  | [] => .exit (.stop c)
  | q :: _ =>
    match Vanilla.PgAsync.messageAt c.recv.buf c.recv.pos with
    | none => .exit (.stop c)
    | some m =>
      let c := c.consume q m
      if m.typ = btReadyForQuery then
        .exit (.complete (c.inflight.headD q) (c.framesOf q) c.popFront)
      else .next c

/-- The framing loop. -/
def pump (c : PgConn) : Pumped := loop pumpStep (fun c => c.recv.rest.length) (.stop c) c

end PgConn

/-- How a call of `async_on_readable` ends: the front query completed by its ReadyForQuery, the
front query failed by the loss of the connection, a lost connection with no query left, not
ready. -/
inductive Call where
  | byReady (q : PendingQuery) (frames : List UInt8)
  | byLoss (q : PendingQuery) (e : QueryError)
  | lost (e : QueryError)
  | notReady

/-- `QueryPoll`, or the error a call returns. -/
def Call.poll : Call → Except QueryError (Option Result)
  | byReady q frames =>
    if q.error ≠ [] then .error (.pg q.pgError) else .ok (some ⟨frames, q.rowsAffected⟩)
  | byLoss _ e => .error e
  | lost e => .error e
  | notReady => .ok none

namespace PgConn

/-- `async_on_readable`; `Call.poll` is what it returns. -/
def asyncOnReadable (c : PgConn) (script : List Recv) : Call × PgConn :=
  let c := { c with recv := c.recv.rewind }
  let c := c.fillRecvBuf script
  match c.pump with
  | .complete q frames c => (.byReady q frames, c)
  | .stop c =>
    if c.state ≠ .ready then
      match c.inflight with
      | [] => (.lost c.lossError, c)
      | q :: _ =>
        (.byLoss q (if q.error ≠ [] then .pg q.pgError else c.lossError), c.popFront)
    else (.notReady, c)

end PgConn

/-! ### Sending -/

/-- What one `send_some` answers: how many bytes it took, nothing now, a failure. -/
inductive Sent where
  | took (n : Nat)
  | again
  | failed (errno : Nat)
  deriving DecidableEq, Repr

namespace PgConn

/-- How many of the pending bytes are offered: over TLS, a write that could not be finished is
tried again with the length it had. -/
def offered (c : PgConn) : Nat :=
  if c.tls ∧ 0 < c.tlsWlen then c.tlsWlen else c.send.pending.length

/-- The send loop of `async_flush`: what it returns, the connection, and the bytes the transport
took. -/
def sendLoop : PgConn → List Sent → Except QueryError Bool × PgConn × List UInt8
  | c, script =>
    if c.send.pending = [] then (.ok true, { c with send := c.send.reset }, [])
    else
      match script with
      | [] | .again :: _ => (.ok false, if c.tls then { c with tlsWlen := c.offered } else c, [])
      | .failed errno :: _ =>
        let c := c.lose (c.ioError "async send" errno)
        (.error (.text ("pg: " ++ c.loss)), c, [])
      | .took n :: rest =>
        let n := min n (min c.offered c.send.pending.length)
        let c' :=
          { c with tlsWlen := if c.tls then 0 else c.tlsWlen, send := c.send.advance n }
        if n = 0 then
          let c' := c'.lose (c.ioError "async send" 0)
          (.error (.text ("pg: " ++ c'.loss)), c', [])
        else
          let r := sendLoop c' rest
          (r.1, r.2.1, c.send.pending.take n ++ r.2.2)

/-- `async_flush`. -/
def asyncFlush (c : PgConn) (recvs : List Recv) (sends : List Sent) :
    Except QueryError Bool × PgConn × List UInt8 :=
  if c.state ≠ .ready then (.error c.lossError, c, [])
  else if c.tlsReadBlocked then
    let c := c.fillRecvBuf recvs
    if c.state ≠ .ready then (.error c.lossError, c, [])
    else if c.tlsReadBlocked then (.ok false, c, [])
    else c.sendLoop sends
  else c.sendLoop sends

end PgConn

end Vanilla.PgAsync

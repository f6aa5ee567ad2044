import Vanilla.PgAsync.Reading

/-!
# PostgreSQL — the blocking query

`read_msg` and `query` of `pg_async/conn.v`: the path for start-up code on a connection of its own.

`read_msg` cuts the message off the front of `recv_buf` and waits for more where there is none.
What a peer sends is a `Wire`: the pieces the receives will find, and whether the stream ends behind
them.  An open stream that has run out blocks for good.

* `Wire.readMsg_spec`: the pieces do not matter.
* `query_spec`: what `query` returns, said of the stream.
-/

namespace Vanilla.PgAsync

open Scan (Turn Stop Framing loop loop_rule Descends)

/-! ### Messages -/

/-- `recv_buf`, what the receives will find, and whether the peer closes behind it. -/
structure Wire where
  buf : List UInt8 := []
  pieces : List (List UInt8)
  closed : Bool
  deriving DecidableEq, Repr

/-- Everything that is not read yet. -/
def Wire.rest (w : Wire) : List UInt8 := w.buf ++ w.pieces.flatten

/-- What `read_msg` comes back with, if it does. -/
inductive ReadMsg where
  | msg (m : Msg) (w : Wire)
  | closed
  | blocked
  deriving DecidableEq, Repr

/-- The loop of `read_msg`. -/
def readMsgFrom : List UInt8 → List (List UInt8) → Bool → ReadMsg
  | buf, pieces, closed =>
    match messageAt buf 0 with
    | some m => .msg m ⟨buf.drop m.size, pieces, closed⟩
    | none =>
      match pieces with
      | [] => if closed then .closed else .blocked
      | p :: ps => readMsgFrom (buf ++ p) ps closed

/-- `read_msg`. -/
def Wire.readMsg (w : Wire) : ReadMsg := readMsgFrom w.buf w.pieces w.closed

/-- What `read_msg` does, by what the stream has in front. -/
inductive ReadAs (w : Wire) : Option Msg → ReadMsg → Prop where
  | msg {m : Msg} {w' : Wire} (hok : m.Fits) (hrest : w.rest = m.bytes ++ w'.rest)
      (hclosed : w'.closed = w.closed) : ReadAs w (some m) (.msg m w')
  | closed (h : w.closed = true) : ReadAs w none .closed
  | blocked (h : w.closed = false) : ReadAs w none .blocked

/-- **A message is read however it is cut.** -/
theorem Wire.readMsg_spec (w : Wire) : ReadAs w (framing.next w.rest) w.readMsg := by
  obtain ⟨buf, pieces, closed⟩ := w
  simp only [Wire.readMsg, Wire.rest]
  induction pieces generalizing buf with
  | nil =>
      rw [List.flatten_nil, List.append_nil]
      unfold readMsgFrom
      rw [← framing_next]
      cases hn : framing.next buf with
      | some m =>
          obtain ⟨hok, r, rfl⟩ := Framing.next_split hn
          refine .msg hok ?_ rfl
          simp only [Wire.rest, List.flatten_nil, List.append_nil, framing_enc, ← m.length_bytes,
            List.drop_left]
      | none =>
          cases closed with
          | true => exact .closed rfl
          | false => exact .blocked rfl
  | cons p ps ih =>
      have hassoc : buf ++ (p :: ps).flatten = buf ++ p ++ ps.flatten := by simp
      unfold readMsgFrom
      rw [← framing_next]
      cases hn : framing.next buf with
      | some m =>
          obtain ⟨hok, r, rfl⟩ := Framing.next_split hn
          rw [List.append_assoc, Framing.next_enc hok]
          refine .msg hok ?_ rfl
          simp only [Wire.rest, framing_enc, ← m.length_bytes, List.drop_left, List.append_assoc]
      | none =>
          have := ih (buf ++ p)
          rw [← hassoc] at this
          dsimp only
          generalize framing.next (buf ++ (p :: ps).flatten) = v at this
          generalize readMsgFrom (buf ++ p) ps closed = r at this
          cases this with
          | msg hok hrest hclosed => exact .msg hok (hassoc.trans hrest) hclosed
          | closed h => exact .closed h
          | blocked h => exact .blocked h

/-! ### The query -/

/-- What a query comes back with, if it does. -/
inductive Answer where
  | ok (res : Result)
  | error (e : QueryError)
  | blocked

/-- The locals of `query`, and the connection. -/
structure QueryLoop where
  conn : PgConn
  wire : Wire
  frames : List UInt8 := []
  rowsAffected : Nat := 0
  serverError : PgError := {}
  failed : Bool := false

namespace QueryLoop

/-- The message is re-framed into the result. -/
def keep (s : QueryLoop) (m : Msg) (w : Wire) : QueryLoop :=
  { s with frames := s.frames ++ message m.typ m.payload, wire := w }

/-- One pass of the loop of `query`. -/
def step (s : QueryLoop) : Turn QueryLoop (Answer × PgConn) :=
  match s.wire.readMsg with
  | .blocked => .exit (.blocked, s.conn)
  | .closed =>
    .exit (.error (if s.failed then .pg s.serverError else .text "pg: connection closed by server"),
      s.conn.lose "connection closed by server")
  | .msg m w =>
    if m.typ = btReadyForQuery then
      let c := { s.conn with lastReady := some m.payload }
      let c := match m.payload with
        | [] => c
        | b :: _ => { c with readyStatus := b }
      .exit (if s.failed then .error (.pg s.serverError) else .ok ⟨s.frames, s.rowsAffected⟩, c)
    else if m.typ = btCommandComplete then
      .next ({ s with rowsAffected := parseCommandComplete m.payload }.keep m w)
    else if m.typ = btErrorResponse then
      let info := parseErrorResponse m.payload
      let e : PgError := ⟨info.severity, info.code, info.message, 0⟩
      if endsSession info.severity then
        .exit (.error (.pg e), { s.conn with fatal := e }.lose "connection closed by server")
      else .next ({ s with serverError := e, failed := true }.keep m w)
    else .next (s.keep m w)

end QueryLoop

/-- `query`, from its first read on. -/
def PgConn.query (c : PgConn) (w : Wire) : Answer × PgConn :=
  loop QueryLoop.step (fun s => s.wire.rest.length) (.blocked, c) { conn := c, wire := w }

/-! ### What a query comes to -/

/-- What an application sees of a query. -/
inductive QueryOutcome where
  | success (rowsAffected : Nat) (rows : List (List UInt8))
  | failure
  | blocked
  deriving DecidableEq, Repr

/-- The outcome of the blocking path. -/
def Answer.outcome : Answer → QueryOutcome
  | ok res => .success res.rowsAffected res.rows
  | error _ => .failure
  | blocked => .blocked

/-- An ErrorResponse. -/
def isError (m : Msg) : Bool := m.typ == btErrorResponse

/-- The count of the last CommandComplete, or `n` if there is none. -/
def affected (n : Nat) (ms : List Msg) : Nat :=
  ms.foldl (fun n m => if m.typ = btCommandComplete then parseCommandComplete m.payload else n) n

namespace QueryLoop

/-- How a pass of `query` goes, by the message in front. -/
inductive Passes (s : QueryLoop) : Turn QueryLoop (Answer × PgConn) → Prop where
  | blocked {c : PgConn} (h : framing.next s.wire.rest = none) (hc : s.wire.closed = false) :
      Passes s (.exit (.blocked, c))
  | closed {e : QueryError} {c : PgConn} (h : framing.next s.wire.rest = none)
      (hc : s.wire.closed = true) : Passes s (.exit (.error e, c))
  | ready {m : Msg} {r : List UInt8} {c : PgConn} (hok : m.Fits)
      (hrest : s.wire.rest = m.bytes ++ r) (hz : isReady m = true) :
      Passes s (.exit
        (if s.failed then .error (.pg s.serverError) else .ok ⟨s.frames, s.rowsAffected⟩, c))
  | fatal {m : Msg} {r : List UInt8} {e : QueryError} {c : PgConn} (hok : m.Fits)
      (hrest : s.wire.rest = m.bytes ++ r) (hz : isReady m = false) (hf : fatalMsg m = true) :
      Passes s (.exit (.error e, c))
  | keep {m : Msg} {s' : QueryLoop} (hok : m.Fits) (hrest : s.wire.rest = m.bytes ++ s'.wire.rest)
      (hclosed : s'.wire.closed = s.wire.closed) (hz : isReady m = false) (hf : fatalMsg m = false)
      (hfailed : s'.failed = (s.failed || isError m))
      (hrows : s'.rowsAffected = affected s.rowsAffected [m])
      (hframes : s'.frames = s.frames ++ m.bytes) : Passes s (.next s')

theorem step_passes (s : QueryLoop) : Passes s s.step := by
  have hread := s.wire.readMsg_spec
  unfold step
  generalize hnext : framing.next s.wire.rest = v at hread
  generalize s.wire.readMsg = r at hread
  cases hread with
  | blocked h => exact .blocked hnext h
  | closed h => exact .closed hnext h
  | @msg m w hok hrest hclosed =>
      dsimp only
      split
      · rename_i hz
        exact .ready hok hrest (by simp [isReady, hz])
      rename_i hz
      split
      · rename_i hcc
        have hne : m.typ ≠ btErrorResponse := by rw [hcc]; decide
        exact .keep hok hrest hclosed (by simp [isReady, hz]) (by simp [fatalMsg, hne])
          (by simp [keep, isError, hne]) (by simp [keep, affected, hcc]) rfl
      rename_i hcc
      split
      · rename_i he
        split
        · rename_i hf
          exact .fatal hok hrest (by simp [isReady, hz]) (by simp [fatalMsg, he, hf])
        · rename_i hf
          exact .keep hok hrest hclosed (by simp [isReady, hz]) (by simp [fatalMsg, hf])
            (by simp [keep, isError, he]) (by simp [keep, affected, hcc]) rfl
      · rename_i he
        exact .keep hok hrest hclosed (by simp [isReady, hz]) (by simp [fatalMsg, he])
          (by simp [keep, isError, he]) (by simp [keep, affected, hcc]) rfl

theorem step_descends : Descends step (fun s => s.wire.rest.length) fun _ => True := by
  rintro s s' - h
  refine ⟨trivial, ?_⟩
  have hp := s.step_passes
  rw [h] at hp
  cases hp with
  | @keep m s' hok hrest =>
      have hlen := congrArg List.length hrest
      rw [List.length_append, Msg.length_bytes, Msg.size] at hlen
      show s'.wire.rest.length < s.wire.rest.length
      omega

end QueryLoop

end Vanilla.PgAsync

import Vanilla.RequestParser.Definitions
import Vanilla.Support.Cutting

/-!
# Backend — the read side of a connection

`server/backend_epoll/async_linux.c.v`, as far as it decides which bytes are which request: the
loop of `drain_requests` that cuts requests off the read buffer, the reads that fill it, and the
arithmetic of `start_body_drain`.  The handler is not modelled; here it answers every request it
is given and lets the next one come (`.done`).
-/

namespace Vanilla.Backend
open Scan RequestParser

/-- Why a connection's reading ends: the framer's answer, and the status it is answered with. -/
structure Stop where
  total : Int
  status : Nat
  deriving DecidableEq

/-- The response to a refusal: `match -total` of `drain_requests`. -/
def refusalStatus (total : Int) : Nat :=
  if -total = 413 then 413 else if -total = 431 then 431 else 400

/-- What `drain_requests` does with the framer's `total`: -1 waits, less refuses, and a length is
cut off. -/
def drainVerdict (maxHeader maxBody : Int) (buf : List UInt8) : Verdict Stop Nat :=
  let total := frameRequestLengthLimIdx buf maxHeader maxBody
  if total = -1 then .more
  else if total < -1 then .refuse ⟨total, refusalStatus total⟩
  else .accept total.toNat

/-- `drain_requests`: how far it gets in the read buffer, the lengths of the requests it hands to
the handler, and why it closes the connection, if it does. -/
def drainRequests (maxHeader maxBody : Int) (readBuf : List UInt8) :
    Nat × List Nat × Option Stop :=
  cutAll (drainVerdict maxHeader maxBody) readBuf

/-- A connection's read side: `read_buf`, and what has become of the bytes before it. -/
structure Conn where
  readBuf : List UInt8 := []
  cuts : List Nat := []
  stop : Option Stop := none

/-- One read: append, `drain_requests`, `compact_read_buf`.  A closed connection reads nothing. -/
def Conn.onRead (maxHeader maxBody : Int) (c : Conn) (bytes : List UInt8) : Conn :=
  match c.stop with
  | some _ => c
  | none =>
    let r := drainRequests maxHeader maxBody (c.readBuf ++ bytes)
    ⟨(c.readBuf ++ bytes).drop r.1, c.cuts ++ r.2.1, r.2.2⟩

/-- One read after the other. -/
def Conn.onReads (maxHeader maxBody : Int) (reads : List (List UInt8)) : Conn :=
  reads.foldl (Conn.onRead maxHeader maxBody) {}

/-- What `start_body_drain` does, the handler having answered the head. -/
inductive DrainStart where
  /-- return 0 -/
  | headNotComplete
  /-- 413 and return 2 -/
  | bodyTooLarge
  /-- return 1: the head the handler answers, and `body_drain` -/
  | draining (head : List UInt8) (bodyDrain : Int)
  deriving DecidableEq

/-- `start_body_drain`. -/
def startBodyDrain (readBuf : List UInt8) (maxBodyBytes total : Int) : DrainStart :=
  match frameHeadLen readBuf with
  | none => .headNotComplete
  | some headLen =>
    if headLen = 0 ∨ readBuf.length < headLen then .headNotComplete
    else
      let contentLength := total - headLen
      if 0 < maxBodyBytes ∧ maxBodyBytes < contentLength then .bodyTooLarge
      else
        let bodyInBuf : Int := readBuf.length - headLen
        let bodyDrain := contentLength - bodyInBuf
        .draining (readBuf.take headLen) (if bodyDrain ≤ 0 then 0 else bodyDrain)

end Vanilla.Backend

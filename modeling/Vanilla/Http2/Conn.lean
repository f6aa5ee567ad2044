import Vanilla.Http2.Frame
import Vanilla.Http2.Streams

/-!
# HTTP/2 — the server's connection

`http2/conn.v`: what the server does with each frame of a connection (`frame`), with a buffer of
them (`consume`), and to write a response.

A function that appends to `out` and `reqs` returns what it appends, with the connection it leaves
(`Reply`).  The two loops that send DATA as far as the windows allow, in `write_response_body` and
in `flush_pending`, are one (`sendStep`).  `i64` windows are integers; what is left of a buffer
stands for the source's `consumed`.
-/

namespace Vanilla.Http2
open Scan

/-! ### State -/

/-- `max_concurrent_streams`. -/
def maxConcurrentStreams : Nat := 128

/-- `max_header_block`. -/
def maxHeaderBlock : Nat := 64 * 1024

/-- `max_body_bytes`: `core.default_max_request_bytes`. -/
def maxBodyBytes : Nat := 8 * 1024 * 1024

/-- `Http2Request`, with the state whose storage `headers` and `body` are.  The source has slices of
that storage; `headers` and `body` are what they hold when the request is surfaced.  Where the state
has passed to another stream by the time `consume` returns (`Owned` fails), the caller reads other
bytes there. -/
structure Http2Request where
  streamId : Nat
  state : Nat
  headers : List HeaderField
  body : List UInt8
  deriving DecidableEq

/-- `ServerConn`, without the buffers it keeps for reuse. -/
structure ServerConn where
  dec : HpackDecoder
  prefaceSeen : Bool := false
  lastStream : Nat := 0
  streams : Streams
  hdrExpecting : Bool := false
  hdrStream : Nat := 0
  hdrEndStream : Bool := false
  hdrRefused : Bool := false
  hdrTrailers : Bool := false
  hdrMalformed : Bool := false
  hdrBlock : List UInt8 := []
  peerMaxFrame : Nat := defaultMaxFrameSize
  initSendWindow : Int := defaultWindowSize
  connSendWindow : Int := defaultWindowSize
  connRecvWindow : Int := defaultWindowSize

/-- `new_server_conn`. -/
def newServerConn : ServerConn := { dec := newDecoder hpackDefaultTableSize, streams := .new }

/-- What a handler leaves and appends.  Any code but `noError` is fatal to the connection. -/
structure Reply where
  conn : ServerConn
  out : List Frame := []
  reqs : List Http2Request := []
  code : ErrorCode := .noError

/-- A reply with frames written before it. -/
def Reply.after (r : Reply) (out : List Frame) : Reply := { r with out := out ++ r.out }

/-! ### Header fields -/

/-- `parse_content_length`, `none` for its -1. -/
def parseContentLength (s : List UInt8) : Option Nat :=
  if s.length = 0 ∨ s.length > 18 then none
  else
    s.foldl (fun n ch =>
      n.bind fun n => if ch < 48 ∨ ch > 57 then none else some (n * 10 + (ch.toNat - 48))) (some 0)

/-- `valid_regular_field_name`. -/
def validRegularFieldName (name : List UInt8) : Bool :=
  name.all (fun ch => !((65 ≤ ch && ch ≤ 90) || ch == 32 || ch == 0)) &&
    !([ascii "connection", ascii "keep-alive", ascii "proxy-connection", ascii "transfer-encoding",
      ascii "upgrade"].contains name)

/-- `valid_trailer_fields`. -/
def validTrailerFields (fields : List HeaderField) : Bool :=
  fields.all fun f =>
    !(f.name.isEmpty || f.name.head? == some colon) && validRegularFieldName f.name

/-- The variables of the loop of `validate_request_fields`. -/
structure FieldScan where
  seenRegular : Bool := false
  method : List UInt8 := []
  nMethod : Nat := 0
  nScheme : Nat := 0
  nPath : Nat := 0
  nAuthority : Nat := 0
  declared : Option Nat := none

/-- One field; `none` is `return false, -1`. -/
def FieldScan.field (s : FieldScan) (f : HeaderField) : Option FieldScan :=
  if f.name.length = 0 then none
  else if f.name.head? = some colon then
    if s.seenRegular then none
    else if f.name = ascii ":method" then
      some { s with nMethod := s.nMethod + 1, method := f.value }
    else if f.name = ascii ":scheme" then some { s with nScheme := s.nScheme + 1 }
    else if f.name = ascii ":path" then
      if f.value.length = 0 then none else some { s with nPath := s.nPath + 1 }
    else if f.name = ascii ":authority" then some { s with nAuthority := s.nAuthority + 1 }
    else none
  else
    let s := { s with seenRegular := true }
    if !validRegularFieldName f.name then none
    else if f.name = ascii "te" ∧ f.value ≠ ascii "trailers" then none
    else if f.name = ascii "content-length" then
      match parseContentLength f.value with
      | none => none
      | some n =>
        if s.declared ≠ none ∧ s.declared ≠ some n then none
        else some { s with declared := some n }
    else some s

/-- The checks behind the loop. -/
def FieldScan.finish (s : FieldScan) : Option (Option Nat) :=
  if s.nMethod ≠ 1 ∨ s.nAuthority > 1 then none
  else if s.method = ascii "CONNECT" then
    if s.nScheme ≠ 0 ∨ s.nPath ≠ 0 ∨ s.nAuthority ≠ 1 then none else some s.declared
  else if s.nScheme ≠ 1 ∨ s.nPath ≠ 1 then none
  else some s.declared

/-- `validate_request_fields`: `none` for `false, -1`, and the declared content-length of a valid
list, `none` for its -1. -/
def validateRequestFields (fields : List HeaderField) : Option (Option Nat) :=
  (fields.foldlM FieldScan.field {}).bind FieldScan.finish

/-! ### Sending -/

/-- The variables of the loops that send DATA: what is not sent, and the two windows. -/
structure SendState where
  rest : List UInt8
  conn : Int
  send : Int
  out : List Frame

/-- What both windows allow. -/
def allowed (conn send : Int) : Int := if send < conn then send else conn

/-- The next chunk of `len` bytes, under the windows and the frame size. -/
def chunkLen (maxFrame len : Nat) (allow : Int) : Nat :=
  let chunk := if (len : Int) > allow then allow.toNat else len
  if chunk > maxFrame then maxFrame else chunk

/-- A chunk is sent. -/
def SendState.sent (s : SendState) (id : Nat) (endStream : Bool) (chunk : Nat) : SendState :=
  let last := chunk == s.rest.length && endStream
  ⟨s.rest.drop chunk, s.conn - chunk, s.send - chunk,
    s.out ++ [writeData id (s.rest.take chunk) last]⟩

/-- One pass of those loops. -/
def sendStep (id maxFrame : Nat) (endStream : Bool) (s : SendState) : Turn SendState SendState :=
  if s.rest = [] then .exit s
  else
    let allow := allowed s.conn s.send
    if allow ≤ 0 then .exit s
    else .next (s.sent id endStream (chunkLen maxFrame s.rest.length allow))

/-- The loop: DATA of `rest`, as far as the windows allow. -/
def sendLoop (id maxFrame : Nat) (endStream : Bool) (rest : List UInt8) (conn send : Int) :
    SendState :=
  loop (sendStep id maxFrame endStream) (·.rest.length) ⟨rest, conn, send, []⟩
    ⟨rest, conn, send, []⟩

/-- The CONTINUATION frames of a block, as many as its length at most. -/
def continuationFrames (id maxFrame : Nat) : Nat → List UInt8 → List Frame
  | 0, _ => []
  | n + 1, rest =>
    if rest = [] then []
    else if rest.length > maxFrame then
      ⟨.continuation, 0, id, rest.take maxFrame⟩ ::
        continuationFrames id maxFrame n (rest.drop maxFrame)
    else [⟨.continuation, flagEndHeaders, id, rest⟩]

/-- The frames `write_response_headers` appends. -/
def headerFrames (id maxFrame : Nat) (block : List UInt8) (endStream : Bool) : List Frame :=
  let es := if endStream then flagEndStream else 0
  if block.length ≤ maxFrame then [⟨.headers, flagEndHeaders ||| es, id, block⟩]
  else
    ⟨.headers, es, id, block.take maxFrame⟩ ::
      continuationFrames id maxFrame block.length (block.drop maxFrame)

namespace ServerConn

variable (c : ServerConn)

/-- A handler that returns an error. -/
def fail (code : ErrorCode) : Reply := { conn := c, code := code }

/-- An assignment to fields of an open stream's state. -/
def updateStream (id : Nat) (f : StreamState → StreamState) : ServerConn :=
  { c with streams := c.streams.update id f }

/-- `release_stream`. -/
def releaseStream (id : Nat) : ServerConn := { c with streams := c.streams.release id }

/-- `new_stream`. -/
def newStream (id : Nat) : ServerConn :=
  { c with
    streams := c.streams.openStream id
      { recvWindow := defaultWindowSize, sendWindow := c.initSendWindow } }

/-- `write_rst_stream` and `release_stream`. -/
def resetStream (id : Nat) (code : ErrorCode) : Reply :=
  { conn := c.releaseStream id, out := [writeRstStream id code] }

/-! ### Responses -/

/-- `abort_stream`. -/
def abortStream (id : Nat) (code : ErrorCode) : Reply := c.resetStream id code

/-- `write_response_headers`. -/
def writeResponseHeaders (id : Nat) (block : List UInt8) (endStream : Bool) : Reply :=
  { conn := if endStream then c.releaseStream id else c
    out := headerFrames id c.peerMaxFrame block endStream }

/-- `write_response_body`. -/
def writeResponseBody (id : Nat) (body : List UInt8) (endStream : Bool) : Reply :=
  match c.streams.get id with
  | none => { conn := c }
  | some s =>
    if body.length = 0 then
      if endStream then { conn := c.releaseStream id, out := [writeData id [] true] }
      else { conn := c }
    else
      let sent := sendLoop id c.peerMaxFrame endStream body c.connSendWindow s.sendWindow
      let c : ServerConn := { c with connSendWindow := sent.conn }
      let c := c.updateStream id fun s => { s with sendWindow := sent.send }
      if sent.rest ≠ [] then
        { conn := c.updateStream id fun s =>
            { s with pending := s.pending ++ sent.rest, pendingEnd := endStream }
          out := sent.out }
      else { conn := if endStream then c.releaseStream id else c, out := sent.out }

/-- `write_response_data`. -/
def writeResponseData (id : Nat) (body : List UInt8) : Reply := c.writeResponseBody id body true

/-- `write_response_trailers`. -/
def writeResponseTrailers (id : Nat) (block : List UInt8) : Reply :=
  match c.streams.get id with
  | none => { conn := c }
  | some s =>
    if s.pendingOff < s.pending.length then
      { conn := c.updateStream id fun s => { s with trailers := block, trailersPending := true } }
    else c.writeResponseHeaders id block true

/-- `flush_pending`. -/
def flushPending (id : Nat) : Reply :=
  match c.streams.get id with
  | none => { conn := c }
  | some s =>
    let sent := sendLoop id c.peerMaxFrame s.pendingEnd s.parked c.connSendWindow s.sendWindow
    let c : ServerConn := { c with connSendWindow := sent.conn }
    let c := c.updateStream id fun s =>
      { s with sendWindow := sent.send, pendingOff := s.pending.length - sent.rest.length }
    if sent.rest ≠ [] then { conn := c, out := sent.out }
    else if s.pendingEnd then { conn := c.releaseStream id, out := sent.out }
    else if s.trailersPending then
      let c := c.updateStream id fun s => { s with trailersPending := false }
      (c.writeResponseHeaders id s.trailers true).after sent.out
    else { conn := c, out := sent.out }

/-- The walk over the open streams that flushes each of them. -/
def flushAll : ServerConn → List Nat → Reply
  | c, [] => { conn := c }
  | c, id :: ids =>
    let r := c.flushPending id
    (r.conn.flushAll ids).after r.out

/-! ### Frames -/

/-- `complete_stream`. -/
def completeStream (id : Nat) : Reply :=
  match c.streams.get id with
  | none => { conn := c }
  | some s =>
    let c := c.updateStream id fun s => { s with remoteDone := true }
    if s.rejected then { conn := c.releaseStream id }
    else if s.declaredLen ≠ none ∧ s.declaredLen ≠ some s.body.length then
      c.resetStream id .protocolError
    else { conn := c, reqs := [⟨id, c.streams.ref id, s.headers, s.body⟩] }

/-- The stream a header block opens, with what the caller of `new_stream` fills in. -/
def openRequest (id : Nat) (fields : List HeaderField) (malformed : Bool) (declared : Option Nat) :
    ServerConn :=
  (c.newStream id).updateStream id fun s =>
    { s with headers := s.headers ++ fields, rejected := malformed, declaredLen := declared }

/-- `finish_header_block` behind the decoding of the block. -/
def finishFields (fields : List HeaderField) : Reply :=
  let id := c.hdrStream
  if c.hdrTrailers then
    if !validTrailerFields fields then c.resetStream id .protocolError
    else c.completeStream id
  else if c.hdrRefused then { conn := c, out := [writeRstStream id .refusedStream] }
  else
    let checked := validateRequestFields fields
    let malformed := c.hdrMalformed || checked.isNone
    let c := c.openRequest id fields malformed (checked.getD none)
    let out := if malformed then [writeRstStream id .protocolError] else []
    if c.hdrEndStream then (c.completeStream id).after out else { conn := c, out := out }

/-- `finish_header_block`. -/
def finishHeaderBlock : Reply :=
  match (decodeInto c.hdrBlock).run c.dec with
  | .error _ dec => fail { c with hdrExpecting := false, dec := dec } .compressionError
  | .ok fields dec => finishFields { c with hdrExpecting := false, dec := dec } fields

/-- The end of `on_headers`: the block begins, and ends if END_HEADERS is set. -/
def beginBlock (f : Frame) (fragment : List UInt8) : Reply :=
  let c : ServerConn :=
    { c with hdrStream := f.streamId, hdrEndStream := f.endStream, hdrBlock := fragment }
  if f.endHeaders then c.finishHeaderBlock else { conn := { c with hdrExpecting := true } }

/-- `on_headers` behind the padding and the priority. -/
def onHeaderFragment (f : Frame) (fragment : List UInt8) : Reply :=
  match c.streams.get f.streamId with
  | some s =>
    if s.remoteDone then c.fail .streamClosed
    else if !f.endStream then c.fail .protocolError
    else beginBlock { c with hdrTrailers := true } f fragment
  | none =>
    if f.streamId ≤ c.lastStream then c.fail .protocolError
    else
      let refused := if c.streams.len ≥ maxConcurrentStreams then true else c.hdrRefused
      beginBlock { c with lastStream := f.streamId, hdrRefused := refused } f fragment

/-- `on_headers`. -/
def onHeaders (f : Frame) : Reply :=
  if f.streamId = 0 ∨ f.streamId % 2 = 0 then c.fail .protocolError
  else
    match f.unpadded with
    | none => c.fail .protocolError
    | some fragment =>
      let c : ServerConn :=
        { c with hdrTrailers := false, hdrRefused := false, hdrMalformed := false }
      if f.has flagPriority then
        if fragment.length < 5 then c.fail .protocolError
        else
          let c := if dependency fragment = f.streamId then { c with hdrMalformed := true } else c
          c.onHeaderFragment f (fragment.drop 5)
      else c.onHeaderFragment f fragment

/-- The WINDOW_UPDATEs of `on_data`, which open both windows again. -/
def replenish (f : Frame) : Reply :=
  let flow := f.payload.length
  if flow > 0 then
    let c : ServerConn := { c with connRecvWindow := c.connRecvWindow + flow }
    if f.endStream then { conn := c, out := [writeWindowUpdate 0 flow] }
    else
      { conn := c.updateStream f.streamId fun s => { s with recvWindow := s.recvWindow + flow }
        out := [writeWindowUpdate 0 flow, writeWindowUpdate f.streamId flow] }
  else { conn := c }

/-- `on_data`. -/
def onData (f : Frame) : Reply :=
  if f.streamId = 0 then c.fail .protocolError
  else
    match c.streams.get f.streamId with
    | none => c.fail (if f.streamId > c.lastStream then .protocolError else .streamClosed)
    | some s =>
      if s.remoteDone then c.fail .streamClosed
      else
        let flow := f.payload.length
        let c : ServerConn := { c with connRecvWindow := c.connRecvWindow - flow }
        let c := c.updateStream f.streamId fun s => { s with recvWindow := s.recvWindow - flow }
        if c.connRecvWindow < 0 ∨ s.recvWindow - flow < 0 then c.fail .flowControlError
        else
          match f.unpadded with
          | none => c.fail .protocolError
          | some data =>
            if s.rejected = false ∧ s.body.length + data.length > maxBodyBytes then
              c.fail .enhanceYourCalm
            else
              let c :=
                if s.rejected then c
                else c.updateStream f.streamId fun s => { s with body := s.body ++ data }
              let r := c.replenish f
              if f.endStream then (r.conn.completeStream f.streamId).after r.out else r

/-- One setting of `on_settings`. -/
def onSetting (st : Setting) : ServerConn × ErrorCode :=
  if st.id = settingInitialWindowSize then
    if st.val > maxWindow then (c, .flowControlError)
    else
      let delta := (st.val : Int) - c.initSendWindow
      ({ c with initSendWindow := st.val, streams := c.streams.addToSendWindows delta }, .noError)
  else if st.id = settingMaxFrameSize then
    if st.val < defaultMaxFrameSize ∨ st.val > 16777215 then (c, .protocolError)
    else ({ c with peerMaxFrame := st.val }, .noError)
  else if st.id = settingEnablePush then
    if st.val > 1 then (c, .protocolError) else (c, .noError)
  else (c, .noError)

/-- The loop of `on_settings`, which returns at the first error. -/
def onSettingList : ServerConn → List Setting → ServerConn × ErrorCode
  | c, [] => (c, .noError)
  | c, st :: sts =>
    let r := c.onSetting st
    if r.2 ≠ .noError then r else onSettingList r.1 sts

/-- `on_settings`. -/
def onSettings (f : Frame) : Reply :=
  if f.streamId ≠ 0 then c.fail .protocolError
  else if f.has flagAck then
    if f.payload.length ≠ 0 then c.fail .frameSizeError else { conn := c }
  else
    match parseSettings f.payload with
    | none => c.fail .frameSizeError
    | some settings =>
      let (c, code) := c.onSettingList settings
      if code ≠ .noError then c.fail code
      else if settings.any (·.id = settingInitialWindowSize) then
        (c.flushAll c.streams.ids).after [writeSettingsAck]
      else { conn := c, out := [writeSettingsAck] }

/-- `on_window_update`. -/
def onWindowUpdate (f : Frame) : Reply :=
  if f.payload.length ≠ 4 then c.fail .frameSizeError
  else if f.streamId = 0 then
    if f.increment = 0 then c.fail .protocolError
    else
      let c : ServerConn := { c with connSendWindow := c.connSendWindow + f.increment }
      if c.connSendWindow > maxWindow then c.fail .flowControlError
      else c.flushAll c.streams.ids
  else if f.streamId > c.lastStream then c.fail .protocolError
  else if f.increment = 0 then c.resetStream f.streamId .protocolError
  else
    match c.streams.get f.streamId with
    | none => { conn := c }
    | some s =>
      let c := c.updateStream f.streamId fun s =>
        { s with sendWindow := s.sendWindow + f.increment }
      if s.sendWindow + f.increment > maxWindow then c.resetStream f.streamId .flowControlError
      else c.flushPending f.streamId

/-- The CONTINUATION branch of `frame`. -/
def onContinuation (f : Frame) : Reply :=
  if !c.hdrExpecting ∨ f.streamId ≠ c.hdrStream then c.fail .protocolError
  else if c.hdrBlock.length + f.payload.length > maxHeaderBlock then c.fail .enhanceYourCalm
  else
    let c : ServerConn := { c with hdrBlock := c.hdrBlock ++ f.payload }
    if f.endHeaders then c.finishHeaderBlock else { conn := c }

/-- The PRIORITY branch of `frame`. -/
def onPriority (f : Frame) : Reply :=
  if f.streamId = 0 then c.fail .protocolError
  else if f.payload.length ≠ 5 then c.fail .frameSizeError
  else if dependency f.payload = f.streamId then c.resetStream f.streamId .protocolError
  else { conn := c }

/-- The RST_STREAM branch of `frame`. -/
def onRstStream (f : Frame) : Reply :=
  if f.streamId = 0 ∨ f.streamId > c.lastStream then c.fail .protocolError
  else if f.payload.length ≠ 4 then c.fail .frameSizeError
  else { conn := c.releaseStream f.streamId }

/-- The PING branch of `frame`. -/
def onPing (f : Frame) : Reply :=
  if f.streamId ≠ 0 then c.fail .protocolError
  else if f.payload.length ≠ 8 then c.fail .frameSizeError
  else { conn := c, out := if f.has flagAck then [] else [writePingAck f.payload] }

/-- The GOAWAY branch of `frame`. -/
def onGoaway (f : Frame) : Reply :=
  if f.streamId ≠ 0 then c.fail .protocolError
  else if f.payload.length < 8 then c.fail .frameSizeError
  else { conn := c }

/-- The `match` of `frame`. -/
def dispatch (f : Frame) : Reply :=
  match f.type with
  | .data => c.onData f
  | .headers => c.onHeaders f
  | .priority => c.onPriority f
  | .rstStream => c.onRstStream f
  | .settings => c.onSettings f
  | .pushPromise => c.fail .protocolError
  | .ping => c.onPing f
  | .goaway => c.onGoaway f
  | .windowUpdate => c.onWindowUpdate f
  | .continuation => c.onContinuation f
  | .unknown _ => { conn := c }

/-- `frame`. -/
def frame (f : Frame) : Reply :=
  if c.hdrExpecting ∧ f.type ≠ .continuation then c.fail .protocolError else c.dispatch f

end ServerConn

/-! ### Buffers -/

/-- A frame `consume` has handed to `frame`: the connection before it, and the reply. -/
structure Handled where
  before : ServerConn
  frame : Frame
  reply : Reply

/-- What a call of `consume` leaves: the connection, the bytes it has not consumed, whether to
close, the frames it has handled and the GOAWAY it has written. -/
structure Consumed where
  conn : ServerConn
  rest : List UInt8
  close : Bool := false
  handled : List Handled
  goaway : Option Frame := none

namespace Consumed

/-- What the call has appended to `out`. -/
def out (r : Consumed) : List Frame := r.handled.flatMap (·.reply.out) ++ r.goaway.toList

/-- What the call has appended to `reqs`. -/
def reqs (r : Consumed) : List Http2Request := r.handled.flatMap (·.reply.reqs)

end Consumed

/-- What a buffer begins with: no complete frame yet, a frame above the size limit, or a frame and
the bytes behind it. -/
inductive Head where
  | wait
  | tooLarge
  | frame (f : Frame) (rest : List UInt8)

/-- The reading of a frame in `consume`. -/
def headFrame (buf : List UInt8) : Head :=
  match parseFrameHeader buf with
  | none => .wait
  | some fh =>
    if fh.length > defaultMaxFrameSize then .tooLarge
    else if buf.length < frameHeaderLen + fh.length then .wait
    else
      .frame ⟨fh.type, fh.flags, fh.streamId, (buf.drop frameHeaderLen).take fh.length⟩
        (buf.drop (frameHeaderLen + fh.length))

/-- The variables of the loop of `consume`. -/
structure ConsumeState where
  conn : ServerConn
  rest : List UInt8
  handled : List Handled

namespace ConsumeState

/-- No complete frame is left: the call returns, and the rest waits for more. -/
def wait (s : ConsumeState) : Consumed := { conn := s.conn, rest := s.rest, handled := s.handled }

/-- The call writes a GOAWAY and reports close. -/
def goaway (s : ConsumeState) (code : ErrorCode) : Consumed :=
  { s.wait with close := true, goaway := some (writeGoaway s.conn.lastStream code) }

/-- A frame is handed to `frame`. -/
def handle (s : ConsumeState) (f : Frame) (rest : List UInt8) : ConsumeState :=
  let r := s.conn.frame f
  ⟨r.conn, rest, s.handled ++ [⟨s.conn, f, r⟩]⟩

/-- One pass of the loop of `consume`. -/
def step (s : ConsumeState) : Turn ConsumeState Consumed :=
  match headFrame s.rest with
  | .wait => .exit s.wait
  | .tooLarge => .exit (s.goaway .frameSizeError)
  | .frame f rest =>
    if f.type.toByte > FrameType.continuation.toByte then
      if s.conn.hdrExpecting then .exit (s.goaway .protocolError)
      else .next { s with rest := rest }
    else
      let code := (s.conn.frame f).code
      if code ≠ .noError then .exit ((s.handle f rest).goaway code)
      else .next (s.handle f rest)

end ConsumeState

/-- The loop of `consume`. -/
def ConsumeState.run (s : ConsumeState) : Consumed := loop step (·.rest.length) s.wait s

/-- `consume`. -/
def ServerConn.consume (c : ServerConn) (buf : List UInt8) : Consumed :=
  if c.prefaceSeen then ConsumeState.run ⟨c, buf, []⟩
  else if buf.length < prefaceTail.length then { conn := c, rest := buf, handled := [] }
  else if buf.take prefaceTail.length ≠ prefaceTail then
    { conn := c, rest := buf, close := true, handled := [],
      goaway := some (writeGoaway 0 .protocolError) }
  else ConsumeState.run ⟨{ c with prefaceSeen := true }, buf.drop prefaceTail.length, []⟩

end Vanilla.Http2

import Vanilla.Http1.Basic

/-!
# HTTP/2 — frames

`http2/types.v` and `http2/frame.v`: the fixed header of a frame, the payloads the server reads and
the frames it writes.

A `u32` read from the wire is a `Nat`.  The writers append a header and a payload to `out`; here
each of them is the `Frame` it appends, and `Frame.bytes` are the octets.
-/

namespace Vanilla.Http2

/-! ### Types and codes -/

/-- `FrameType`; the source's enum also takes the values it has no name for. -/
inductive FrameType where
  | data
  | headers
  | priority
  | rstStream
  | settings
  | pushPromise
  | ping
  | goaway
  | windowUpdate
  | continuation
  | unknown (b : UInt8)
  deriving DecidableEq, Repr

def FrameType.ofByte (b : UInt8) : FrameType :=
  match b.toNat with
  | 0 => .data
  | 1 => .headers
  | 2 => .priority
  | 3 => .rstStream
  | 4 => .settings
  | 5 => .pushPromise
  | 6 => .ping
  | 7 => .goaway
  | 8 => .windowUpdate
  | 9 => .continuation
  | _ => .unknown b

def FrameType.toByte : FrameType → UInt8
  | data => 0
  | headers => 1
  | priority => 2
  | rstStream => 3
  | settings => 4
  | pushPromise => 5
  | ping => 6
  | goaway => 7
  | windowUpdate => 8
  | continuation => 9
  | unknown b => b

/-- `ErrorCode`. -/
inductive ErrorCode where
  | noError
  | protocolError
  | internalError
  | flowControlError
  | settingsTimeout
  | streamClosed
  | frameSizeError
  | refusedStream
  | cancel
  | compressionError
  | connectError
  | enhanceYourCalm
  | inadequateSecurity
  | http11Required
  deriving DecidableEq, Repr

def ErrorCode.toNat : ErrorCode → Nat
  | noError => 0
  | protocolError => 1
  | internalError => 2
  | flowControlError => 3
  | settingsTimeout => 4
  | streamClosed => 5
  | frameSizeError => 6
  | refusedStream => 7
  | cancel => 8
  | compressionError => 9
  | connectError => 10
  | enhanceYourCalm => 11
  | inadequateSecurity => 12
  | http11Required => 13

/-! ### Constants -/

/-- `preface_tail`. -/
def prefaceTail : List UInt8 := ascii "SM\r\n\r\n"

/-- `frame_header_len`. -/
def frameHeaderLen : Nat := 9

/-- `flag_end_stream`. -/
def flagEndStream : UInt8 := 0x01
/-- `flag_ack`. -/
def flagAck : UInt8 := 0x01
/-- `flag_end_headers`. -/
def flagEndHeaders : UInt8 := 0x04
/-- `flag_padded`. -/
def flagPadded : UInt8 := 0x08
/-- `flag_priority`. -/
def flagPriority : UInt8 := 0x20

/-- `default_max_frame_size`. -/
def defaultMaxFrameSize : Nat := 16384
/-- `default_window_size`. -/
def defaultWindowSize : Int := 65535
/-- `max_window`. -/
def maxWindow : Nat := 0x7fffffff

/-- `setting_enable_push`. -/
def settingEnablePush : Nat := 0x2
/-- `setting_initial_window_size`. -/
def settingInitialWindowSize : Nat := 0x4
/-- `setting_max_frame_size`. -/
def settingMaxFrameSize : Nat := 0x5

/-! ### Reading -/

/-- `FrameHeader`. -/
structure FrameHeader where
  length : Nat
  type : FrameType
  flags : UInt8
  streamId : Nat
  deriving DecidableEq, Repr

/-- Octets as a number, the first one highest. -/
def bigEndian (b : List UInt8) : Nat := b.foldl (fun v c => v * 256 + c.toNat) 0

/-- `parse_frame_header`. -/
def parseFrameHeader (data : List UInt8) : Option FrameHeader :=
  if data.length < frameHeaderLen then none
  else
    some
      { length := bigEndian (data.take 3)
        type := .ofByte (data.getD 3 0)
        flags := data.getD 4 0
        streamId := bigEndian ((data.drop 5).take 4) % 2 ^ 31 }

/-- `read_u32`. -/
def readU32 (buf : List UInt8) (pos : Nat) : Nat := bigEndian ((buf.drop pos).take 4)

/-- The stream a priority, at the head of some octets, depends on: `read_u32(…) & 0x7fffffff`. -/
def dependency (b : List UInt8) : Nat := readU32 b 0 % 2 ^ 31

/-- A frame: of what `consume` has cut out of its buffer, and of what the server writes. -/
structure Frame where
  type : FrameType
  flags : UInt8
  streamId : Nat
  payload : List UInt8
  deriving DecidableEq, Repr

namespace Frame

/-- `fh.flags & flag != 0`. -/
def has (f : Frame) (flag : UInt8) : Bool := f.flags &&& flag != 0

/-- END_STREAM is set. -/
abbrev endStream (f : Frame) : Bool := f.has flagEndStream

/-- END_HEADERS is set. -/
abbrev endHeaders (f : Frame) : Bool := f.has flagEndHeaders

/-- The increment of a WINDOW_UPDATE: `read_u32(payload, 0) & 0x7fffffff`. -/
def increment (f : Frame) : Nat := readU32 f.payload 0 % 2 ^ 31

/-- A payload without its padding, as `on_headers` and `on_data` cut it: `none` when the padding
does not fit. -/
def unpadded (f : Frame) : Option (List UInt8) :=
  if f.has flagPadded then
    match f.payload with
    | [] => none
    | pad :: rest =>
      if 1 + pad.toNat > f.payload.length then none
      else some (rest.take (rest.length - pad.toNat))
  else some f.payload

end Frame

/-- `Setting`. -/
structure Setting where
  id : Nat
  val : Nat
  deriving DecidableEq, Repr

/-- The settings of a payload whose length is a multiple of 6. -/
def settingsOf : List UInt8 → List Setting
  | a :: b :: c :: d :: e :: f :: rest =>
    ⟨bigEndian [a, b], bigEndian [c, d, e, f]⟩ :: settingsOf rest
  | _ => []

/-- `parse_settings`. -/
def parseSettings (payload : List UInt8) : Option (List Setting) :=
  if payload.length % 6 ≠ 0 then none else some (settingsOf payload)

/-! ### Writing -/

/-- `write_u32`. -/
def writeU32 (v : Nat) : List UInt8 :=
  [(v / 2 ^ 24).toUInt8, (v / 2 ^ 16).toUInt8, (v / 2 ^ 8).toUInt8, v.toUInt8]

theorem toNat_toUInt8 (n : Nat) : n.toUInt8.toNat = n % 256 := by
  rw [Nat.toUInt8_eq, UInt8.toNat_ofNat']

/-- `write_frame_header` and the payload behind it. -/
def Frame.bytes (f : Frame) : List UInt8 :=
  [(f.payload.length / 2 ^ 16).toUInt8, (f.payload.length / 2 ^ 8).toUInt8,
    f.payload.length.toUInt8, f.type.toByte, f.flags] ++ writeU32 (f.streamId % 2 ^ 31) ++ f.payload

/-- `write_settings`. -/
def writeSettings (settings : List Setting) : Frame :=
  ⟨.settings, 0, 0,
    settings.flatMap fun s => (s.id / 2 ^ 8).toUInt8 :: s.id.toUInt8 :: writeU32 s.val⟩

/-- **Settings read back as they were written**, an id in 16 bits and a value in 32. -/
theorem settings_read_back (settings : List Setting) :
    parseSettings (writeSettings settings).payload =
      some (settings.map fun s => ⟨s.id % 2 ^ 16, s.val % 2 ^ 32⟩) := by
  have hlen : (writeSettings settings).payload.length % 6 = 0 := by
    simp [writeSettings, writeU32, List.map_const']
  rw [parseSettings, if_neg (not_not.mpr hlen)]
  clear hlen
  congr 1
  induction settings with
  | nil => rfl
  | cons s settings ih =>
      rw [List.map_cons, ← ih]
      change Setting.mk (bigEndian [_, _]) (bigEndian [_, _, _, _]) :: _ = _
      simp only [bigEndian, List.foldl_cons, List.foldl_nil, toNat_toUInt8]
      congr 2 <;> omega

/-- `write_settings_ack`. -/
def writeSettingsAck : Frame := ⟨.settings, flagAck, 0, []⟩

/-- `write_ping_ack`. -/
def writePingAck (payload : List UInt8) : Frame := ⟨.ping, flagAck, 0, payload⟩

/-- `write_goaway`. -/
def writeGoaway (lastStreamId : Nat) (code : ErrorCode) : Frame :=
  ⟨.goaway, 0, 0, writeU32 (lastStreamId % 2 ^ 31) ++ writeU32 code.toNat⟩

/-- `write_rst_stream`. -/
def writeRstStream (streamId : Nat) (code : ErrorCode) : Frame :=
  ⟨.rstStream, 0, streamId, writeU32 code.toNat⟩

/-- `write_window_update`. -/
def writeWindowUpdate (streamId increment : Nat) : Frame :=
  ⟨.windowUpdate, 0, streamId, writeU32 (increment % 2 ^ 31)⟩

/-- `write_data_header` and the payload behind it. -/
def writeData (streamId : Nat) (payload : List UInt8) (endStream : Bool) : Frame :=
  ⟨.data, if endStream then flagEndStream else 0, streamId, payload⟩

end Vanilla.Http2

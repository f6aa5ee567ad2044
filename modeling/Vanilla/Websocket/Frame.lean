import Vanilla.Http1.Basic
import Vanilla.Support.Words

/-!
# WebSocket — frames

`websocket/websocket.v`: the reader of a frame's head, the writers, and the masking.

* `Frame`: a frame that the protocol allows, and its octets.
* `frameHead_bytes`, `frameHead_complete`: `frame_head` accepts the frames, and nothing else.
* `frameHead_append`: an answer other than `incomplete` stands when more bytes arrive.

A `u64` length is a `Nat`: eight bytes do not leave the range.
-/

namespace Vanilla.Websocket
open Scan Words

/-! ### The source -/

/-- `incomplete`. -/
def incomplete : Int := -1
/-- `err_malformed`. -/
def errMalformed : Int := -2
/-- `max_frame_payload`. -/
def maxFramePayload : Nat := 16 * 1024 * 1024

def opClose : UInt8 := 0x8
def opPing : UInt8 := 0x9
def opPong : UInt8 := 0xa

/-- `FrameHead`. -/
structure FrameHead where
  total : Int
  payloadOff : Nat := 0
  payloadLen : Nat := 0
  opcode : UInt8 := 0
  fin : Bool := false
  masked : Bool := false
  maskOff : Nat := 0
  deriving DecidableEq

/-- The length that `len7` announces, in `buf`, and the offset behind it. -/
def payloadLength (len7 : Nat) (buf : List UInt8) : Verdict Unit (Nat × Nat) :=
  if len7 = 126 then
    match readNumber 2 (buf.drop 2) with
    | none => .more
    | some (n, _) => if n < 126 then .refuse () else .accept (n, 4)
  else if len7 = 127 then
    match readNumber 8 (buf.drop 2) with
    | none => .more
    | some (n, _) =>
      if n < 65536 ∨ maxFramePayload < n then .refuse () else .accept (n, 10)
  else .accept (len7, 2)

/-- `frame_head` behind the checks of the first two bytes. -/
def lengthAndKey (opcode : UInt8) (fin masked : Bool) (len7 : Nat) (buf : List UInt8) : FrameHead :=
  match payloadLength len7 buf with
  | .more => { total := incomplete }
  | .refuse _ => { total := errMalformed }
  | .accept (payloadLen, maskOff) =>
    if maxFramePayload < payloadLen then { total := errMalformed }
    else
      let off := if masked then maskOff + 4 else maskOff
      if buf.length < off ∨ buf.length < off + payloadLen then { total := incomplete }
      else
        { total := (off + payloadLen : Nat), payloadOff := off, payloadLen, opcode, fin, masked,
          maskOff }

/-- `frame_head`. -/
def frameHead (buf : List UInt8) : FrameHead :=
  match buf with
  | b0 :: b1 :: _ =>
    if b0 &&& 0x70 != 0 then { total := errMalformed }
    else
      let opcode := b0 &&& 0x0f
      if (2 < opcode && opcode < 8) || 0xa < opcode then { total := errMalformed }
      else
        let fin := b0 &&& 0x80 != 0
        let isControl := opcode &&& 0x8 != 0
        let masked := b1 &&& 0x80 != 0
        let len7 := (b1 &&& 0x7f).toNat
        if isControl && (!fin || 125 < len7) then { total := errMalformed }
        else lengthAndKey opcode fin masked len7 buf
  | _ => { total := incomplete }

/-- A pass of `unmask_in_place`. -/
def unmaskAt (h : FrameHead) (buf : List UInt8) (i : Nat) : List UInt8 :=
  buf.set (h.payloadOff + i)
    (buf.getD (h.payloadOff + i) 0 ^^^ buf.getD (h.maskOff + (i &&& 3)) 0)

/-- `unmask_in_place`. -/
def unmaskInPlace (buf : List UInt8) (h : FrameHead) : List UInt8 :=
  if h.masked then (List.range h.payloadLen).foldl (unmaskAt h) buf else buf

/-- `write_frame_header`. -/
def writeFrameHeader (out : List UInt8) (opcode : UInt8) (payloadLen : Nat) : List UInt8 :=
  let out := out ++ [0x80 ||| opcode]
  if payloadLen ≤ 125 then out ++ [payloadLen.toUInt8]
  else if payloadLen ≤ 0xffff then
    out ++ [126] ++ [(payloadLen / 256).toUInt8] ++ [payloadLen.toUInt8]
  else out ++ [127] ++ bytesOf 8 payloadLen

/-- `write_close`. -/
def writeClose (out : List UInt8) (code : UInt16) : List UInt8 :=
  writeFrameHeader out opClose 2 ++ [(code >>> 8).toUInt8] ++ [code.toUInt8]

/-- `write_pong`. -/
def writePong (out payload : List UInt8) : List UInt8 :=
  writeFrameHeader out opPong payload.length ++ payload

/-- `write_ping`: a longer payload is cut. -/
def writePing (out payload : List UInt8) : List UInt8 :=
  let n := if 125 < payload.length then 125 else payload.length
  writeFrameHeader out opPing n ++ payload.take n

/-! ### Frames -/

inductive Opcode where
  | cont
  | text
  | binary
  | close
  | ping
  | pong
  deriving DecidableEq

namespace Opcode

def toByte : Opcode → UInt8
  | cont => 0x0
  | text => 0x1
  | binary => 0x2
  | close => 0x8
  | ping => 0x9
  | pong => 0xa

def ofByte (b : UInt8) : Option Opcode :=
  match b.toNat with
  | 0 => some cont
  | 1 => some text
  | 2 => some binary
  | 8 => some close
  | 9 => some ping
  | 10 => some pong
  | _ => none

def isControl : Opcode → Bool
  | close => true
  | ping => true
  | pong => true
  | _ => false

end Opcode

/-- A masking key. -/
abbrev Key := { k : List UInt8 // k.length = 4 }

/-- A frame, with its payload as it is sent. -/
structure Frame where
  fin : Bool
  opcode : Opcode
  key : Option Key
  payload : List UInt8
  bounded : payload.length ≤ maxFramePayload
  control : opcode.isControl = true → fin = true ∧ payload.length ≤ 125

/-- The first byte. -/
def firstByte (fin : Bool) (opcode : Opcode) : UInt8 :=
  (if fin then 0x80 else 0) ||| opcode.toByte

/-- The second byte: the mask bit, and seven bits of length. -/
def lengthByte (masked : Bool) (n : Nat) : UInt8 := (if masked then 0x80 else 0) ||| n.toUInt8

/-- Those seven bits of a length, and the bytes behind them: as few as it takes. -/
def len7 (n : Nat) : Nat := if n ≤ 125 then n else if n ≤ 0xffff then 126 else 127

def extended (n : Nat) : List UInt8 :=
  if n ≤ 125 then [] else if n ≤ 0xffff then bytesOf 2 n else bytesOf 8 n

namespace Frame

def keyBytes (f : Frame) : List UInt8 := (f.key.map Subtype.val).getD []

def header (f : Frame) : List UInt8 :=
  firstByte f.fin f.opcode :: lengthByte f.key.isSome (len7 f.payload.length) ::
    (extended f.payload.length ++ f.keyBytes)

def bytes (f : Frame) : List UInt8 := f.header ++ f.payload

/-- What `frame_head` has to say of it. -/
def head (f : Frame) : FrameHead where
  total := f.bytes.length
  payloadOff := f.header.length
  payloadLen := f.payload.length
  opcode := f.opcode.toByte
  fin := f.fin
  masked := f.key.isSome
  maskOff := 2 + (extended f.payload.length).length

end Frame

/-! ### The first two bytes -/

/-- The first byte has no reserved bit, and a defined opcode. -/
def opens (b0 : UInt8) : Bool := b0 &&& 0x70 == 0 && (Opcode.ofByte (b0 &&& 0x0f)).isSome

/-- So have both, and a control frame is whole and short. -/
def admits (b0 b1 : UInt8) : Bool :=
  opens b0 && !((b0 &&& 0x0f) &&& 0x8 != 0 &&
    (!(b0 &&& 0x80 != 0) || 125 < (b1 &&& 0x7f).toNat))

theorem opens_eq : ∀ b0, opens b0 =
    !(b0 &&& 0x70 != 0 || ((2 < b0 &&& 0x0f && b0 &&& 0x0f < 8) || 0xa < b0 &&& 0x0f)) :=
  forall_byte (by decide +kernel)

theorem frameHead_cons (b0 b1 : UInt8) (rest : List UInt8) :
    frameHead (b0 :: b1 :: rest) =
      if admits b0 b1 then
        lengthAndKey (b0 &&& 0x0f) (b0 &&& 0x80 != 0) (b1 &&& 0x80 != 0) (b1 &&& 0x7f).toNat
          (b0 :: b1 :: rest)
      else { total := errMalformed } := by
  unfold frameHead admits
  rw [opens_eq]
  dsimp only
  split
  · next h =>
      rw [h]
      rfl
  · next h =>
      split
      · next h' =>
          rw [h', Bool.or_true]
          rfl
      · next h' =>
          rw [Bool.not_eq_true] at h h'
          rw [h, h']
          split
          · next h'' =>
              rw [h'']
              rfl
          · next h'' =>
              rw [Bool.not_eq_true] at h''
              rw [h'']
              rfl

theorem firstByte_spec (fin : Bool) (op : Opcode) :
    opens (firstByte fin op) = true ∧ firstByte fin op &&& 0x0f = op.toByte ∧
      (firstByte fin op &&& 0x80 != 0) = fin ∧
      ((firstByte fin op &&& 0x0f) &&& 0x8 != 0) = op.isControl := by
  cases fin <;> cases op <;> decide

theorem opens_inv : ∀ b0, opens b0 = true →
    ∃ op, Opcode.ofByte (b0 &&& 0x0f) = some op ∧ b0 = firstByte (b0 &&& 0x80 != 0) op :=
  forall_byte (by decide +kernel)

theorem lengthByte_spec (masked : Bool) {n : Nat} (h : n < 128) :
    (lengthByte masked n &&& 0x80 != 0) = masked ∧ (lengthByte masked n &&& 0x7f).toNat = n := by
  have hall : ∀ (m : Bool) (n : Fin 128), (lengthByte m n &&& 0x80 != 0) = m ∧
      (lengthByte m n &&& 0x7f).toNat = n := by
    decide +kernel
  exact hall masked ⟨n, h⟩

theorem lengthByte_inv : ∀ b1 : UInt8,
    b1 = lengthByte (b1 &&& 0x80 != 0) (b1 &&& 0x7f).toNat ∧ (b1 &&& 0x7f).toNat < 128 :=
  forall_byte (by decide +kernel)

/-! ### The length -/

theorem len7_lt (n : Nat) : len7 n < 128 := by
  unfold len7
  split
  · omega
  · split <;> decide

theorem len7_le {n : Nat} (h : len7 n ≤ 125) : n ≤ 125 := by
  unfold len7 at h
  split at h
  · exact h
  · split at h <;> omega

theorem extended_eight {n : Nat} (h : len7 n = 127) : 65536 ≤ n ∧ extended n = bytesOf 8 n := by
  unfold len7 at h
  split at h
  · omega
  · next h₁ =>
      split at h
      · omega
      · next h₂ => exact ⟨by omega, by rw [extended, if_neg h₁, if_neg h₂]⟩

theorem payloadLength_extended {n : Nat} (h : n ≤ maxFramePayload) (b0 b1 : UInt8)
    (r : List UInt8) : payloadLength (len7 n) (b0 :: b1 :: (extended n ++ r)) =
      .accept (n, 2 + (extended n).length) := by
  have hmax : maxFramePayload = 16777216 := rfl
  unfold len7 extended payloadLength
  rw [List.drop_succ_cons, List.drop_succ_cons, List.drop_zero]
  rcases Nat.lt_or_ge 125 n with h₁ | h₁
  · rw [if_neg (Nat.not_le.2 h₁), if_neg (Nat.not_le.2 h₁)]
    rcases Nat.lt_or_ge 0xffff n with h₂ | h₂
    · rw [if_neg (Nat.not_le.2 h₂), if_neg (Nat.not_le.2 h₂), readNumber_bytesOf,
        Nat.mod_eq_of_lt (by omega), length_bytesOf]
      dsimp only
      rw [if_neg (by decide), if_pos rfl, if_neg (by omega)]
    · rw [if_pos h₂, if_pos h₂, readNumber_bytesOf, Nat.mod_eq_of_lt (by omega), length_bytesOf]
      dsimp only
      rw [if_pos rfl, if_neg (by omega)]
  · rw [if_pos h₁, if_pos h₁, if_neg (by omega), if_neg (by omega)]
    rfl

theorem payloadLength_inv {k n off : Nat} {b0 b1 : UInt8} {rest : List UInt8} (hk : k < 128)
    (h : payloadLength k (b0 :: b1 :: rest) = .accept (n, off)) :
    n ≤ maxFramePayload ∧ k = len7 n ∧ off = 2 + (extended n).length ∧
      ∃ r, rest = extended n ++ r := by
  have hmax : maxFramePayload = 16777216 := rfl
  unfold payloadLength at h
  rw [List.drop_succ_cons, List.drop_succ_cons, List.drop_zero] at h
  unfold len7 extended
  split at h
  · split at h
    · cases h
    · next m r hr =>
        have hm := readNumber_lt hr
        split at h
        · cases h
        · next hn =>
            cases h
            have h₁ : ¬ n ≤ 125 := by omega
            have h₂ : n ≤ 0xffff := by omega
            rw [if_neg h₁, if_neg h₁, if_pos h₂, if_pos h₂, length_bytesOf]
            exact ⟨by omega, ‹_›, rfl, r, readNumber_inv hr⟩
  · split at h
    · split at h
      · cases h
      · next m r hr =>
          split at h
          · cases h
          · next hn =>
              cases h
              have h₁ : ¬ n ≤ 125 := by omega
              have h₂ : ¬ n ≤ 0xffff := by omega
              rw [if_neg h₁, if_neg h₁, if_neg h₂, if_neg h₂, length_bytesOf]
              exact ⟨by omega, ‹_›, rfl, r, readNumber_inv hr⟩
    · cases h
      have h₁ : k ≤ 125 := by omega
      rw [if_pos h₁, if_pos h₁]
      exact ⟨by omega, rfl, rfl, rest, rfl⟩

theorem payloadLength_append {k : Nat} {b0 b1 : UInt8} {rest : List UInt8} (x : List UInt8)
    (h : payloadLength k (b0 :: b1 :: rest) ≠ .more) :
    payloadLength k (b0 :: b1 :: (rest ++ x)) = payloadLength k (b0 :: b1 :: rest) := by
  unfold payloadLength at h ⊢
  simp only [List.drop_succ_cons, List.drop_zero] at h ⊢
  split
  · next hk =>
      rw [if_pos hk] at h
      cases hr : readNumber 2 rest with
      | none =>
          rw [hr] at h
          exact absurd rfl h
      | some p => rw [readNumber_append hr]
  · next hk =>
      rw [if_neg hk] at h
      split
      · next hk' =>
          rw [if_pos hk'] at h
          cases hr : readNumber 8 rest with
          | none =>
              rw [hr] at h
              exact absurd rfl h
          | some p => rw [readNumber_append hr]
      · rfl

/-- Bytes of the masking key. -/
def keyLength (masked : Bool) : Nat := if masked then 4 else 0

/-- The length is there: the frame is complete with the key and that many bytes. -/
theorem lengthAndKey_extended {n : Nat} (h : n ≤ maxFramePayload) (op : UInt8) (fin masked : Bool)
    (b0 b1 : UInt8) (r : List UInt8) :
    lengthAndKey op fin masked (len7 n) (b0 :: b1 :: (extended n ++ r)) =
      if r.length < keyLength masked + n then { total := incomplete }
      else
        { total := (2 + (extended n).length + keyLength masked + n : Nat)
          payloadOff := 2 + (extended n).length + keyLength masked
          payloadLen := n
          opcode := op
          fin := fin
          masked := masked
          maskOff := 2 + (extended n).length } := by
  have hoff : (if masked = true then 2 + (extended n).length + 4 else 2 + (extended n).length) =
      2 + (extended n).length + keyLength masked := by
    cases masked <;> rfl
  have hlen : (b0 :: b1 :: (extended n ++ r)).length = 2 + (extended n).length + r.length := by
    simp only [List.length_cons, List.length_append]
    omega
  unfold lengthAndKey
  rw [payloadLength_extended h]
  dsimp only
  rw [if_neg (Nat.not_lt.2 h), hoff, hlen]
  by_cases hr : r.length < keyLength masked + n
  · rw [if_pos hr, if_pos (by omega)]
  · rw [if_neg hr, if_neg (by omega)]

/-! ### Complete frames -/

namespace Frame

variable (f : Frame)

theorem length_keyBytes : f.keyBytes.length = keyLength f.key.isSome := by
  unfold keyBytes keyLength
  cases f.key with
  | none => rfl
  | some k => exact k.2

theorem bytes_append (rest : List UInt8) :
    f.bytes ++ rest = firstByte f.fin f.opcode :: lengthByte f.key.isSome (len7 f.payload.length) ::
      (extended f.payload.length ++ (f.keyBytes ++ (f.payload ++ rest))) := by
  simp [bytes, header]

theorem length_header :
    f.header.length = 2 + (extended f.payload.length).length + keyLength f.key.isSome := by
  simp only [header, List.length_cons, List.length_append, length_keyBytes]
  omega

theorem admitted :
    admits (firstByte f.fin f.opcode) (lengthByte f.key.isSome (len7 f.payload.length)) = true := by
  obtain ⟨hopens, -, hfin, hcontrol⟩ := firstByte_spec f.fin f.opcode
  obtain ⟨-, hlen⟩ := lengthByte_spec f.key.isSome (len7_lt f.payload.length)
  unfold admits
  rw [hopens, hfin, hcontrol, hlen]
  cases hc : f.opcode.isControl with
  | false => rfl
  | true =>
      obtain ⟨hf, hp⟩ := f.control hc
      have hshort : len7 f.payload.length = f.payload.length := if_pos hp
      rw [hf, hshort, decide_eq_false (Nat.not_lt.2 hp)]
      rfl

end Frame

/-- **A frame is accepted**, whatever follows. -/
theorem frameHead_bytes (f : Frame) (rest : List UInt8) : frameHead (f.bytes ++ rest) = f.head := by
  obtain ⟨-, hop, hfin, -⟩ := firstByte_spec f.fin f.opcode
  obtain ⟨hmask, hlen⟩ := lengthByte_spec f.key.isSome (len7_lt f.payload.length)
  have hr : ¬ (f.keyBytes ++ (f.payload ++ rest)).length <
      keyLength f.key.isSome + f.payload.length := by
    simp only [List.length_append, f.length_keyBytes]
    omega
  rw [f.bytes_append, frameHead_cons, if_pos f.admitted, hop, hfin, hmask, hlen,
    lengthAndKey_extended f.bounded, if_neg hr]
  unfold Frame.head
  rw [Frame.bytes, List.length_append, f.length_header]

/-- Admitted bytes, a length and as many bytes are a frame. -/
theorem exists_frame {b0 b1 : UInt8} {n : Nat} {r : List UInt8} (ha : admits b0 b1 = true)
    (hn : n ≤ maxFramePayload) (hlen : (b1 &&& 0x7f).toNat = len7 n)
    (hr : keyLength (b1 &&& 0x80 != 0) + n ≤ r.length) :
    ∃ (f : Frame) (rest : List UInt8), b0 :: b1 :: (extended n ++ r) = f.bytes ++ rest := by
  unfold admits at ha
  rw [Bool.and_eq_true, hlen] at ha
  obtain ⟨hopens, hcontrol⟩ := ha
  obtain ⟨op, -, hb0⟩ := opens_inv b0 hopens
  have hb1 := (lengthByte_inv b1).1
  rw [hlen] at hb1
  generalize (b1 &&& 0x80 != 0) = masked at hr hb1
  generalize (b0 &&& 0x80 != 0) = fin at hb0 hcontrol
  rw [hb0, (firstByte_spec fin op).2.2.2] at hcontrol
  have hctl : op.isControl = true → fin = true ∧ n ≤ 125 := by
    intro hc
    rw [hc, Bool.true_and, Bool.not_or, Bool.and_eq_true, Bool.not_not, Bool.not_eq_true',
      decide_eq_false_iff_not, Nat.not_lt] at hcontrol
    exact ⟨hcontrol.1, len7_le hcontrol.2⟩
  have hkey : ∃ (key : Option Key) (r' : List UInt8), key.isSome = masked ∧ n ≤ r'.length ∧
      r = (key.map Subtype.val).getD [] ++ r' := by
    cases masked with
    | false => exact ⟨none, r, rfl, Nat.zero_add n ▸ hr, rfl⟩
    | true =>
        have h4 : 4 + n ≤ r.length := hr
        refine ⟨some ⟨r.take 4, List.length_take_of_le (by omega)⟩, r.drop 4, rfl, ?_,
          (List.take_append_drop 4 r).symm⟩
        rw [List.length_drop]
        omega
  obtain ⟨key, r', rfl, hr', rfl⟩ := hkey
  have hp : (r'.take n).length = n := List.length_take_of_le hr'
  refine ⟨⟨fin, op, key, r'.take n, hp.symm ▸ hn, hp.symm ▸ hctl⟩, r'.drop n, ?_⟩
  rw [Frame.bytes_append]
  dsimp only [Frame.keyBytes]
  rw [List.take_append_drop, hp, ← hb0, ← hb1]

/-! ### What `frame_head` says -/

/-- A buffer that `frame_head` leaves undecided. -/
inductive Waits : List UInt8 → Prop where
  | empty : Waits []
  | first (b0 : UInt8) : Waits [b0]
  | length {b0 b1 : UInt8} {rest : List UInt8} (ha : admits b0 b1 = true)
      (hp : payloadLength (b1 &&& 0x7f).toNat (b0 :: b1 :: rest) = .more) :
      Waits (b0 :: b1 :: rest)
  | payload {b0 b1 : UInt8} {n : Nat} {r : List UInt8} (ha : admits b0 b1 = true)
      (hn : n ≤ maxFramePayload) (hlen : (b1 &&& 0x7f).toNat = len7 n) :
      Waits (b0 :: b1 :: (extended n ++ r))

/-- What `frame_head` says of a buffer. -/
inductive Says (buf : List UInt8) : Prop where
  | frame (f : Frame) (rest : List UInt8) (h : buf = f.bytes ++ rest)
  | waits (h : frameHead buf = { total := incomplete }) (hw : Waits buf)
  | malformed (h : ∀ x, frameHead (buf ++ x) = { total := errMalformed })

theorem frameHead_says (buf : List UInt8) : Says buf := by
  match buf with
  | [] => exact .waits rfl .empty
  | [b0] => exact .waits rfl (.first b0)
  | b0 :: b1 :: rest =>
      by_cases ha : admits b0 b1 = true
      · cases hp : payloadLength (b1 &&& 0x7f).toNat (b0 :: b1 :: rest) with
        | more =>
            refine .waits ?_ (.length ha hp)
            rw [frameHead_cons, if_pos ha, lengthAndKey, hp]
        | refuse e =>
            refine .malformed fun x => ?_
            rw [List.cons_append, List.cons_append, frameHead_cons, if_pos ha, lengthAndKey,
              payloadLength_append x (by rw [hp]; nofun), hp]
        | accept p =>
            obtain ⟨hn, hlen, -, r, rfl⟩ := payloadLength_inv (lengthByte_inv b1).2 hp
            by_cases hr : r.length < keyLength (b1 &&& 0x80 != 0) + p.1
            · refine .waits ?_ (.payload ha hn hlen)
              rw [frameHead_cons, if_pos ha, hlen, lengthAndKey_extended hn, if_pos hr]
            · obtain ⟨f, rest, hf⟩ := exists_frame ha hn hlen (Nat.le_of_not_lt hr)
              exact .frame f rest hf
      · refine .malformed fun x => ?_
        rw [List.cons_append, List.cons_append, frameHead_cons, if_neg ha]

theorem Says.malformed_eq {buf : List UInt8}
    (h : ∀ x, frameHead (buf ++ x) = { total := errMalformed }) :
    frameHead buf = { total := errMalformed } := by
  simpa using h []

/-- **Nothing else is accepted.** -/
theorem frameHead_complete {buf : List UInt8} (h : 0 ≤ (frameHead buf).total) :
    ∃ (f : Frame) (rest : List UInt8), buf = f.bytes ++ rest := by
  cases frameHead_says buf with
  | frame f rest hf => exact ⟨f, rest, hf⟩
  | waits hi =>
      rw [hi] at h
      exact absurd h (by decide)
  | malformed hm =>
      rw [Says.malformed_eq hm] at h
      exact absurd h (by decide)

/-- **Answers stand.** -/
theorem frameHead_append {buf : List UInt8} (x : List UInt8)
    (h : (frameHead buf).total ≠ incomplete) : frameHead (buf ++ x) = frameHead buf := by
  cases frameHead_says buf with
  | frame f rest hf => rw [hf, List.append_assoc, frameHead_bytes, frameHead_bytes]
  | waits hi => exact absurd (congrArg FrameHead.total hi) h
  | malformed hm => rw [hm x, Says.malformed_eq hm]

end Vanilla.Websocket

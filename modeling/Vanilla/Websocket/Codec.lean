import Vanilla.Websocket.Frame

/-!
# WebSocket — the codec

* `begins_iff`: which of the buffers that `frame_head` leaves undecided begin a frame.
* `unmaskInPlace_bytes`: unmasking changes the payload of a frame, by its key.
* `writeFrameHeader_parses`: what the writers append reads back.
-/

namespace Vanilla.Websocket
open Words

/-! ### What can still become a frame -/

/-- The bytes of a length that has no continuation from 65536 to `max_frame_payload`. -/
def outOfRange (p : List UInt8) : Bool :=
  maxFramePayload < number p * 256 ^ (8 - p.length) ||
    (number p + 1) * 256 ^ (8 - p.length) ≤ 65536

/-- A buffer whose answer is `incomplete` although no frame begins with it: a first byte that opens
none, or a part of an eight-byte length that is out of range already. -/
def hopeless : List UInt8 → Bool
  | [b0] => !admits b0 0
  | _ :: b1 :: p => (b1 &&& 0x7f).toNat = 127 && p.length < 8 && outOfRange p
  | [] => false

/-- A buffer that begins a frame. -/
def Begins (buf : List UInt8) : Prop := ∃ x, 0 ≤ (frameHead (buf ++ x)).total

theorem Begins.of_append {buf x : List UInt8} (h : Begins (buf ++ x)) : Begins buf := by
  obtain ⟨y, hy⟩ := h
  exact ⟨x ++ y, List.append_assoc buf x y ▸ hy⟩

theorem begins_payload {b0 b1 : UInt8} {n : Nat} {r : List UInt8} (ha : admits b0 b1 = true)
    (hn : n ≤ maxFramePayload) (hlen : (b1 &&& 0x7f).toNat = len7 n) :
    Begins (b0 :: b1 :: (extended n ++ r)) := by
  refine ⟨List.replicate (keyLength (b1 &&& 0x80 != 0) + n) 0, ?_⟩
  rw [List.cons_append, List.cons_append, List.append_assoc, frameHead_cons, if_pos ha, hlen,
    lengthAndKey_extended hn, if_neg (by simp)]
  exact Int.natCast_nonneg _

/-- The bytes of a length, not all of them. -/
theorem begins_length {b0 b1 : UInt8} {n : Nat} {p x : List UInt8} (ha : admits b0 b1 = true)
    (hn : n ≤ maxFramePayload) (hlen : (b1 &&& 0x7f).toNat = len7 n) (hx : p ++ x = extended n) :
    Begins (b0 :: b1 :: p) := by
  have h := begins_payload (r := []) ha hn hlen
  rw [List.append_nil, ← hx] at h
  exact Begins.of_append (x := x) h

theorem admits_zero {b0 b1 : UInt8} (h : admits b0 b1 = true) : admits b0 0 = true := by
  unfold admits at h ⊢
  rw [Bool.and_eq_true] at h ⊢
  refine ⟨h.1, ?_⟩
  revert h
  cases b0 &&& 0x0f &&& 0x8 != 0 <;> cases b0 &&& 0x80 != 0 <;> simp

theorem Begins.admits {b0 b1 : UInt8} {rest : List UInt8} (h : Begins (b0 :: b1 :: rest)) :
    admits b0 b1 = true := by
  obtain ⟨x, hx⟩ := h
  rw [List.cons_append, List.cons_append, frameHead_cons] at hx
  by_contra ha
  rw [if_neg ha] at hx
  exact absurd hx (by decide)

/-- A first byte begins a frame unless no second byte is admitted behind it. -/
theorem begins_first (b0 : UInt8) : Begins [b0] ↔ admits b0 0 = true := by
  constructor
  · rintro ⟨x, hx⟩
    match x with
    | [] =>
        have hi : (frameHead ([b0] ++ [])).total = incomplete := rfl
        rw [hi] at hx
        exact absurd hx (by decide)
    | b1 :: rest =>
        have hb : Begins [b0, b1] := ⟨rest, hx⟩
        exact admits_zero hb.admits
  · intro ha
    have h : Begins (b0 :: 0 :: []) := begins_length (n := 0) (x := []) ha (Nat.zero_le _) rfl rfl
    exact Begins.of_append (x := [0]) h

theorem payloadLength_more {k : Nat} {b0 b1 : UInt8} {rest : List UInt8}
    (h : payloadLength k (b0 :: b1 :: rest) = .more) :
    (k = 126 ∧ rest.length < 2) ∨ (k = 127 ∧ rest.length < 8) := by
  unfold payloadLength readNumber at h
  simp only [List.drop_succ_cons, List.drop_zero] at h
  grind

/-- Two bytes of length can always be completed. -/
theorem begins_two {b0 b1 : UInt8} {p : List UInt8} (ha : admits b0 b1 = true)
    (hb : (b1 &&& 0x7f).toNat = 126) (hp : p.length < 2) : Begins (b0 :: b1 :: p) := by
  have hx : ∃ x, (p ++ x).length = 2 ∧ 255 ≤ number (p ++ x) := by
    match p with
    | [] => exact ⟨[255, 255], rfl, by decide⟩
    | [b] =>
        refine ⟨[255], rfl, ?_⟩
        rw [number_concat]
        exact Nat.le_add_left _ _
    | _ :: _ :: _ => exact absurd hp (by simp)
  obtain ⟨x, hlen, hge⟩ := hx
  have hlt := number_lt (p ++ x)
  rw [hlen] at hlt
  have h₁ : ¬ number (p ++ x) ≤ 125 := by omega
  have h₂ : number (p ++ x) ≤ 0xffff := by omega
  refine begins_length (n := number (p ++ x)) (x := x) ha (Nat.le_trans h₂ (by decide)) ?_ ?_
  · rw [hb, len7, if_neg h₁, if_pos h₂]
  · rw [extended, if_neg h₁, if_pos h₂, ← hlen, bytesOf_number]

theorem outOfRange_iff (p : List UInt8) : outOfRange p = false ↔
    ∃ x, x.length = 8 - p.length ∧ 65536 ≤ number (p ++ x) ∧ number (p ++ x) ≤ maxFramePayload := by
  unfold outOfRange
  rw [Bool.or_eq_false_iff, decide_eq_false_iff_not, decide_eq_false_iff_not, Nat.not_lt,
    Nat.not_le, Nat.succ_mul]
  constructor
  · rintro ⟨hle, hlt⟩
    have hpos : 0 < 256 ^ (8 - p.length) := Nat.pow_pos (by decide)
    have hv : 65536 - number p * 256 ^ (8 - p.length) < 256 ^ (8 - p.length) := by omega
    refine ⟨bytesOf (8 - p.length) (65536 - number p * 256 ^ (8 - p.length)),
      length_bytesOf _ _, ?_⟩
    have hmax : maxFramePayload = 16777216 := rfl
    rw [number_append, number_bytesOf, length_bytesOf, Nat.mod_eq_of_lt hv]
    omega
  · rintro ⟨x, hlen, hge, hle⟩
    have hx := number_lt x
    rw [number_append, hlen] at hge hle
    rw [hlen] at hx
    omega

/-- Eight bytes, only in range. -/
theorem begins_eight {b0 b1 : UInt8} {p : List UInt8} (ha : admits b0 b1 = true)
    (hb : (b1 &&& 0x7f).toNat = 127) (hp : p.length < 8) :
    Begins (b0 :: b1 :: p) ↔ outOfRange p = false := by
  rw [outOfRange_iff]
  constructor
  · rintro ⟨y, hy⟩
    obtain ⟨f, rest, hf⟩ := frameHead_complete hy
    rw [f.bytes_append] at hf
    injection hf with _ hf
    injection hf with hb1 hf
    have hk : len7 f.payload.length = 127 := by
      rw [← (lengthByte_spec f.key.isSome (len7_lt _)).2, ← hb1, hb]
    obtain ⟨hge, hext⟩ := extended_eight hk
    have hn := f.bounded
    have hmax : maxFramePayload = 16777216 := rfl
    have htake : p ++ y.take (8 - p.length) = bytesOf 8 f.payload.length := by
      have h8 := congrArg (List.take 8) hf
      rwa [List.append_eq, List.take_append, List.take_of_length_le (by omega), hext,
        List.take_left' (length_bytesOf 8 _)] at h8
    refine ⟨y.take (8 - p.length), ?_, ?_⟩
    · have hlen := congrArg List.length htake
      rw [List.length_append, length_bytesOf] at hlen
      omega
    · rw [htake, number_bytesOf, Nat.mod_eq_of_lt (by omega)]
      omega
  · rintro ⟨x, hlen, hge, hle⟩
    have h₁ : ¬ number (p ++ x) ≤ 125 := by omega
    have h₂ : ¬ number (p ++ x) ≤ 0xffff := by omega
    have h8 : (p ++ x).length = 8 := by
      rw [List.length_append]
      omega
    refine begins_length (n := number (p ++ x)) (x := x) ha hle ?_ ?_
    · rw [hb, len7, if_neg h₁, if_neg h₂]
    · rw [extended, if_neg h₁, if_neg h₂, ← h8, bytesOf_number]

/-- **Which undecided buffers begin a frame.** -/
theorem begins_iff {buf : List UInt8} (h : (frameHead buf).total = incomplete) :
    Begins buf ↔ hopeless buf = false := by
  cases frameHead_says buf with
  | frame f rest hf =>
      rw [hf, frameHead_bytes] at h
      have hneg : (f.bytes.length : Int) = -1 := h
      omega
  | malformed hm =>
      rw [Says.malformed_eq hm] at h
      exact absurd h (by decide)
  | waits _ hw =>
      cases hw with
      | empty => exact iff_of_true (Begins.of_append (x := [0x80]) ((begins_first 0x80).2 rfl)) rfl
      | first b0 => rw [begins_first, hopeless, Bool.not_eq_false']
      | length ha hp =>
          rcases payloadLength_more hp with ⟨hk, hlen⟩ | ⟨hk, hlen⟩
          · refine iff_of_true (begins_two ha hk hlen) ?_
            rw [hopeless, hk]
            rfl
          · rw [begins_eight ha hk hlen, hopeless, hk, decide_eq_true hlen]
            rfl
      | @payload b0 b1 n r ha hn hlen =>
          refine iff_of_true (begins_payload ha hn hlen) ?_
          rw [hopeless, hlen]
          by_cases hk : len7 n = 127
          · have hlong : ¬ (extended n ++ r).length < 8 := by
              rw [(extended_eight hk).2, List.length_append, length_bytesOf]
              omega
            rw [decide_eq_false hlong, Bool.and_false, Bool.false_and]
          · rw [decide_eq_false hk]
            rfl

/-! ### Masking -/

/-- A payload under a key: masking and unmasking. -/
def applyMask (k p : List UInt8) : List UInt8 := p.mapIdx fun i b => b ^^^ k.getD (i % 4) 0

theorem applyMask_applyMask (k p : List UInt8) : applyMask k (applyMask k p) = p := by
  unfold applyMask
  apply List.ext_getElem?
  intro i
  rw [List.getElem?_mapIdx, List.getElem?_mapIdx]
  cases p[i]? with
  | none => rfl
  | some b =>
      have hxor : b ^^^ k.getD (i % 4) 0 ^^^ k.getD (i % 4) 0 = b := by
        rw [UInt8.xor_assoc, UInt8.xor_self, UInt8.xor_zero]
      exact congrArg some hxor

theorem applyMask_concat (k p : List UInt8) (b : UInt8) :
    applyMask k (p ++ [b]) = applyMask k p ++ [b ^^^ k.getD (p.length % 4) 0] := by
  simp [applyMask, List.mapIdx_append]

/-- A pass unmasks the next byte. -/
theorem unmaskAt_step {h : FrameHead} {k a q r : List UInt8} {b : UInt8}
    (hoff : h.payloadOff = a.length)
    (hkey : ∀ j < 4, h.maskOff + j < a.length ∧ a.getD (h.maskOff + j) 0 = k.getD j 0) :
    unmaskAt h (a ++ (q ++ b :: r)) q.length =
      a ++ (q ++ (b ^^^ k.getD (q.length % 4) 0) :: r) := by
  have hmod : q.length &&& 3 = q.length % 4 := Nat.and_two_pow_sub_one_eq_mod q.length 2
  obtain ⟨hlt, hget⟩ := hkey (q.length % 4) (Nat.mod_lt _ (by decide))
  have hread : (a ++ (q ++ b :: r)).getD (a.length + q.length) 0 = b := by
    simp [List.getD_eq_getElem?_getD]
  have hmask : (a ++ (q ++ b :: r)).getD (h.maskOff + q.length % 4) 0 =
      k.getD (q.length % 4) 0 := by
    rw [List.getD_eq_getElem?_getD, List.getElem?_append_left hlt, ← List.getD_eq_getElem?_getD,
      hget]
  unfold unmaskAt
  rw [hoff, hmod, hread, hmask, List.set_append_right _ _ (Nat.le_add_right _ _),
    Nat.add_sub_cancel_left, List.set_append_right _ _ (Nat.le_refl _), Nat.sub_self,
    List.set_cons_zero]

theorem unmask_loop {h : FrameHead} {k a p r : List UInt8} (hoff : h.payloadOff = a.length)
    (hkey : ∀ j < 4, h.maskOff + j < a.length ∧ a.getD (h.maskOff + j) 0 = k.getD j 0) :
    ∀ n ≤ p.length, (List.range n).foldl (unmaskAt h) (a ++ (p ++ r)) =
      a ++ (applyMask k (p.take n) ++ (p.drop n ++ r)) := by
  intro n hn
  induction n with
  | zero => rfl
  | succ n ih =>
      have hlt : n < p.length := hn
      have hlen : (applyMask k (p.take n)).length = n := by
        rw [applyMask, List.length_mapIdx, List.length_take_of_le (Nat.le_of_lt hlt)]
      have hstep := unmaskAt_step (q := applyMask k (p.take n)) (b := p[n])
        (r := p.drop (n + 1) ++ r) hoff hkey
      rw [hlen] at hstep
      rw [List.range_succ, List.foldl_append, ih (Nat.le_of_lt hlt), List.foldl_cons,
        List.foldl_nil, List.drop_eq_getElem_cons hlt, List.cons_append, hstep, List.take_add_one,
        List.getElem?_eq_getElem hlt, Option.toList_some, applyMask_concat,
        List.length_take_of_le (Nat.le_of_lt hlt), List.append_assoc, List.singleton_append]

/-- The payload, unmasked. -/
def Frame.plain (f : Frame) : List UInt8 :=
  match f.key with
  | none => f.payload
  | some k => applyMask k.1 f.payload

/-- The key's bytes, in the header. -/
theorem Frame.header_key (f : Frame) {k : Key} (hk : f.key = some k) :
    ∀ j < 4, f.head.maskOff + j < f.header.length ∧
      f.header.getD (f.head.maskOff + j) 0 = k.1.getD j 0 := by
  intro j hj
  have hlen := f.length_header
  rw [hk] at hlen
  refine ⟨?_, ?_⟩
  · rw [hlen]
    exact Nat.add_lt_add_left hj _
  · have hkey : f.keyBytes = k.1 := by rw [Frame.keyBytes, hk]; rfl
    have hidx : f.head.maskOff + j = (extended f.payload.length).length + j + 1 + 1 := by
      change 2 + _ + j = _
      omega
    rw [hidx, List.getD_eq_getElem?_getD, Frame.header, List.getElem?_cons_succ,
      List.getElem?_cons_succ, List.getElem?_append_right (Nat.le_add_right _ _),
      Nat.add_sub_cancel_left, hkey, List.getD_eq_getElem?_getD]

/-- **Unmasking** changes the payload, by the frame's key, and nothing else. -/
theorem unmaskInPlace_bytes (f : Frame) (rest : List UInt8) :
    unmaskInPlace (f.bytes ++ rest) f.head = f.header ++ f.plain ++ rest := by
  unfold unmaskInPlace Frame.plain Frame.bytes
  cases hk : f.key with
  | none =>
      have hmask : f.head.masked = false := by rw [Frame.head, hk]; rfl
      rw [hmask]
      rfl
  | some k =>
      have hmask : f.head.masked = true := by rw [Frame.head, hk]; rfl
      have hloop := unmask_loop (r := rest) (p := f.payload) (a := f.header) rfl (f.header_key hk)
        f.payload.length (Nat.le_refl _)
      rw [List.take_length, List.drop_length, List.nil_append] at hloop
      rw [hmask, if_pos rfl, List.append_assoc, List.append_assoc]
      exact hloop

/-! ### The writers -/

/-- `b` reads back as one whole message, and nothing else. -/
structure Parses (b : List UInt8) (opcode : UInt8) (payload : List UInt8) : Prop where
  total : (frameHead b).total = b.length
  opcode : (frameHead b).opcode = opcode
  fin : (frameHead b).fin = true
  masked : (frameHead b).masked = false
  payload : (b.drop (frameHead b).payloadOff).take (frameHead b).payloadLen = payload

theorem Frame.parses (f : Frame) (hfin : f.fin = true) (hk : f.key = none) :
    Parses f.bytes f.opcode.toByte f.payload := by
  have h := frameHead_bytes f []
  rw [List.append_nil] at h
  refine ⟨?_, ?_, ?_, ?_, ?_⟩
  · rw [h]
    rfl
  · rw [h]
    rfl
  · rw [h]
    exact hfin
  · rw [h, Frame.head, hk]
    rfl
  · rw [h]
    change (f.bytes.drop f.header.length).take f.payload.length = f.payload
    rw [Frame.bytes, List.drop_left, List.take_length]

theorem writeFrameHeader_eq (out : List UInt8) (op : Opcode) (n : Nat) :
    writeFrameHeader out op.toByte n =
      out ++ (firstByte true op :: lengthByte false (len7 n) :: extended n) := by
  have hlen : lengthByte false (len7 n) = (len7 n).toUInt8 := UInt8.zero_or
  rw [hlen]
  unfold writeFrameHeader len7 extended
  dsimp only
  split
  · rw [List.append_assoc]
    rfl
  · split
    · rw [List.append_assoc, List.append_assoc, List.append_assoc]
      rfl
    · rw [List.append_assoc, List.append_assoc]
      rfl

/-- A header and its payload are a frame that is whole and not masked. -/
theorem writeFrameHeader_parses (out : List UInt8) (op : Opcode) {p : List UInt8}
    (hp : p.length ≤ maxFramePayload) (hc : op.isControl = true → p.length ≤ 125) :
    ∃ b, writeFrameHeader out op.toByte p.length ++ p = out ++ b ∧ Parses b op.toByte p := by
  let f : Frame := ⟨true, op, none, p, hp, fun h => ⟨rfl, hc h⟩⟩
  refine ⟨f.bytes, ?_, f.parses rfl rfl⟩
  have hbytes := f.bytes_append []
  rw [List.append_nil, List.append_nil] at hbytes
  rw [hbytes, writeFrameHeader_eq, List.append_assoc]
  rfl

theorem control_bounds {payload : List UInt8} (h : payload.length ≤ 125) :
    payload.length ≤ maxFramePayload :=
  Nat.le_trans h (by decide)

/-- What the codec does, in full. -/
structure CodecExact : Prop where
  /-- An undecided buffer begins a frame, unless it is hopeless. -/
  waits : ∀ buf, (frameHead buf).total = incomplete →
    ((∃ x, 0 ≤ (frameHead (buf ++ x)).total) ↔ hopeless buf = false)
  /-- Any other answer is the answer for every longer buffer. -/
  stands : ∀ buf x, (frameHead buf).total ≠ incomplete → frameHead (buf ++ x) = frameHead buf
  /-- The frames are what is accepted. -/
  accepts : ∀ buf h, 0 ≤ h.total →
    (frameHead buf = h ↔ ∃ (f : Frame) (rest : List UInt8), buf = f.bytes ++ rest ∧ h = f.head)
  header : ∀ out (op : Opcode) payload, payload.length ≤ maxFramePayload →
    (op.isControl = true → payload.length ≤ 125) →
      ∃ b, writeFrameHeader out op.toByte payload.length ++ payload = out ++ b ∧
        Parses b op.toByte payload
  close : ∀ out code, ∃ b, writeClose out code = out ++ b ∧
    Parses b opClose [(code >>> 8).toUInt8, code.toUInt8]
  pong : ∀ out payload, payload.length ≤ 125 →
    ∃ b, writePong out payload = out ++ b ∧ Parses b opPong payload
  ping : ∀ out payload, ∃ b, writePing out payload = out ++ b ∧
    Parses b opPing (payload.take 125)
  /-- Unmasking changes the payload of an accepted frame only, by its key. -/
  unmasks : ∀ (f : Frame) rest,
    unmaskInPlace (f.bytes ++ rest) f.head = f.header ++ f.plain ++ rest
  /-- With that, a payload that was masked comes back. -/
  undoes : ∀ (f : Frame) (k : Key) p, f.key = some k → f.payload = applyMask k.1 p → f.plain = p

theorem writePing_parses (out payload : List UInt8) :
    ∃ b, writePing out payload = out ++ b ∧ Parses b opPing (payload.take 125) := by
  have hlen : (payload.take 125).length ≤ 125 := List.length_take_le _ _
  have hn : (if 125 < payload.length then 125 else payload.length) = (payload.take 125).length := by
    rw [List.length_take]
    split <;> omega
  have htake : payload.take (payload.take 125).length = payload.take 125 := by
    rw [List.length_take, List.take_eq_take_iff]
    omega
  unfold writePing
  dsimp only
  rw [hn, htake]
  exact writeFrameHeader_parses out .ping (control_bounds hlen) fun _ => hlen

/-- **The codec is exact.** -/
theorem codec_exact : CodecExact where
  waits := fun buf h => begins_iff h
  stands := fun buf x h => frameHead_append x h
  accepts := by
    intro buf h hpos
    constructor
    · intro he
      obtain ⟨f, rest, hf⟩ := frameHead_complete (he ▸ hpos)
      exact ⟨f, rest, hf, by rw [← he, hf, frameHead_bytes]⟩
    · rintro ⟨f, rest, rfl, rfl⟩
      exact frameHead_bytes f rest
  header := fun out op payload hp hc => writeFrameHeader_parses out op hp hc
  close := by
    intro out code
    unfold writeClose
    rw [List.append_assoc]
    have hlen : [(code >>> 8).toUInt8, code.toUInt8].length ≤ 125 := by simp
    exact writeFrameHeader_parses out .close (control_bounds hlen) fun _ => hlen
  pong := fun out payload hp => writeFrameHeader_parses out .pong (control_bounds hp) fun _ => hp
  ping := writePing_parses
  unmasks := unmaskInPlace_bytes
  undoes := by
    intro f k p hk hp
    rw [Frame.plain, hk, hp]
    exact applyMask_applyMask k.1 p

/-- A byte with all its reserved bits set is undecided, and begins nothing. -/
theorem reserved_bits_wait :
    (frameHead [0xff]).total = incomplete ∧ ∀ x, ¬ 0 ≤ (frameHead ([0xff] ++ x)).total :=
  ⟨rfl, fun x hx => absurd ((begins_first 0xff).1 ⟨x, hx⟩) (by decide)⟩

end Vanilla.Websocket

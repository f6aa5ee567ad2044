import Mathlib.Tactic.Ring
import Vanilla.Http2.HpackTable
import Vanilla.Http2.Sending

/-!
# HTTP/2 — response headers

The sending side of `http2/hpack.v`, and what a peer makes of it.  A response's fields are appended
to a block with `encode_status`, `encode_indexed`, `encode_literal_name_idx` and `encode_literal`;
`write_response_headers` cuts the block into frames.  The peer is the receiving side of the same
code: `parse_frame_header` off the octets, `decode_into` of the payloads.

* `decodeInt_encode`, `decodeStr_encode`: integers and strings.
* `FieldCall.readAs`: one pass of `decode_into` is one call of an encoder.
* `parseFrames_bytes`: the frames are read back off their octets.
* `response_headers_round_trip`: the fields, through the frames, from any decoder.
-/

namespace Vanilla.Http2

/-! ### The encoders -/

/-- The loop of `encode_int`. -/
def encodeIntRest (v : Nat) : List UInt8 :=
  if v ≥ 0x80 then ((v &&& 0x7f) ||| 0x80).toUInt8 :: encodeIntRest (v >>> 7) else [v.toUInt8]
termination_by v
decreasing_by
  rw [Nat.shiftRight_eq_div_pow]
  omega

/-- `encode_int`. -/
def encodeInt (flags : UInt8) (bits value : Nat) : List UInt8 :=
  let mask := 1 <<< bits - 1
  if value < mask then [flags ||| value.toUInt8]
  else (flags ||| mask.toUInt8) :: encodeIntRest (value - mask)

/-- `encode_str`. -/
def encodeStr (s : List UInt8) : List UInt8 := encodeInt 0x00 7 s.length ++ s

/-- `encode_indexed`. -/
def encodeIndexed (idx : Nat) : List UInt8 := encodeInt 0x80 7 idx

/-- `encode_literal_name_idx`. -/
def encodeLiteralNameIdx (nameIdx : Nat) (value : List UInt8) : List UInt8 :=
  encodeInt 0x00 4 nameIdx ++ encodeStr value

/-- `encode_literal`. -/
def encodeLiteral (name value : List UInt8) : List UInt8 :=
  [0x00] ++ encodeStr name ++ encodeStr value

/-- The digits of a status. -/
def statusDigits (status : Nat) : List UInt8 :=
  [(48 + status / 100 % 10).toUInt8, (48 + status / 10 % 10).toUInt8, (48 + status % 10).toUInt8]

/-- `encode_status`. -/
def encodeStatus (status : Nat) : List UInt8 :=
  match status with
  | 200 => encodeIndexed 8
  | 204 => encodeIndexed 9
  | 206 => encodeIndexed 10
  | 304 => encodeIndexed 11
  | 400 => encodeIndexed 12
  | 404 => encodeIndexed 13
  | 500 => encodeIndexed 14
  | _ => encodeInt 0x00 4 8 ++ encodeInt 0x00 7 3 ++ statusDigits status

/-! ### Integers and strings -/

theorem octet_more (v : Nat) : (((v &&& 0x7f) ||| 0x80).toUInt8 &&& 0x7f).toNat = v % 128 ∧
    ((v &&& 0x7f) ||| 0x80).toUInt8 &&& 0x80 ≠ 0 := by
  have hmod : v &&& 0x7f = v % 128 := Nat.and_two_pow_sub_one_eq_mod v 7
  have hall : ∀ x < 128, ((x ||| 0x80).toUInt8 &&& 0x7f).toNat = x ∧
      (x ||| 0x80).toUInt8 &&& 0x80 ≠ 0 := by decide +kernel
  rw [hmod]
  exact hall _ (Nat.mod_lt _ (by decide))

theorem octet_last {v : Nat} (h : v < 128) :
    (v.toUInt8 &&& 0x7f).toNat = v ∧ v.toUInt8 &&& 0x80 = 0 := by
  have hall : ∀ x < 128, (x.toUInt8 &&& 0x7f).toNat = x ∧ x.toUInt8 &&& 0x80 = 0 := by
    decide +kernel
  exact hall v h

/-- The octets behind a full first one, `v` being read of them so far. -/
theorem decodeIntRest_encode (w : Nat) (rest : List UInt8) : ∀ v shift, shift ≤ 28 →
    v + w <<< shift ≤ 2 ^ 28 →
    decodeIntRest v shift (encodeIntRest w ++ rest) = .ok (v + w <<< shift, rest) := by
  induction w using Nat.strongRecOn with
  | ind w ih =>
      intro v shift hshift hle
      rw [encodeIntRest]
      split
      · rename_i hw
        obtain ⟨hlow, hmore⟩ := octet_more w
        have hsplit : v + (w % 128) <<< shift + (w >>> 7) <<< (shift + 7) = v + w <<< shift := by
          have hw : w % 128 * 2 ^ shift + w / 128 * (2 ^ shift * 128) = w * 2 ^ shift := by
            conv => rhs; rw [← Nat.mod_add_div w 128]
            ring
          simp only [Nat.shiftLeft_eq, Nat.shiftRight_eq_div_pow, Nat.pow_add]
          show v + w % 128 * 2 ^ shift + w / 128 * (2 ^ shift * 128) = v + w * 2 ^ shift
          omega
        -- an octet more is at most 28 bits in, since the value is
        have hfar : shift + 7 ≤ 28 := by
          by_contra hfar
          have h1 : 2 ^ 22 ≤ 2 ^ shift := Nat.pow_le_pow_right (by decide) (by omega)
          rw [Nat.shiftLeft_eq] at hle
          have h2 : 128 * 2 ^ 22 ≤ w * 2 ^ shift := Nat.mul_le_mul hw h1
          omega
        rw [List.cons_append, decodeIntRest, hlow, if_neg (by omega), if_neg hmore,
          ih (w >>> 7) (by rw [Nat.shiftRight_eq_div_pow]; omega) _ _ hfar
            (by rw [hsplit]; exact hle), hsplit]
      · rename_i hw
        obtain ⟨hlow, hlast⟩ := octet_last (Nat.lt_of_not_le hw)
        rw [List.singleton_append, decodeIntRest, hlow, if_neg (by omega), if_pos hlast,
          if_neg (by rw [Nat.one_shiftLeft]; omega)]

/-- The first octet of an integer: its low bits are apart from the flags. -/
theorem flags_low {flags : UInt8} {bits : Nat} (hbits : bits ≤ 8)
    (hflags : flags.toNat % 2 ^ bits = 0) {x : Nat} (hx : x < 2 ^ bits) :
    (flags ||| x.toUInt8).toNat &&& (2 ^ bits - 1) = x := by
  have hlt : x < 256 := hx.trans_le (Nat.pow_le_pow_right (by decide) hbits)
  have htoNat : x.toUInt8.toNat = x := Nat.mod_eq_of_lt hlt
  rw [UInt8.toNat_or, Nat.and_two_pow_sub_one_eq_mod, Nat.or_mod_two_pow, hflags, Nat.zero_or,
    htoNat, Nat.mod_eq_of_lt hx]

/-- An integer is read back, whatever flags `encode_int` is called with. -/
theorem decodeInt_encode (flags : UInt8) (bits : Nat) (hbits : bits ≤ 8)
    (hflags : flags.toNat % 2 ^ bits = 0) (value : Nat) (h : value ≤ 2 ^ 28)
    (rest : List UInt8) :
    decodeInt bits (encodeInt flags bits value ++ rest) = .ok (value, rest) := by
  have hpos := Nat.two_pow_pos bits
  unfold encodeInt
  rw [Nat.one_shiftLeft]
  dsimp only
  split
  · rename_i hlt
    rw [List.singleton_append, decodeInt, Nat.one_shiftLeft, flags_low hbits hflags (by omega),
      if_pos hlt]
  · rename_i hle
    rw [List.cons_append, decodeInt, Nat.one_shiftLeft, flags_low hbits hflags (by omega),
      if_neg (Nat.lt_irrefl _),
      decodeIntRest_encode _ _ _ _ (by decide) (by rw [Nat.shiftLeft_zero]; omega),
      Nat.shiftLeft_zero, Nat.add_sub_cancel' (Nat.le_of_not_lt hle)]

theorem encodeInt_head (flags : UInt8) (bits value : Nat) :
    ∃ x < 2 ^ bits, ∃ tail, encodeInt flags bits value = (flags ||| x.toUInt8) :: tail := by
  have hpos := Nat.two_pow_pos bits
  unfold encodeInt
  rw [Nat.one_shiftLeft]
  dsimp only
  split
  · exact ⟨value, by omega, [], rfl⟩
  · exact ⟨2 ^ bits - 1, by omega, _, rfl⟩

theorem decodeStr_encode (s rest : List UInt8) (h : s.length ≤ 2 ^ 28) :
    decodeStr (encodeStr s ++ rest) = (s, .ok (s, rest)) := by
  obtain ⟨x, hx, tail, hhead⟩ := encodeInt_head 0x00 7 s.length
  have hraw : ∀ x < 2 ^ 7, ¬ (0x00 ||| x.toUInt8) &&& (0x80 : UInt8) ≠ 0 := by decide +kernel
  have hint := decodeInt_encode 0x00 7 (by decide) (by decide) s.length h (s ++ rest)
  rw [encodeStr, List.append_assoc]
  rw [hhead, List.cons_append] at hint ⊢
  rw [decodeStr, hint]
  dsimp only
  rw [if_neg (by rw [List.length_append]; omega)]
  split
  · rename_i hnil
    rw [List.eq_nil_of_length_eq_zero hnil, List.nil_append]
  · rw [if_neg (hraw x hx), List.take_left', List.drop_left'] <;> rfl

/-! ### Fields -/

/-- An entry of the static table. -/
def staticEntry (idx : Nat) : HeaderField :=
  ⟨ascii (staticName.getD (idx - 1) ""), ascii (staticValue.getD (idx - 1) "")⟩

/-- A call of one of the encoders. -/
inductive FieldCall where
  | status (status : Nat)
  | indexed (idx : Nat)
  | literalNameIdx (nameIdx : Nat) (value : List UInt8)
  | literal (name value : List UInt8)

namespace FieldCall

/-- The arguments are in the encoder's range. -/
def Valid : FieldCall → Prop
  | status n => 100 ≤ n ∧ n ≤ 999
  | indexed idx => 1 ≤ idx ∧ idx ≤ 61
  | literalNameIdx idx _ => 1 ≤ idx ∧ idx ≤ 61
  | literal _ _ => True

/-- The octets it appends. -/
def encode : FieldCall → List UInt8
  | status n => encodeStatus n
  | indexed idx => encodeIndexed idx
  | literalNameIdx idx value => encodeLiteralNameIdx idx value
  | literal name value => encodeLiteral name value

/-- The field it stands for. -/
def field : FieldCall → HeaderField
  | status n => ⟨ascii ":status", ascii (toString n)⟩
  | indexed idx => staticEntry idx
  | literalNameIdx idx value => ⟨(staticEntry idx).name, value⟩
  | literal name value => ⟨name, value⟩

end FieldCall

/-- The octets are read as the field by one pass of `decode_into`, from any decoder, which keeps its
table. -/
def ReadAs (e : List UInt8) (f : HeaderField) : Prop :=
  ∃ b tail, e = b :: tail ∧ ∀ (s : BlockState) (rest : List UInt8) (d : HpackDecoder),
    s.rest = e ++ rest → s.decoded + f.name.length + f.value.length ≤ maxDecodedBlock →
    ∃ w, (s.instruction b).run d =
      .ok ⟨rest, s.out ++ [f], s.decoded + f.name.length + f.value.length, true⟩
        { d with arena := w }

theorem entry_static {idx : Nat} (h : 1 ≤ idx ∧ idx ≤ 61) (d : HpackDecoder) :
    d.entry idx = .ok (staticEntry idx) := by
  rw [HpackDecoder.entry, if_neg (by omega), if_pos h.2, staticEntry]

theorem encodeIndexed_readAs (idx : Nat) (h : 1 ≤ idx ∧ idx ≤ 61) :
    ReadAs (encodeIndexed idx) (staticEntry idx) := by
  obtain ⟨x, hx, tail, hhead⟩ := encodeInt_head 0x80 7 idx
  have hbit : ∀ x < 2 ^ 7, ((0x80 : UInt8) ||| x.toUInt8) &&& 0x80 ≠ 0 := by decide +kernel
  refine ⟨_, tail, hhead, fun s rest d hrest hsize => ⟨d.arena, ?_⟩⟩
  have hint := decodeInt_encode 0x80 7 (by decide) (by decide) idx (by omega) rest
  rw [BlockState.instruction, if_pos (hbit x hx)]
  simp only [Decode.bind_ok, Decode.liftExcept_ok, Decode.entry_ok, Decode.field_ok]
  exact ⟨(idx, rest), d, ⟨by rw [hrest]; exact hint, rfl⟩, staticEntry idx, d,
    ⟨entry_static h d, rfl⟩, hsize, rfl, rfl⟩

/-- A literal without indexing, its name read as `literalName` reads it. -/
theorem literal_readAs {idx : Nat} (octets : List UInt8) {name value : List UInt8} (hidx : idx ≤ 61)
    (hname : name.length + value.length ≤ maxDecodedBlock → ∀ p (d : HpackDecoder),
      ∃ w, (BlockState.literalName idx (octets ++ p)).run d = .ok (name, p) { d with arena := w }) :
    ReadAs (encodeInt 0x00 4 idx ++ octets ++ encodeStr value) ⟨name, value⟩ := by
  obtain ⟨x, hx, tail, hhead⟩ := encodeInt_head 0x00 4 idx
  have hbits : ∀ x < 2 ^ 4, ((0x00 : UInt8) ||| x.toUInt8) &&& 0x80 = 0 ∧
      ((0x00 : UInt8) ||| x.toUInt8) &&& 0xc0 ≠ 0x40 ∧
      ((0x00 : UInt8) ||| x.toUInt8) &&& 0xe0 ≠ 0x20 := by decide +kernel
  obtain ⟨h80, h40, h20⟩ := hbits x hx
  refine ⟨_, tail ++ octets ++ encodeStr value, by rw [hhead]; rfl, fun s rest d hrest hsize => ?_⟩
  dsimp only at hsize
  have hmax : maxDecodedBlock ≤ 2 ^ 28 := by decide
  obtain ⟨w, hw⟩ := hname (by omega) (encodeStr value ++ rest) d
  have hint := decodeInt_encode 0x00 4 (by decide) (by decide) idx (by omega)
    (octets ++ (encodeStr value ++ rest))
  have hvalue := decodeStr_encode value rest (by omega)
  refine ⟨w ++ value, ?_⟩
  rw [BlockState.instruction, if_neg (not_not.mpr h80), if_neg h40, if_neg h20]
  simp only [Decode.bind_ok, BlockState.literal, Decode.liftExcept_ok, Decode.pure_ok,
    Decode.str_ok, Decode.field_ok]
  refine ⟨(⟨name, value⟩, rest), { d with arena := w ++ value }, ?_, hsize, rfl, rfl⟩
  refine ⟨(idx, octets ++ (encodeStr value ++ rest)), d, ⟨?_, rfl⟩, (name, encodeStr value ++ rest),
    { d with arena := w }, hw, (value, rest), _, ⟨by rw [hvalue], rfl⟩, rfl, by rw [hvalue]⟩
  rw [hrest, List.append_assoc, List.append_assoc]
  exact hint

theorem encodeLiteralNameIdx_readAs (idx : Nat) (h : 1 ≤ idx ∧ idx ≤ 61) (value : List UInt8) :
    ReadAs (encodeLiteralNameIdx idx value) ⟨(staticEntry idx).name, value⟩ := by
  have hread : ReadAs (encodeInt 0x00 4 idx ++ [] ++ encodeStr value)
      ⟨(staticEntry idx).name, value⟩ := by
    refine literal_readAs [] h.2 fun _ p d => ⟨d.arena, ?_⟩
    rw [BlockState.literalName, if_pos (by omega)]
    simp only [Decode.bind_ok, Decode.entry_ok, Decode.pure_ok]
    exact ⟨_, d, ⟨entry_static h d, rfl⟩, rfl, rfl⟩
  rwa [List.append_nil] at hread

theorem encodeLiteral_readAs (name value : List UInt8) :
    ReadAs (encodeLiteral name value) ⟨name, value⟩ := by
  refine literal_readAs (encodeStr name) (Nat.zero_le 61) fun hsize p d => ⟨d.arena ++ name, ?_⟩
  have hmax : maxDecodedBlock ≤ 2 ^ 28 := by decide
  have hname := decodeStr_encode name p (by omega)
  rw [BlockState.literalName, if_neg (by decide), Decode.str_ok, hname]
  exact ⟨rfl, rfl⟩

/-- The three digits of a status are its decimal digits. -/
theorem statusDigits_eq {status : Nat} (h : 100 ≤ status ∧ status ≤ 999) :
    statusDigits status = ascii (toString status) := by
  have hall : ∀ n < 900, statusDigits (n + 100) = ascii (toString (n + 100)) := by decide +kernel
  have hn := hall (status - 100) (by omega)
  rwa [Nat.sub_add_cancel h.1] at hn

/-- A status is an entry of the static table, or a literal under its name. -/
theorem encodeStatus_readAs {status : Nat} (h : 100 ≤ status ∧ status ≤ 999) :
    ReadAs (encodeStatus status) ⟨ascii ":status", ascii (toString status)⟩ := by
  rw [← statusDigits_eq h]
  unfold encodeStatus
  split
  case _ => exact encodeIndexed_readAs 8 (by decide)
  case _ => exact encodeIndexed_readAs 9 (by decide)
  case _ => exact encodeIndexed_readAs 10 (by decide)
  case _ => exact encodeIndexed_readAs 11 (by decide)
  case _ => exact encodeIndexed_readAs 12 (by decide)
  case _ => exact encodeIndexed_readAs 13 (by decide)
  case _ => exact encodeIndexed_readAs 14 (by decide)
  case _ =>
    rw [List.append_assoc]
    exact encodeLiteralNameIdx_readAs 8 (by decide) (statusDigits status)

/-- **One field.**  What an encoder appends is read as its field. -/
theorem FieldCall.readAs {c : FieldCall} (h : c.Valid) : ReadAs c.encode c.field := by
  cases c with
  | status n => exact encodeStatus_readAs h
  | indexed idx => exact encodeIndexed_readAs idx h
  | literalNameIdx idx value => exact encodeLiteralNameIdx_readAs idx h value
  | literal name value => exact encodeLiteral_readAs name value

/-! ### A block of fields -/

/-- The octets of names and values. -/
def FieldCall.size (c : FieldCall) : Nat := c.field.name.length + c.field.value.length

/-- The passes of `decode_into` over what encoders have appended. -/
theorem run_encode {calls : List FieldCall} (hvalid : ∀ c ∈ calls, c.Valid) {s : BlockState}
    {n : Nat} (hn : s.rest.length ≤ n) (hrest : s.rest = calls.flatMap FieldCall.encode)
    (hsize : s.decoded + (calls.map FieldCall.size).sum ≤ maxDecodedBlock) (d : HpackDecoder) :
    ∃ w, (BlockState.run n s).run d =
      .ok (s.out ++ calls.map FieldCall.field) { d with arena := w } := by
  induction calls generalizing s n d with
  | nil =>
      refine ⟨d.arena, ?_⟩
      rw [List.map_nil, List.append_nil]
      cases n with
      | zero => rfl
      | succ n =>
          rw [BlockState.run, hrest]
          rfl
  | cons c calls ih =>
      obtain ⟨b, tail, hhead, hread⟩ := FieldCall.readAs (hvalid c (List.mem_cons_self ..))
      rw [List.flatMap_cons] at hrest
      rw [List.map_cons, List.sum_cons, FieldCall.size] at hsize
      obtain ⟨w, hw⟩ := hread s _ d hrest (by omega)
      have hcons : s.rest = b :: (tail ++ calls.flatMap FieldCall.encode) := by
        rw [hrest, hhead, List.cons_append]
      have hlen := congrArg List.length hcons
      rw [List.length_cons, List.length_append] at hlen
      obtain ⟨n, rfl⟩ : ∃ k, n = k + 1 := ⟨n - 1, by omega⟩
      obtain ⟨w', hw'⟩ := ih (fun c hc => hvalid c (List.mem_cons_of_mem _ hc))
        (s := ⟨calls.flatMap FieldCall.encode, s.out ++ [c.field],
          s.decoded + c.field.name.length + c.field.value.length, true⟩)
        (n := n) (by dsimp only; omega) rfl (by dsimp only; omega) { d with arena := w }
      refine ⟨w', ?_⟩
      rw [BlockState.run, hcons]
      refine Decode.bind_ok.mpr ⟨_, _, hw, ?_⟩
      rw [hw', List.map_cons, List.append_assoc, List.singleton_append]

theorem decodeInto_encode {calls : List FieldCall} (hvalid : ∀ c ∈ calls, c.Valid)
    (hsize : (calls.map FieldCall.size).sum ≤ maxDecodedBlock) (d : HpackDecoder) :
    ∃ w, (decodeInto (calls.flatMap FieldCall.encode)).run d =
      .ok (calls.map FieldCall.field) { d with arena := w } := by
  obtain ⟨w, hw⟩ := run_encode hvalid
    (s := ⟨calls.flatMap FieldCall.encode, [], 0, false⟩) (Nat.le_refl _) rfl (by simpa using hsize)
    { d with arena := [] }
  exact ⟨w, hw⟩

/-! ### Frames -/

/-- Frames off the head of some octets with `parse_frame_header`, up to their end; `n` bounds how
many. -/
def parseFrames : Nat → List UInt8 → Option (List Frame)
  | _, [] => some []
  | 0, _ :: _ => none
  | n + 1, b :: bs => do
    let fh ← parseFrameHeader (b :: bs)
    let rest := (b :: bs).drop frameHeaderLen
    if rest.length < fh.length then none
    else
      let fs ← parseFrames n (rest.drop fh.length)
      return ⟨fh.type, fh.flags, fh.streamId, rest.take fh.length⟩ :: fs

/-- The frames some octets are. -/
def framesOf (b : List UInt8) : Option (List Frame) := parseFrames b.length b

/-- A frame as its header can say it: its length in 24 bits, its type a known one. -/
structure Frame.Fits (f : Frame) : Prop where
  short : f.payload.length < 2 ^ 24
  known : FrameType.ofByte f.type.toByte = f.type

/-- The reserved bit of the stream is not sent. -/
def Frame.sent (f : Frame) : Frame := { f with streamId := f.streamId % 2 ^ 31 }

theorem length_frame_bytes (f : Frame) : f.bytes.length = 9 + f.payload.length := by
  rw [Frame.bytes, List.length_append]
  rfl

theorem parseFrameHeader_bytes {f : Frame} (h : f.Fits) (rest : List UInt8) :
    parseFrameHeader (f.bytes ++ rest) =
      some ⟨f.payload.length, f.type, f.flags, f.streamId % 2 ^ 31⟩ := by
  have hlen : ¬ (f.bytes ++ rest).length < frameHeaderLen := by
    rw [List.length_append, length_frame_bytes, frameHeaderLen]
    omega
  have hshort := h.short
  rw [parseFrameHeader, if_neg hlen, Option.some.injEq, FrameHeader.mk.injEq]
  refine ⟨?_, h.known, rfl, ?_⟩
  · simp only [Frame.bytes, bigEndian, List.cons_append, List.take_succ_cons, List.take_zero,
      List.foldl_cons, List.foldl_nil, toNat_toUInt8]
    omega
  · simp only [Frame.bytes, writeU32, bigEndian, List.cons_append, List.nil_append,
      List.drop_succ_cons, List.drop_zero, List.take_succ_cons, List.take_zero,
      List.foldl_cons, List.foldl_nil, toNat_toUInt8]
    omega

theorem length_le_frame_bytes (fs : List Frame) :
    fs.length ≤ (fs.flatMap Frame.bytes).length := by
  induction fs with
  | nil => exact Nat.le_refl _
  | cons f fs ih =>
      rw [List.flatMap_cons, List.length_append, length_frame_bytes, List.length_cons]
      omega

/-- Frames are read back off their octets. -/
theorem parseFrames_bytes {fs : List Frame} (h : ∀ f ∈ fs, f.Fits) {n : Nat} (hn : fs.length ≤ n) :
    parseFrames n (fs.flatMap Frame.bytes) = some (fs.map Frame.sent) := by
  induction fs generalizing n with
  | nil => cases n <;> rfl
  | cons f fs ih =>
      obtain ⟨n, rfl⟩ : ∃ k, n = k + 1 := ⟨n - 1, by rw [List.length_cons] at hn; omega⟩
      have hhead := parseFrameHeader_bytes (h f (List.mem_cons_self ..)) (fs.flatMap Frame.bytes)
      have hdrop : (f.bytes ++ fs.flatMap Frame.bytes).drop frameHeaderLen =
          f.payload ++ fs.flatMap Frame.bytes := rfl
      have hrest := ih (fun g hg => h g (List.mem_cons_of_mem _ hg)) (Nat.le_of_succ_le_succ hn)
      rw [List.flatMap_cons]
      generalize hb : f.bytes ++ fs.flatMap Frame.bytes = bs at hhead hdrop
      cases bs with
      | nil => cases hhead
      | cons b bs =>
          rw [parseFrames, hhead, hdrop]
          simp only [Option.bind_eq_bind, Option.bind_some, List.length_append,
            List.drop_left, List.take_left, hrest]
          rw [if_neg (by omega)]
          rfl

/-! ### The frames of a block -/

/-- The CONTINUATION frames of what the HEADERS frame leaves: END_HEADERS is on the last of them,
and their payloads are what was left. -/
theorem continuationFrames_shape (id : Nat) {m n : Nat} (hm : 0 < m) {b : List UInt8} (hb : b ≠ [])
    (hn : b.length ≤ n) :
    ∃ k, (continuationFrames id m n b).map Frame.endHeaders = List.replicate k false ++ [true] ∧
      (continuationFrames id m n b).flatMap Frame.payload = b := by
  induction n generalizing b with
  | zero => exact absurd (List.eq_nil_of_length_eq_zero (Nat.le_zero.mp hn)) hb
  | succ n ih =>
      rw [continuationFrames, if_neg hb]
      split
      · rename_i hlong
        have hrest : b.drop m ≠ [] := by
          intro hnil
          have := congrArg List.length hnil
          rw [List.length_drop, List.length_nil] at this
          omega
        obtain ⟨k, hflags, hpayload⟩ := ih hrest (by rw [List.length_drop]; omega)
        refine ⟨k + 1, ?_, ?_⟩
        · rw [List.map_cons, hflags, List.replicate_succ, List.cons_append]
          exact congrArg (· :: _) (show ((0 : UInt8) &&& flagEndHeaders != 0) = false by decide)
        · rw [List.flatMap_cons, hpayload, List.take_append_drop]
      · refine ⟨0, ?_, by rw [List.flatMap_singleton]⟩
        exact congrArg (· :: _) (show (flagEndHeaders &&& flagEndHeaders != 0) = true by decide)

/-- The frames of a block: a HEADERS frame, and CONTINUATION frames behind it. -/
theorem headerFrames_shape (id : Nat) {m : Nat} (hm : 0 < m) (block : List UInt8)
    (endStream : Bool) :
    ∃ f conts, headerFrames id m block endStream = f :: conts ∧ f.type = .headers ∧
      (∀ g ∈ conts, g.type = .continuation) ∧ f.endStream = endStream ∧
      (∃ k, (f :: conts).map Frame.endHeaders = List.replicate k false ++ [true]) ∧
      (f :: conts).flatMap Frame.payload = block := by
  have hflag : ∀ es, ((if es = true then flagEndStream else 0) &&& flagEndStream != 0) = es ∧
      ((if es = true then flagEndStream else 0) &&& flagEndHeaders != 0) = false ∧
      ((flagEndHeaders ||| if es = true then flagEndStream else 0) &&& flagEndStream != 0) = es ∧
      ((flagEndHeaders ||| if es = true then flagEndStream else 0) &&& flagEndHeaders != 0) =
        true := by
    decide
  obtain ⟨hes, hno, hes', hyes⟩ := hflag endStream
  rw [headerFrames]
  split
  · exact ⟨_, [], rfl, rfl, fun _ h => absurd h List.not_mem_nil, hes', ⟨0, congrArg (· :: _) hyes⟩,
      List.flatMap_singleton ..⟩
  · rename_i hlong
    have hrest : block.drop m ≠ [] := by
      intro hnil
      have := congrArg List.length hnil
      rw [List.length_drop, List.length_nil] at this
      omega
    obtain ⟨k, hflags, hpayload⟩ := continuationFrames_shape id hm hrest
      (show (block.drop m).length ≤ block.length by rw [List.length_drop]; omega)
    refine ⟨_, _, rfl, rfl, fun g hg => (continuationFrames_fit hg).1, hes, ⟨k + 1, ?_⟩, ?_⟩
    · rw [List.map_cons, hflags, List.replicate_succ, List.cons_append]
      exact congrArg (· :: _) hno
    · rw [List.flatMap_cons, hpayload, List.take_append_drop]

/-- The octets `write_response_headers` appends. -/
def ServerConn.responseHeaderBytes (c : ServerConn) (id : Nat) (block : List UInt8)
    (endStream : Bool) : List UInt8 :=
  (c.writeResponseHeaders id block endStream).out.flatMap Frame.bytes

/-- **Response headers round-trip.**  The octets written for a list of fields are one HEADERS frame
and CONTINUATION frames of its stream, none above the peer's limit, END_HEADERS on the last only and
END_STREAM on the first when asked; and their payloads decode, from any decoder, to the fields, and
leave its table as it was. -/
theorem response_headers_round_trip (c : ServerConn) (id : Nat) (calls : List FieldCall)
    (endStream : Bool) (d : HpackDecoder) (hvalid : ∀ call ∈ calls, call.Valid)
    (hsize : (calls.map FieldCall.size).sum ≤ 256 * 1024) (hmin : 16384 ≤ c.peerMaxFrame)
    (hmax : c.peerMaxFrame ≤ 2 ^ 24 - 1) :
    ∃ f conts,
      framesOf (c.responseHeaderBytes id (calls.flatMap FieldCall.encode) endStream) =
        some (f :: conts) ∧
      f.type = .headers ∧ (∀ g ∈ conts, g.type = .continuation) ∧
      (∀ g ∈ f :: conts, g.streamId = id % 2 ^ 31 ∧ g.payload.length ≤ c.peerMaxFrame) ∧
      (f :: conts).map Frame.endHeaders = List.replicate conts.length false ++ [true] ∧
      f.endStream = endStream ∧
      ∃ arena, (decodeInto ((f :: conts).flatMap Frame.payload)).run d =
        .ok (calls.map FieldCall.field) { d with arena := arena } := by
  obtain ⟨f, conts, hframes, htype, hconts, hend, ⟨k, hflags⟩, hpayload⟩ :=
    headerFrames_shape id (show 0 < c.peerMaxFrame by omega) (calls.flatMap FieldCall.encode)
      endStream
  have hfit : ∀ g ∈ f :: conts, g.streamId = id ∧ g.payload.length ≤ c.peerMaxFrame := by
    intro g hg
    rw [← hframes] at hg
    exact (headerFrames_fit hg).2
  have hknown : ∀ g ∈ f :: conts, g.Fits := by
    intro g hg
    refine ⟨by have := (hfit g hg).2; omega, ?_⟩
    rcases List.mem_cons.mp hg with rfl | hg
    · rw [htype]
      rfl
    · rw [hconts g hg]
      rfl
  have hk : k = conts.length := by
    have := congrArg List.length hflags
    simpa using this.symm
  have hbytes : c.responseHeaderBytes id (calls.flatMap FieldCall.encode) endStream =
      (f :: conts).flatMap Frame.bytes := by
    rw [ServerConn.responseHeaderBytes, ServerConn.writeResponseHeaders, hframes]
  refine ⟨f.sent, conts.map Frame.sent, ?_, htype, ?_, ?_, ?_, hend, ?_⟩
  · rw [framesOf, hbytes]
    exact parseFrames_bytes hknown (length_le_frame_bytes _)
  · intro g hg
    obtain ⟨g', hg', rfl⟩ := List.mem_map.mp hg
    exact hconts g' hg'
  · intro g hg
    rw [← List.map_cons] at hg
    obtain ⟨g', hg', rfl⟩ := List.mem_map.mp hg
    obtain ⟨hid, hle⟩ := hfit g' hg'
    exact ⟨by rw [← hid]; rfl, hle⟩
  · rw [List.length_map, ← hk, ← hflags, ← List.map_cons, List.map_map]
    rfl
  · rw [← List.map_cons, List.flatMap_map]
    obtain ⟨w, hw⟩ := decodeInto_encode hvalid hsize d
    refine ⟨w, ?_⟩
    rw [← hw, ← hpayload]
    rfl

/-- A redirect, to a peer that keeps the default frame size. -/
def redirect : List FieldCall :=
  [.status 307, .literalNameIdx 46 (ascii "/login"), .indexed 16,
    .literal (ascii "x-id") (ascii "7")]

theorem response_headers_round_trip_redirect : ∃ f conts,
    framesOf (newServerConn.responseHeaderBytes 1 (redirect.flatMap FieldCall.encode) true) =
      some (f :: conts) ∧ f.endStream = true ∧
      ∃ arena, (decodeInto ((f :: conts).flatMap Frame.payload)).run (newDecoder 4096) =
        .ok [⟨ascii ":status", ascii "307"⟩, ⟨ascii "location", ascii "/login"⟩,
            ⟨ascii "accept-encoding", ascii "gzip, deflate"⟩, ⟨ascii "x-id", ascii "7"⟩]
          { newDecoder 4096 with arena := arena } := by
  obtain ⟨f, conts, hframes, -, -, -, -, hend, hdecoded⟩ :=
    response_headers_round_trip newServerConn 1 redirect true (newDecoder 4096)
      (by simp [redirect, FieldCall.Valid]) (by decide +kernel) (by decide) (by decide)
  have hfields : redirect.map FieldCall.field =
      [⟨ascii ":status", ascii "307"⟩, ⟨ascii "location", ascii "/login"⟩,
        ⟨ascii "accept-encoding", ascii "gzip, deflate"⟩, ⟨ascii "x-id", ascii "7"⟩] := by
    decide +kernel
  rw [hfields] at hdecoded
  exact ⟨f, conts, hframes, hend, hdecoded⟩

end Vanilla.Http2

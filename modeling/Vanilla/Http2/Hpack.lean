import Vanilla.Http1.Basic

/-!
# HTTP/2 — the HPACK decoder

`http2/hpack.v`, the receiving side: integers and strings of a header block, the Huffman code, the
static and the dynamic table, and `decode_into`.

A block is a list of bytes, and what is left of it after a step stands for the source's `pos`.  A
string is the list of its bytes; the arena a block's strings are written to is the decoder's
`arena`, and since it is not moved while the block is decoded (it is sized at entry), a string and
the bytes it views are one value here.  A decoder that fails keeps what it had changed before.
-/

namespace Vanilla.Http2
open Scan

/-! ### Constants -/

/-- `max_decoded_block`. -/
def maxDecodedBlock : Nat := 256 * 1024

/-- `hpack_default_table_size`. -/
def hpackDefaultTableSize : Nat := 4096

/-- `static_name`. -/
def staticName : List String := [
  ":authority", ":method", ":method", ":path", ":path", ":scheme", ":scheme", ":status",
  ":status", ":status", ":status", ":status", ":status", ":status", "accept-charset",
  "accept-encoding", "accept-language", "accept-ranges", "accept", "access-control-allow-origin",
  "age", "allow", "authorization", "cache-control", "content-disposition", "content-encoding",
  "content-language", "content-length", "content-location", "content-range", "content-type",
  "cookie", "date", "etag", "expect", "expires", "from", "host", "if-match", "if-modified-since",
  "if-none-match", "if-range", "if-unmodified-since", "last-modified", "link", "location",
  "max-forwards", "proxy-authenticate", "proxy-authorization", "range", "referer", "refresh",
  "retry-after", "server", "set-cookie", "strict-transport-security", "transfer-encoding",
  "user-agent", "vary", "via", "www-authenticate"]

/-- `static_value`. -/
def staticValue : List String := [
  "", "GET", "POST", "/", "/index.html", "http", "https", "200", "204", "206", "304", "400",
  "404", "500", "", "gzip, deflate", "", "", "", "", "", "", "", "", "", "", "", "", "", "", "",
  "", "", "", "", "", "", "", "", "", "", "", "", "", "", "", "", "", "", "", "", "", "", "", "",
  "", "", "", "", "", ""]

/-- `huff_len`. -/
def huffLen : List Nat := [
  5, 6, 7, 8, 10, 11, 12, 13, 14, 15, 19, 20, 21, 22, 23, 24, 25, 26, 27, 28, 30]

/-- `huff_first`. -/
def huffFirst : List Nat := [
  0x0, 0x14, 0x5c, 0xf8, 0x3f8, 0x7fa, 0xffa, 0x1ff8, 0x3ffc, 0x7ffc, 0x7fff0, 0xfffe6, 0x1fffdc,
  0x3fffd2, 0x7fffd8, 0xffffea, 0x1ffffec, 0x3ffffe0, 0x7ffffde, 0xfffffe2, 0x3ffffffc]

/-- `huff_count`. -/
def huffCount : List Nat := [
  10, 26, 32, 6, 5, 3, 2, 6, 2, 3, 3, 8, 13, 26, 29, 12, 4, 15, 19, 29, 4]

/-- `huff_base`. -/
def huffBase : List Nat := [
  0, 10, 36, 68, 74, 79, 82, 84, 90, 92, 95, 98, 106, 119, 145, 174, 186, 190, 205, 224, 253]

/-- `huff_symbol`; 256 is EOS. -/
def huffSymbol : List Nat := [
  48, 49, 50, 97, 99, 101, 105, 111, 115, 116, 32, 37, 45, 46, 47, 51, 52, 53, 54, 55, 56, 57, 61,
  65, 95, 98, 100, 102, 103, 104, 108, 109, 110, 112, 114, 117, 58, 66, 67, 68, 69, 70, 71, 72,
  73, 74, 75, 76, 77, 78, 79, 80, 81, 82, 83, 84, 85, 86, 87, 89, 106, 107, 113, 118, 119, 120,
  121, 122, 38, 42, 44, 59, 88, 90, 33, 34, 40, 41, 63, 39, 43, 124, 35, 62, 0, 36, 64, 91, 93,
  126, 94, 125, 60, 96, 123, 92, 195, 208, 128, 130, 131, 162, 184, 194, 224, 226, 153, 161, 167,
  172, 176, 177, 179, 209, 216, 217, 227, 229, 230, 129, 132, 133, 134, 136, 146, 154, 156, 160,
  163, 164, 169, 170, 173, 178, 181, 185, 186, 187, 189, 190, 196, 198, 228, 232, 233, 1, 135,
  137, 138, 139, 140, 141, 143, 147, 149, 150, 151, 152, 155, 157, 158, 165, 166, 168, 174, 175,
  180, 182, 183, 188, 191, 197, 231, 239, 9, 142, 144, 145, 148, 159, 171, 206, 215, 225, 236,
  237, 199, 207, 234, 235, 192, 193, 200, 201, 202, 205, 210, 213, 218, 219, 238, 240, 242, 243,
  255, 203, 204, 211, 212, 214, 221, 222, 223, 241, 244, 245, 246, 247, 248, 250, 251, 252, 253,
  254, 2, 3, 4, 5, 6, 7, 8, 11, 12, 14, 15, 16, 17, 18, 19, 20, 21, 23, 24, 25, 26, 27, 28, 29,
  30, 31, 127, 220, 249, 10, 13, 22, 256]

/-- The ways a header block can fail to decode. -/
inductive HpackError where
  | blockTooLarge
  | sizeUpdateAfterField
  | sizeUpdateAboveLimit
  | indexZero
  | indexBeyondTable
  | truncatedString
  | stringBeyondBlock
  | truncatedInteger
  | integerTooLong
  | integerTooLarge
  | eosSymbol
  | invalidCode
  | paddingTooLong
  | invalidPadding
  deriving DecidableEq, Repr

/-! ### Integers -/

/-- The octets behind a full first one, `v` being read so far. -/
def decodeIntRest (v shift : Nat) : List UInt8 → Except HpackError (Nat × List UInt8)
  | [] => .error .truncatedInteger
  | b :: rest =>
    let v := v + (b &&& 0x7f).toNat <<< shift
    let shift := shift + 7
    if shift > 35 then .error .integerTooLong
    else if b &&& 0x80 = 0 then
      if v > 1 <<< 28 then .error .integerTooLarge else .ok (v, rest)
    else decodeIntRest v shift rest

/-- `decode_int` of an integer with `bits` bits in its first octet. -/
def decodeInt (bits : Nat) : List UInt8 → Except HpackError (Nat × List UInt8)
  | [] => .error .truncatedInteger
  | b :: rest =>
    let mask := 1 <<< bits - 1
    let v := b.toNat &&& mask
    if v < mask then .ok (v, rest) else decodeIntRest v 0 rest

/-! ### Strings -/

/-- One bit-length of the code: the codes of `len` bits are `first`, `first + 1`, …, and their
symbols stand from `base` on. -/
structure HuffRow where
  len : Nat
  first : Nat
  count : Nat
  base : Nat

def huffRows : List HuffRow :=
  (huffLen.zip (huffFirst.zip (huffCount.zip huffBase))).map fun (l, f, c, b) => ⟨l, f, c, b⟩

/-- The bits read and not used yet, and the octets written. -/
structure HuffState where
  cur : Nat
  nbits : Nat
  out : List UInt8

/-- The code at the head of the bits, with its length: `for i in 0 .. huff_len.len`. -/
def huffFind (cur nbits : Nat) : List HuffRow → Option (Nat × Nat)
  | [] => none
  | r :: rows =>
    if r.len > nbits then none
    else
      let top := cur >>> (nbits - r.len) % 2 ^ 32
      if r.first ≤ top ∧ top < r.first + r.count then
        some (r.len, huffSymbol.getD (r.base + (top - r.first)) 0)
      else huffFind cur nbits rows

/-- One pass of the loop that takes codes off the bits. -/
def huffStep (s : HuffState) : Turn HuffState (HuffState × Option HpackError) :=
  match huffFind s.cur s.nbits huffRows with
  | some (len, sym) =>
    if sym = 256 then .exit (s, some .eosSymbol)
    else
      let nbits := s.nbits - len
      .next ⟨s.cur &&& (1 <<< nbits - 1), nbits, s.out ++ [sym.toUInt8]⟩
  | none => .exit (s, if s.nbits ≥ 30 then some .invalidCode else none)

def huffLoop (s : HuffState) : HuffState × Option HpackError :=
  loop huffStep (·.nbits) (s, none) s

/-- The walk over the octets, and the checks on what is left at their end. -/
def huffOctets : List UInt8 → HuffState → HuffState × Option HpackError
  | [], s =>
    (s,
      if s.nbits > 7 then some .paddingTooLong
      else if s.cur ≠ 1 <<< s.nbits - 1 then some .invalidPadding
      else none)
  | b :: src, s =>
    match huffLoop { s with cur := s.cur <<< 8 ||| b.toNat, nbits := s.nbits + 8 } with
    | (s', some e) => (s', some e)
    | (s', none) => huffOctets src s'

/-- `huffman_decode`: the octets it appends, also when it fails. -/
def huffmanDecode (src : List UInt8) : List UInt8 × Option HpackError :=
  let (s, e) := huffOctets src ⟨0, 0, []⟩
  (s.out, e)

/-- `decode_str`: the octets it appends to the arena, and the string, which is those octets, with
the block behind it. -/
def decodeStr (b : List UInt8) : List UInt8 × Except HpackError (List UInt8 × List UInt8) :=
  match b with
  | [] => ([], .error .truncatedString)
  | c :: _ =>
    match decodeInt 7 b with
    | .error e => ([], .error e)
    | .ok (n, rest) =>
      if n > rest.length then ([], .error .stringBeyondBlock)
      else if n = 0 then ([], .ok ([], rest))
      else
        let (text, e) :=
          if c &&& 0x80 ≠ 0 then huffmanDecode (rest.take n) else (rest.take n, none)
        match e with
        | some e => (text, .error e)
        | none => (text, .ok (text, rest.drop n))

/-! ### The decoder -/

/-- `HeaderField`. -/
structure HeaderField where
  name : List UInt8
  value : List UInt8
  deriving DecidableEq, Repr

/-- What a field takes in the dynamic table. -/
def HeaderField.size (f : HeaderField) : Nat := f.name.length + f.value.length + 32

/-- `HpackDecoder`; `dyn` has the newest entry first. -/
structure HpackDecoder where
  dyn : List HeaderField
  dynSize : Nat
  maxSize : Nat
  curMax : Nat
  arena : List UInt8
  deriving DecidableEq

/-- `new_decoder`. -/
def newDecoder (maxSize : Nat) : HpackDecoder := ⟨[], 0, maxSize, maxSize, []⟩

namespace HpackDecoder

/-- One pass of `evict`. -/
def evictStep (d : HpackDecoder) : Turn HpackDecoder HpackDecoder :=
  match d.dyn.getLast? with
  | some last =>
    if d.dynSize > d.curMax then
      .next { d with dyn := d.dyn.dropLast, dynSize := d.dynSize - last.size }
    else .exit d
  | none => .exit d

/-- `evict`. -/
def evict (d : HpackDecoder) : HpackDecoder := loop evictStep (·.dyn.length) d d

/-- `add`. -/
def add (d : HpackDecoder) (f : HeaderField) : HpackDecoder :=
  evict { d with dyn := f :: d.dyn, dynSize := d.dynSize + f.size }

/-- `entry`. -/
def entry (d : HpackDecoder) (idx : Nat) : Except HpackError HeaderField :=
  if idx = 0 then .error .indexZero
  else if idx ≤ 61 then
    .ok ⟨ascii (staticName.getD (idx - 1) ""), ascii (staticValue.getD (idx - 1) "")⟩
  else
    match d.dyn[idx - 62]? with
    | some f => .ok f
    | none => .error .indexBeyondTable

end HpackDecoder

/-! ### A block -/

/-- A computation of the decoder: it may fail, and keeps its state when it does. -/
abbrev Decode := EStateM HpackError HpackDecoder

/-- `decode_str` into the arena. -/
def decodeStrInto (b : List UInt8) : Decode (List UInt8 × List UInt8) := do
  modify fun d => { d with arena := d.arena ++ (decodeStr b).1 }
  liftExcept (decodeStr b).2

/-- `d.entry(idx)`. -/
def decodeEntry (idx : Nat) : Decode HeaderField := do
  liftExcept ((← get).entry idx)

/-- The loop variables of `decode_into`. -/
structure BlockState where
  rest : List UInt8
  out : List HeaderField
  decoded : Nat
  fieldsSeen : Bool

namespace BlockState

/-- A field is decoded: the check of the block's decoded size, and the field appended to `out`. -/
def field (s : BlockState) (rest : List UInt8) (f : HeaderField) : Decode BlockState := do
  let decoded := s.decoded + f.name.length + f.value.length
  if decoded > maxDecodedBlock then throw .blockTooLarge
  else return ⟨rest, s.out ++ [f], decoded, true⟩

/-- The name of a literal: that of an entry, or a string. -/
def literalName (idx : Nat) (p : List UInt8) : Decode (List UInt8 × List UInt8) :=
  if idx > 0 then do
    let f ← decodeEntry idx
    return (f.name, p)
  else decodeStrInto p

/-- A literal with an index of `bits` bits in its first octet: the field and the block behind. -/
def literal (s : BlockState) (bits : Nat) : Decode (HeaderField × List UInt8) := do
  let (idx, p) ← liftExcept (decodeInt bits s.rest)
  let (name, p) ← literalName idx p
  let (value, p) ← decodeStrInto p
  return (⟨name, value⟩, p)

/-- One pass of the loop of `decode_into`, at an octet `b`. -/
def instruction (s : BlockState) (b : UInt8) : Decode BlockState := do
  if b &&& 0x80 ≠ 0 then
    let (idx, p) ← liftExcept (decodeInt 7 s.rest)
    s.field p (← decodeEntry idx)
  else if b &&& 0xc0 = 0x40 then
    let (f, p) ← s.literal 6
    let s' ← s.field p f
    modify (·.add f)
    return s'
  else if b &&& 0xe0 = 0x20 then
    if s.fieldsSeen then throw .sizeUpdateAfterField
    else
      let (size, p) ← liftExcept (decodeInt 5 s.rest)
      if size > (← get).maxSize then throw .sizeUpdateAboveLimit
      else
        modify fun d => HpackDecoder.evict { d with curMax := size }
        return { s with rest := p }
  else
    let (f, p) ← s.literal 4
    s.field p f

/-- The loop of `decode_into`.  Every pass takes an octet at least, so that the length of the block
bounds them. -/
def run : Nat → BlockState → Decode (List HeaderField)
  | 0, s => return s.out
  | n + 1, s =>
    match s.rest with
    | [] => return s.out
    | b :: _ => do run n (← s.instruction b)

end BlockState

/-- `decode_into`: the fields it refills `out` with. -/
def decodeInto (block : List UInt8) : Decode (List HeaderField) := do
  modify fun d => { d with arena := [] }
  BlockState.run block.length ⟨block, [], 0, false⟩

end Vanilla.Http2

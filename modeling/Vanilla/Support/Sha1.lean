import Vanilla.Support.Blocks
import Vanilla.Support.Words

/-!
# Support — SHA-1

SHA-1 as FIPS 180-4 defines it, on messages of whole bytes: the functions and constants of §4.1.1
and §4.2.1, the padding of §5.1.1, and the computation of §6.1.2.
-/

namespace Sha1
open Words

/-- `ROTL`. -/
def rotl (n x : UInt32) : UInt32 := (x <<< n) ||| (x >>> (32 - n))

def ch (x y z : UInt32) : UInt32 := (x &&& y) ^^^ (~~~x &&& z)

def parity (x y z : UInt32) : UInt32 := x ^^^ y ^^^ z

def maj (x y z : UInt32) : UInt32 := (x &&& y) ^^^ (x &&& z) ^^^ (y &&& z)

/-- `f` at round `t`. -/
def roundFunction (t : Nat) : UInt32 → UInt32 → UInt32 → UInt32 :=
  if t < 20 then ch else if t < 40 then parity else if t < 60 then maj else parity

/-- `K` at round `t`. -/
def roundConstant (t : Nat) : UInt32 :=
  if t < 20 then 0x5a827999 else if t < 40 then 0x6ed9eba1
  else if t < 60 then 0x8f1bbcdc else 0xca62c1d6

/-- Five words: a hash value, or the working variables. -/
structure Hash where
  a : UInt32
  b : UInt32
  c : UInt32
  d : UInt32
  e : UInt32
  deriving DecidableEq

/-- The initial hash value. -/
def initial : Hash := ⟨0x67452301, 0xefcdab89, 0x98badcfe, 0x10325476, 0xc3d2e1f0⟩

/-- Word `i` of a block: four bytes, the first one highest. -/
def blockWord (block : List UInt8) (i : Nat) : UInt32 :=
  (number ((block.drop (4 * i)).take 4)).toUInt32

/-- The message schedule. -/
def schedule (block : List UInt8) (t : Nat) : UInt32 :=
  if t < 16 then blockWord block t
  else
    rotl 1 (schedule block (t - 3) ^^^ schedule block (t - 8) ^^^ schedule block (t - 14) ^^^
      schedule block (t - 16))
  termination_by t
  decreasing_by all_goals omega

/-- One round. -/
def round (block : List UInt8) (s : Hash) (t : Nat) : Hash :=
  { a := rotl 5 s.a + roundFunction t s.b s.c s.d + s.e + roundConstant t + schedule block t
    b := s.a
    c := rotl 30 s.b
    d := s.c
    e := s.d }

/-- The next hash value. -/
def compress (h : Hash) (block : List UInt8) : Hash :=
  let s := (List.range 80).foldl (round block) h
  ⟨h.a + s.a, h.b + s.b, h.c + s.c, h.d + s.d, h.e + s.e⟩

/-- How many zero bytes the padding has: the fewest that leave eight bytes for the length. -/
def zeros (n : Nat) : Nat := (119 - n % 64) % 64

/-- The padding of a message of `n` bytes. -/
def padding (n : Nat) : List UInt8 := 0x80 :: List.replicate (zeros n) 0 ++ bytesOf 8 (8 * n)

/-- The octets of a hash value. -/
def Hash.bytes (h : Hash) : List UInt8 :=
  [h.a, h.b, h.c, h.d, h.e].flatMap fun w => bytesOf 4 w.toNat

/-- SHA-1 of a message. -/
def digest (m : List UInt8) : List UInt8 :=
  (Blocks.fold 64 compress ((m ++ padding m.length).length / 64) initial
    (m ++ padding m.length)).bytes

/-- A padded message is made of whole blocks. -/
theorem padded_length (m : List UInt8) :
    (m ++ padding m.length).length = (m ++ padding m.length).length / 64 * 64 := by
  have hlen : (m ++ padding m.length).length = m.length + (zeros m.length + 9) := by
    simp only [padding, List.length_append, List.length_cons, List.length_replicate,
      length_bytesOf]
  rw [hlen, zeros]
  omega

theorem schedule_word (block : List UInt8) {t : Nat} (h : t < 16) :
    schedule block t = blockWord block t := by
  rw [schedule, if_pos h]

theorem schedule_next (block : List UInt8) {t : Nat} (h : 16 ≤ t) :
    schedule block t = rotl 1 (schedule block (t - 3) ^^^ schedule block (t - 8) ^^^
      schedule block (t - 14) ^^^ schedule block (t - 16)) := by
  rw [schedule, if_neg (Nat.not_lt.mpr h)]

end Sha1

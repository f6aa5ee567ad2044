import Mathlib.Algebra.Group.Int.Defs
import Mathlib.Algebra.GroupWithZero.Nat
import Vanilla.Support.Lines

/-!
# HTTP/1.1 — bytes

What the server's parser, the client codec and the upstream client share: the bytes that HTTP/1.1
gives a meaning to, and the byte-level helpers of `request_parser.v` and `client.v`
(`find_byte_idx`, `ascii_ci_eq`, `hex_digit`, `chunk_tchar`).

A `[]u8` is the list of its bytes.  V's `int` has 64 bits, and what the parsers add to a position
in a buffer is at most 2³⁰ (`max_declared`): no sum of theirs leaves its range in a buffer that
memory can hold, so lengths and positions are `Nat`.
-/

namespace Vanilla

/-! ### Bytes -/

/-- `cr_char`. -/
def cr : UInt8 := 13
/-- `lf_char`. -/
def lf : UInt8 := 10
/-- `empty_space`. -/
def sp : UInt8 := 32
/-- `htab_char`. -/
def htab : UInt8 := 9
/-- `colon_u8`. -/
def colon : UInt8 := 58
def comma : UInt8 := 44
def semicolon : UInt8 := 59
/-- `equal_u8`. -/
def equal : UInt8 := 61
def dquote : UInt8 := 34
def backslash : UInt8 := 92

theorem cr_ne_lf : cr ≠ lf := by decide

/-- `crlf`. -/
def crlf : List UInt8 := [cr, lf]

/-- The bytes of an ASCII text. -/
def ascii (s : String) : List UInt8 := s.toList.map fun c => c.toNat.toUInt8

/-- A property of every byte is a property of 256 of them. -/
theorem forall_byte {P : UInt8 → Prop} (h : ∀ n : Fin 256, P (UInt8.ofFin n)) (c : UInt8) : P c :=
  h c.toFin

/-- SP or HTAB: `c == empty_space || c == htab_char`. -/
def isOws (c : UInt8) : Bool := c == sp || c == htab

/-- A control byte other than HTAB: `(c < 0x20 && c != htab_char) || c == 0x7f`. -/
def isCtl (c : UInt8) : Bool := (c < 0x20 && c != htab) || c == 0x7f

/-- `find_byte_idx`: the index of the first `c`. -/
def findByteIdx (b : List UInt8) (c : UInt8) : Option Nat := b.idxOf? c

/-- `find_sequence_idx`: the index of the first occurrence of `needle`. -/
def findSequenceIdx (needle : List UInt8) : List UInt8 → Option Nat
  | [] => if needle = [] then some 0 else none
  | c :: b =>
    if needle.isPrefixOf (c :: b) then some 0 else (findSequenceIdx needle b).map (· + 1)

/-- One byte of `ascii_ci_eq`: equal, or different in the case bit of a letter only. -/
def asciiCiByte (a b : UInt8) : Bool :=
  let x := a ^^^ b
  x == 0 || (x == 0x20 && (let c := a ||| 0x20; 97 ≤ c && c ≤ 122))

/-- `ascii_ci_eq`. -/
def asciiCiEq : List UInt8 → List UInt8 → Bool
  | [], [] => true
  | a :: as, b :: bs => asciiCiByte a b && asciiCiEq as bs
  | _, _ => false

/-- `A`–`Z` to `a`–`z`: `if c >= 'A' && c <= 'Z' { c += 32 }`. -/
def lower (c : UInt8) : UInt8 := if 65 ≤ c && c ≤ 90 then c + 32 else c

/-- `hex_digit`, `none` for its -1. -/
def hexDigit (c : UInt8) : Option Nat :=
  if 48 ≤ c && c ≤ 57 then some (c.toNat - 48)
  else if 97 ≤ c && c ≤ 102 then some (c.toNat - 97 + 10)
  else if 65 ≤ c && c ≤ 70 then some (c.toNat - 65 + 10)
  else none

def chunkTcharLo : UInt64 := 0x03ff6cfa00000000
def chunkTcharHi : UInt64 := 0x57ffffffc7fffffe

/-- `chunk_tchar`. -/
def chunkTchar (c : UInt8) : Bool :=
  if c < 64 then (chunkTcharLo >>> c.toUInt64) &&& 1 != 0
  else c < 128 && (chunkTcharHi >>> (c - 64).toUInt64) &&& 1 != 0

/-! ### Case folding -/

theorem lower_upper {c : UInt8} (h : 65 ≤ c ∧ c ≤ 90) : lower c = c + 32 := by
  simp [lower, h.1, h.2]

theorem lower_other {c : UInt8} (h : ¬ (65 ≤ c ∧ c ≤ 90)) : lower c = c := by
  simp only [lower, Bool.and_eq_true, decide_eq_true_eq, if_neg h]

/-- Flipping the case bit of a letter changes nothing else. -/
theorem lower_flip : ∀ a : UInt8, 97 ≤ a ||| 0x20 → a ||| 0x20 ≤ 122 →
    lower (a ^^^ 0x20) = lower a :=
  forall_byte (by decide +kernel)

theorem asciiCiByte_upper : ∀ a : UInt8, 65 ≤ a → a ≤ 90 →
    asciiCiByte a (a + 32) = true ∧ asciiCiByte (a + 32) a = true :=
  forall_byte (by decide +kernel)

theorem asciiCiByte_self (a : UInt8) : asciiCiByte a a = true := by
  simp [asciiCiByte]

/-- The case test of `ascii_ci_eq` is equality after folding to lower case. -/
theorem asciiCiByte_iff (a b : UInt8) : asciiCiByte a b = true ↔ lower a = lower b := by
  constructor
  · intro h
    simp only [asciiCiByte, Bool.or_eq_true, Bool.and_eq_true, beq_iff_eq,
      decide_eq_true_eq] at h
    rcases h with h | ⟨h, h₁, h₂⟩
    · rw [UInt8.xor_eq_zero_iff.mp h]
    · have hb : b = a ^^^ 0x20 := by rw [← h, ← UInt8.xor_assoc, UInt8.xor_self, UInt8.zero_xor]
      rw [hb, lower_flip a h₁ h₂]
  · intro h
    by_cases ha : 65 ≤ a ∧ a ≤ 90 <;> by_cases hb : 65 ≤ b ∧ b ≤ 90
    · rw [lower_upper ha, lower_upper hb, UInt8.add_left_inj] at h
      rw [h]
      exact asciiCiByte_self _
    · rw [lower_upper ha, lower_other hb] at h
      rw [← h]
      exact (asciiCiByte_upper a ha.1 ha.2).1
    · rw [lower_other ha, lower_upper hb] at h
      rw [h]
      exact (asciiCiByte_upper b hb.1 hb.2).2
    · rw [lower_other ha, lower_other hb] at h
      rw [h]
      exact asciiCiByte_self _

theorem asciiCiEq_iff {a b : List UInt8} :
    asciiCiEq a b = true ↔ a.map lower = b.map lower := by
  induction a generalizing b with
  | nil => cases b <;> simp [asciiCiEq]
  | cons c a ih =>
      cases b with
      | nil => simp [asciiCiEq]
      | cons d b => simp [asciiCiEq, asciiCiByte_iff, ih]

end Vanilla

import Mathlib.Data.List.Basic
import Mathlib.Data.List.GetD
import Vanilla.Http1.Basic
import Vanilla.Support.Sha1

/-!
# WebSocket — the accept key

`append_accept_key` of `websocket/websocket.v` and the SHA-1 it runs in one 64-byte block on its
stack: `sha1_write`, `sha1_sum`, `sha1_compress`.  Lengths are numbers (the source adds the two as
`int`s), `total` is a `u64`; base64 is the standard library's, and given.

* `sha1Compress_eq`: `sha1_compress` is the computation of FIPS 180-4 on a block.
* `sha1Sum_eq`: `sha1_sum` writes the padding as if it were more of the message, so it gives the
  digest of what was written, wherever the writes were cut.
* `accept_key_exact`: the digest is SHA-1 of the key and the GUID.
-/

namespace Vanilla.Websocket
open Blocks Words

/-! ### The source -/

/-- `ws_guid`. -/
def wsGuid : List UInt8 := ascii "258EAFA5-E914-47DA-95CA-C5AB0DC85B11"

/-- A word of the block, as `sha1_compress` loads it. -/
def loadWord (block : List UInt8) (i : Nat) : UInt32 :=
  let j := 4 * i
  ((block.getD j 0).toUInt32 <<< 24) ||| ((block.getD (j + 1) 0).toUInt32 <<< 16) |||
    ((block.getD (j + 2) 0).toUInt32 <<< 8) ||| (block.getD (j + 3) 0).toUInt32

/-- The next word of the array `w`. -/
def extendWords (w : List UInt32) (i : Nat) : List UInt32 :=
  let x := w.getD (i - 3) 0 ^^^ w.getD (i - 8) 0 ^^^ w.getD (i - 14) 0 ^^^ w.getD (i - 16) 0
  w ++ [(x <<< 1) ||| (x >>> 31)]

/-- A pass of the 80 rounds of `sha1_compress`. -/
def sha1Round (w : List UInt32) (s : Sha1.Hash) (i : Nat) : Sha1.Hash :=
  let (f, k) : UInt32 × UInt32 :=
    if i < 20 then ((s.b &&& s.c) ||| (~~~s.b &&& s.d), 0x5a827999)
    else if i < 40 then (s.b ^^^ s.c ^^^ s.d, 0x6ed9eba1)
    else if i < 60 then ((s.b &&& s.c) ||| (s.b &&& s.d) ||| (s.c &&& s.d), 0x8f1bbcdc)
    else (s.b ^^^ s.c ^^^ s.d, 0xca62c1d6)
  let t := ((s.a <<< 5) ||| (s.a >>> 27)) + f + s.e + k + w.getD i 0
  { a := t, b := s.a, c := (s.b <<< 30) ||| (s.b >>> 2), d := s.c, e := s.d }

/-- `sha1_compress`. -/
def sha1Compress (h : Sha1.Hash) (block : List UInt8) : Sha1.Hash :=
  let w := (List.range' 16 64).foldl extendWords ((List.range 16).map (loadWord block))
  let s := (List.range 80).foldl (sha1Round w) h
  ⟨h.a + s.a, h.b + s.b, h.c + s.c, h.d + s.d, h.e + s.e⟩

/-- `sha1_write`: its loop puts byte after byte in the block (`Intake.put`). -/
def sha1Write (s : Intake Sha1.Hash UInt8) (p : List UInt8) : Intake Sha1.Hash UInt8 :=
  s.absorb 64 sha1Compress p

/-- `for k < stop { block[k] = 0; k++ }`. -/
def zeroFill (block : List UInt8) (k stop : Nat) : List UInt8 :=
  (List.range (stop - k)).foldl (fun b i => b.set (k + i) 0) block

/-- `for i in 0 .. 8 { block[56 + i] = u8(bits >> (56 - 8 * i)) }`. -/
def putLength (block : List UInt8) (bits : UInt64) : List UInt8 :=
  (List.range 8).foldl (fun b i => b.set (56 + i) (bits >>> (56 - 8 * i).toUInt64).toUInt8) block

/-- The bytes of the digest. -/
def digestBytes (h : Sha1.Hash) : List UInt8 :=
  [h.a, h.b, h.c, h.d, h.e].flatMap fun (w : UInt32) =>
    [(w >>> 24).toUInt8, (w >>> 16).toUInt8, (w >>> 8).toUInt8, w.toUInt8]

/-- `sha1_sum`. -/
def sha1Sum (s : Intake Sha1.Hash UInt8) (total : UInt64) : List UInt8 :=
  let bits := total <<< 3
  let block := s.block.set s.n 0x80
  let k := s.n + 1
  let (h, block, k) :=
    if k > 56 then
      let block := zeroFill block k 64
      (sha1Compress s.state block, block, 0)
    else (s.state, block, k)
  let block := zeroFill block k 56
  let block := putLength block bits
  digestBytes (sha1Compress h block)

/-- The digest of `append_accept_key`, from what its block holds at first. -/
def acceptDigest (block clientKey : List UInt8) : List UInt8 :=
  let s := sha1Write ⟨Sha1.initial, block, 0⟩ clientKey
  let s := sha1Write s wsGuid
  sha1Sum s (clientKey.length + wsGuid.length).toUInt64

/-- `append_accept_key`. -/
def appendAcceptKey (base64 : List UInt8 → List UInt8) (out clientKey : List UInt8) : List UInt8 :=
  out ++ base64 (acceptDigest (List.replicate 64 0) clientKey)

/-! ### A block -/

theorem or_eq_ch (x y z : UInt32) : (x &&& y) ||| (~~~x &&& z) = Sha1.ch x y z := by
  apply UInt32.eq_of_toBitVec_eq
  simp only [Sha1.ch, UInt32.toBitVec_or, UInt32.toBitVec_and, UInt32.toBitVec_not,
    UInt32.toBitVec_xor]
  ext i hi
  simp
  cases x.toBitVec[i] <;> simp

theorem or_eq_maj (x y z : UInt32) : (x &&& y) ||| (x &&& z) ||| (y &&& z) = Sha1.maj x y z := by
  apply UInt32.eq_of_toBitVec_eq
  simp only [Sha1.maj, UInt32.toBitVec_or, UInt32.toBitVec_and, UInt32.toBitVec_xor]
  ext i hi
  simp
  cases x.toBitVec[i] <;> cases y.toBitVec[i] <;> simp

theorem mul_or (x : Nat) {y k : Nat} (h : y < 2 ^ k) : x * 2 ^ k ||| y = x * 2 ^ k + y := by
  rw [← Nat.shiftLeft_eq, Nat.shiftLeft_add_eq_or_of_lt h]

theorem word_eq (a b c d : UInt8) :
    (a.toUInt32 <<< 24) ||| (b.toUInt32 <<< 16) ||| (c.toUInt32 <<< 8) ||| d.toUInt32 =
      (number [a, b, c, d]).toUInt32 := by
  have ha := a.toNat_lt
  have hb := b.toNat_lt
  have hc := c.toNat_lt
  have hd := d.toNat_lt
  have hshift : ∀ (x : UInt8) (k : Nat), k ≤ 24 → x.toNat <<< k % 2 ^ 32 = x.toNat * 2 ^ k := by
    intro x k hk
    have hx : x.toNat * 2 ^ k < 2 ^ 8 * 2 ^ 24 :=
      Nat.mul_lt_mul_of_lt_of_le x.toNat_lt (Nat.pow_le_pow_right (by decide) hk) (by decide)
    rw [Nat.shiftLeft_eq]
    exact Nat.mod_eq_of_lt hx
  have h₁ : a.toNat * 2 ^ 24 ||| b.toNat * 2 ^ 16 = (a.toNat * 2 ^ 8 + b.toNat) * 2 ^ 16 := by
    rw [mul_or _ (by omega)]
    omega
  have h₂ : (a.toNat * 2 ^ 8 + b.toNat) * 2 ^ 16 ||| c.toNat * 2 ^ 8 =
      ((a.toNat * 2 ^ 8 + b.toNat) * 2 ^ 8 + c.toNat) * 2 ^ 8 := by
    rw [mul_or _ (by omega)]
    omega
  apply UInt32.toNat_inj.mp
  simp only [UInt32.toNat_or, UInt32.toNat_shiftLeft, UInt8.toNat_toUInt32, Nat.toUInt32_eq,
    UInt32.toNat_ofNat', number, List.foldl_cons, List.foldl_nil]
  show a.toNat <<< 24 % 2 ^ 32 ||| b.toNat <<< 16 % 2 ^ 32 ||| c.toNat <<< 8 % 2 ^ 32 |||
    d.toNat = _
  rw [hshift a 24 (by decide), hshift b 16 (by decide), hshift c 8 (by decide), h₁, h₂, mul_or _ hd]
  omega

theorem loadWord_eq {block : List UInt8} (hb : block.length = 64) {i : Nat} (hi : i < 16) :
    loadWord block i = Sha1.blockWord block i := by
  have hget : ∀ k < block.length, block.drop k = block.getD k 0 :: block.drop (k + 1) := by
    intro k hk
    rw [List.getD_eq_getElem _ _ hk, List.drop_eq_getElem_cons hk]
  rw [Sha1.blockWord, hget (4 * i) (by omega), hget (4 * i + 1) (by omega),
    hget (4 * i + 1 + 1) (by omega), hget (4 * i + 1 + 1 + 1) (by omega)]
  exact word_eq _ _ _ _

theorem getD_words (g : Nat → UInt32) {i n : Nat} (h : i < n) :
    ((List.range n).map g).getD i 0 = g i := by
  have hlt : i < ((List.range n).map g).length := by rwa [List.length_map, List.length_range]
  rw [List.getD_eq_getElem _ _ hlt, List.getElem_map, List.getElem_range]

/-- The array `w` is the message schedule. -/
theorem words_eq {block : List UInt8} (hb : block.length = 64) (n : Nat) :
    (List.range' 16 n).foldl extendWords ((List.range 16).map (loadWord block)) =
      (List.range (16 + n)).map (Sha1.schedule block) := by
  induction n with
  | zero =>
      apply List.map_congr_left
      intro i hi
      have hlt := List.mem_range.mp hi
      rw [loadWord_eq hb hlt, Sha1.schedule_word block hlt]
  | succ n ih =>
      rw [List.range'_1_concat, List.foldl_append, ih, List.foldl_cons, List.foldl_nil, extendWords,
        getD_words _ (by omega), getD_words _ (by omega), getD_words _ (by omega),
        getD_words _ (by omega), ← Nat.add_assoc, List.range_succ, List.map_append, List.map_cons,
        List.map_nil, Sha1.schedule_next block (Nat.le_add_right 16 n)]
      rfl

theorem sha1Round_eq {block : List UInt8} {w : List UInt32} {i : Nat}
    (hw : w.getD i 0 = Sha1.schedule block i) (s : Sha1.Hash) :
    sha1Round w s i = Sha1.round block s i := by
  unfold sha1Round Sha1.round Sha1.roundFunction Sha1.roundConstant
  rw [hw, or_eq_ch, or_eq_maj]
  by_cases h₁ : i < 20
  · simp only [if_pos h₁]
    rfl
  by_cases h₂ : i < 40
  · simp only [if_neg h₁, if_pos h₂]
    rfl
  by_cases h₃ : i < 60
  · simp only [if_neg h₁, if_neg h₂, if_pos h₃]
    rfl
  simp only [if_neg h₁, if_neg h₂, if_neg h₃]
  rfl

/-- **`sha1_compress` is the computation of the standard** on a block. -/
theorem sha1Compress_eq {block : List UInt8} (hb : block.length = 64) (h : Sha1.Hash) :
    sha1Compress h block = Sha1.compress h block := by
  have hrounds : (List.range 80).foldl (sha1Round ((List.range 80).map (Sha1.schedule block))) h =
      (List.range 80).foldl (Sha1.round block) h := by
    apply List.foldl_ext
    intro s i hi
    exact sha1Round_eq (getD_words _ (List.mem_range.mp hi)) s
  unfold sha1Compress Sha1.compress
  rw [words_eq hb 64]
  dsimp only
  rw [hrounds]

/-! ### The digest -/

theorem digestBytes_eq (h : Sha1.Hash) : digestBytes h = h.bytes := by
  have hbyte : ∀ (w : UInt32) (k : Nat), k < 32 →
      (w >>> k.toUInt32).toUInt8 = (w.toNat / 2 ^ k).toUInt8 := by
    intro w k hk
    apply UInt8.toNat_inj.mp
    simp only [UInt32.toNat_toUInt8, UInt32.toNat_shiftRight, Nat.toUInt32_eq, UInt32.toNat_ofNat',
      Nat.toUInt8_eq, UInt8.toNat_ofNat', Nat.shiftRight_eq_div_pow]
    rw [Nat.mod_eq_of_lt (show k < 2 ^ 32 by omega), Nat.mod_eq_of_lt hk]
  have hword : ∀ w : UInt32,
      [(w >>> 24).toUInt8, (w >>> 16).toUInt8, (w >>> 8).toUInt8, w.toUInt8] =
        bytesOf 4 w.toNat := by
    intro w
    rw [bytesOf_eq_map]
    show _ = [(w.toNat / 2 ^ 24).toUInt8, (w.toNat / 2 ^ 16).toUInt8, (w.toNat / 2 ^ 8).toUInt8,
      (w.toNat / 2 ^ 0).toUInt8]
    rw [← hbyte w 24 (by decide), ← hbyte w 16 (by decide), ← hbyte w 8 (by decide), Nat.pow_zero,
      Nat.div_one]
    rfl
  rw [digestBytes, Sha1.Hash.bytes]
  congr 1
  funext w
  exact hword w

section

variable {b : List UInt8} {n total : Nat}

/-- The length field. -/
theorem putLength_eq (hb : b.length = 64) (ht : total < 2 ^ 61) :
    putLength b (total.toUInt64 <<< 3) = overlay b 56 (bytesOf 8 (8 * total)) := by
  rw [putLength, writes_eq_overlay _ (by omega), bytesOf_eq_map]
  congr 1
  apply List.map_congr_left
  intro i hi
  have hi := List.mem_range.mp hi
  apply UInt8.toNat_inj.mp
  simp only [UInt64.toNat_toUInt8, UInt64.toNat_shiftRight, UInt64.toNat_shiftLeft,
    Nat.toUInt64_eq, UInt64.toNat_ofNat', Nat.toUInt8_eq, UInt8.toNat_ofNat',
    Nat.shiftRight_eq_div_pow, Nat.shiftLeft_eq]
  have hlen : total % 2 ^ 64 * 2 ^ (UInt64.toNat 3 % 64) % 2 ^ 64 = 8 * total := by
    show total % 2 ^ 64 * 2 ^ 3 % 2 ^ 64 = 8 * total
    omega
  have hshift : (56 - 8 * i) % 2 ^ 64 % 64 = 8 * (8 - 1 - i) := by omega
  rw [hlen, hshift, Nat.pow_mul]

theorem zeroFill_eq {stop : Nat} (hn : n ≤ stop) (h : stop ≤ b.length) :
    zeroFill b n stop = overlay b n (List.replicate (stop - n) 0) := by
  rw [zeroFill, writes_eq_overlay (fun _ => 0) (by omega), List.map_const', List.length_range]

/-- The byte `0x80`, and zeros up to `stop`. -/
theorem mark_eq {stop : Nat} (hn : n < stop) (h : stop ≤ b.length) :
    zeroFill (b.set n 0x80) (n + 1) stop =
      overlay b n (0x80 :: List.replicate (stop - (n + 1)) 0) := by
  have hone : n + [(0x80 : UInt8)].length ≤ b.length := by
    rw [List.length_singleton]
    omega
  rw [zeroFill_eq hn (by rwa [List.length_set]), set_eq_overlay (by omega)]
  exact overlay_overlay hone

theorem length_mark {stop : Nat} (hn : n < stop) :
    n + (0x80 :: List.replicate (stop - (n + 1)) (0 : UInt8)).length = stop := by
  rw [List.length_cons, List.length_replicate]
  omega

/-- The padding is written as if it were more of the message: the length stands at the end of this
block … -/
theorem sha1Sum_room {h : Sha1.Hash} (hb : b.length = 64) (hn : n = total % 64)
    (ht : total < 2 ^ 61) (hroom : ¬ n + 1 > 56) :
    sha1Sum ⟨h, b, n⟩ total.toUInt64 =
      digestBytes (sha1Write ⟨h, b, n⟩ (Sha1.padding total)).state := by
  have hmark : n + (0x80 :: List.replicate (56 - (n + 1)) (0 : UInt8)).length = 56 :=
    length_mark (by omega)
  have hpad : Sha1.padding total =
      (0x80 :: List.replicate (56 - (n + 1)) 0) ++ bytesOf 8 (8 * total) := by
    have hzeros : Sha1.zeros total = 56 - (n + 1) := by
      unfold Sha1.zeros
      omega
    rw [Sha1.padding, hzeros]
  have hfull : n + (Sha1.padding total).length = 64 := by
    rw [hpad, List.length_append, length_bytesOf]
    omega
  have hover : overlay (overlay b n (0x80 :: List.replicate (56 - (n + 1)) 0)) 56
      (bytesOf 8 (8 * total)) = overlay b n (Sha1.padding total) := by
    rw [hpad, ← overlay_overlay (by omega), hmark]
  have hne : Sha1.padding total ≠ [] := List.cons_ne_nil _ _
  rw [sha1Sum, sha1Write, if_neg hroom, absorb_full hb hne hfull]
  dsimp only
  rw [mark_eq (by omega) (by omega), putLength_eq (by rw [length_overlay (by omega), hb]) ht, hover]

/-- … or of the next one, when `0x80` leaves no room for it. -/
theorem sha1Sum_no_room {h : Sha1.Hash} (hb : b.length = 64) (hn : n = total % 64)
    (ht : total < 2 ^ 61) (hroom : n + 1 > 56) :
    sha1Sum ⟨h, b, n⟩ total.toUInt64 =
      digestBytes (sha1Write ⟨h, b, n⟩ (Sha1.padding total)).state := by
  have hmark : n + (0x80 :: List.replicate (64 - (n + 1)) (0 : UInt8)).length = 64 :=
    length_mark (by omega)
  have hlen : (overlay b n (0x80 :: List.replicate (64 - (n + 1)) 0)).length = 64 := by
    rw [length_overlay (by omega), hb]
  have hzero : 0 + (List.replicate 56 (0 : UInt8)).length = 56 := by
    rw [List.length_replicate]
  have hpad : Sha1.padding total = (0x80 :: List.replicate (64 - (n + 1)) 0) ++
      (List.replicate 56 0 ++ bytesOf 8 (8 * total)) := by
    have hzeros : Sha1.zeros total = 64 - (n + 1) + 56 := by
      unfold Sha1.zeros
      omega
    rw [Sha1.padding, hzeros, List.replicate_add]
    simp only [List.cons_append, List.append_assoc]
  have hfull : 0 + (List.replicate 56 0 ++ bytesOf 8 (8 * total)).length = 64 := by
    rw [List.length_append, length_bytesOf, ← Nat.add_assoc, hzero]
  have hover : ∀ c : List UInt8, c.length = 64 →
      overlay (overlay c 0 (List.replicate 56 0)) 56 (bytesOf 8 (8 * total)) =
        overlay c 0 (List.replicate 56 0 ++ bytesOf 8 (8 * total)) := by
    intro c hc
    rw [← overlay_overlay (by omega), hzero]
  rw [sha1Sum, sha1Write, if_pos hroom, hpad, absorb_append,
    absorb_full hb (List.cons_ne_nil _ _) hmark, absorb_full hlen (by simp) hfull]
  dsimp only
  rw [mark_eq (by omega) (by omega), zeroFill_eq (Nat.zero_le 56) (by omega), Nat.sub_zero,
    putLength_eq (by rw [length_overlay (by omega), hlen]) ht, hover _ hlen]

end

/-- **Whatever the intake has taken**, and whatever else its block holds, `sha1_sum` gives its
digest. -/
theorem sha1Sum_eq {s : Intake Sha1.Hash UInt8} {m : List UInt8}
    (h : Took 64 sha1Compress Sha1.initial s m) (hm : m.length < 2 ^ 61) :
    sha1Sum s m.length.toUInt64 = Sha1.digest m := by
  have hn : s.n = m.length % 64 := h.n_eq
  have habsorb : sha1Sum s m.length.toUInt64 =
      digestBytes (sha1Write s (Sha1.padding m.length)).state := by
    by_cases hroom : s.n + 1 > 56
    · exact sha1Sum_no_room h.length hn hm hroom
    · exact sha1Sum_room h.length hn hm hroom
  have hwhole := Sha1.padded_length m
  rw [habsorb, sha1Write, (h.absorb _).state_eq hwhole, digestBytes_eq, Sha1.digest,
    fold_congr (fun s b hb => sha1Compress_eq hb s) (Nat.le_of_eq hwhole.symm)]

/-- **The accept key is SHA-1 of the key and the GUID**, wherever the key ends in the block and
whatever the block held. -/
theorem accept_key_exact (base64 : List UInt8 → List UInt8) (out key block : List UInt8)
    (hblock : block.length = 64) (hlen : (key ++ wsGuid).length < 2 ^ 61) :
    acceptDigest block key = Sha1.digest (key ++ wsGuid) ∧
      appendAcceptKey base64 out key = out ++ base64 (Sha1.digest (key ++ wsGuid)) := by
  have hdigest : ∀ b : List UInt8, b.length = 64 →
      acceptDigest b key = Sha1.digest (key ++ wsGuid) := by
    intro b hb
    have hnil : Took 64 sha1Compress Sha1.initial ⟨Sha1.initial, b, 0⟩ [] := took_nil hb (by decide)
    have htook := (hnil.absorb key).absorb wsGuid
    rw [List.nil_append] at htook
    rw [acceptDigest, ← List.length_append]
    exact sha1Sum_eq htook hlen
  refine ⟨hdigest block hblock, ?_⟩
  rw [appendAcceptKey, hdigest _ (List.length_replicate)]

theorem accept_key_exact_sample :
    (List.replicate 64 (0xff : UInt8)).length = 64 ∧
      (ascii "dGhlIHNhbXBsZSBub25jZQ==" ++ wsGuid).length < 2 ^ 61 ∧
      acceptDigest (List.replicate 64 0xff) (ascii "dGhlIHNhbXBsZSBub25jZQ==") =
        Sha1.digest (ascii "dGhlIHNhbXBsZSBub25jZQ==" ++ wsGuid) :=
  ⟨by decide, by decide,
    (accept_key_exact id [] (ascii "dGhlIHNhbXBsZSBub25jZQ==") (List.replicate 64 0xff) (by decide)
      (by decide)).1⟩

end Vanilla.Websocket

import Vanilla.Http2.Hpack
import Vanilla.Support.Bits

/-!
# HTTP/2 — the Huffman code

`huffman_decode` against the code of RFC 7541, Appendix B.  The RFC lists a code for every octet and
for EOS; the source has the lengths that occur, and for each the first code, the number of codes and
the place of their symbols.

The decoder keeps the bits it has read and not used in an accumulator, `cur`, with their number,
`nbits`: `HuffState.bits`.  What ties it to the code is one fact about the accumulator:
`huffFind_iff`, the search through the lengths finds a symbol exactly when its code is at the front
of the bits.  That rests on three checks of the tables: every row has the codes of the RFC
(`rows_check`), every length has a row (`lengths_check`), and no code of a row starts with a code of
a row before it (`rows_canonical`).

* `huffOctets_spec`: what the decoder has written, with what is left, is what it has read; and how
  it ended.
* `huffman_decode_exact`: the octets of the codes, and less than eight ones behind them, are what
  decodes.
-/

namespace Vanilla.Http2
open Scan Bits

/-! ### The code of the RFC -/

/-- RFC 7541, Appendix B: code and length in bits of each symbol, EOS last. -/
def huffmanCodes : List (Nat × Nat) := [
  (0x1ff8, 13), (0x7fffd8, 23), (0xfffffe2, 28), (0xfffffe3, 28), (0xfffffe4, 28), (0xfffffe5, 28),
  (0xfffffe6, 28), (0xfffffe7, 28), (0xfffffe8, 28), (0xffffea, 24), (0x3ffffffc, 30),
  (0xfffffe9, 28), (0xfffffea, 28), (0x3ffffffd, 30), (0xfffffeb, 28), (0xfffffec, 28),
  (0xfffffed, 28), (0xfffffee, 28), (0xfffffef, 28), (0xffffff0, 28), (0xffffff1, 28),
  (0xffffff2, 28), (0x3ffffffe, 30), (0xffffff3, 28), (0xffffff4, 28), (0xffffff5, 28),
  (0xffffff6, 28), (0xffffff7, 28), (0xffffff8, 28), (0xffffff9, 28), (0xffffffa, 28),
  (0xffffffb, 28), (0x14, 6), (0x3f8, 10), (0x3f9, 10), (0xffa, 12), (0x1ff9, 13), (0x15, 6),
  (0xf8, 8), (0x7fa, 11), (0x3fa, 10), (0x3fb, 10), (0xf9, 8), (0x7fb, 11), (0xfa, 8), (0x16, 6),
  (0x17, 6), (0x18, 6), (0x0, 5), (0x1, 5), (0x2, 5), (0x19, 6), (0x1a, 6), (0x1b, 6), (0x1c, 6),
  (0x1d, 6), (0x1e, 6), (0x1f, 6), (0x5c, 7), (0xfb, 8), (0x7ffc, 15), (0x20, 6), (0xffb, 12),
  (0x3fc, 10), (0x1ffa, 13), (0x21, 6), (0x5d, 7), (0x5e, 7), (0x5f, 7), (0x60, 7), (0x61, 7),
  (0x62, 7), (0x63, 7), (0x64, 7), (0x65, 7), (0x66, 7), (0x67, 7), (0x68, 7), (0x69, 7),
  (0x6a, 7), (0x6b, 7), (0x6c, 7), (0x6d, 7), (0x6e, 7), (0x6f, 7), (0x70, 7), (0x71, 7),
  (0x72, 7), (0xfc, 8), (0x73, 7), (0xfd, 8), (0x1ffb, 13), (0x7fff0, 19), (0x1ffc, 13),
  (0x3ffc, 14), (0x22, 6), (0x7ffd, 15), (0x3, 5), (0x23, 6), (0x4, 5), (0x24, 6), (0x5, 5),
  (0x25, 6), (0x26, 6), (0x27, 6), (0x6, 5), (0x74, 7), (0x75, 7), (0x28, 6), (0x29, 6), (0x2a, 6),
  (0x7, 5), (0x2b, 6), (0x76, 7), (0x2c, 6), (0x8, 5), (0x9, 5), (0x2d, 6), (0x77, 7), (0x78, 7),
  (0x79, 7), (0x7a, 7), (0x7b, 7), (0x7ffe, 15), (0x7fc, 11), (0x3ffd, 14), (0x1ffd, 13),
  (0xffffffc, 28), (0xfffe6, 20), (0x3fffd2, 22), (0xfffe7, 20), (0xfffe8, 20), (0x3fffd3, 22),
  (0x3fffd4, 22), (0x3fffd5, 22), (0x7fffd9, 23), (0x3fffd6, 22), (0x7fffda, 23), (0x7fffdb, 23),
  (0x7fffdc, 23), (0x7fffdd, 23), (0x7fffde, 23), (0xffffeb, 24), (0x7fffdf, 23), (0xffffec, 24),
  (0xffffed, 24), (0x3fffd7, 22), (0x7fffe0, 23), (0xffffee, 24), (0x7fffe1, 23), (0x7fffe2, 23),
  (0x7fffe3, 23), (0x7fffe4, 23), (0x1fffdc, 21), (0x3fffd8, 22), (0x7fffe5, 23), (0x3fffd9, 22),
  (0x7fffe6, 23), (0x7fffe7, 23), (0xffffef, 24), (0x3fffda, 22), (0x1fffdd, 21), (0xfffe9, 20),
  (0x3fffdb, 22), (0x3fffdc, 22), (0x7fffe8, 23), (0x7fffe9, 23), (0x1fffde, 21), (0x7fffea, 23),
  (0x3fffdd, 22), (0x3fffde, 22), (0xfffff0, 24), (0x1fffdf, 21), (0x3fffdf, 22), (0x7fffeb, 23),
  (0x7fffec, 23), (0x1fffe0, 21), (0x1fffe1, 21), (0x3fffe0, 22), (0x1fffe2, 21), (0x7fffed, 23),
  (0x3fffe1, 22), (0x7fffee, 23), (0x7fffef, 23), (0xfffea, 20), (0x3fffe2, 22), (0x3fffe3, 22),
  (0x3fffe4, 22), (0x7ffff0, 23), (0x3fffe5, 22), (0x3fffe6, 22), (0x7ffff1, 23), (0x3ffffe0, 26),
  (0x3ffffe1, 26), (0xfffeb, 20), (0x7fff1, 19), (0x3fffe7, 22), (0x7ffff2, 23), (0x3fffe8, 22),
  (0x1ffffec, 25), (0x3ffffe2, 26), (0x3ffffe3, 26), (0x3ffffe4, 26), (0x7ffffde, 27),
  (0x7ffffdf, 27), (0x3ffffe5, 26), (0xfffff1, 24), (0x1ffffed, 25), (0x7fff2, 19), (0x1fffe3, 21),
  (0x3ffffe6, 26), (0x7ffffe0, 27), (0x7ffffe1, 27), (0x3ffffe7, 26), (0x7ffffe2, 27),
  (0xfffff2, 24), (0x1fffe4, 21), (0x1fffe5, 21), (0x3ffffe8, 26), (0x3ffffe9, 26),
  (0xffffffd, 28), (0x7ffffe3, 27), (0x7ffffe4, 27), (0x7ffffe5, 27), (0xfffec, 20),
  (0xfffff3, 24), (0xfffed, 20), (0x1fffe6, 21), (0x3fffe9, 22), (0x1fffe7, 21), (0x1fffe8, 21),
  (0x7ffff3, 23), (0x3fffea, 22), (0x3fffeb, 22), (0x1ffffee, 25), (0x1ffffef, 25), (0xfffff4, 24),
  (0xfffff5, 24), (0x3ffffea, 26), (0x7ffff4, 23), (0x3ffffeb, 26), (0x7ffffe6, 27),
  (0x3ffffec, 26), (0x3ffffed, 26), (0x7ffffe7, 27), (0x7ffffe8, 27), (0x7ffffe9, 27),
  (0x7ffffea, 27), (0x7ffffeb, 27), (0xffffffe, 28), (0x7ffffec, 27), (0x7ffffed, 27),
  (0x7ffffee, 27), (0x7ffffef, 27), (0x7fffff0, 27), (0x3ffffee, 26), (0x3fffffff, 30)]

/-- The bits of the code of a symbol. -/
def symbolCode (sym : Nat) : List Bool :=
  let (code, len) := huffmanCodes.getD sym (0, 0)
  word len code

/-- The code of an octet. -/
def huffmanCode (c : UInt8) : List Bool := symbolCode c.toNat

/-- The code of EOS. -/
def eosCode : List Bool := symbolCode 256

/-- The canonical encoder: the codes, and ones up to the next octet. -/
def huffmanEncode (t : List UInt8) : List UInt8 :=
  let bits := t.flatMap huffmanCode
  let n := (bits.length + 7) / 8
  pack n (bits ++ List.replicate (8 * n - bits.length) true)

/-! ### The tables -/

/-- The codes of one length in the table of the RFC, with their symbols. -/
def codesOfLength (len : Nat) : List (Nat × Nat) :=
  huffmanCodes.zipIdx.filterMap fun (c, sym) => if c.2 = len then some (c.1, sym) else none

/-- The codes of a row are those of its length, in the order of their symbols. -/
theorem rows_check : ∀ r ∈ huffRows, codesOfLength r.len =
    (List.range' r.first r.count).zip ((huffSymbol.drop r.base).take r.count) := by
  decide +kernel

/-- Every length has a row. -/
theorem lengths_check : ∀ c ∈ huffmanCodes, c.2 ∈ huffRows.map HuffRow.len := by
  decide +kernel

/-- The codes of a row fit its length, which is 5 to 30. -/
theorem rows_bounds : ∀ r ∈ huffRows, 5 ≤ r.len ∧ r.len ≤ 30 ∧ r.first + r.count ≤ 2 ^ r.len ∧
    r.base + r.count ≤ 257 := by
  decide +kernel

/-- A later row has longer codes, all of them behind those of an earlier row. -/
def Behind (r r' : HuffRow) : Prop :=
  r.len < r'.len ∧ (r.first + r.count) * 2 ^ (r'.len - r.len) ≤ r'.first

instance (r r' : HuffRow) : Decidable (Behind r r') := inferInstanceAs (Decidable (_ ∧ _))

theorem rows_canonical : huffRows.Pairwise Behind := by
  decide +kernel

/-- The symbol at a place of a row. -/
def HuffRow.symbol (r : HuffRow) (k : Nat) : Nat := huffSymbol.getD (r.base + k) 0

theorem mem_codesOfLength {len code sym : Nat} :
    (code, sym) ∈ codesOfLength len ↔ huffmanCodes[sym]? = some (code, len) := by
  rw [codesOfLength, List.mem_filterMap]
  constructor
  · rintro ⟨⟨⟨code', len'⟩, sym'⟩, hmem, h⟩
    dsimp only at h
    split at h
    · rename_i hlen
      cases h
      rw [← hlen]
      exact List.mem_zipIdx_iff_getElem?.mp hmem
    · cases h
  · intro h
    exact ⟨((code, len), sym), List.mem_zipIdx_iff_getElem?.mpr h, if_pos rfl⟩

/-- A place of a row, in the table of the RFC. -/
theorem row_code {r : HuffRow} (hr : r ∈ huffRows) {k : Nat} (hk : k < r.count) :
    huffmanCodes[r.symbol k]? = some (r.first + k, r.len) := by
  rw [← mem_codesOfLength, rows_check r hr]
  have hsize : huffSymbol.length = 257 := by decide +kernel
  have hbase := (rows_bounds r hr).2.2.2
  refine List.mem_iff_getElem?.mpr ⟨k, ?_⟩
  have hsym : ((huffSymbol.drop r.base).take r.count)[k]? = some (r.symbol k) := by
    rw [List.getElem?_take_of_lt hk, List.getElem?_drop, HuffRow.symbol, List.getD_eq_getElem?_getD,
      List.getElem?_eq_getElem (by omega), Option.getD_some]
  rw [List.getElem?_zip_eq_some]
  exact ⟨by rw [List.getElem?_range' (by simpa using hk)]; simp, hsym⟩

/-- A symbol of the RFC, at its place of a row. -/
theorem code_row {sym code len : Nat} (h : huffmanCodes[sym]? = some (code, len)) :
    ∃ r ∈ huffRows, r.len = len ∧ ∃ k < r.count, code = r.first + k ∧ r.symbol k = sym := by
  obtain ⟨r, hr, rfl⟩ := List.mem_map.mp (lengths_check _ (List.mem_of_getElem? h))
  have hmem := mem_codesOfLength.mpr h
  rw [rows_check r hr] at hmem
  obtain ⟨k, hk⟩ := List.mem_iff_getElem?.mp hmem
  obtain ⟨hcode, hsym⟩ := List.getElem?_zip_eq_some.mp hk
  dsimp only at hcode hsym
  have hlt : k < r.count := by
    have := (List.getElem?_eq_some_iff.mp hcode).1
    rwa [List.length_range'] at this
  rw [List.getElem?_range' hlt, Nat.one_mul, Option.some.injEq] at hcode
  rw [List.getElem?_take_of_lt hlt, List.getElem?_drop] at hsym
  refine ⟨r, hr, rfl, k, hlt, hcode.symm, ?_⟩
  rw [HuffRow.symbol, List.getD_eq_getElem?_getD, hsym, Option.getD_some]

theorem symbolCode_eq {sym code len : Nat} (h : huffmanCodes[sym]? = some (code, len)) :
    symbolCode sym = word len code := by
  rw [symbolCode, List.getD_eq_getElem?_getD, h, Option.getD_some]

/-! ### The search -/

section Search

variable {cur nbits : Nat} (hcur : cur < 2 ^ nbits)
include hcur

/-- The top bits of the accumulator fit their number, and the cast to 32 bits keeps them. -/
theorem top_mod {len : Nat} (hlen : len ≤ nbits) (h30 : len ≤ 30) :
    cur >>> (nbits - len) % 2 ^ 32 = cur >>> (nbits - len) ∧ cur >>> (nbits - len) < 2 ^ len := by
  have hlt : cur >>> (nbits - len) < 2 ^ len := by
    rw [Nat.shiftRight_eq_div_pow, Nat.div_lt_iff_lt_mul (Nat.two_pow_pos _), ← Nat.pow_add,
      Nat.add_sub_cancel' hlen]
    exact hcur
  have hle : 2 ^ len ≤ 2 ^ 32 := Nat.pow_le_pow_right (by decide) (by omega)
  exact ⟨Nat.mod_eq_of_lt (hlt.trans_le hle), hlt⟩

omit hcur in
/-- A row of longer codes has none that starts with a code of a row before it. -/
theorem Behind.top {r r' : HuffRow} (h : Behind r r') (hlen : r'.len ≤ nbits)
    (hle : r'.first ≤ cur >>> (nbits - r'.len)) : r.first + r.count ≤ cur >>> (nbits - r.len) := by
  obtain ⟨hlt, hfirst⟩ := h
  have hshift : cur >>> (nbits - r.len) = cur >>> (nbits - r'.len) / 2 ^ (r'.len - r.len) := by
    rw [← Nat.shiftRight_eq_div_pow, ← Nat.shiftRight_add]
    congr 1
    omega
  rw [hshift, Nat.le_div_iff_mul_le (Nat.two_pow_pos _)]
  exact hfirst.trans hle

omit hcur in
theorem huffFind_some {rows : List HuffRow} {len sym : Nat}
    (h : huffFind cur nbits rows = some (len, sym)) :
    ∃ r ∈ rows, r.len = len ∧ len ≤ nbits ∧ ∃ k < r.count,
      cur >>> (nbits - len) % 2 ^ 32 = r.first + k ∧ r.symbol k = sym := by
  induction rows with
  | nil => cases h
  | cons r rows ih =>
      rw [huffFind] at h
      split at h
      · cases h
      · rename_i hlen
        dsimp only at h
        split at h
        · rename_i htop
          cases h
          exact ⟨r, List.mem_cons_self .., rfl, Nat.le_of_not_lt hlen, _, by omega,
            (Nat.add_sub_of_le htop.1).symm, rfl⟩
        · obtain ⟨r', hr', hrest⟩ := ih h
          exact ⟨r', List.mem_cons_of_mem _ hr', hrest⟩

theorem huffFind_at {rows : List HuffRow} (hrows : rows.Pairwise Behind)
    (hbound : ∀ r ∈ rows, r.len ≤ 30) {r : HuffRow} (hr : r ∈ rows) (hlen : r.len ≤ nbits) {k : Nat}
    (hk : k < r.count) (htop : cur >>> (nbits - r.len) = r.first + k) :
    huffFind cur nbits rows = some (r.len, r.symbol k) := by
  induction rows with
  | nil => cases hr
  | cons r₀ rows ih =>
      rw [List.pairwise_cons] at hrows
      have hmod {r' : HuffRow} (h : r' ∈ r₀ :: rows) (hlen : r'.len ≤ nbits) :=
        (top_mod hcur hlen (hbound r' h)).1
      rcases List.mem_cons.mp hr with rfl | hr'
      · rw [huffFind, if_neg (Nat.not_lt.mpr hlen)]
        dsimp only
        rw [hmod hr hlen, htop, if_pos (by omega), Nat.add_sub_cancel_left, HuffRow.symbol]
      · have hb := hrows.1 r hr'
        have hlen₀ : r₀.len ≤ nbits := hb.1.le.trans hlen
        have hge := hb.top hlen (by rw [htop]; exact Nat.le_add_right _ _)
        rw [huffFind, if_neg (Nat.not_lt.mpr hlen₀)]
        dsimp only
        rw [hmod (List.mem_cons_self ..) hlen₀, if_neg (by omega)]
        exact ih hrows.2 (fun r' h => hbound r' (List.mem_cons_of_mem _ h)) hr'

omit hcur in
theorem word_top {len : Nat} (hlen : len ≤ nbits) :
    word nbits cur = word len (cur >>> (nbits - len)) ++ word (nbits - len) cur := by
  rw [← word_add, Nat.add_sub_cancel' hlen]

/-- **The search.**  It finds the symbol whose code is at the front of the bits. -/
theorem huffFind_iff {len sym : Nat} : huffFind cur nbits huffRows = some (len, sym) ↔
    sym < 257 ∧ (symbolCode sym).length = len ∧ symbolCode sym <+: word nbits cur := by
  constructor
  · intro h
    obtain ⟨r, hr, rfl, hlen, k, hk, htop, rfl⟩ := huffFind_some h
    rw [(top_mod hcur hlen (rows_bounds r hr).2.1).1] at htop
    have hcode := row_code hr hk
    have hsize : huffmanCodes.length = 257 := by decide +kernel
    rw [symbolCode_eq hcode, word_top hlen, htop]
    exact ⟨hsize ▸ (List.getElem?_eq_some_iff.mp hcode).1, length_word .., List.prefix_append ..⟩
  · rintro ⟨hsym, rfl, hpre⟩
    have hsize : huffmanCodes.length = 257 := by decide +kernel
    obtain ⟨⟨code, len⟩, hcode⟩ : ∃ c, huffmanCodes[sym]? = some c :=
      ⟨_, List.getElem?_eq_getElem (hsize.symm ▸ hsym)⟩
    obtain ⟨r, hr, rfl, k, hk, rfl, rfl⟩ := code_row hcode
    have hb := rows_bounds r hr
    have hlen : r.len ≤ nbits := by
      have := hpre.length_le
      rwa [symbolCode_eq hcode, length_word, length_word] at this
    rw [symbolCode_eq hcode, word_top hlen] at hpre
    have hword := List.prefix_of_prefix_length_le hpre (List.prefix_append _ _) (by simp)
    have htop := word_inj (by omega) (top_mod hcur hlen hb.2.1).2
      (hword.eq_of_length (by simp))
    rw [symbolCode_eq hcode, length_word]
    exact huffFind_at hcur rows_canonical (fun r hr => (rows_bounds r hr).2.1) hr hlen hk htop.symm

end Search

/-! ### Codes at the front of some bits -/

/-- No code is at the front of the bits. -/
def NoCode (bs : List Bool) : Prop := ∀ sym < 257, ¬ symbolCode sym <+: bs

theorem symbolCode_length {sym : Nat} (h : sym < 257) :
    5 ≤ (symbolCode sym).length ∧ (symbolCode sym).length ≤ 30 := by
  have hsize : huffmanCodes.length = 257 := by decide +kernel
  obtain ⟨⟨code, len⟩, hcode⟩ : ∃ c, huffmanCodes[sym]? = some c :=
    ⟨_, List.getElem?_eq_getElem (hsize.symm ▸ h)⟩
  obtain ⟨r, hr, rfl, -⟩ := code_row hcode
  rw [symbolCode_eq hcode, length_word]
  exact ⟨(rows_bounds r hr).1, (rows_bounds r hr).2.1⟩

/-- No code is the start of another. -/
theorem symbolCode_unique {a b : Nat} {bs : List Bool} (ha : a < 257) (hb : b < 257)
    (hpa : symbolCode a <+: bs) (hpb : symbolCode b <+: bs) : a = b := by
  obtain ⟨hword, hlt⟩ := word_value bs
  rw [← hword] at hpa hpb
  have h := (huffFind_iff hlt).mpr ⟨ha, rfl, hpa⟩
  rw [(huffFind_iff hlt).mpr ⟨hb, rfl, hpb⟩] at h
  exact (Prod.mk.inj (Option.some.inj h)).2.symm

theorem eosCode_eq : eosCode = List.replicate 30 true := by
  have h : huffmanCodes[256]? = some (2 ^ 30 - 1, 30) := by decide +kernel
  rw [eosCode, symbolCode_eq h, word_ones]

/-- What may stand behind the last code: less than an octet of ones. -/
structure Padding (pad : List Bool) : Prop where
  short : pad.length ≤ 7
  ones : pad = List.replicate pad.length true

/-- Ones are the start of EOS only, which is longer than a padding. -/
theorem Padding.noCode {pad : List Bool} (h : Padding pad) : NoCode pad := by
  intro sym hsym hpre
  have hle := hpre.length_le
  have heos : pad <+: eosCode := by
    rw [eosCode_eq, h.ones]
    exact ⟨List.replicate (30 - pad.length) true, by
      rw [List.replicate_append_replicate, Nat.add_sub_cancel' (h.short.trans (by decide))]⟩
  have := symbolCode_unique hsym (by decide) (hpre.trans heos) (List.prefix_refl eosCode)
  subst this
  have hlen : (symbolCode 256).length = 30 := by
    show eosCode.length = 30
    rw [eosCode_eq, List.length_replicate]
  have := h.short
  omega

/-- **Unique decoding.**  Codes, and behind them no code but padding, can be read in one way. -/
theorem codes_cancel {t t' : List UInt8} {pad bs : List Bool} (hpad : NoCode pad)
    (h : t'.flatMap huffmanCode ++ bs = t.flatMap huffmanCode ++ pad) :
    ∃ t'', t = t' ++ t'' ∧ bs = t''.flatMap huffmanCode ++ pad := by
  induction t' generalizing t with
  | nil => exact ⟨t, rfl, h⟩
  | cons c t' ih =>
      have hc : c.toNat < 257 := c.toNat_lt.trans (by decide)
      have hpre : symbolCode c.toNat <+: t.flatMap huffmanCode ++ pad := by
        rw [← h, List.flatMap_cons, List.append_assoc]
        exact List.prefix_append ..
      cases t with
      | nil => exact absurd hpre (hpad _ hc)
      | cons d t =>
          have hd : d.toNat < 257 := d.toNat_lt.trans (by decide)
          have heq := symbolCode_unique hc hd hpre (by
            rw [List.flatMap_cons, List.append_assoc]
            exact List.prefix_append ..)
          rw [UInt8.toNat_inj] at heq
          subst heq
          rw [List.flatMap_cons, List.flatMap_cons, List.append_assoc, List.append_assoc,
            List.append_cancel_left_eq] at h
          obtain ⟨t'', rfl, hbs⟩ := ih h
          exact ⟨t'', rfl, hbs⟩

/-! ### The decoder -/

/-- The bits read and not used yet. -/
def HuffState.bits (s : HuffState) : List Bool := word s.nbits s.cur

/-- The accumulator has no bits but those. -/
def HuffState.Fits (s : HuffState) : Prop := s.cur < 2 ^ s.nbits

/-- From `s` to `s'` the text `t` is written, for its codes. -/
structure Takes (s s' : HuffState) (t : List UInt8) : Prop where
  out : s'.out = s.out ++ t
  bits : s.bits = t.flatMap huffmanCode ++ s'.bits
  fits : s'.Fits

theorem Takes.refl {s : HuffState} (h : s.Fits) : Takes s s [] :=
  ⟨(List.append_nil _).symm, rfl, h⟩

theorem Takes.trans {s s' s'' : HuffState} {t t' : List UInt8} (h : Takes s s' t)
    (h' : Takes s' s'' t') : Takes s s'' (t ++ t') :=
  ⟨by rw [h'.out, h.out, List.append_assoc],
    by rw [h.bits, h'.bits, List.flatMap_append, List.append_assoc], h'.fits⟩

theorem huffFind_none {s : HuffState} (hs : s.Fits) :
    huffFind s.cur s.nbits huffRows = none ↔ NoCode s.bits := by
  constructor
  · intro h sym hsym hpre
    rw [(huffFind_iff hs).mpr ⟨hsym, rfl, hpre⟩] at h
    cases h
  · intro h
    refine Option.eq_none_iff_forall_ne_some.mpr fun ⟨len, sym⟩ hfind => ?_
    obtain ⟨hsym, -, hpre⟩ := (huffFind_iff hs).mp hfind
    exact h sym hsym hpre

/-- How the loop that takes codes off the bits stops. -/
inductive Stops (s : HuffState) : Option HpackError → Prop
  | waits (h : NoCode s.bits) : Stops s none
  | eos (h : eosCode <+: s.bits) : Stops s (some .eosSymbol)
  | invalid (h : NoCode s.bits) (hn : 30 ≤ s.nbits) : Stops s (some .invalidCode)

/-- One pass: an octet is written for its code, or the loop stops. -/
theorem huffStep_next {s s' : HuffState} (hs : s.Fits) (h : huffStep s = .next s') :
    s'.nbits < s.nbits ∧ ∃ c, Takes s s' [c] := by
  rw [huffStep] at h
  split at h
  · rename_i len sym hfind
    obtain ⟨hsym, rfl, hpre⟩ := (huffFind_iff hs).mp hfind
    split at h
    · cases h
    · rename_i hne
      cases h
      have hlen : (symbolCode sym).length ≤ s.nbits := by
        have := hpre.length_le
        rwa [length_word] at this
      have hpos := (symbolCode_length hsym).1
      have hmask : s.cur &&& (1 <<< (s.nbits - (symbolCode sym).length) - 1) =
          s.cur % 2 ^ (s.nbits - (symbolCode sym).length) := by
        rw [Nat.one_shiftLeft, Nat.and_two_pow_sub_one_eq_mod]
      refine ⟨by dsimp only; omega, sym.toUInt8, rfl, ?_, ?_⟩
      · have hbyte : sym.toUInt8.toNat = sym := by
          rw [Nat.toUInt8_eq, UInt8.toNat_ofNat', Nat.mod_eq_of_lt (by omega)]
        have hdrop : (word s.nbits s.cur).drop (symbolCode sym).length =
            word (s.nbits - (symbolCode sym).length) s.cur := by
          rw [word_top hlen, List.drop_left' (length_word ..)]
        rw [HuffState.bits, HuffState.bits, List.flatMap_singleton, huffmanCode, hbyte, hmask,
          word_mod, ← hdrop]
        exact List.prefix_iff_eq_append.mp hpre |>.symm
      · rw [HuffState.Fits, hmask]
        exact Nat.mod_lt _ (Nat.two_pow_pos _)
  · cases h

theorem huffStep_exit {s s' : HuffState} {e : Option HpackError} (hs : s.Fits)
    (h : huffStep s = .exit (s', e)) : s' = s ∧ Stops s e := by
  rw [huffStep] at h
  split at h
  · rename_i len sym hfind
    split at h
    · rename_i heos
      cases h
      subst heos
      exact ⟨rfl, .eos ((huffFind_iff hs).mp hfind).2.2⟩
    · cases h
  · rename_i hfind
    have hno := (huffFind_none hs).mp hfind
    cases h
    refine ⟨rfl, ?_⟩
    split
    · rename_i hn
      exact .invalid hno hn
    · exact .waits hno

theorem huffLoop_spec {s : HuffState} (hs : s.Fits) :
    ∃ t, Takes s (huffLoop s).1 t ∧ Stops (huffLoop s).1 (huffLoop s).2 := by
  have hdesc : Descends huffStep (·.nbits) HuffState.Fits := by
    intro s s' hs h
    obtain ⟨hlt, c, hc⟩ := huffStep_next hs h
    exact ⟨hc.fits, hlt⟩
  refine loop_rule hdesc (P := fun s r => ∃ t, Takes s r.1 t ∧ Stops r.1 r.2) ?_ ?_ hs
  · rintro s ⟨s', e⟩ hs h
    obtain ⟨rfl, hstop⟩ := huffStep_exit hs h
    exact ⟨[], .refl hs, hstop⟩
  · rintro s s' r hs h ⟨t, ht, hstop⟩
    obtain ⟨-, c, hc⟩ := huffStep_next hs h
    exact ⟨[c] ++ t, hc.trans ht, hstop⟩

/-- An octet more in the accumulator. -/
theorem HuffState.push {s : HuffState} (hs : s.Fits) (b : UInt8) :
    HuffState.Fits { s with cur := s.cur <<< 8 ||| b.toNat, nbits := s.nbits + 8 } ∧
    HuffState.bits { s with cur := s.cur <<< 8 ||| b.toNat, nbits := s.nbits + 8 } =
      s.bits ++ word 8 b.toNat := by
  have hb : b.toNat < 2 ^ 8 := b.toNat_lt
  have hv : s.cur <<< 8 ||| b.toNat = s.cur * 2 ^ 8 + b.toNat := by
    rw [← Nat.shiftLeft_add_eq_or_of_lt hb, Nat.shiftLeft_eq]
  rw [HuffState.Fits] at hs
  refine ⟨?_, ?_⟩
  · rw [HuffState.Fits, hv, Nat.pow_add]
    dsimp only
    omega
  · have hshift : (s.cur * 2 ^ 8 + b.toNat) >>> 8 = s.cur := by
      rw [Nat.shiftRight_eq_div_pow]
      omega
    rw [HuffState.bits, HuffState.bits, hv, word_add, hshift, ← word_mod 8 (_ + _)]
    congr 2
    omega

/-- How the decoder ends, with the octets it has not read. -/
inductive Ended (s : HuffState) : List UInt8 → Option HpackError → Prop
  | done (h : Padding s.bits) : Ended s [] none
  | eos {rest : List UInt8} (h : eosCode <+: s.bits) : Ended s rest (some .eosSymbol)
  | invalid {rest : List UInt8} (h : NoCode s.bits) (hn : 30 ≤ s.nbits) :
      Ended s rest (some .invalidCode)
  | padding {e : HpackError} (h : NoCode s.bits) (hpad : ¬ Padding s.bits) : Ended s [] (some e)

/-- The checks on what is left are those of a padding. -/
theorem HuffState.padding_iff {s : HuffState} (hs : s.Fits) :
    Padding s.bits ↔ s.nbits ≤ 7 ∧ s.cur = 1 <<< s.nbits - 1 := by
  have hlen : s.bits.length = s.nbits := length_word ..
  have hones : s.bits = List.replicate s.bits.length true ↔ s.cur = 1 <<< s.nbits - 1 := by
    rw [hlen, ← word_ones, Nat.one_shiftLeft]
    constructor
    · exact word_inj hs (Nat.sub_lt (Nat.two_pow_pos _) Nat.one_pos)
    · intro h
      rw [HuffState.bits, h]
  constructor
  · exact fun h => ⟨hlen ▸ h.short, hones.mp h.ones⟩
  · exact fun h => ⟨hlen.symm ▸ h.1, hones.mpr h.2⟩

/-- **The decoder's account.**  What is written and what is left is what was read. -/
theorem huffOctets_spec {s : HuffState} (hs : s.Fits) (hno : NoCode s.bits) (src : List UInt8) :
    ∃ t rest, (huffOctets src s).1.out = s.out ++ t ∧
      s.bits ++ octets src = t.flatMap huffmanCode ++ ((huffOctets src s).1.bits ++ octets rest) ∧
      Ended (huffOctets src s).1 rest (huffOctets src s).2 := by
  induction src generalizing s with
  | nil =>
      refine ⟨[], [], (List.append_nil _).symm, rfl, ?_⟩
      have hiff := HuffState.padding_iff hs
      dsimp only [huffOctets]
      split
      · rename_i hlong
        exact .padding hno fun h => absurd (hiff.mp h).1 (Nat.not_le.mpr hlong)
      · rename_i hshort
        split
        · rename_i hne
          exact .padding hno fun h => hne (hiff.mp h).2
        · rename_i heq
          exact .done (hiff.mpr ⟨Nat.le_of_not_lt hshort, not_not.mp heq⟩)
  | cons b src ih =>
      obtain ⟨hfits, hbits⟩ := HuffState.push hs b
      obtain ⟨t, htakes, hstop⟩ := huffLoop_spec hfits
      rw [huffOctets]
      generalize huffLoop _ = r at htakes hstop
      obtain ⟨s', e⟩ := r
      have hread : s.bits ++ octets (b :: src) =
          t.flatMap huffmanCode ++ (s'.bits ++ octets src) := by
        rw [octets_cons, ← List.append_assoc, ← hbits, htakes.bits, List.append_assoc]
      cases hstop with
      | waits h =>
          obtain ⟨t', rest, hout, hrest, hend⟩ := ih htakes.fits h
          refine ⟨t ++ t', rest, ?_, ?_, hend⟩
          · rw [hout, htakes.out, List.append_assoc]
          · rw [hread, hrest, List.flatMap_append, List.append_assoc]
      | eos h => exact ⟨t, src, htakes.out, hread, .eos h⟩
      | invalid h hn => exact ⟨t, src, htakes.out, hread, .invalid h hn⟩

theorem noCode_nil : NoCode [] := Padding.noCode ⟨by decide, rfl⟩

theorem huffmanDecode_spec (src : List UInt8) : ∃ s rest,
    octets src = (huffmanDecode src).1.flatMap huffmanCode ++ (s.bits ++ octets rest) ∧
      Ended s rest (huffmanDecode src).2 := by
  obtain ⟨t, rest, hout, hbits, hend⟩ :=
    huffOctets_spec (s := ⟨0, 0, []⟩) Nat.one_pos noCode_nil src
  have htext : (huffmanDecode src).1 = t := hout
  exact ⟨_, rest, by rw [htext]; exact hbits, hend⟩

/-! ### What decodes -/

theorem NoCode.text_nil {t : List UInt8} {pad : List Bool}
    (h : NoCode (t.flatMap huffmanCode ++ pad)) : t = [] := by
  cases t with
  | nil => rfl
  | cons c t =>
      refine absurd ?_ (h c.toNat (c.toNat_lt.trans (by decide)))
      rw [List.flatMap_cons, List.append_assoc]
      exact List.prefix_append ..

/-- EOS is not the code of an octet, and not a padding. -/
theorem eosCode_not_padded {t : List UInt8} {pad : List Bool} (hpad : Padding pad) :
    ¬ eosCode <+: t.flatMap huffmanCode ++ pad := by
  intro h
  cases t with
  | nil => exact hpad.noCode 256 (by decide) h
  | cons c t =>
      rw [List.flatMap_cons, List.append_assoc] at h
      have hc := c.toNat_lt
      have := symbolCode_unique (by omega) (by decide) (List.prefix_append (huffmanCode c) _) h
      omega

/-- What the decoder does with codes and a padding. -/
theorem huffmanDecode_of_codes {src t : List UInt8} {pad : List Bool} (hpad : Padding pad)
    (h : octets src = t.flatMap huffmanCode ++ pad) : huffmanDecode src = (t, none) := by
  obtain ⟨s, rest, hbits, hend⟩ := huffmanDecode_spec src
  generalize huffmanDecode src = r at hbits hend
  obtain ⟨t', e⟩ := r
  obtain ⟨t'', rfl, hleft⟩ := codes_cancel hpad.noCode (hbits.symm.trans h)
  dsimp only at hend hbits ⊢
  cases hend with
  | done hdone =>
      rw [octets_nil, List.append_nil] at hleft
      have := (hleft ▸ hdone.noCode).text_nil
      rw [this, List.append_nil]
  | eos heos =>
      have := heos.trans (List.prefix_append s.bits (octets rest))
      rw [hleft] at this
      exact absurd this (eosCode_not_padded hpad)
  | invalid hno hn =>
      have hlen : s.bits.length = s.nbits := length_word ..
      cases t'' with
      | nil =>
          have := congrArg List.length hleft
          have := hpad.short
          simp only [List.length_append, List.flatMap_nil, List.length_nil] at *
          omega
      | cons c t'' =>
          have hc : c.toNat < 257 := c.toNat_lt.trans (by decide)
          have hpre : symbolCode c.toNat <+: s.bits ++ octets rest := by
            rw [hleft, List.flatMap_cons, List.append_assoc]
            exact List.prefix_append ..
          have := (symbolCode_length hc).2
          exact absurd (List.prefix_of_prefix_length_le hpre (List.prefix_append ..) (by omega))
            (hno _ hc)
  | padding hno hnot =>
      rw [octets_nil, List.append_nil] at hleft
      have := (hleft ▸ hno).text_nil
      subst this
      exact absurd (hleft ▸ hpad) hnot

theorem codes_of_huffmanDecode {src t : List UInt8} (h : huffmanDecode src = (t, none)) :
    ∃ pad, Padding pad ∧ octets src = t.flatMap huffmanCode ++ pad := by
  obtain ⟨s, rest, hbits, hend⟩ := huffmanDecode_spec src
  rw [h] at hbits hend
  cases hend with
  | done hdone =>
      rw [octets_nil, List.append_nil] at hbits
      exact ⟨s.bits, hdone, hbits⟩

/-- The octets of the encoder's text. -/
theorem octets_huffmanEncode (t : List UInt8) : ∃ n ≤ 7,
    octets (huffmanEncode t) = t.flatMap huffmanCode ++ List.replicate n true := by
  refine ⟨8 * (((t.flatMap huffmanCode).length + 7) / 8) - (t.flatMap huffmanCode).length,
    by omega, ?_⟩
  rw [huffmanEncode]
  refine octets_pack ?_
  rw [List.length_append, List.length_replicate]
  omega

theorem padding_replicate {n : Nat} (h : n ≤ 7) : Padding (List.replicate n true) :=
  ⟨by rwa [List.length_replicate], by rw [List.length_replicate]⟩

/-- **Huffman decoding is exact.**  What decodes to a text is its codes with up to seven ones behind
them; that is what the canonical encoder gives for the text, and nothing else is; and EOS among the
codes is refused. -/
theorem huffman_decode_exact (src t : List UInt8) :
    (huffmanDecode src = (t, none) ↔
      ∃ n ≤ 7, octets src = t.flatMap huffmanCode ++ List.replicate n true) ∧
    (huffmanDecode src = (t, none) ↔ src = huffmanEncode t) ∧
    ∀ rest, octets src = t.flatMap huffmanCode ++ eosCode ++ rest →
      (huffmanDecode src).2 ≠ none := by
  have hcodes : huffmanDecode src = (t, none) ↔
      ∃ n ≤ 7, octets src = t.flatMap huffmanCode ++ List.replicate n true := by
    constructor
    · intro h
      obtain ⟨pad, hpad, hbits⟩ := codes_of_huffmanDecode h
      exact ⟨pad.length, hpad.short, by rw [← hpad.ones, hbits]⟩
    · rintro ⟨n, hn, h⟩
      exact huffmanDecode_of_codes (padding_replicate hn) h
  refine ⟨hcodes, ?_, ?_⟩
  · obtain ⟨m, hm, hencode⟩ := octets_huffmanEncode t
    rw [hcodes]
    constructor
    · rintro ⟨n, hn, h⟩
      have hlen := congrArg List.length h
      have hlen' := congrArg List.length hencode
      simp only [length_octets, List.length_append, List.length_replicate] at hlen hlen'
      have hmn : m = n := by omega
      exact octets_inj (by rw [h, hencode, hmn])
    · rintro rfl
      exact ⟨m, hm, hencode⟩
  · intro rest h hnone
    obtain ⟨pad, hpad, hbits⟩ :=
      codes_of_huffmanDecode (show huffmanDecode src = ((huffmanDecode src).1, none) from
        Prod.ext rfl hnone)
    rw [List.append_assoc] at h
    obtain ⟨t'', -, hleft⟩ := codes_cancel hpad.noCode (h.symm.trans hbits)
    exact eosCode_not_padded hpad (hleft ▸ List.prefix_append eosCode rest)

/-- Four octets of ones start with EOS. -/
theorem huffman_decode_exact_eos : (huffmanDecode [0xff, 0xff, 0xff, 0xff]).2 ≠ none :=
  (huffman_decode_exact [0xff, 0xff, 0xff, 0xff] []).2.2 [true, true] (by decide +kernel)

end Vanilla.Http2

import Vanilla.Http1.Chunk

/-!
# HTTP/1.1 — the chunk-size line in its buffer

Both chunked framers read a chunk-size line with the same text; they differ in the bound on the
size and in the words of their refusals.  `sizeLine` is that text, with the bound a parameter.

* `sizeLine_accept_iff`: it accepts `1*HEXDIG [ chunk-ext ] CRLF` within the bound.
* `sizeLine_drop`: it looks at nothing before the line.
* `chunk_at`, `ChunkOf.read`: the line, the data and its CRLF are one chunk.
* `sizeLine_stable`: its answers are final.
-/

namespace Vanilla.Chunk
open Scan

/-! ### The functions -/

/-- Why a chunk-size line is refused. -/
inductive SizeFault where
  /-- past the bound on the size -/
  | tooLarge
  /-- no digit, or junk behind the digits -/
  | noSize
  /-- no CR before the LF, or not a chunk-ext -/
  | badLine
  /-- no LF behind the CR -/
  | noCrlf
  deriving DecidableEq

/-- Where the line's CR is, `j` being the index behind the digits. -/
def sizeLineEnd (buf : List UInt8) (j : Nat) : Verdict SizeFault Nat :=
  if buf[j]? ≠ some cr then
    if buf[j]? ≠ some semicolon ∧ buf[j]? ≠ some sp ∧ buf[j]? ≠ some htab then .refuse .noSize
    else
      match findByteIdx (buf.drop j) lf with
      | none => .more
      | some lineLf =>
        let lineEnd := j + lineLf - 1
        if buf[lineEnd]? ≠ some cr ∨ !chunkExtOk ((buf.drop j).take (lineEnd - j)) then
          .refuse .badLine
        else .accept lineEnd
  else .accept j

/-- The chunk-size line at `pos`: where the chunk's data starts, and its size. -/
def sizeLine (ok : Nat → Nat → Bool) (buf : List UInt8) (pos : Nat) :
    Verdict SizeFault (Nat × Nat) :=
  match hexRun ok (buf.drop pos) 0 0 with
  | none => .refuse .tooLarge
  | some (size, digits) =>
    let j := pos + digits
    if buf.length ≤ j then .more
    else if digits = 0 then .refuse .noSize
    else
      (sizeLineEnd buf j).bind fun lineEnd =>
        if buf.length ≤ lineEnd + 1 then .more
        else if buf[lineEnd + 1]? ≠ some lf then .refuse .noCrlf
        else .accept (lineEnd + 2, size)

/-! ### The grammar -/

/-- `1*HEXDIG` of value `n`. -/
def HexSize (ds : List UInt8) (n : Nat) : Prop :=
  ds ≠ [] ∧ (∀ c ∈ ds, isHex c = true) ∧ hexValue 0 ds = n

/-- `chunk = chunk-size [ chunk-ext ] CRLF chunk-data CRLF`, its size within the bound `ok`. -/
def ChunkOf (ok : Nat → Nat → Bool) (c data : List UInt8) : Prop :=
  ∃ ds e, c = ds ++ (e ++ (crlf ++ (data ++ crlf))) ∧ HexSize ds data.length ∧
    ok data.length (ds.length - 1) = true ∧ data ≠ [] ∧ ChunkExt e

/-- `trailer-section CRLF`. -/
def TrailerSection (t : List UInt8) : Prop :=
  ∃ ls, (∀ l ∈ ls, TrailerLine l) ∧ t = unlines cr lf ls ++ crlf

theorem TrailerLine.isLine {l : List UInt8} (h : TrailerLine l) : IsLine lf l := by
  refine ⟨?_, fun hm => ?_⟩
  · obtain ⟨n, v, rfl, -, -⟩ := h
    simp
  · have := h.no_ctl _ hm
    revert this; decide

/-! ### A line at a position -/

theorem sizeLineEnd_drop (buf : List UInt8) (pos : Nat) {j : Nat} (hj : 0 < j) :
    sizeLineEnd buf (pos + j) = (sizeLineEnd (buf.drop pos) j).map (pos + ·) := by
  unfold sizeLineEnd
  simp only [List.getElem?_drop, List.drop_drop]
  split
  · split
    · rfl
    · cases findByteIdx (buf.drop (pos + j)) lf with
      | none => rfl
      | some k =>
          have e₁ : pos + j + k - 1 = pos + (j + k - 1) := by omega
          have e₂ : pos + (j + k - 1) - (pos + j) = j + k - 1 - j := by omega
          simp only [e₁, e₂]
          split
          · rfl
          · rfl
  · rfl

/-- The line is read from `pos` on. -/
theorem sizeLine_drop (ok : Nat → Nat → Bool) (buf : List UInt8) (pos : Nat) :
    sizeLine ok buf pos =
      (sizeLine ok (buf.drop pos) 0).map fun p => (pos + p.1, p.2) := by
  unfold sizeLine
  rw [List.drop_zero]
  cases hexRun ok (buf.drop pos) 0 0 with
  | none => rfl
  | some p =>
      obtain ⟨size, digits⟩ := p
      simp only [Nat.zero_add, List.length_drop]
      have e₁ : buf.length - pos ≤ digits ↔ buf.length ≤ pos + digits := by omega
      simp only [e₁]
      split
      · rfl
      split
      · rfl
      · rename_i hd
        rw [sizeLineEnd_drop buf pos (Nat.pos_of_ne_zero hd)]
        cases sizeLineEnd (buf.drop pos) digits with
        | more => rfl
        | refuse e => rfl
        | accept k =>
            have e₂ : buf.length - pos ≤ k + 1 ↔ buf.length ≤ pos + k + 1 := by omega
            simp only [Verdict.map_accept, Verdict.bind_accept, e₂, List.getElem?_drop,
              show pos + (k + 1) = pos + k + 1 by omega]
            split
            · rfl
            split
            · rfl
            · simp [Nat.add_assoc]

/-! ### What is accepted -/

theorem hexRun_run {ok : Nat → Nat → Bool}
    (hok : ∀ a b i j, a ≤ b → i ≤ j → ok b j = true → ok a i = true) {ds r : List UInt8} {n : Nat}
    (hd : HexSize ds n) (hn : ok n (ds.length - 1) = true) (hr : NotAt isHex r) :
    hexRun ok (ds ++ r) 0 0 = some (n, ds.length) := by
  obtain ⟨-, hx, rfl⟩ := hd
  rw [hexRun_eq hok]
  simp only [takeWhile_run hx hr, Nat.zero_add, if_pos (Or.inr hn)]

theorem hexRun_some {ok : Nat → Nat → Bool}
    (hok : ∀ a b i j, a ≤ b → i ≤ j → ok b j = true → ok a i = true) {r : List UInt8} {n k : Nat}
    (h : hexRun ok r 0 0 = some (n, k)) (hk : k ≠ 0) :
    ∃ ds r', r = ds ++ r' ∧ HexSize ds n ∧ ds.length = k ∧ ok n (k - 1) = true := by
  obtain ⟨hsplit, hx⟩ := run_append isHex r
  rw [hexRun_eq hok] at h
  simp only [Nat.zero_add] at h
  split at h
  · rename_i hcond
    simp only [Option.some.injEq, Prod.mk.injEq] at h
    obtain ⟨rfl, rfl⟩ := h
    have hne : r.takeWhile isHex ≠ [] := fun e => hk (by simp [e])
    exact ⟨_, _, hsplit, ⟨hne, hx, rfl⟩, rfl, hcond.resolve_left hne⟩
  · cases h

/-- A chunk-ext, or the CR of a line without one, is no hex digit. -/
theorem ChunkExt.notAt_hex {e : List UInt8} (h : ChunkExt e) (r : List UInt8) :
    NotAt isHex (e ++ (crlf ++ r)) := by
  rcases h.start with rfl | ⟨o, t, ho, rfl⟩
  · exact notAt_cons.mpr (by decide)
  · cases o with
    | nil => exact notAt_cons.mpr (by decide)
    | cons c o =>
        have hc := ho c (by simp)
        simp only [isOws, Bool.or_eq_true, beq_iff_eq] at hc
        rcases hc with rfl | rfl
        · exact notAt_cons.mpr (by decide)
        · exact notAt_cons.mpr (by decide)

theorem ChunkExt.no_lf {e : List UInt8} (h : ChunkExt e) : lf ∉ e := by
  intro hm
  have := h.no_ctl _ hm
  revert this; decide

/-- `sizeLineEnd` in the words of the line: what stands between the digits and the line's end. -/
theorem sizeLineEnd_ext {ds e r : List UInt8} (he : ChunkExt e) :
    sizeLineEnd (ds ++ (e ++ (crlf ++ r))) ds.length = .accept (ds.length + e.length) := by
  have hat : ∀ i, (ds ++ (e ++ (crlf ++ r)))[ds.length + i]? = (e ++ (crlf ++ r))[i]? := by
    intro i
    rw [List.getElem?_append_right (by omega)]
    congr 1
    omega
  have hat₀ := hat 0
  rw [Nat.add_zero] at hat₀
  unfold sizeLineEnd
  by_cases hne : e = []
  · subst hne
    simp [crlf]
  · obtain ⟨c, e', rfl⟩ := List.exists_cons_of_ne_nil hne
    have hc : c = semicolon ∨ c = sp ∨ c = htab := by
      rcases he.start with h | ⟨o, t, ho, h⟩
      · cases h
      · cases o with
        | nil => exact .inl (List.cons.inj h).1
        | cons d o =>
            have hd := ho d (by simp)
            rw [← (List.cons.inj h).1] at hd
            simpa [isOws] using Or.inr hd
    have hcr : c ≠ cr := by rcases hc with rfl | rfl | rfl <;> decide
    have hidx : findByteIdx ((c :: e') ++ (crlf ++ r)) lf = some ((c :: e').length + 1) := by
      have e₁ : (c :: e') ++ (crlf ++ r) = ((c :: e') ++ [cr]) ++ lf :: r := by simp [crlf]
      rw [e₁, findByteIdx, idxOf?_append_cons]
      · simp
      · intro hm
        rcases List.mem_append.mp hm with hm | hm
        · exact he.no_lf hm
        · revert hm; decide
    have hend : (ds ++ ((c :: e') ++ (crlf ++ r)))[ds.length + (c :: e').length]? = some cr := by
      rw [hat, List.getElem?_append_right (Nat.le_refl _), Nat.sub_self]
      rfl
    have e₂ : ds.length + ((c :: e').length + 1) - 1 = ds.length + (c :: e').length := by omega
    have e₃ : ds.length + (c :: e').length - ds.length = (c :: e').length := by omega
    have hext : chunkExtOk (c :: e') = true := chunkExtOk_iff.mpr he
    simp only [List.drop_left, hidx, e₂, e₃, hend, List.take_left, hext]
    rw [hat₀]
    rcases hc with rfl | rfl | rfl <;> simp [hcr]

theorem sizeLineEnd_accept {ds r : List UInt8} {k : Nat}
    (h : sizeLineEnd (ds ++ r) ds.length = .accept k) :
    ∃ e t, r = e ++ cr :: t ∧ ChunkExt e ∧ k = ds.length + e.length := by
  have hat : ∀ i, (ds ++ r)[ds.length + i]? = r[i]? := by
    intro i
    rw [List.getElem?_append_right (by omega), Nat.add_sub_cancel_left]
  have hat₀ := hat 0
  rw [Nat.add_zero] at hat₀
  unfold sizeLineEnd at h
  rw [hat₀, List.drop_left] at h
  split at h
  · rename_i hcr
    split at h
    · cases h
    split at h
    · cases h
    rename_i j hj
    obtain ⟨a, b, rfl, rfl, -⟩ := idxOf?_eq_some hj
    -- the LF is not the first byte behind the digits, which is `;`, SP or HTAB
    have ha : a ≠ [] := by
      rintro rfl
      rename_i hsep
      exact hsep ⟨by simp; decide, by simp; decide, by simp; decide⟩
    obtain ⟨a, c, rfl⟩ : ∃ a' c, a = a' ++ [c] := ⟨_, _, (List.dropLast_concat_getLast ha).symm⟩
    have e₁ : ds.length + (a ++ [c]).length - 1 = ds.length + a.length := by
      rw [List.length_append]; rfl
    have hc : (a ++ [c] ++ lf :: b)[a.length]? = some c := by simp
    have ht : (a ++ [c] ++ lf :: b).take a.length = a := by simp
    simp only [e₁, hat, hc, Nat.add_sub_cancel_left, ht] at h
    split at h
    · cases h
    rename_i hok
    cases h
    simp only [ne_eq, Option.some.injEq, not_or, not_not, Bool.not_eq_true', Bool.not_eq_false]
      at hok
    obtain ⟨rfl, hext⟩ := hok
    exact ⟨a, lf :: b, by simp, chunkExtOk_iff.mp hext, rfl⟩
  · rename_i hcr
    cases h
    obtain ⟨t, rfl⟩ : ∃ t, r = cr :: t := by
      cases r with
      | nil => exact absurd (by simp) hcr
      | cons c r => simp only [List.getElem?_cons_zero, ne_eq, Option.some.injEq, not_not] at hcr
                    exact ⟨r, by rw [hcr]⟩
    exact ⟨[], t, rfl, .nil, rfl⟩

section Bound

-- a bound that holds of a size holds of a smaller one
variable {ok : Nat → Nat → Bool}
  (hok : ∀ a b i j, a ≤ b → i ≤ j → ok b j = true → ok a i = true)
include hok

/-- **What `sizeLine` accepts**: `1*HEXDIG [ chunk-ext ] CRLF`, within the bound. -/
theorem sizeLine_accept_iff {r : List UInt8} {k size : Nat} :
    sizeLine ok r 0 = .accept (k, size) ↔
      ∃ ds e rest, r = ds ++ (e ++ (crlf ++ rest)) ∧ HexSize ds size ∧
        ok size (ds.length - 1) = true ∧ ChunkExt e ∧ k = ds.length + e.length + 2 := by
  constructor
  · intro h
    unfold sizeLine at h
    rw [List.drop_zero] at h
    split at h
    · cases h
    rename_i n j hrun
    simp only [Nat.zero_add] at h
    split at h
    · cases h
    split at h
    · cases h
    rename_i hj
    obtain ⟨ds, r', rfl, hd, rfl, hn⟩ := hexRun_some hok hrun hj
    obtain ⟨m, hm, h⟩ := Verdict.bind_eq_accept.mp h
    obtain ⟨e, t, rfl, he, rfl⟩ := sizeLineEnd_accept hm
    split at h
    · cases h
    split at h
    · cases h
    rename_i hlf
    cases h
    rw [ne_eq, not_not, List.getElem?_append_right (by omega),
      List.getElem?_append_right (by omega),
      show ds.length + e.length + 1 - ds.length - e.length = 1 by omega] at hlf
    cases t with
    | nil => cases hlf
    | cons c t =>
        simp only [List.getElem?_cons_succ, List.getElem?_cons_zero, Option.some.injEq] at hlf
        exact ⟨ds, e, t, by rw [hlf]; rfl, hd, hn, he, rfl⟩
  · rintro ⟨ds, e, rest, rfl, hd, hn, he, rfl⟩
    have hlen : ¬ (ds ++ (e ++ (crlf ++ rest))).length ≤ ds.length := by
      simp only [crlf, List.length_append, List.length_cons]; omega
    have hlen' : ¬ (ds ++ (e ++ (crlf ++ rest))).length ≤ ds.length + e.length + 1 := by
      simp only [crlf, List.length_append, List.length_cons]; omega
    have hlf : (ds ++ (e ++ (crlf ++ rest)))[ds.length + e.length + 1]? = some lf := by
      rw [List.getElem?_append_right (by omega), List.getElem?_append_right (by omega),
        show ds.length + e.length + 1 - ds.length - e.length = 1 by omega]
      rfl
    have hd0 : ds.length ≠ 0 := fun h => hd.1 (List.length_eq_zero_iff.mp h)
    simp only [sizeLine, List.drop_zero, hexRun_run hok hd hn (he.notAt_hex rest), Nat.zero_add,
      if_neg hlen, if_neg hd0, sizeLineEnd_ext he, Verdict.bind_accept, if_neg hlen', hlf, ne_eq,
      not_true_eq_false, if_false]

/-- The same at a position. -/
theorem sizeLine_at_iff {buf : List UInt8} {pos k size : Nat} :
    sizeLine ok buf pos = .accept (k, size) ↔
      ∃ ds e rest, buf.drop pos = ds ++ (e ++ (crlf ++ rest)) ∧ HexSize ds size ∧
        ok size (ds.length - 1) = true ∧ ChunkExt e ∧ k = pos + (ds.length + e.length + 2) := by
  rw [sizeLine_drop, Verdict.map_eq_accept]
  constructor
  · rintro ⟨⟨k, n⟩, h, e⟩
    cases e
    obtain ⟨ds, e, rest, hr, hd, hn, he, rfl⟩ := (sizeLine_accept_iff hok).mp h
    exact ⟨ds, e, rest, hr, hd, hn, he, rfl⟩
  · rintro ⟨ds, e, rest, hr, hd, hn, he, rfl⟩
    exact ⟨(ds.length + e.length + 2, size),
      (sizeLine_accept_iff hok).mpr ⟨ds, e, rest, hr, hd, hn, he, rfl⟩, rfl⟩

/-- The data starts further on, inside the buffer. -/
theorem sizeLine_bounds {buf : List UInt8} {pos k size : Nat}
    (h : sizeLine ok buf pos = .accept (k, size)) : pos < k ∧ k ≤ buf.length := by
  obtain ⟨ds, e, rest, hr, -, -, -, rfl⟩ := (sizeLine_at_iff hok).mp h
  have := congrArg List.length hr
  simp only [List.length_drop, List.length_append, crlf, List.length_cons, List.length_nil] at this
  omega

/-- Within its bound, a bound makes no difference. -/
theorem sizeLine_within {buf : List UInt8} {pos : Nat}
    (h : let ds := (buf.drop pos).takeWhile isHex
      ds = [] ∨ ok (hexValue 0 ds) (ds.length - 1) = true) :
    sizeLine ok buf pos = sizeLine (fun _ _ => true) buf pos := by
  have e : hexRun ok (buf.drop pos) 0 0 = hexRun (fun _ _ => true) (buf.drop pos) 0 0 := by
    rw [hexRun_eq hok, hexRun_eq fun _ _ _ _ _ _ _ => rfl]
    simp only [Nat.zero_add, or_true, if_true]
    exact if_pos h
  simp only [sizeLine, e]

/-! ### A chunk at a position -/

/-- A chunk at `pos`, by the tests both framers make: the size line, and CRLF behind the data. -/
theorem chunk_at {buf : List UInt8} {pos data size : Nat}
    (hs : sizeLine ok buf pos = .accept (data, size)) (h0 : size ≠ 0)
    (hcr : buf[data + size]? = some cr) (hlf : buf[data + size + 1]? = some lf) :
    ∃ c d rest, buf.drop pos = c ++ rest ∧ ChunkOf ok c d ∧ data + size + 2 = pos + c.length := by
  obtain ⟨ds, e, r, hr, hd, hmax, he, hdata⟩ := (sizeLine_at_iff hok).mp hs
  have hr' : buf.drop data = r := by
    have h : buf.drop pos = (ds ++ (e ++ crlf)) ++ r := by rw [hr]; simp
    rw [← drop_behind h, hdata]
    simp [crlf, Nat.add_assoc]
  obtain ⟨hlen₁, hcr⟩ := List.getElem?_eq_some_iff.mp hcr
  obtain ⟨hlen₂, hlf⟩ := List.getElem?_eq_some_iff.mp hlf
  have hcrlf : (buf.drop data).drop size = crlf ++ buf.drop (data + size + 2) := by
    rw [List.drop_drop, List.drop_eq_getElem_cons hlen₁, List.drop_eq_getElem_cons hlen₂, hcr, hlf]
    rfl
  have hdl : ((buf.drop data).take size).length = size := by
    rw [List.length_take, List.length_drop]; omega
  refine ⟨ds ++ (e ++ (crlf ++ ((buf.drop data).take size ++ crlf))), (buf.drop data).take size,
    buf.drop (data + size + 2), ?_, ⟨ds, e, rfl, by rwa [hdl], by rwa [hdl], ?_, he⟩, ?_⟩
  · rw [hr, ← hr']
    conv_lhs => rw [← List.take_append_drop size (buf.drop data), hcrlf]
    simp
  · rw [← List.length_pos_iff, hdl]; omega
  · simp only [List.length_append, crlf, List.length_cons, List.length_nil, hdl]
    omega

/-- What those tests see at a chunk. -/
theorem ChunkOf.read {buf c d rest : List UInt8} {pos : Nat} (h : ChunkOf ok c d)
    (hb : buf.drop pos = c ++ rest) :
    ∃ data, sizeLine ok buf pos = .accept (data, d.length) ∧ d.length ≠ 0 ∧
      buf[data + d.length]? = some cr ∧ buf[data + d.length + 1]? = some lf ∧
      data + d.length + 2 = pos + c.length := by
  obtain ⟨ds, e, rfl, hd, hmax, hne, he⟩ := h
  refine ⟨pos + (ds.length + e.length + 2), (sizeLine_at_iff hok).mpr
    ⟨ds, e, d ++ (crlf ++ rest), by rw [hb]; simp, hd, hmax, he, rfl⟩,
    fun e => hne (List.length_eq_zero_iff.mp e), ?_⟩
  have hb' : buf.drop pos = (ds ++ (e ++ (crlf ++ d))) ++ (crlf ++ rest) := by rw [hb]; simp
  have hat := drop_behind hb'
  have hend : pos + (ds ++ (e ++ (crlf ++ d))).length =
      pos + (ds.length + e.length + 2) + d.length := by
    simp only [List.length_append, crlf, List.length_cons, List.length_nil]; omega
  rw [hend] at hat
  refine ⟨?_, ?_, ?_⟩
  · rw [← Nat.add_zero (pos + _ + _), ← List.getElem?_drop, hat]; rfl
  · rw [← List.getElem?_drop, hat]; rfl
  · simp only [List.length_append, crlf, List.length_cons, List.length_nil]; omega

end Bound

/-! ### Answers are final -/

/-- The size loop answers on the bytes it has, unless they are all digits. -/
theorem hexRun_append {ok : Nat → Nat → Bool} (r x : List UInt8) {size j : Nat}
    (h : ∀ n, hexRun ok r size j ≠ some (n, j + r.length)) :
    hexRun ok (r ++ x) size j = hexRun ok r size j := by
  induction r generalizing size j with
  | nil => exact absurd rfl (h size)
  | cons c r ih =>
      simp only [List.cons_append, hexRun] at h ⊢
      split
      · rfl
      · rename_i d hd
        split
        · rename_i hok
          refine ih fun n => ?_
          have := h n
          rw [hd] at this
          simpa only [hok, if_true, List.length_cons, Nat.add_assoc, Nat.add_comm 1] using this
        · rfl

theorem sizeLineEnd_stable {b : List UInt8} {j : Nat} (hj : j < b.length) (x : List UInt8)
    (h : sizeLineEnd b j ≠ .more) : sizeLineEnd (b ++ x) j = sizeLineEnd b j := by
  unfold sizeLineEnd at h ⊢
  rw [List.getElem?_append_left hj, List.drop_append_of_le_length (Nat.le_of_lt hj)]
  split
  · rename_i hcr
    rw [if_pos hcr] at h
    split
    · rfl
    · rename_i hsep
      rw [if_neg hsep] at h
      cases hk : findByteIdx (b.drop j) lf with
      | none => rw [hk] at h; exact absurd rfl h
      | some k =>
          have hlt := idxOf?_lt hk
          rw [List.length_drop] at hlt
          have hlen : j + k - 1 - j ≤ (b.drop j).length := by rw [List.length_drop]; omega
          simp only [findByteIdx, idxOf?_append_of_some hk x,
            List.getElem?_append_left (show j + k - 1 < b.length by omega),
            List.take_append_of_le_length hlen]
  · rfl

theorem sizeLine_stable (ok : Nat → Nat → Bool) (pos : Nat) :
    Stable fun b => sizeLine ok b pos := by
  intro b x h
  simp only [sizeLine] at h ⊢
  by_cases hpos : pos ≤ b.length
  swap
  · have e : b.drop pos = [] := List.drop_eq_nil_of_le (by omega)
    exact absurd (by simp [e, hexRun, show b.length ≤ pos by omega]) h
  have hlen : (b.drop pos).length = b.length - pos := List.length_drop
  -- the digits end inside `b`, or the line would need more
  have hrun : hexRun ok (b.drop pos ++ x) 0 0 = hexRun ok (b.drop pos) 0 0 := by
    refine hexRun_append _ x fun n hn => h ?_
    simp only [hn, hlen, if_pos (show b.length ≤ pos + (0 + (b.length - pos)) by omega)]
  rw [List.drop_append_of_le_length hpos, hrun]
  cases hk : hexRun ok (b.drop pos) 0 0 with
  | none => rfl
  | some p =>
      obtain ⟨size, digits⟩ := p
      simp only [hk] at h ⊢
      by_cases hj : b.length ≤ pos + digits
      · exact absurd (if_pos hj) h
      have hj' : ¬ (b ++ x).length ≤ pos + digits := by rw [List.length_append]; omega
      simp only [if_neg hj, if_neg hj'] at h ⊢
      split
      · rfl
      rename_i hd
      rw [if_neg hd] at h
      have hm : sizeLineEnd b (pos + digits) ≠ .more := fun e => h (by rw [e]; rfl)
      rw [sizeLineEnd_stable (by omega) x hm]
      cases he : sizeLineEnd b (pos + digits) with
      | more => rfl
      | refuse e => rfl
      | accept k =>
          rw [he] at h
          simp only [Verdict.bind_accept] at h ⊢
          by_cases hk : b.length ≤ k + 1
          · exact absurd (if_pos hk) h
          · have hk' : ¬ (b ++ x).length ≤ k + 1 := by rw [List.length_append]; omega
            simp only [if_neg hk, if_neg hk', List.getElem?_append_left (Nat.lt_of_not_le hk)]

end Vanilla.Chunk

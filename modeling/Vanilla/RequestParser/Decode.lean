import Vanilla.RequestParser.Framing

/-!
# Request parser — the decoder on a framed message

`decode_into` scans the head a second time, and not line by line: it looks for the first space, the
next space or CR, and a CR LF CR LF.

* `requestLineEnd_ok`: where `request_line_end` stops.
* `findSequenceIdx_block`: the CR LF CR LF search stops at the head's empty line.
* `decode_agrees_iff`: the decoder cuts the message where the framer does exactly when the first
  space comes before the first LF.
-/

namespace Vanilla.RequestParser
open Scan

/-! ### The request line -/

/-- What `request_line_end` leaves in the request when it ends at `headerStart`: `s` is the first
space, `pos` the target's start and `c` the CR before `headerStart`. -/
structure LineEnd (req req' : HttpRequest) (s pos c : Nat) : Prop where
  space : findByteIdx req.buffer sp = some s
  skip : s < pos ∧ ∀ i, s < i → i < req.buffer.length → req.buffer[i]? ≠ some sp → pos ≤ i
  cr : req.buffer[c]? = some cr ∧ pos ≤ c ∧ ∀ i, pos ≤ i → req.buffer[i]? = some cr → c ≤ i
  lf : req.buffer[c + 1]? = some lf
  buffer : req'.buffer = req.buffer
  method : req'.method = ⟨0, s⟩
  path : req'.path.start = pos ∧ (req'.path.start : Int) + req'.path.len ≤ c
  version : (req'.version.start : Int) + req'.version.len ≤ c

theorem requestLineVersion_ok (req : HttpRequest) {req' : HttpRequest}
    {s pos spPos crPos hs : Nat}
    (hspace : findByteIdx req.buffer sp = some s) (hmethod : req.method = ⟨0, s⟩)
    (hskip : s < pos ∧ ∀ i, s < i → i < req.buffer.length → req.buffer[i]? ≠ some sp → pos ≤ i)
    (hsp : findByteIdx (req.buffer.drop pos) sp = some spPos)
    (hcr : findByteIdx (req.buffer.drop pos) cr = some crPos)
    (h : requestLineVersion req pos spPos crPos = (.ok hs, req')) :
    ∃ c, LineEnd req req' s pos c ∧ hs = c + 2 := by
  obtain ⟨hsp', -⟩ := idxOf?_drop hsp
  obtain ⟨hcr', hmin⟩ := idxOf?_drop hcr
  unfold requestLineVersion at h
  by_cases hlt : crPos < spPos
  · simp only [if_neg (show ¬ spPos < crPos by omega), if_pos hlt] at h
    split at h
    · cases h
    · rename_i hlf
      cases h
      refine ⟨pos + crPos, ⟨hspace, hskip, ⟨hcr', by omega, hmin⟩, not_not.mp hlf, rfl, hmethod,
        ⟨rfl, ?_⟩, ?_⟩, rfl⟩
      · simp only; omega
      · simp only; omega
  · have hne : spPos ≠ crPos := by
      rintro rfl
      rw [hsp'] at hcr'
      revert hcr'; decide
    simp only [if_pos (show spPos < crPos by omega), if_neg hlt] at h
    split at h
    · cases h
    rename_i k hk
    obtain ⟨hk', hkmin⟩ := idxOf?_drop hk
    split at h
    · cases h
    · rename_i hlf
      cases h
      refine ⟨pos + spPos + 1 + k, ⟨hspace, hskip, ⟨hk', by omega, fun i hi hc => ?_⟩,
        not_not.mp hlf, rfl, hmethod, ⟨rfl, ?_⟩, ?_⟩, rfl⟩
      · have := hmin i hi hc
        exact hkmin i (by omega) hc
      · simp only; omega
      · simp only; omega

/-- **Where `request_line_end` stops.** -/
theorem requestLineEnd_ok {req req' : HttpRequest} {hs : Nat}
    (h : requestLineEnd req = (.ok hs, req')) :
    ∃ s pos c, LineEnd req req' s pos c ∧ hs = c + 2 := by
  unfold requestLineEnd at h
  simp only at h
  split at h
  · cases h
  split at h
  · cases h
  · cases h
  rename_i m hm
  split at h
  · cases h
  split at h
  · cases h
  rename_i spPos hsp
  split at h
  · cases h
  rename_i crPos hcr
  generalize hpos : m + 2 + ((req.buffer.drop (m + 2)).takeWhile (· == sp)).length = pos at *
  have hskip : m + 1 < pos ∧ ∀ i, m + 1 < i → i < req.buffer.length → req.buffer[i]? ≠ some sp →
      pos ≤ i := by
    refine ⟨by omega, fun i hi hlen hne => ?_⟩
    have hget : (req.buffer.drop (m + 2))[i - (m + 2)]? = some req.buffer[i] := by
      rw [List.getElem?_drop, show m + 2 + (i - (m + 2)) = i by omega,
        List.getElem?_eq_getElem hlen]
    have hc : (req.buffer[i] == sp) = false := by
      rw [List.getElem?_eq_getElem hlen] at hne
      simpa using hne
    have := length_takeWhile_le (p := (· == sp)) hget hc
    omega
  obtain ⟨c, hend, rfl⟩ := requestLineVersion_ok { req with method := ⟨0, (m + 1 : Nat)⟩ }
    hm rfl hskip hsp hcr h
  exact ⟨m + 1, pos, c, ⟨hend.space, hend.skip, hend.cr, hend.lf, hend.buffer, hend.method,
    hend.path, hend.version⟩, rfl⟩

/-! ### The empty line -/

theorem findSequenceIdx_skip {needle a b : List UInt8}
    (h : ∀ i < a.length, ¬ needle <+: (a ++ b).drop i) :
    findSequenceIdx needle (a ++ b) = (findSequenceIdx needle b).map (· + a.length) := by
  induction a with
  | nil => simp
  | cons c a ih =>
      have h₀ : needle.isPrefixOf (c :: (a ++ b)) = false := by
        rw [← Bool.not_eq_true, List.isPrefixOf_iff_prefix]
        exact h 0 (by simp)
      rw [List.cons_append, findSequenceIdx, h₀, if_neg (by simp),
        ih fun i hi => h (i + 1) (by simpa using hi), Option.map_map]
      rfl

theorem findSequenceIdx_here {needle b : List UInt8} (h : needle <+: b) :
    findSequenceIdx needle b = some 0 := by
  cases b with
  | nil => rw [findSequenceIdx, if_pos (List.prefix_nil.mp h)]
  | cons c b => rw [findSequenceIdx, if_pos (List.isPrefixOf_iff_prefix.mpr h)]

theorem findSequenceIdx_found {needle b : List UInt8} {i : Nat}
    (h : findSequenceIdx needle b = some i) : needle <+: b.drop i := by
  induction b generalizing i with
  | nil =>
      rw [findSequenceIdx] at h
      split at h
      · rename_i hn; rw [hn]; exact List.nil_prefix
      · cases h
  | cons c b ih =>
      rw [findSequenceIdx] at h
      split at h
      · rename_i hp
        cases h
        exact List.isPrefixOf_iff_prefix.mp hp
      · obtain ⟨j, hj, rfl⟩ := Option.map_eq_some_iff.mp h
        exact ih hj

theorem doubleCrlf_at {b : List UInt8} {i : Nat} (h : doubleCrlf <+: b.drop i) :
    b[i]? = some cr ∧ b[i + 1]? = some lf ∧ b[i + 2]? = some cr ∧ b[i + 3]? = some lf := by
  obtain ⟨t, ht⟩ := h
  have hat : ∀ j, b[i + j]? = (doubleCrlf ++ t)[j]? := fun j => by rw [ht, List.getElem?_drop]
  exact ⟨hat 0, hat 1, hat 2, hat 3⟩

/-- No CR LF CR LF starts inside a line. -/
theorem no_doubleCrlf_in_line {l r : List UInt8} (hl : lf ∉ l) {i : Nat} (hi : i < l.length) :
    ¬ doubleCrlf <+: (l ++ cr :: r).drop i := by
  intro h
  obtain ⟨-, hlf, -⟩ := doubleCrlf_at h
  rcases Nat.lt_or_ge (i + 1) l.length with hlt | hge
  · rw [List.getElem?_append_left hlt] at hlf
    exact hl (List.mem_of_getElem? hlf)
  · rw [show i + 1 = l.length by omega, List.getElem?_append_right (Nat.le_refl _)] at hlf
    simp only [Nat.sub_self, List.getElem?_cons_zero, Option.some.injEq] at hlf
    exact cr_ne_lf hlf

/-- A line that is not empty does not read CR LF. -/
theorem block_not_crlf {l : List UInt8} (hl : IsLine lf l) (ls : List (List UInt8))
    (r : List UInt8) : ¬ ((unlines cr lf (l :: ls) ++ r)[0]? = some cr ∧
      (unlines cr lf (l :: ls) ++ r)[1]? = some lf) := by
  obtain ⟨hne, hlf⟩ := hl
  obtain ⟨c, l, rfl⟩ := List.exists_cons_of_ne_nil hne
  rw [unlines_cons]
  rintro ⟨-, h⟩
  cases l with
  | nil => exact cr_ne_lf (Option.some.inj h)
  | cons d l => exact hlf (by simp [Option.some.inj h])

/-- **The search for CR LF CR LF** stops at the empty line behind a block of lines. -/
theorem findSequenceIdx_block {ls : List (List UInt8)} (hne : ls ≠ [])
    (hls : ∀ l ∈ ls, IsLine lf l) (r : List UInt8) :
    findSequenceIdx doubleCrlf (unlines cr lf ls ++ cr :: lf :: r) =
      some ((unlines cr lf ls).length - 2) := by
  induction ls with
  | nil => exact absurd rfl hne
  | cons l ls ih =>
      obtain ⟨-, hlf⟩ := hls l (by simp)
      cases ls with
      | nil =>
          have e : unlines cr lf [l] ++ cr :: lf :: r = l ++ cr :: lf :: cr :: lf :: r := by simp
          have hp : doubleCrlf <+: cr :: lf :: cr :: lf :: r := ⟨r, rfl⟩
          rw [e, findSequenceIdx_skip fun i hi => no_doubleCrlf_in_line hlf hi,
            findSequenceIdx_here hp]
          simp
      | cons l₂ ls =>
          have e : unlines cr lf (l :: l₂ :: ls) ++ cr :: lf :: r =
              (l ++ [cr, lf]) ++ (unlines cr lf (l₂ :: ls) ++ cr :: lf :: r) := by simp
          rw [e, findSequenceIdx_skip, ih (by simp) fun l h => hls l (by simp [h])]
          · simp only [Option.map_some, unlines_cons, List.length_append, List.length_cons,
              List.length_nil, Option.some.injEq]
            omega
          · intro i hi hp
            simp only [List.length_append, List.length_cons, List.length_nil] at hi
            rcases Nat.lt_or_ge i l.length with hlt | hge
            · refine no_doubleCrlf_in_line (r := lf :: (unlines cr lf (l₂ :: ls) ++ cr :: lf :: r))
                hlf hlt ?_
              simpa using hp
            · obtain ⟨h₀, -, h₂, h₃⟩ := doubleCrlf_at hp
              have hat : ∀ j, l.length + 2 ≤ j →
                  ((l ++ [cr, lf]) ++ (unlines cr lf (l₂ :: ls) ++ cr :: lf :: r))[j]? =
                    (unlines cr lf (l₂ :: ls) ++ cr :: lf :: r)[j - (l.length + 2)]? := by
                intro j hj
                rw [List.getElem?_append_right (by simpa using hj)]
                simp
              rcases Nat.eq_or_lt_of_le hge with rfl | hgt
              · rw [hat _ (by omega)] at h₂ h₃
                rw [show l.length + 2 - (l.length + 2) = 0 by omega] at h₂
                rw [show l.length + 3 - (l.length + 2) = 1 by omega] at h₃
                exact block_not_crlf (hls l₂ (by simp)) _ _ ⟨h₂, h₃⟩
              · rw [show i = l.length + 1 by omega, List.getElem?_append_left (by simp),
                  List.getElem?_append_right (by omega)] at h₀
                simp only [Nat.add_sub_cancel_left, List.getElem?_cons_succ,
                  List.getElem?_cons_zero, Option.some.injEq] at h₀
                exact cr_ne_lf h₀.symm

/-! ### The decoder -/

/-- The decoded body is what the buffer has from `start` on. -/
def BodyFrom (req : HttpRequest) (start : Nat) : Prop :=
  start ≤ req.buffer.length ∧
    req.body = if start = req.buffer.length then ⟨0, 0⟩
      else ⟨start, (req.buffer.length - start : Nat)⟩

/-- What `decode_into` leaves in the request, `headerStart` being where the request line ends. -/
theorem decodeInto_ok {req req' : HttpRequest} (h : decodeInto req = (true, req')) :
    ∃ s pos c, LineEnd req req' s pos c ∧
      ((req.buffer[c + 2]? = some cr ∧ req.buffer[c + 3]? = some lf ∧
          req'.headerFields = ⟨c + 2, 0⟩ ∧ BodyFrom req' (c + 4)) ∨
        (¬ (req.buffer[c + 2]? = some cr ∧ req.buffer[c + 3]? = some lf) ∧ ∃ len,
          findSequenceIdx doubleCrlf (req.buffer.drop (c + 2)) = some len ∧
          req'.headerFields = ⟨c + 2, len⟩ ∧ BodyFrom req' (c + 2 + len + 4))) := by
  unfold decodeInto at h
  simp only at h
  split at h
  · cases h
  rename_i hs req₁ hline
  obtain ⟨s, pos, c, hend, rfl⟩ := requestLineEnd_ok hline
  have hbuf := hend.buffer
  split at h
  · rename_i hcrlf
    cases h
    refine ⟨s, pos, c, ⟨hend.space, hend.skip, hend.cr, hend.lf, hbuf, hend.method, hend.path,
      hend.version⟩, .inl ⟨hcrlf.1, hcrlf.2, rfl, ?_⟩⟩
    have hlt : c + 3 < req.buffer.length := (List.getElem?_eq_some_iff.mp hcrlf.2).1
    refine ⟨by simp only [hbuf]; omega, ?_⟩
    simp only [hbuf]
    by_cases hend' : c + 4 = req.buffer.length
    · rw [if_neg (by omega), if_pos hend']
    · rw [if_pos (by omega), if_neg hend']
  · rename_i hcrlf
    split at h
    · cases h
    rename_i len hlen
    cases h
    refine ⟨s, pos, c, ⟨hend.space, hend.skip, hend.cr, hend.lf, hbuf, hend.method, hend.path,
      hend.version⟩, .inr ⟨hcrlf, len, hlen, rfl, ?_⟩⟩
    have hle : c + 2 + len + 4 ≤ req.buffer.length := by
      have := (findSequenceIdx_found hlen).length_le
      simp only [doubleCrlf, List.length_cons, List.length_nil, List.length_drop] at this
      omega
    refine ⟨by simpa only [hbuf] using hle, ?_⟩
    simp only [hbuf]
    by_cases hend' : c + 2 + len + 4 = req.buffer.length
    · rw [if_pos (by omega), if_pos hend']
    · rw [if_neg (by omega), if_neg hend']

/-- A first space in the request line keeps the decoder in it: the CR it finds is the line's. -/
theorem lineEnd_in_line {h : Head} {body : List UInt8} (hl : h.Lines) {req req' : HttpRequest}
    (hbuf : req.buffer = h.bytes ++ body) {s pos c : Nat} (hend : LineEnd req req' s pos c)
    (hlt : s < h.requestLine.length + 1) : c = h.requestLine.length := by
  rw [head_append] at hbuf
  have hcr : req.buffer[h.requestLine.length]? = some cr := by rw [hbuf]; simp
  have hne : s ≠ h.requestLine.length := by
    rintro rfl
    rw [idxOf?_get hend.space] at hcr
    revert hcr; decide
  have hpos := hend.skip.2 h.requestLine.length (by omega) (List.getElem?_eq_some_iff.mp hcr).1
    (by rw [hcr]; decide)
  have hle := hend.cr.2.2 h.requestLine.length hpos hcr
  by_contra hne'
  have hlf := hend.lf
  rcases Nat.lt_or_ge (c + 1) h.requestLine.length with hlt' | hge
  · rw [hbuf, List.getElem?_append_left hlt'] at hlf
    exact hl.1 (List.mem_of_getElem? hlf)
  · rw [show c + 1 = h.requestLine.length by omega, hcr] at hlf
    exact cr_ne_lf (Option.some.inj hlf)

/-- **The decoder on a message whose first space is in its request line** cuts it where the
grammar does. -/
theorem decode_framed {h : Head} {body : List UInt8} (hl : h.Lines) {req req' : HttpRequest}
    (hbuf : req.buffer = h.bytes ++ body) (hdec : decodeInto req = (true, req')) {s : Nat}
    (hs : findByteIdx (h.bytes ++ body) sp = some s) (hlt : s < h.requestLine.length + 1) :
    ∃ pos, LineEnd req req' s pos h.requestLine.length ∧
      req'.headerFields = ⟨h.requestLine.length + 2, ((unlines cr lf h.fields).length - 2 : Nat)⟩ ∧
      BodyFrom req' h.bytes.length := by
  obtain ⟨s', pos, c, hend, hrest⟩ := decodeInto_ok hdec
  obtain rfl : s' = s := by
    have := hend.space
    rw [hbuf, hs] at this
    exact (Option.some.inj this).symm
  obtain rfl := lineEnd_in_line hl hbuf hend hlt
  refine ⟨pos, hend, ?_⟩
  have hd : req.buffer.drop (h.requestLine.length + 2) =
      unlines cr lf h.fields ++ cr :: lf :: body := by rw [hbuf]; exact head_drop
  have hget : ∀ i, req.buffer[h.requestLine.length + 2 + i]? =
      (unlines cr lf h.fields ++ cr :: lf :: body)[i]? := by
    intro i; rw [← List.getElem?_drop, hd]
  cases hfs : h.fields with
  | nil =>
      rw [hfs] at hget
      rcases hrest with ⟨-, -, hhf, hbody⟩ | ⟨hno, -⟩
      · refine ⟨by rw [hhf]; rfl, ?_⟩
        rw [head_length, hfs]
        exact hbody
      · exact absurd ⟨hget 0, hget 1⟩ hno
  | cons l ls =>
      have hne : h.fields ≠ [] := by rw [hfs]; simp
      rcases hrest with ⟨h₀, h₁, -⟩ | ⟨-, len, hseq, hhf, hbody⟩
      · rw [hfs] at hget
        exact absurd ⟨(hget 0).symm.trans h₀, (hget 1).symm.trans h₁⟩
          (block_not_crlf (hl.2 l (by rw [hfs]; simp)) ls _)
      · rw [hd, findSequenceIdx_block hne hl.2] at hseq
        obtain rfl := Option.some.inj hseq
        rw [← hfs]
        refine ⟨hhf, ?_⟩
        have h2 : 2 ≤ (unlines cr lf h.fields).length := by
          rw [hfs, unlines_cons]; simp; omega
        have e : h.requestLine.length + 2 + ((unlines cr lf h.fields).length - 2) + 4 =
            h.bytes.length := by rw [head_length]; omega
        rw [← e]
        exact hbody

/-! ### A request line with all its parts -/

section Parts

variable {m t v rest : List UInt8} {req : HttpRequest}

/-- `request_line_end` on `method SP target SP version CRLF`. -/
theorem requestLineEnd_parts (hm : m ≠ [] ∧ sp ∉ m) (ht : t ≠ [] ∧ sp ∉ t ∧ cr ∉ t) (hv : cr ∉ v)
    (hbuf : req.buffer = m ++ sp :: (t ++ sp :: (v ++ cr :: lf :: rest)))
    (hlen : 12 ≤ req.buffer.length) :
    requestLineEnd req = (.ok (m.length + 1 + t.length + 1 + v.length + 2),
      { req with
        method := ⟨0, m.length⟩
        path := ⟨m.length + 1, t.length⟩
        version := ⟨m.length + 1 + t.length + 1, v.length⟩ }) := by
  have hd₁ : req.buffer.drop (m.length + 1) = t ++ sp :: (v ++ cr :: lf :: rest) := by
    rw [hbuf, List.drop_append, List.drop_eq_nil_of_le (by omega)]
    simp
  have hd₂ : req.buffer.drop (m.length + 1 + t.length + 1) = v ++ cr :: lf :: rest := by
    rw [Nat.add_assoc, ← List.drop_drop, hd₁, List.drop_append, List.drop_eq_nil_of_le (by omega)]
    simp
  have hsp : findByteIdx req.buffer sp = some m.length := by
    rw [findByteIdx, hbuf, idxOf?_append_cons hm.2]
  have hskip : (t ++ sp :: (v ++ cr :: lf :: rest)).takeWhile (· == sp) = [] := by
    obtain ⟨c, t, rfl⟩ := List.exists_cons_of_ne_nil ht.1
    have hc : c ≠ sp := fun e => ht.2.1 (by simp [e])
    rw [List.cons_append, List.takeWhile_cons_of_neg (by simpa using hc)]
  have hsp₂ : findByteIdx (t ++ sp :: (v ++ cr :: lf :: rest)) sp = some t.length :=
    idxOf?_append_cons ht.2.1 _
  have hcr₂ : findByteIdx (t ++ sp :: (v ++ cr :: lf :: rest)) cr =
      some (t.length + (v.length + 1)) := by
    have e : t ++ sp :: (v ++ cr :: lf :: rest) = (t ++ sp :: v) ++ cr :: lf :: rest := by simp
    have hn : cr ∉ t ++ sp :: v := by simp [ht.2.2, hv]; decide
    rw [findByteIdx, e, idxOf?_append_cons hn]
    simp
  have hcr₃ : findByteIdx (v ++ cr :: lf :: rest) cr = some v.length := idxOf?_append_cons hv _
  have hlf : req.buffer[m.length + 1 + t.length + 1 + v.length + 1]? = some lf := by
    rw [Nat.add_assoc _ v.length, ← List.getElem?_drop, hd₂, List.getElem?_append_right (by omega)]
    simp
  obtain ⟨k, hk⟩ : ∃ k, m.length = k + 1 :=
    ⟨m.length - 1, by have := List.length_pos_iff.mpr hm.1; omega⟩
  unfold requestLineEnd requestLineVersion
  rw [hk] at hd₁ hd₂ hsp hlf ⊢
  have hpos : k + 2 ≠ req.buffer.length := by
    rw [hbuf]; simp only [List.length_append, List.length_cons]; omega
  simp only [hsp, if_neg (Nat.not_lt.mpr hlen), hd₁, hskip, List.length_nil, Nat.add_zero,
    if_neg hpos, hsp₂, hcr₂, if_pos (show t.length < t.length + (v.length + 1) by omega),
    if_neg (show ¬ t.length + (v.length + 1) < t.length by omega), hd₂, hcr₃, hlf, ne_eq,
    not_true_eq_false, if_false]
  rw [show ((k + 2 + t.length : Nat) : Int) - ((k + 2 : Nat) : Int) = t.length by omega]

/-- The slice of `t` behind `a`. -/
theorem view_behind (a t r : List UInt8) :
    (⟨a.length, t.length⟩ : Slice).view (a ++ (t ++ r)) = t := by
  simp [Slice.view]

/-- **The decoder reads the parts of a request line back**, and the lines behind it. -/
theorem decodeInto_parts {l : List UInt8} {ls : List (List UInt8)} (hm : m ≠ [] ∧ sp ∉ m)
    (ht : t ≠ [] ∧ sp ∉ t ∧ cr ∉ t) (hv : cr ∉ v) (hl : ∀ l' ∈ l :: ls, IsLine lf l')
    (hbuf : req.buffer =
      m ++ sp :: (t ++ sp :: (v ++ cr :: lf :: (unlines cr lf (l :: ls) ++ cr :: lf :: rest))))
    (hlen : 12 ≤ req.buffer.length) :
    ∃ req', decodeInto req = (true, req') ∧ req'.method.view req.buffer = m ∧
      req'.path.view req.buffer = t ∧
      req'.headerFields.view req.buffer ++ crlf = unlines cr lf (l :: ls) := by
  obtain ⟨w, hw⟩ : ∃ w, unlines cr lf (l :: ls) = w ++ crlf := unlines_ends (by simp)
  -- what stands before the fields
  obtain ⟨a, ha, hda⟩ : ∃ a, a.length = m.length + 1 + t.length + 1 + v.length + 2 ∧
      req.buffer = a ++ (unlines cr lf (l :: ls) ++ cr :: lf :: rest) := by
    refine ⟨m ++ sp :: (t ++ sp :: (v ++ crlf)), ?_, by rw [hbuf]; simp [crlf]⟩
    simp only [crlf, List.length_append, List.length_cons, List.length_nil]
    omega
  have hno : ¬ (req.buffer[a.length]? = some cr ∧ req.buffer[a.length + 1]? = some lf) := by
    rw [hda, List.getElem?_append_right (Nat.le_refl _),
      List.getElem?_append_right (Nat.le_add_right _ _), Nat.sub_self, Nat.add_sub_cancel_left]
    exact block_not_crlf (hl l (by simp)) ls _
  have hd : req.buffer.drop a.length = unlines cr lf (l :: ls) ++ cr :: lf :: rest := by
    rw [hda, List.drop_left]
  rw [ha] at hno hd
  unfold decodeInto
  simp only [requestLineEnd_parts hm ht hv hbuf hlen, if_neg hno, hd,
    findSequenceIdx_block (by simp) hl]
  refine ⟨_, rfl, ?_, ?_, ?_⟩
  · rw [hbuf]
    exact view_behind [] m _
  · rw [hbuf, List.append_cons]
    have := view_behind (m ++ [sp]) t
    rw [List.length_append, List.length_singleton] at this
    exact this _
  · have e : (unlines cr lf (l :: ls)).length - 2 = w.length := by
      rw [hw, List.length_append]
      exact Nat.add_sub_cancel _ 2
    simp only [e, ← ha]
    rw [hda, hw, List.append_assoc, view_behind]

end Parts

/-! ### Two scanners, one message -/

/-- The decoder's parts of a message of `n` bytes are the framer's: method, target and version in
the request line, the header section in the field lines, all of them, and the body behind the
head. -/
structure Agrees (n firstLf headLen : Nat) (req : HttpRequest) : Prop where
  method : (req.method.start : Int) + req.method.len ≤ firstLf
  path : (req.path.start : Int) + req.path.len ≤ firstLf
  version : (req.version.start : Int) + req.version.len ≤ firstLf
  headerStart : req.headerFields.start = firstLf + 1
  headerEnd : (req.headerFields.start : Int) + req.headerFields.len ≤ headLen ∧
    (headLen : Int) ≤ req.headerFields.start + req.headerFields.len + 4
  body : if n = headLen then req.body.len = 0
    else req.body.start = headLen ∧ (headLen : Int) + req.body.len = n

/-- What the framer cuts off is a head and the body it frames, and `frame_head_len` finds where
the one ends. -/
theorem framed_parts {b : List UInt8} {n : Nat}
    (hframe : frameRequestLengthLimIdx b 0 0 = n) :
    ∃ (h : Head) (vs ws : List (List UInt8)) (body rest : List UInt8),
      b = h.bytes ++ rest ∧ b.take n = h.bytes ++ body ∧
      n = h.bytes.length + body.length ∧ h.Ok Spaced vs ws ∧ Frames vs ws body ∧
      frameHeadLen b = some h.bytes.length := by
  obtain ⟨hn, h, vs, ws, body, hm, hok, hframes⟩ :=
    frameRequest_iff.mp (frameIdx_nat.mp hframe)
  have hb : b = h.bytes ++ (body ++ b.drop n) := by
    rw [← List.append_assoc, ← hm, List.take_append_drop]
  have hn' : n = h.bytes.length + body.length := by
    have := congrArg List.length hm
    simp only [List.length_take, List.length_append] at this
    omega
  refine ⟨h, vs, ws, body, _, hb, hm, hn', hok, hframes, ?_⟩
  rw [hb]
  exact frameHeadLen_head hok.lines _

/-- The first space of a buffer is the first space of what is decoded of it. -/
theorem first_sp_take {b : List UInt8} {n s : Nat} (h : findByteIdx (b.take n) sp = some s) :
    findByteIdx b sp = some s := by
  conv_lhs => rw [← List.take_append_drop n b]
  exact idxOf?_append_of_some h _

/-- **Framer and decoder.**  Where the framer cuts `n` bytes off `b` and the decoder takes them,
they agree on the message's parts exactly when the first space of `b` comes before its first
LF. -/
theorem decode_agrees_iff (b : List UInt8) (n : Nat) (req req' : HttpRequest)
    (hframe : frameRequestLengthLimIdx b 0 0 = n) (hbuf : req.buffer = b.take n)
    (hdec : decodeInto req = (true, req')) :
    (∃ firstLf headLen, findByteIdx b lf = some firstLf ∧ frameHeadLen b = some headLen ∧
        Agrees n firstLf headLen req') ↔
      ∃ firstSp firstLf, findByteIdx b sp = some firstSp ∧ findByteIdx b lf = some firstLf ∧
        firstSp < firstLf := by
  obtain ⟨h, vs, ws, body, rest, hb, hm, hn, hok, -, hlen⟩ := framed_parts hframe
  have hlf := head_firstLf hok.lines rest
  rw [← hb] at hlf
  constructor
  · rintro ⟨_, headLen, hlf', -, hag⟩
    obtain rfl := Option.some.inj (hlf.symm.trans hlf')
    obtain ⟨s, pos, c, hend, hrest⟩ := decodeInto_ok hdec
    have hs := hend.space
    rw [hbuf] at hs
    refine ⟨s, h.requestLine.length + 1, first_sp_take hs, hlf, ?_⟩
    have hstart : req'.headerFields.start = c + 2 := by
      rcases hrest with ⟨-, -, e, -⟩ | ⟨-, len, -, e, -⟩ <;> rw [e]
    have h₁ := hag.headerStart
    have h₂ := hend.cr.2.1
    have h₃ := hend.skip.1
    omega
  · rintro ⟨s, _, hs, hlf', hlt⟩
    obtain rfl := Option.some.inj (hlf.symm.trans hlf')
    obtain ⟨s', _, _, hend', -⟩ := decodeInto_ok hdec
    have hs' := hend'.space
    rw [hbuf] at hs'
    obtain rfl := Option.some.inj ((first_sp_take hs').symm.trans hs)
    rw [hm] at hs' hbuf
    obtain ⟨pos, hend, hhf, hle, hbody⟩ := decode_framed hok.lines hbuf hdec hs' hlt
    refine ⟨_, _, hlf, hlen, ?_, ?_, ?_, ?_, ?_, ?_⟩
    · rw [hend.method]; simp only; omega
    · have := hend.path.2; omega
    · have := hend.version; omega
    · rw [hhf]
    · rw [hhf, head_length]; simp only; omega
    · rw [hbody, hend.buffer, hbuf, List.length_append, ← hn]
      split
      · rename_i e; rw [if_pos e.symm]
      · rename_i e
        rw [if_neg (fun e' => e e'.symm)]
        exact ⟨rfl, by simp only; omega⟩

/-- A request line without a space, and a chunked body. -/
def spaceless : List UInt8 :=
  ascii "AAAA\r\nTransfer-Encoding: chunked\r\nX: y\r\n\r\n0\r\n\r\n"

/-- The framer reads its Transfer-Encoding line, and the decoder takes that line for the method
and the target. -/
theorem decode_takes_field_for_method :
    frameRequestLengthLimIdx spaceless 0 0 = 47 ∧ spaceless.length = 47 ∧
      ∃ req, decodeInto { buffer := spaceless } = (true, req) ∧
        req.method.view spaceless = ascii "AAAA\r\nTransfer-Encoding:" ∧
        req.path.view spaceless = ascii "chunked" ∧
        req.headerFields.view spaceless = ascii "X: y" ∧
        findByteIdx spaceless lf = some 5 ∧ req.headerFields.start = 34 :=
  ⟨by decide +kernel, by decide +kernel, _, rfl, by decide +kernel, by decide +kernel,
    by decide +kernel, by decide +kernel, by decide +kernel⟩

theorem decode_agrees_iff_get :
    ∃ req firstLf headLen, decodeInto { buffer := ascii "GET / HTTP/1.1\r\n\r\n" } = (true, req) ∧
      frameHeadLen (ascii "GET / HTTP/1.1\r\n\r\n") = some headLen ∧
      Agrees 18 firstLf headLen req := by
  obtain ⟨l, k, -, hk, hag⟩ := (decode_agrees_iff (ascii "GET / HTTP/1.1\r\n\r\n") 18
    { buffer := ascii "GET / HTTP/1.1\r\n\r\n" } _ (by decide +kernel) (by decide +kernel)
    rfl).mpr ⟨3, 15, by decide +kernel, by decide +kernel, by decide⟩
  exact ⟨_, l, k, rfl, hk, hag⟩

end Vanilla.RequestParser

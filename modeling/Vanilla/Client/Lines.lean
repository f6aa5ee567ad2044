import Vanilla.Client.Definitions

/-!
# Client — the head, line by line

Both response parsers walk a head from LF to LF and read each line in its buffer.  What they read
is a matter of the line alone: `statusOf`, `fieldOf` and `responseOf` are the same readings of the
line by itself, wherever it stands and whatever follows it.

* `statusLine_eq`, `fieldLine_eq`, `responseField_eq`: a line is read as if it stood alone.
* `headStep_eq`, `responseStep_eq`: one pass of `feed` over the head, and one of
  `frame_response`, in the words of the line at `pos`.
-/

namespace Vanilla.Client
open Scan

/-! ### Finding the line -/

section Find

variable {buf : List UInt8} {pos : Nat}

theorem lfIdx_none (h : (buf.drop pos).idxOf? lf = none) : lfIdx buf pos = none := by
  simp [lfIdx, findByteIdx, h]

theorem lfIdx_some {k : Nat} (h : (buf.drop pos).idxOf? lf = some k) :
    lfIdx buf pos = some (pos + k) := by
  simp [lfIdx, findByteIdx, h]

/-- The search for an LF may resume behind what has been searched. -/
theorem lfIdx_resume {scan : Nat} (h : pos ≤ scan)
    (hn : lf ∉ (buf.drop pos).take (scan - pos)) (hscan : scan ≤ buf.length) :
    lfIdx buf scan = lfIdx buf pos := by
  have hsplit : buf.drop pos = (buf.drop pos).take (scan - pos) ++ buf.drop scan := by
    conv_lhs => rw [← List.take_append_drop (scan - pos) (buf.drop pos), List.drop_drop]
    congr 2
    omega
  have hlen : ((buf.drop pos).take (scan - pos)).length = scan - pos := by
    rw [List.length_take, List.length_drop]; omega
  cases hk : (buf.drop scan).idxOf? lf with
  | none =>
      rw [lfIdx_none hk, lfIdx_none]
      rw [List.idxOf?_eq_none_iff] at hk ⊢
      rw [hsplit, List.mem_append, not_or]
      exact ⟨hn, hk⟩
  | some k =>
      obtain ⟨l, r, hl, rfl, hnl⟩ := idxOf?_eq_some hk
      have hk' : (buf.drop pos).idxOf? lf = some (scan - pos + l.length) := by
        rw [hsplit, hl, ← List.append_assoc, idxOf?_append_cons (by simp [hn, hnl]),
          List.length_append, hlen]
      rw [lfIdx_some hk, lfIdx_some hk']
      congr 1
      omega

/-- The line at `pos`, by the tests on the LF that ends it. -/
inductive LfAt (buf : List UInt8) (pos : Nat) : Cut UInt8 → Prop where
  | more (h : lfIdx buf pos = none) : LfAt buf pos .more
  | bare {k : Nat} (h : lfIdx buf pos = some (pos + k))
      (hb : k = 0 ∨ buf[pos + k - 1]? ≠ some cr) : LfAt buf pos .bare
  | line {l : List UInt8} (h : lfIdx buf pos = some (pos + (l.length + 1)))
      (hc : buf[pos + l.length]? = some cr) (ht : (buf.drop pos).take l.length = l) :
      LfAt buf pos (.line l)

theorem lfAt (buf : List UInt8) (pos : Nat) : LfAt buf pos (cutLine cr lf (buf.drop pos)) := by
  unfold cutLine
  cases hk : (buf.drop pos).idxOf? lf with
  | none => exact .more (lfIdx_none hk)
  | some k =>
      cases k with
      | zero => exact .bare (lfIdx_some hk) (.inl rfl)
      | succ k =>
          have hlen : ((buf.drop pos).take k).length = k := by
            have := idxOf?_lt hk
            rw [List.length_take]
            omega
          simp only [List.getElem?_drop]
          split
          · rename_i hcr
            refine .line ?_ ?_ ?_
            · rw [hlen]; exact lfIdx_some hk
            · rw [hlen]; exact hcr
            · rw [hlen]
          · rename_i hcr
            exact .bare (lfIdx_some hk) (.inr hcr)

end Find

/-! ### Reading a line -/

section Read

variable {buf l : List UInt8} {pos : Nat}

/-- A field's value, in the line by itself. -/
theorem fieldValue_line (h : (buf.drop pos).take l.length = l) (name : List UInt8) :
    fieldValue buf pos (pos + l.length) name =
      (fieldValue l 0 l.length name).map fun v => (pos + v.1, v.2) := by
  unfold fieldValue
  simp only [Nat.add_sub_cancel_left, Nat.sub_zero, List.drop_zero, List.take_length, h]
  split
  · rfl
  split
  · rfl
  split
  · rfl
  · simp only [Option.map_some, Nat.zero_add, Nat.add_assoc]

/-- The value ends where the line does. -/
theorem fieldValue_bounds {name : List UInt8} {v : Nat × Nat}
    (h : fieldValue l 0 l.length name = some v) : v.1 + v.2 ≤ l.length := by
  unfold fieldValue at h
  simp only [Nat.sub_zero, List.drop_zero, List.take_length] at h
  split at h
  · cases h
  split at h
  · cases h
  split at h
  · cases h
  · rename_i hlen _ _
    cases h
    have h₁ := congrArg List.length (run_append isOws (l.drop (name.length + 1))).1
    have h₂ : (trim isOws (l.drop (name.length + 1))).length ≤
        ((l.drop (name.length + 1)).dropWhile isOws).length :=
      (List.rdropWhile_prefix ..).length_le
    rw [List.length_append, List.length_drop] at h₁
    simp only
    omega

theorem window_line (h : (buf.drop pos).take l.length = l) {v : Nat × Nat}
    (hv : v.1 + v.2 ≤ l.length) : window buf (pos + v.1, v.2) = window l v := by
  simp only [window]
  conv_rhs => rw [← h]
  rw [List.drop_take, List.drop_drop, List.take_take, Nat.min_eq_left (by omega)]

/-- `frame_response`'s reading of a field line by itself. -/
def responseOf (l : List UInt8) (s : RespState) : Option RespState := responseField l 0 l.length s

theorem responseField_eq (h : (buf.drop pos).take l.length = l) (s : RespState) :
    responseField buf pos (pos + l.length) s = responseOf l s := by
  unfold responseOf responseField
  rw [fieldValue_line h, fieldValue_line h]
  cases hc : fieldValue l 0 l.length (ascii "content-length") with
  | some v => simp only [Option.map_some, window_line h (fieldValue_bounds hc)]
  | none =>
      cases ht : fieldValue l 0 l.length (ascii "transfer-encoding") with
      | some v => simp only [Option.map_some, Option.map_none, window_line h (fieldValue_bounds ht)]
      | none => rfl

namespace Framer

variable {f : Framer}

/-- The framer's reading of a field line by itself. -/
def fieldOf (f : Framer) (l : List UInt8) : Option Framer :=
  (fieldLine { f with pos := 0 } l l.length).map fun g => { g with pos := f.pos }

theorem connectionField_eq (h : (buf.drop f.pos).take l.length = l) :
    f.connectionField buf (f.pos + l.length) =
      { connectionField { f with pos := 0 } l l.length with pos := f.pos } := by
  unfold connectionField
  rw [fieldValue_line h]
  simp only
  cases hc : fieldValue l 0 l.length (ascii "connection") with
  | none => rfl
  | some v =>
      simp only [Option.map_some, window_line h (fieldValue_bounds hc)]
      rfl

theorem fieldLine_eq (h : (buf.drop f.pos).take l.length = l) :
    f.fieldLine buf (f.pos + l.length) = f.fieldOf l := by
  unfold fieldOf fieldLine
  rw [fieldValue_line h, fieldValue_line h, connectionField_eq h]
  simp only
  cases f.bodyless with
  | true => rfl
  | false =>
      cases hc : fieldValue l 0 l.length (ascii "content-length") with
      | some v =>
          simp only [Option.map_some, window_line h (fieldValue_bounds hc), Bool.false_eq_true,
            if_false]
          cases parseContentLength (window l v) with
          | none => rfl
          | some n => simp only; split <;> rfl
      | none =>
          cases ht : fieldValue l 0 l.length (ascii "transfer-encoding") with
          | some v =>
              simp only [Option.map_some, Option.map_none,
                window_line h (fieldValue_bounds ht), Bool.false_eq_true, if_false]
              split <;> rfl
          | none => rfl

end Framer

end Read

/-! ### Reading the status line -/

section Status

theorem statusAt_drop (buf : List UInt8) (p : Nat) : statusAt buf p = statusAt (buf.drop p) 0 := by
  simp only [statusAt, List.length_drop, Nat.sub_zero, List.drop_zero]

/-- Up to its thirteenth byte, a status line has no LF. -/
theorem statusAt_lf {s : List UInt8} {i : Nat} (hi : i ≤ 12) (h : s[i]? = some lf) :
    statusAt s 0 = -1 := by
  unfold statusAt
  simp only [List.drop_zero, Nat.sub_zero, List.getD_eq_getElem?_getD]
  split
  · rfl
  split
  · rfl
  rename_i hlen hhead
  simp only [not_or, not_not] at hhead
  obtain ⟨hhttp, h7, h8⟩ := hhead
  rcases Nat.lt_or_ge i 7 with hlt | hge
  · -- inside `HTTP/1.`
    have h' := congrArg (·[i]?) hhttp
    simp only [List.getElem?_take_of_lt hlt, h] at h'
    exact absurd (List.mem_of_getElem? h'.symm) (by decide)
  obtain rfl | rfl | hge : i = 7 ∨ i = 8 ∨ 9 ≤ i := by omega
  · rw [h] at h7; exact absurd rfl h7
  · rw [h] at h8; exact absurd h8 (by decide)
  split
  · rfl
  rename_i hd
  simp only [not_or] at hd
  obtain rfl | rfl | rfl | rfl : i = 9 ∨ i = 10 ∨ i = 11 ∨ i = 12 := by omega
  · rw [h] at hd; exact absurd rfl hd.1
  · rw [h] at hd; exact absurd rfl hd.2.1
  · rw [h] at hd; exact absurd rfl hd.2.2
  · rw [if_pos]
    rw [h]
    exact ⟨(List.getElem?_eq_some_iff.mp h).1, by decide, by decide⟩

/-- A status line is read as if nothing stood before or behind it. -/
theorem statusAt_line {buf l rest : List UInt8} {p : Nat} (h : buf.drop p = l ++ (crlf ++ rest)) :
    statusAt buf p = statusAt (l ++ crlf) 0 := by
  rw [statusAt_drop, h, ← List.append_assoc]
  rcases Nat.lt_or_ge l.length 11 with hl | hl
  · -- the line ends too soon
    have hlf : (l ++ crlf)[l.length + 1]? = some lf := by
      rw [List.getElem?_append_right (by omega), Nat.add_sub_cancel_left]; rfl
    rw [statusAt_lf (i := l.length + 1) (by omega) hlf, statusAt_lf (i := l.length + 1) (by omega)]
    rw [List.getElem?_append_left (List.getElem?_eq_some_iff.mp hlf).1, hlf]
  · have hlen : 13 ≤ (l ++ crlf).length := by
      simp only [List.length_append, crlf, List.length_cons, List.length_nil]; omega
    have hlen' : 13 ≤ (l ++ crlf ++ rest).length := by rw [List.length_append]; omega
    have hget : ∀ i, i < 13 → (l ++ crlf ++ rest)[i]? = (l ++ crlf)[i]? := fun i hi =>
      List.getElem?_append_left (by omega)
    have htake : (l ++ crlf ++ rest).take 7 = (l ++ crlf).take 7 :=
      List.take_append_of_le_length (by omega)
    unfold statusAt
    simp only [List.drop_zero, Nat.sub_zero, List.getD_eq_getElem?_getD, htake,
      hget 7 (by omega), hget 8 (by omega), hget 9 (by omega), hget 10 (by omega),
      hget 11 (by omega), hget 12 (by omega), Nat.not_lt.mpr (Nat.le_of_succ_le hlen'),
      Nat.not_lt.mpr (Nat.le_of_succ_le hlen), show 12 < (l ++ crlf ++ rest).length from hlen',
      show 12 < (l ++ crlf).length from hlen]

/-- A status that was read stands in the first twelve bytes. -/
theorem statusAt_length {s : List UInt8} (h : ¬ statusAt s 0 < 0) : 12 ≤ s.length := by
  by_contra hlen
  rw [statusAt, if_pos (by omega)] at h
  exact h (by decide)

namespace Framer

variable {f : Framer} {buf l rest : List UInt8}

/-- The framer's reading of a status line by itself. -/
def statusOf (f : Framer) (l : List UInt8) : Framer :=
  { statusLine { f with start := 0 } (l ++ crlf) with start := f.start }

theorem statusLine_eq (h : buf.drop f.start = l ++ (crlf ++ rest)) :
    f.statusLine buf = f.statusOf l := by
  have e := statusAt_line h
  unfold statusOf statusLine
  simp only [e, Nat.zero_add]
  split
  · rfl
  · rename_i hst
    have hlen := statusAt_length hst
    have h7 : buf[f.start + 7]? = (l ++ crlf)[7]? := by
      rw [← List.getElem?_drop, h, ← List.append_assoc, List.getElem?_append_left (by omega)]
    rw [h7]

end Framer

end Status

/-! ### One pass -/

section Pass

variable {buf : List UInt8}

namespace Framer

variable {f : Framer} {eof : Bool}

/-- The search for the LF has passed none. -/
structure Searched (buf : List UInt8) (f : Framer) : Prop where
  le : f.pos ≤ f.scan
  bound : f.scan ≤ buf.length
  none : lf ∉ (buf.drop f.pos).take (f.scan - f.pos)

/-- The next line starts `n` bytes on. -/
def advance (f : Framer) (n : Nat) : Framer := { f with pos := f.pos + n, scan := f.pos + n }

/-- What `feed` does with a line of the head. -/
def lineStep (f : Framer) (l : List UInt8) : Turn Framer (Framer × Int) :=
  if f.pos = f.start then
    let g := f.statusOf l
    if g.status < 100 then .exit (g.fail ClientErr.malformed.code)
    else .next (g.advance (l.length + 2))
  else if l = [] then .next (f.headDone (f.pos + 2))
  else
    match f.fieldOf l with
    | none => .exit (f.fail ClientErr.malformed.code)
    | some g => .next (g.advance (l.length + 2))

theorem statusOf_pos (f : Framer) (l : List UInt8) : (f.statusOf l).pos = f.pos := by
  unfold statusOf statusLine
  simp only
  split <;> rfl

theorem fieldOf_pos {f g : Framer} {l : List UInt8} (h : f.fieldOf l = some g) :
    g.pos = f.pos := by
  obtain ⟨g, -, rfl⟩ := Option.map_eq_some_iff.mp h
  rfl

/-- **One pass over the head**, in the words of the line at `pos`. -/
theorem headStep_eq (h : f.Searched buf) :
    headStep buf eof f =
      match cutLine cr lf (buf.drop f.pos) with
      | .more => .exit (short { f with scan := buf.length } eof)
      | .bare => .exit (f.fail ClientErr.malformed.code)
      | .line l => f.lineStep l := by
  unfold headStep
  rw [lfIdx_resume h.le h.none h.bound]
  have hat := lfAt buf f.pos
  cases hcut : cutLine cr lf (buf.drop f.pos) with
  | more =>
      rw [hcut] at hat
      cases hat with
      | more hl => rw [hl]
  | bare =>
      rw [hcut] at hat
      cases hat with
      | bare hl hb =>
          rw [hl]
          simp only
          rw [if_pos]
          rcases hb with rfl | hb
          · exact .inl rfl
          · exact .inr hb
  | line l =>
      rw [hcut] at hat
      obtain ⟨-, rest, hrest⟩ := (cutLine_line_iff cr_ne_lf).mp hcut
      cases hat with
      | line hl hc ht =>
          have e₁ : f.pos + (l.length + 1) - 1 = f.pos + l.length := by omega
          have e₂ : f.pos + (l.length + 1) + 1 = f.pos + (l.length + 2) := by omega
          rw [hl]
          simp only [e₁, e₂]
          rw [if_neg (by simp [hc])]
          unfold lineStep
          by_cases hstart : f.pos = f.start
          · have hs : f.statusLine buf = f.statusOf l :=
              statusLine_eq (by rw [← hstart, hrest]; rfl)
            rw [if_pos hstart, if_pos hstart, hs]
            simp only [advance, statusOf_pos]
          rw [if_neg hstart, if_neg hstart]
          by_cases hnil : l = []
          · subst hnil
            rw [if_pos rfl, if_pos (by simp)]
            rfl
          rw [if_neg hnil, if_neg (by simpa using hnil), fieldLine_eq ht]
          cases hf : f.fieldOf l with
          | none => rfl
          | some g => simp only [advance, fieldOf_pos hf]

end Framer

/-- One pass of `frame_response` behind a line. -/
theorem responseStep_eq {bodyless : Bool} {pos : Nat} {s : RespState}
    (hlf : buf[pos - 1]? = some lf) :
    responseStep buf bodyless (pos, s) =
      match cutLine cr lf (buf.drop pos) with
      | .more => .exit .more
      | .bare => .exit (.refuse .malformed)
      | .line [] => .exit (responseBody buf bodyless (pos + 2) s)
      | .line (c :: l) =>
        if bodyless then .next (pos + ((c :: l).length + 2), s)
        else
          match responseOf (c :: l) s with
          | none => .exit (.refuse .malformed)
          | some s => .next (pos + ((c :: l).length + 2), s) := by
  unfold responseStep
  simp only
  have hat := lfAt buf pos
  generalize cutLine cr lf (buf.drop pos) = cut at hat
  cases hat with
  | more hl => rw [hl]
  | bare hl hb =>
      rw [hl]
      simp only
      rw [if_pos]
      rcases hb with rfl | hb
      · rw [Nat.add_zero, hlf]
        exact fun e => cr_ne_lf (Option.some.inj e).symm
      · exact hb
  | @line l hl hc ht =>
      have e₁ : pos + (l.length + 1) - 1 = pos + l.length := by omega
      have e₂ : pos + (l.length + 1) + 1 = pos + (l.length + 2) := by omega
      rw [hl]
      simp only [e₁, e₂]
      rw [if_neg (by simp [hc])]
      cases l with
      | nil => simp
      | cons c l =>
          exact (if_neg (by simp)).trans (responseField_eq ht s ▸ rfl)

end Pass

end Vanilla.Client

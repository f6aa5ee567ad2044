import Vanilla.RequestParser.Grammar

/-!
# Request parser — one field line

What the framer reads off one field line, in the grammar's words.  A line is looked at alone, as
a buffer of its own: `fieldLine_line` says that the framer sees in `buf[line_start..]` what it
would see there.

* `lineHeaderValue_field`, `lineHeaderValue_spaced`, `lineHeaderValue_none`: the three answers of
  `line_header_value` are the line being a field `name`, having whitespace behind the name, and
  neither.
* `contentLengthDigits_ok`: `parse_content_length` accepts the digits up to `max_declared`.
* `teFold_eq`: `te_fold` folds the codings of one value into the running list.
-/

namespace Vanilla.RequestParser
open Scan Vanilla.Chunk

/-! ### `line_header_value` -/

/-- Past the name's length, the byte there decides. -/
theorem lineHeaderValue_append {name n : List UInt8} (hn : n.length = name.length) (c : UInt8)
    (r : List UInt8) :
    lineHeaderValue (n ++ c :: r) 0 (n ++ c :: r).length name =
      if asciiCiEq n name then
        if c = colon then
          some ⟨name.length + 1 + (r.takeWhile isOws).length, (trim isOws r).length⟩
        else if isOws c then some ⟨0, -1⟩ else none
      else none := by
  have h₁ : ((n ++ c :: r).take (n ++ c :: r).length).take name.length = n := by
    rw [List.take_length, List.take_append_of_le_length (by omega), ← hn, List.take_length]
  have h₂ : ((n ++ c :: r).take (n ++ c :: r).length)[name.length]? = some c := by
    rw [List.take_length, ← hn, List.getElem?_append_right (Nat.le_refl _)]
    simp
  have h₃ : ((n ++ c :: r).take (n ++ c :: r).length).drop (name.length + 1) = r := by
    rw [List.take_length, ← hn, List.drop_append, List.drop_eq_nil_of_le (by omega)]
    simp
  have h₄ : ¬ (n ++ c :: r).length < name.length + 1 := by simp; omega
  unfold lineHeaderValue
  simp only [List.drop_zero, h₁, h₂, h₃, if_neg h₄, isOws]
  by_cases he : asciiCiEq n name = true <;> by_cases hc : c = colon <;>
    simp [he, hc]

theorem CiEq.length {n name : List UInt8} (h : CiEq n name) : n.length = name.length := by
  simpa using congrArg List.length h

theorem CiEq.ci {n name : List UInt8} (h : CiEq n name) : asciiCiEq n name = true :=
  asciiCiEq_iff.mpr h

/-- The value's slice views the value. -/
theorem value_view {name n : List UInt8} (hn : n.length = name.length) (c : UInt8)
    (r : List UInt8) :
    (⟨name.length + 1 + (r.takeWhile isOws).length, (trim isOws r).length⟩ : Slice).view
      (n ++ c :: r) = trim isOws r := by
  have e : (n ++ c :: r).drop (name.length + 1 + (r.takeWhile isOws).length) =
      r.drop (r.takeWhile isOws).length := by
    rw [← hn, List.drop_append, List.drop_eq_nil_of_le (by omega), List.nil_append,
      show n.length + 1 + (r.takeWhile isOws).length - n.length =
        (r.takeWhile isOws).length + 1 by omega, List.drop_succ_cons]
  simp only [Slice.view, e, Int.toNat_natCast]
  exact trim_window isOws r

theorem lineHeaderValue_field {name l v : List UInt8} (h : Field name l v) :
    ∃ k, lineHeaderValue l 0 l.length name = some ⟨k, v.length⟩ ∧
      (⟨k, v.length⟩ : Slice).view l = v := by
  obtain ⟨n, o₁, o₂, rfl, hn, h₁, h₂, hv⟩ := h
  have ht : trim isOws (o₁ ++ v ++ o₂) = v := trim_append h₁ hv h₂
  have hval := value_view hn.length colon (o₁ ++ v ++ o₂)
  rw [ht] at hval
  refine ⟨name.length + 1 + ((o₁ ++ v ++ o₂).takeWhile isOws).length, ?_, hval⟩
  rw [lineHeaderValue_append hn.length, if_pos hn.ci, if_pos rfl, ht]

theorem lineHeaderValue_spaced {name l : List UInt8} (h : Spaced name l) :
    lineHeaderValue l 0 l.length name = some ⟨0, -1⟩ := by
  obtain ⟨n, c, r, rfl, hn, hc⟩ := h
  have hne : c ≠ colon := by rintro rfl; revert hc; decide
  rw [lineHeaderValue_append hn.length, if_pos hn.ci, if_neg hne, if_pos hc]

/-- A line is a field `name`, or has whitespace behind the name, or neither; and
`line_header_value` says which. -/
theorem line_cases (name l : List UInt8) :
    (∃ v, Field name l v) ∨ Spaced name l ∨ lineHeaderValue l 0 l.length name = none := by
  by_cases hlen : l.length ≤ name.length
  · refine .inr (.inr ?_)
    rw [lineHeaderValue]
    simp only [if_pos (Nat.lt_succ_of_le hlen)]
  · obtain ⟨c, r, hd⟩ : ∃ c r, l.drop name.length = c :: r :=
      List.exists_cons_of_ne_nil (by rw [ne_eq, List.drop_eq_nil_iff]; exact hlen)
    have hl : l = l.take name.length ++ c :: r := by rw [← hd, List.take_append_drop]
    have hn : (l.take name.length).length = name.length := by rw [List.length_take]; omega
    generalize l.take name.length = n at hl hn
    subst hl
    by_cases he : asciiCiEq n name = true
    · have hci : CiEq n name := asciiCiEq_iff.mp he
      by_cases hc : c = colon
      · subst hc
        obtain ⟨o₁, o₂, hr, h₁, h₂⟩ := trim_split isOws r
        exact .inl ⟨_, n, o₁, o₂, by rw [← hr], hci, h₁, h₂, trimmed_trim r⟩
      · by_cases ho : isOws c = true
        · exact .inr (.inl ⟨n, c, r, rfl, hci, ho⟩)
        · refine .inr (.inr ?_)
          rw [lineHeaderValue_append hn, if_pos he, if_neg hc, if_neg ho]
    · refine .inr (.inr ?_)
      rw [lineHeaderValue_append hn, if_neg he]

theorem lineHeaderValue_none {name l : List UInt8} :
    lineHeaderValue l 0 l.length name = none ↔ ¬ Named name l ∧ ¬ Spaced name l := by
  constructor
  · intro h
    refine ⟨fun ⟨v, hv⟩ => ?_, fun hs => ?_⟩
    · obtain ⟨k, hk, -⟩ := lineHeaderValue_field hv
      rw [h] at hk; cases hk
    · rw [lineHeaderValue_spaced hs] at h; cases h
  · rintro ⟨hv, hs⟩
    exact ((line_cases name l).resolve_left hv).resolve_left hs

theorem Field.unique {name l v v' : List UInt8} (h : Field name l v) (h' : Field name l v') :
    v = v' := by
  obtain ⟨k, hk, hv⟩ := lineHeaderValue_field h
  obtain ⟨k', hk', hv'⟩ := lineHeaderValue_field h'
  rw [hk] at hk'
  rw [← hv, ← hv', Option.some.inj hk']

theorem Field.not_spaced {name l v : List UInt8} (h : Field name l v) : ¬ Spaced name l := by
  intro hs
  obtain ⟨k, hk, -⟩ := lineHeaderValue_field h
  rw [lineHeaderValue_spaced hs] at hk
  have := congrArg Slice.len (Option.some.inj hk)
  simp only at this
  omega

/-! ### Lines whose name is a token -/

section TokenName

variable {name n v : List UInt8}

/-- A name that matches a token has no colon. -/
theorem CiEq.no_colon (h : CiEq n name) (hname : Token name) : colon ∉ n := by
  intro hm
  have hm' : lower colon ∈ name.map lower := h ▸ List.mem_map_of_mem hm
  obtain ⟨c, hc, e⟩ := List.mem_map.mp hm'
  have hsep : ∀ c, lower c = lower colon → c = colon := forall_byte (by decide +kernel)
  exact (isTchar_sep c (hname.2 c hc)).2.2.2.2.2.1 (hsep c e)

/-- Such a line has no whitespace behind its name. -/
theorem not_spaced_token (hn : Token n) (hname : Token name) : ¬ Spaced name (n ++ colon :: v) := by
  rintro ⟨n', c, r, e, hci, hc⟩
  rcases List.append_eq_append_iff.mp e with ⟨a, rfl, ha⟩ | ⟨a, rfl, ha⟩
  · cases a with
    | nil => cases ha; revert hc; decide
    | cons d a => cases ha; exact hci.no_colon hname (by simp)
  · cases a with
    | nil => cases ha; revert hc; decide
    | cons d a =>
        cases ha
        have := (isTchar_sep c (hn.2 c (by simp))).1
        rw [hc] at this
        cases this

/-- Its name is what stands before the colon. -/
theorem named_token (hn : Token n) (hname : Token name) :
    Named name (n ++ colon :: v) ↔ CiEq n name := by
  constructor
  · rintro ⟨w, n', o₁, o₂, e, hci, -⟩
    rcases List.append_eq_append_iff.mp e with ⟨a, rfl, ha⟩ | ⟨a, rfl, ha⟩
    · cases a with
      | nil => simpa using hci
      | cons d a => cases ha; exact absurd (by simp) (hci.no_colon hname)
    · cases a with
      | nil => simpa using hci
      | cons d a =>
          obtain ⟨rfl, -⟩ := List.cons.inj ha
          exact absurd (by simp) hn.no_colon
  · intro hci
    obtain ⟨o₁, o₂, e, h₁, h₂⟩ := trim_split isOws v
    exact ⟨trim isOws v, n, o₁, o₂, by rw [← e], hci, h₁, h₂, trimmed_trim v⟩

end TokenName

/-! ### A line inside a buffer -/

/-- The line `buf[line_start..line_start + line_len]`. -/
theorem lineHeaderValue_line (buf : List UInt8) (ls ll : Nat) (name : List UInt8) :
    lineHeaderValue buf ls ll name =
      (lineHeaderValue ((buf.drop ls).take ll) 0 ll name).map fun s => ⟨ls + s.start, s.len⟩ := by
  have e : (((buf.drop ls).take ll).drop 0).take ll = (buf.drop ls).take ll := by
    rw [List.drop_zero, List.take_take, Nat.min_self]
  unfold lineHeaderValue
  simp only [e]
  split
  · rfl
  split
  · rfl
  split
  · split <;> rfl
  · simp only [Option.map_some, Option.some.injEq, Slice.mk.injEq, and_true]
    omega

/-- What `line_header_value` finds stays inside the line. -/
theorem lineHeaderValue_bound {l : List UInt8} (name : List UInt8) {s : Slice}
    (h : lineHeaderValue l 0 l.length name = some s) : s.start + s.len.toNat ≤ l.length := by
  rcases line_cases name l with ⟨v, hv⟩ | hs | hn
  · obtain ⟨n, o₁, o₂, rfl, hn, h₁, h₂, hv⟩ := hv
    rw [lineHeaderValue_append hn.length, if_pos hn.ci, if_pos rfl] at h
    cases h
    have ht := trim_append h₁ hv h₂
    have hrun := congrArg List.length (run_append isOws (o₁ ++ v ++ o₂)).1
    have htrim : (trim isOws (o₁ ++ v ++ o₂)).length ≤ ((o₁ ++ v ++ o₂).dropWhile isOws).length :=
      (List.rdropWhile_prefix isOws _).length_le
    have := hn.length
    simp only [List.length_append, List.length_cons, Int.toNat_natCast] at *
    omega
  · rw [lineHeaderValue_spaced hs] at h
    cases h
    simp
  · rw [hn] at h; cases h

/-- The slice's bytes are the line's. -/
theorem view_line {buf : List UInt8} {ls ll : Nat} {s : Slice} (h : s.start + s.len.toNat ≤ ll) :
    (⟨ls + s.start, s.len⟩ : Slice).view buf = s.view ((buf.drop ls).take ll) := by
  simp only [Slice.view, List.drop_take, List.take_take, List.drop_drop]
  rw [Nat.min_eq_left (by omega)]

/-- **The framer reads a line as if it stood alone.** -/
theorem fieldLine_line {buf : List UInt8} {ls ll : Nat} (h : ls + ll ≤ buf.length) (mb : Int)
    (s : HeadState) :
    fieldLine buf mb ls ll s = fieldLine ((buf.drop ls).take ll) mb 0 ll s := by
  have hlen : ((buf.drop ls).take ll).length = ll := by
    rw [List.length_take, List.length_drop]; omega
  have hview : ∀ name v, lineHeaderValue ((buf.drop ls).take ll) 0 ll name = some v →
      (⟨ls + v.start, v.len⟩ : Slice).view buf = v.view ((buf.drop ls).take ll) := by
    intro name v hv
    refine view_line (Nat.le_trans (lineHeaderValue_bound name ?_) (Nat.le_of_eq hlen))
    rwa [hlen]
  unfold fieldLine
  rw [lineHeaderValue_line buf ls ll (ascii "Content-Length"),
    lineHeaderValue_line buf ls ll (ascii "Transfer-Encoding")]
  cases h₁ : lineHeaderValue ((buf.drop ls).take ll) 0 ll (ascii "Content-Length") with
  | some v => simp only [Option.map_some, parseContentLength, hview _ v h₁]
  | none =>
      cases h₂ : lineHeaderValue ((buf.drop ls).take ll) 0 ll (ascii "Transfer-Encoding") with
      | some v => simp only [Option.map_some, Option.map_none, teFold, hview _ v h₂]
      | none => rfl

/-! ### Content-Length values -/

@[simp] theorem decValue_nil (acc : Nat) : decValue acc [] = acc := rfl

@[simp] theorem decValue_cons (acc : Nat) (c : UInt8) (v : List UInt8) :
    decValue acc (c :: v) = decValue (acc * 10 + (c.toNat - 48)) v := by
  simp only [decValue, List.foldl_cons]

theorem le_decValue (acc : Nat) (v : List UInt8) : acc ≤ decValue acc v := by
  induction v generalizing acc with
  | nil => simp
  | cons c v ih =>
      rw [decValue_cons]
      exact Nat.le_trans (by omega) (ih _)

/-- The bound is checked at each digit, and it is enough to check it at the last. -/
theorem contentLengthDigits_ok {v : List UInt8} {n m : Nat} (hn : n ≤ maxDeclared) :
    contentLengthDigits v n = .ok m ↔
      (∀ c ∈ v, 48 ≤ c ∧ c ≤ 57) ∧ decValue n v ≤ maxDeclared ∧ m = decValue n v := by
  induction v generalizing n with
  | nil => simp [contentLengthDigits, hn, eq_comm]
  | cons c v ih =>
      simp only [contentLengthDigits, decValue_cons, List.mem_cons, forall_eq_or_imp]
      by_cases hc : 48 ≤ c ∧ c ≤ 57
      · have hc' : (c < 48 || c > 57) = false := by
          simp only [Bool.or_eq_false_iff, decide_eq_false_iff_not, UInt8.not_lt, gt_iff_lt]
          exact hc
        simp only [hc', Bool.false_eq_true, if_false, hc, true_and, gt_iff_lt]
        by_cases hmax : maxDeclared < n * 10 + (c.toNat - 48)
        · have := le_decValue (n * 10 + (c.toNat - 48)) v
          simp only [hmax, if_true, reduceCtorEq, false_iff, not_and]
          intro _ h
          omega
        · rw [if_neg hmax, ih (by omega)]
      · have hc' : (c < 48 || c > 57) = true := by
          simp only [Bool.or_eq_true, decide_eq_true_eq, gt_iff_lt]
          rw [not_and_or, UInt8.not_le, UInt8.not_le] at hc
          exact hc
        simp [hc', hc]

theorem parseContentLength_ok {l : List UInt8} {s : Slice} {v : List UInt8} {m : Nat}
    (hlen : s.len = v.length) (hv : s.view l = v) :
    parseContentLength l s = .ok m ↔
      Digits v ∧ decValue 0 v ≤ maxDeclared ∧ m = decValue 0 v := by
  unfold parseContentLength Digits
  rw [hlen, hv]
  by_cases h : v = []
  · simp [h]
  · have : ¬ ((v.length : Int) ≤ 0) := by
      have := List.length_pos_of_ne_nil h
      omega
    rw [if_neg this, contentLengthDigits_ok (by simp [maxDeclared])]
    simp [h]

/-! ### Transfer-Encoding values -/

/-- Is the coding `chunked`? -/
def chunkedCoding (c : List UInt8) : Bool := asciiCiEq c (ascii "chunked")

theorem chunkedCoding_iff {c : List UInt8} : chunkedCoding c = true ↔ IsChunked c := asciiCiEq_iff

/-- The running list: is its last coding chunked?  No coding may follow chunked. -/
def codingFold : Bool → List (List UInt8) → Option Bool
  | k, [] => some k
  | true, _ :: _ => none
  | false, c :: cs => codingFold (chunkedCoding c) cs

theorem codingFold_append (k : Bool) (as bs : List (List UInt8)) :
    codingFold k (as ++ bs) = (codingFold k as).bind fun k => codingFold k bs := by
  induction as generalizing k with
  | nil => rfl
  | cons c as ih =>
      cases k with
      | true => rfl
      | false => exact ih _

/-- Chunked is the last coding and only the last. -/
theorem codingFold_true {cs : List (List UInt8)} :
    codingFold false cs = some true ↔
      ∃ as c, cs = as ++ [c] ∧ IsChunked c ∧ ∀ x ∈ as, ¬ IsChunked x := by
  induction cs with
  | nil => simp [codingFold]
  | cons c cs ih =>
      simp only [codingFold]
      cases hc : chunkedCoding c with
      | true =>
          have hc' := chunkedCoding_iff.mp hc
          cases cs with
          | nil =>
              simp only [codingFold, true_iff]
              exact ⟨[], c, rfl, hc', by simp⟩
          | cons d cs =>
              simp only [codingFold, reduceCtorEq, false_iff]
              rintro ⟨as, e, h, -, hno⟩
              cases as with
              | nil => simp at h
              | cons a as =>
                  obtain ⟨rfl, -⟩ := List.cons.inj h
                  exact hno _ (by simp) hc'
      | false =>
          have hc' : ¬ IsChunked c := fun h => by rw [chunkedCoding_iff.mpr h] at hc; cases hc
          rw [ih]
          constructor
          · rintro ⟨as, e, rfl, he, hno⟩
            exact ⟨c :: as, e, rfl, he, by simpa [hc'] using hno⟩
          · rintro ⟨as, e, h, he, hno⟩
            cases as with
            | nil =>
                obtain ⟨rfl, -⟩ := List.cons.inj h
                exact absurd he hc'
            | cons a as =>
                obtain ⟨rfl, rfl⟩ := List.cons.inj h
                exact ⟨as, e, rfl, he, fun x hx => hno x (by simp [hx])⟩

theorem codings_nil : codings [] = [] := by
  simp [codings, trim, List.splitOn_nil]

theorem codings_comma (r : List UInt8) : codings (comma :: r) = codings r := by
  simp [codings, List.splitOn_cons_eq_if_modifyHead, trim]

theorem trim_cons_of_pos {c : UInt8} (h : isOws c = true) (r : List UInt8) :
    trim isOws (c :: r) = trim isOws r := by
  simp [trim, h]

theorem codings_ows {c : UInt8} (h : isOws c = true) (r : List UInt8) :
    codings (c :: r) = codings r := by
  have hc : (c == comma) = false := by
    by_contra hc
    simp only [Bool.not_eq_false, beq_iff_eq] at hc
    subst hc
    revert h; decide
  unfold codings
  rw [List.splitOn_cons_eq_if_modifyHead, if_neg (by simp [hc])]
  cases e : r.splitOn comma with
  | nil => exact absurd e (List.splitOn_ne_nil _ _)
  | cons x xs => simp [trim_cons_of_pos h]

/-- A value that starts with a coding: that coding, up to the comma, and the codings behind it. -/
theorem codings_coding {c : UInt8} (hc : c ≠ comma) (ho : isOws c = false) (r : List UInt8) :
    codings (c :: r) =
      ((c :: r).takeWhile (· != comma)).rdropWhile isOws ::
        codings ((c :: r).dropWhile (· != comma)) := by
  obtain ⟨hsplit, hrun⟩ := run_append (· != comma) (c :: r)
  have hstop := notAt_dropWhile (p := (· != comma)) (c :: r)
  have hhead : (c :: r).takeWhile (· != comma) = c :: r.takeWhile (· != comma) := by
    simp [hc]
  have hno : comma ∉ (c :: r).takeWhile (· != comma) := fun h => by simpa using hrun _ h
  have htrim : trim isOws ((c :: r).takeWhile (· != comma)) =
      ((c :: r).takeWhile (· != comma)).rdropWhile isOws := by
    rw [trim, dropWhile_eq_self]
    rw [hhead]
    exact notAt_cons.mpr ho
  have hne : ((c :: r).takeWhile (· != comma)).rdropWhile isOws ≠ [] := by
    rw [hhead, ne_eq, List.rdropWhile_eq_nil_iff]
    intro h
    rw [h c (by simp)] at ho
    cases ho
  generalize (c :: r).takeWhile (· != comma) = t at *
  generalize (c :: r).dropWhile (· != comma) = d at *
  rw [hsplit]
  cases d with
  | nil =>
      rw [List.append_nil, codings_nil]
      simp [codings, List.splitOn_eq_singleton hno, htrim, hne]
  | cons x d =>
      obtain rfl : x = comma := by simpa using notAt_cons.mp hstop
      rw [codings_comma]
      simp [codings, List.splitOn_append_cons_self_of_not_mem hno, htrim, hne]

theorem teStep_descends : Descends teStep (fun s => s.1.length) fun _ => True := by
  rintro ⟨r, k, n⟩ s' _ h
  refine ⟨trivial, ?_⟩
  cases r with
  | nil => simp [teStep] at h
  | cons c r =>
      simp only [teStep] at h
      split at h
      · cases h; simp
      · rename_i hc
        split at h
        · cases h
        · cases h
          have hc' : (c != comma) = true := by simp_all
          have := length_dropWhile_le (p := (· != comma)) r
          simp only [List.dropWhile_cons, hc', if_true, List.length_cons]
          omega

theorem teLoop_eq (r : List UInt8) (k : Bool) (n : Nat) :
    loop teStep (fun s => s.1.length) none (r, k, n) =
      (codingFold k (codings r)).bind fun k =>
        if n + (codings r).length = 0 then none else some k := by
  refine loop_rule (s := (r, k, n)) teStep_descends (P := fun s a => a =
    (codingFold s.2.1 (codings s.1)).bind fun k =>
      if s.2.2 + (codings s.1).length = 0 then none else some k) ?_ ?_ trivial
  · rintro ⟨r, k, n⟩ a _ h
    cases r with
    | nil =>
        simp only [teStep, Turn.exit.injEq] at h
        simp [codings_nil, codingFold, ← h]
    | cons c r =>
        simp only [teStep] at h
        split at h
        · cases h
        · rename_i hc
          simp only [Bool.or_eq_true, not_or, beq_iff_eq, Bool.not_eq_true] at hc
          split at h
          · rename_i hk
            subst hk
            cases h
            rw [codings_coding hc.1 hc.2]
            rfl
          · cases h
  · rintro ⟨r, k, n⟩ s' a _ h ih
    cases r with
    | nil => simp [teStep] at h
    | cons c r =>
        simp only [teStep] at h
        split at h
        · rename_i hc
          cases h
          have e : codings (c :: r) = codings r := by
            simp only [Bool.or_eq_true, beq_iff_eq] at hc
            rcases hc with rfl | hc
            · exact codings_comma r
            · exact codings_ows hc r
          rw [e]
          exact ih
        · rename_i hc
          simp only [Bool.or_eq_true, not_or, beq_iff_eq, Bool.not_eq_true] at hc
          split at h
          · cases h
          · rename_i hk
            obtain rfl : k = false := by simpa using hk
            cases h
            rw [codings_coding hc.1 hc.2, ih]
            simp only [codingFold, chunkedCoding, List.length_cons]
            congr 1
            funext k
            simp only [show n + 1 + (codings ((c :: r).dropWhile (· != comma))).length =
              n + ((codings ((c :: r).dropWhile (· != comma))).length + 1) by omega]

/-- The value `chunked` is one coding. -/
theorem codings_chunked {v : List UInt8} (h : chunkedCoding v = true) : codings v = [v] := by
  have hsep : ∀ c : UInt8, lower c ∈ (ascii "chunked").map lower → c ≠ comma ∧ isOws c = false :=
    forall_byte (by decide +kernel)
  have hv : ∀ c ∈ v, c ≠ comma ∧ isOws c = false := fun c hc =>
    hsep c (asciiCiEq_iff.mp h ▸ List.mem_map_of_mem hc)
  have hno : comma ∉ v := fun hc => (hv comma hc).1 rfl
  have htr : Trimmed isOws v :=
    ⟨fun c hc => (hv c (List.mem_of_mem_head? hc)).2,
      fun c hc => (hv c (List.mem_reverse.mp (List.mem_of_mem_head? hc))).2⟩
  have hne : v ≠ [] := by
    rintro rfl
    revert h
    decide
  have ht : trim isOws v = v := by
    simpa using trim_append (a := []) (b := []) (by simp) htr (by simp)
  simp [codings, List.splitOn_eq_singleton hno, ht, hne]

/-- **`te_fold` folds the codings of one value.** -/
theorem teFold_eq (buf : List UInt8) (s : Slice) (k : Bool) :
    teFold buf s k =
      if codings (s.view buf) = [] then none else codingFold k (codings (s.view buf)) := by
  unfold teFold
  split
  · rename_i h
    simp only [Bool.and_eq_true, Bool.not_eq_true'] at h
    obtain ⟨rfl, h⟩ := h
    rw [codings_chunked h]
    simp [codingFold, show chunkedCoding (s.view buf) = true from h]
  · rw [teLoop_eq]
    by_cases h : codings (s.view buf) = []
    · simp [h, codingFold]
    · have : (codings (s.view buf)).length ≠ 0 := by simpa using h
      simp [h]

end Vanilla.RequestParser

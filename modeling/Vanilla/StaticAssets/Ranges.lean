import Vanilla.Http1.Basic
import Vanilla.Support.Decimals
import Vanilla.Support.Runs

/-!
# Static assets — byte ranges

`parse_range_slice` of `static_assets/static_assets.v`, on the bytes of the `Range` field's value.
Its numbers are `i64`s that stop at `max_i64`; a reader's -1 is `none`.

* `ByteRange v a`: the value is of one of the three forms, and asks for `a`, its numbers read as
  they are written.
* `parseDecWindow_eq`: the reader stops at `max_i64` and is exact below.
* `range_parsing_iff`: the answer is the one RFC 9110 gives, except where FIRST and LAST both stop
  at `max_i64` and so compare as equal.
-/

namespace Vanilla.StaticAssets
open Scan Decimals

/-! ### The source -/

/-- `max_i64`. -/
def maxI64 : Nat := 2 ^ 63 - 1

/-- The byte `-`. -/
def dash : UInt8 := 45

/-- `RangeSpec`, with the window of a satisfiable one. -/
inductive RangeSpec where
  | ignore
  | satisfiable (start stop : Nat)
  | unsatisfiable
  deriving DecidableEq

/-- The digit loop of `parse_dec_window`. -/
def decDigits : List UInt8 → Nat → Option Nat
  | [], n => some n
  | c :: r, n =>
    if c < 48 || c > 57 then none
    else
      let d := c.toNat - 48
      decDigits r (if n > (maxI64 - d) / 10 then maxI64 else n * 10 + d)

/-- `parse_dec_window`. -/
def parseDecWindow (v : List UInt8) : Option Nat := if v = [] then none else decDigits v 0

/-- The end of `parse_range_slice`. -/
def rangeOf (start : Nat) (stop : Int) : RangeSpec :=
  if (start : Int) > stop then .unsatisfiable else .satisfiable start stop.toNat

/-- `parse_range_slice` behind its search for the dash: the two numbers. -/
def rangeAround (first last : List UInt8) (size : Nat) : RangeSpec :=
  if first = [] then
    match parseDecWindow last with
    | none => .ignore
    | some n =>
      if n > 0 ∧ size = 0 then .ignore
      else rangeOf (if n ≥ size then 0 else size - n) ((size : Int) - 1)
  else
    match parseDecWindow first with
    | none => .ignore
    | some start =>
      if last = [] then rangeOf start ((size : Int) - 1)
      else
        match parseDecWindow last with
        | none => .ignore
        | some stop =>
          if stop < start then .ignore
          else rangeOf start (if (stop : Int) < (size : Int) - 1 then stop else (size : Int) - 1)

/-- `parse_range_slice`, on a body of `size` bytes. -/
def parseRangeSlice (v : List UInt8) (size : Nat) : RangeSpec :=
  if v.take 6 ≠ ascii "bytes=" then .ignore
  else
    match (v.drop 6).dropWhile (· != dash) with
    | [] => .ignore
    | _ :: last =>
      if last.contains dash then .ignore
      else rangeAround ((v.drop 6).takeWhile (· != dash)) last size

/-! ### What a value asks for -/

/-- What a range asks for. -/
inductive Asked where
  | between (first last : Nat)
  | onward (first : Nat)
  | suffix (length : Nat)

/-- A number as it is written: at least one byte, all of them digits. -/
def Written (t : List UInt8) : Prop := t ≠ [] ∧ Digits t

/-- The value is a byte range, and this is what it asks for. -/
inductive ByteRange : List UInt8 → Asked → Prop where
  | between {first last : List UInt8} (hf : Written first) (hl : Written last) :
      ByteRange (ascii "bytes=" ++ (first ++ dash :: last)) (.between (value first) (value last))
  | onward {first : List UInt8} (hf : Written first) :
      ByteRange (ascii "bytes=" ++ (first ++ [dash])) (.onward (value first))
  | suffix {length : List UInt8} (hn : Written length) :
      ByteRange (ascii "bytes=" ++ dash :: length) (.suffix (value length))

/-- What RFC 9110 §14 answers on a body of `size` bytes; a suffix of an empty body selects no byte,
and is ignored. -/
def Asked.answer (size : Nat) : Asked → RangeSpec
  | .between first last =>
    if last < first then .ignore
    else if size ≤ first then .unsatisfiable
    else .satisfiable first (min last (size - 1))
  | .onward first =>
    if size ≤ first then .unsatisfiable else .satisfiable first (size - 1)
  | .suffix length =>
    if 0 < length ∧ size = 0 then .ignore
    else if length = 0 then .unsatisfiable
    else .satisfiable (size - min length size) (size - 1)

/-- The answer `r` to the value `v` is that of RFC 9110. -/
structure FollowsRfc (v : List UInt8) (size : Nat) (r : RangeSpec) : Prop where
  asked : ∀ a, ByteRange v a → r = a.answer size
  other : (∀ a, ¬ ByteRange v a) → r = .ignore
  inside : ∀ start stop, r = .satisfiable start stop → start ≤ stop ∧ stop < size

/-! ### Numbers -/

theorem dash_not_digit {t : List UInt8} (h : Digits t) : ∀ c ∈ t, (c != dash) = true := by
  intro c hc
  rw [bne_iff_ne]
  rintro rfl
  exact absurd (h dash hc).1 (by decide)

theorem stop_at {N d : Nat} (hd : d ≤ 9) :
    (if min N maxI64 > (maxI64 - d) / 10 then maxI64 else min N maxI64 * 10 + d) =
      min (N * 10 + d) maxI64 := by
  unfold maxI64
  split <;> omega

/-- The loop stops at `max_i64`, and is exact below. -/
theorem decDigits_eq (t : List UInt8) (N : Nat) (h : Digits t) :
    decDigits t (min N maxI64) =
      some (min (t.foldl (fun n c => n * 10 + (c.toNat - 48)) N) maxI64) := by
  induction t generalizing N with
  | nil => rfl
  | cons c t ih =>
      obtain ⟨hlo, hhi⟩ := h c List.mem_cons_self
      have hdigit : ¬ (c < 48 || c > 57) = true := by
        simpa [UInt8.not_lt] using ⟨hlo, hhi⟩
      have hnine : c.toNat - 48 ≤ 9 := by
        have : c.toNat ≤ 57 := hhi
        omega
      rw [decDigits, if_neg hdigit]
      dsimp only
      rw [stop_at hnine, List.foldl_cons, ih _ fun d hd => h d (List.mem_cons_of_mem _ hd)]

theorem decDigits_digits {t : List UInt8} {n m : Nat} (h : decDigits t n = some m) : Digits t := by
  induction t generalizing n with
  | nil => exact nofun
  | cons c t ih =>
      rw [decDigits] at h
      split at h
      · cases h
      · rename_i hc
        simp only [Bool.or_eq_true, decide_eq_true_eq, not_or, UInt8.not_lt] at hc
        exact List.forall_mem_cons.mpr ⟨hc, ih h⟩

/-- The reader of a number. -/
theorem parseDecWindow_eq {t : List UInt8} (h : Written t) :
    parseDecWindow t = some (min (value t) maxI64) := by
  rw [parseDecWindow, if_neg h.1]
  exact decDigits_eq t 0 h.2

theorem parseDecWindow_written {t : List UInt8} {n : Nat} (h : parseDecWindow t = some n) :
    Written t := by
  unfold parseDecWindow at h
  split at h
  · cases h
  · rename_i hne
    exact ⟨hne, decDigits_digits h⟩

/-! ### The dash -/

/-- A value of the form is cut at its dash. -/
theorem parseRangeSlice_cut {first last : List UInt8} (hf : Digits first) (hl : Digits last)
    (size : Nat) :
    parseRangeSlice (ascii "bytes=" ++ (first ++ dash :: last)) size =
      rangeAround first last size := by
  have hdash : NotAt (· != dash) (dash :: last) := by simp [dash]
  have hnone : last.contains dash = false := by
    rw [Bool.eq_false_iff, ne_eq, List.contains_iff_mem]
    exact fun hmem => by simpa [dash] using dash_not_digit hl dash hmem
  have htake : (ascii "bytes=" ++ (first ++ dash :: last)).take 6 = ascii "bytes=" := rfl
  have hdrop : (ascii "bytes=" ++ (first ++ dash :: last)).drop 6 = first ++ dash :: last := rfl
  rw [parseRangeSlice, if_neg (not_not_intro htake), hdrop,
    dropWhile_run (dash_not_digit hf) hdash, takeWhile_run (dash_not_digit hf) hdash]
  dsimp only
  rw [hnone]
  rfl

/-- A value that is not ignored has a dash, with the two numbers around it. -/
theorem parseRangeSlice_split {v : List UInt8} {size : Nat} (h : parseRangeSlice v size ≠ .ignore) :
    ∃ first last, v = ascii "bytes=" ++ (first ++ dash :: last) ∧
      parseRangeSlice v size = rangeAround first last size := by
  unfold parseRangeSlice at h ⊢
  split at h
  · exact absurd rfl h
  · rename_i htake
    rw [if_neg htake]
    obtain ⟨hsplit, -⟩ := run_append (· != dash) (v.drop 6)
    cases hcut : (v.drop 6).dropWhile (· != dash) with
    | nil => simp [hcut] at h
    | cons c last =>
        have hc : c = dash := by
          have := notAt_dropWhile (p := (· != dash)) (v.drop 6)
          rw [hcut, notAt_cons] at this
          simpa using this
        simp only [hcut] at h ⊢
        split at h
        · exact absurd rfl h
        · rename_i hnone
          rw [if_neg hnone]
          refine ⟨_, last, ?_, rfl⟩
          rw [hcut, hc] at hsplit
          rw [← hsplit, ← Decidable.of_not_not htake, List.take_append_drop]

/-- What is not a byte range is ignored. -/
theorem rangeAround_ignore {first last : List UInt8} {size : Nat}
    (h : ∀ a, ¬ ByteRange (ascii "bytes=" ++ (first ++ dash :: last)) a) :
    rangeAround first last size = .ignore := by
  unfold rangeAround
  split
  · rename_i hnil
    subst hnil
    cases hn : parseDecWindow last with
    | none => rfl
    | some n => exact absurd (.suffix (parseDecWindow_written hn)) (h _)
  · cases hf : parseDecWindow first with
    | none => rfl
    | some start =>
        have hf := parseDecWindow_written hf
        dsimp only
        split
        · rename_i hnil
          subst hnil
          exact absurd (.onward hf) (h _)
        · cases hl : parseDecWindow last with
          | none => rfl
          | some stop => exact absurd (.between hf (parseDecWindow_written hl)) (h _)

/-! ### The answers -/

theorem rangeOf_satisfiable {start stop a b : Nat} {e : Int}
    (h : rangeOf a e = .satisfiable start stop) (he : e < b) : start ≤ stop ∧ stop < b := by
  unfold rangeOf at h
  split at h
  · cases h
  · cases h
    omega

/-- A range that is answered lies inside the body. -/
theorem rangeAround_inside {first last : List UInt8} {size start stop : Nat}
    (h : rangeAround first last size = .satisfiable start stop) : start ≤ stop ∧ stop < size := by
  unfold rangeAround at h
  split at h
  · split at h
    · cases h
    · split at h
      · cases h
      · exact rangeOf_satisfiable h (by omega)
  · split at h
    · cases h
    · split at h
      · exact rangeOf_satisfiable h (by omega)
      · split at h
        · cases h
        · split at h
          · cases h
          · exact rangeOf_satisfiable h (by split <;> omega)

section

variable {size : Nat} (hsize : size ≤ maxI64)
include hsize

theorem answer_suffix {n : List UInt8} (hn : Written n) :
    rangeAround [] n size = (Asked.suffix (value n)).answer size := by
  rw [rangeAround, if_pos rfl, parseDecWindow_eq hn]
  dsimp only [Asked.answer]
  generalize value n = N
  unfold maxI64 at *
  by_cases h : 0 < N ∧ size = 0
  · rw [if_pos (by omega), if_pos h]
  · rw [if_neg (by omega), if_neg h]
    unfold rangeOf
    by_cases h0 : N = 0
    · rw [if_pos (by split <;> omega), if_pos h0]
    · rw [if_neg (by split <;> omega), if_neg h0]
      congr 1
      · split <;> omega
      · omega

theorem answer_onward {f : List UInt8} (hf : Written f) :
    rangeAround f [] size = (Asked.onward (value f)).answer size := by
  rw [rangeAround, if_neg hf.1, parseDecWindow_eq hf]
  dsimp only [Asked.answer]
  generalize value f = F
  unfold maxI64 at *
  rw [if_pos rfl]
  unfold rangeOf
  by_cases h : size ≤ F
  · rw [if_pos (by omega), if_pos h]
  · rw [if_neg (by omega), if_neg h]
    congr 1
    · omega
    · omega

/-- Both numbers: exact unless they are told apart above `max_i64` only. -/
theorem answer_between {f l : List UInt8} (hf : Written f) (hl : Written l) :
    rangeAround f l size =
      if maxI64 ≤ value l ∧ value l < value f then .unsatisfiable
      else (Asked.between (value f) (value l)).answer size := by
  rw [rangeAround, if_neg hf.1, parseDecWindow_eq hf]
  dsimp only
  rw [if_neg hl.1, parseDecWindow_eq hl]
  dsimp only [Asked.answer]
  generalize value f = F
  generalize value l = L
  unfold maxI64 at *
  by_cases hbig : 2 ^ 63 - 1 ≤ L ∧ L < F
  · rw [if_neg (by omega), if_pos hbig, rangeOf, if_pos (by split <;> omega)]
  · rw [if_neg hbig]
    by_cases hlt : L < F
    · rw [if_pos (by omega), if_pos hlt]
    · rw [if_neg (by omega), if_neg hlt]
      unfold rangeOf
      by_cases h : size ≤ F
      · rw [if_pos (by split <;> omega), if_pos h]
      · rw [if_neg (by split <;> omega), if_neg h]
        congr 1
        · omega
        · split <;> omega

theorem huge_unsatisfiable {v : List UInt8} {first last : Nat}
    (hv : ByteRange v (.between first last)) (hmax : maxI64 ≤ last) (hlt : last < first) :
    parseRangeSlice v size = .unsatisfiable := by
  cases hv with
  | between hf hl =>
      rw [parseRangeSlice_cut hf.2 hl.2, answer_between hsize hf hl, if_pos ⟨hmax, hlt⟩]

/-- **Range parsing follows RFC 9110**, with numbers of any length, exactly where LAST is not below
FIRST with both of them at `max_i64` or above. -/
theorem range_parsing_iff (v : List UInt8) :
    FollowsRfc v size (parseRangeSlice v size) ↔
      ¬ ∃ first last, ByteRange v (.between first last) ∧ maxI64 ≤ last ∧ last < first := by
  constructor
  · rintro h ⟨first, last, hv, hmax, hlt⟩
    have hanswer := h.asked _ hv
    rw [huge_unsatisfiable hsize hv hmax hlt, Asked.answer, if_pos hlt] at hanswer
    cases hanswer
  · intro hno
    refine ⟨fun a ha => ?_, fun hother => ?_, fun start stop hs => ?_⟩
    · cases ha with
      | between hf hl =>
          rw [parseRangeSlice_cut hf.2 hl.2, answer_between hsize hf hl,
            if_neg fun h => hno ⟨_, _, .between hf hl, h⟩]
      | onward hf =>
          rw [parseRangeSlice_cut hf.2 (List.forall_mem_nil _), answer_onward hsize hf]
      | suffix hn =>
          exact (parseRangeSlice_cut (List.forall_mem_nil _) hn.2 size).trans
            (answer_suffix hsize hn)
    · by_contra hne
      obtain ⟨first, last, rfl, hr⟩ := parseRangeSlice_split hne
      exact hne (hr.trans (rangeAround_ignore hother))
    · have hne : parseRangeSlice v size ≠ .ignore := by
        rw [hs]
        exact nofun
      obtain ⟨first, last, -, hr⟩ := parseRangeSlice_split hne
      exact rangeAround_inside (hr.symm.trans hs)

end

/-- The first five bytes of ten. -/
theorem range_parsing_iff_five : FollowsRfc (ascii "bytes=0-4") 10 (.satisfiable 0 4) := by
  have hfive : parseRangeSlice (ascii "bytes=0-4") 10 = .satisfiable 0 4 := by decide
  rw [← hfive]
  refine (range_parsing_iff (by decide) (ascii "bytes=0-4")).mpr ?_
  rintro ⟨first, last, hv, hmax, hlt⟩
  have hhuge := huge_unsatisfiable (show 10 ≤ maxI64 by decide) hv hmax hlt
  rw [hfive] at hhuge
  cases hhuge

/-- LAST is one below FIRST, and both read as `max_i64`: 416 instead of the whole body. -/
theorem huge_last_below_first :
    parseRangeSlice (ascii "bytes=9223372036854775808-9223372036854775807") 100 = .unsatisfiable ∧
      ¬ FollowsRfc (ascii "bytes=9223372036854775808-9223372036854775807") 100
        (parseRangeSlice (ascii "bytes=9223372036854775808-9223372036854775807") 100) := by
  have hhuge : parseRangeSlice (ascii "bytes=9223372036854775808-9223372036854775807") 100 =
      .unsatisfiable := by decide +kernel
  have hv : ByteRange (ascii "bytes=9223372036854775808-9223372036854775807")
      (.between 9223372036854775808 9223372036854775807) :=
    @ByteRange.between (ascii "9223372036854775808") (ascii "9223372036854775807")
      ⟨by decide, by unfold Digits; decide +kernel⟩ ⟨by decide, by unfold Digits; decide +kernel⟩
  refine ⟨hhuge, fun h => ?_⟩
  have hanswer := h.asked _ hv
  rw [hhuge, Asked.answer, if_pos (by decide)] at hanswer
  cases hanswer

end Vanilla.StaticAssets

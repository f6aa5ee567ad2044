import Vanilla.RequestParser.Definitions

/-!
# Request parser — query strings

The query string of a request target, and percent-decoding: `query_element`, `get_query_slice`,
`has_query` and `percent_decode_into` of `request_parser.v`.

A query string is meant to be cut at its `&`, and each element at its first `=`.  The reader never
cuts: it looks for the end of an element, compares the key in place, and goes on behind the `&`.
`queryStep_view` says what it finds in the words of the cut string, over what is left of it.

A percent escape is `%` and two hex digits, none of which is a `%`: no two escapes of a text
overlap.  So the decoded text can be said position by position (`decodedAt`), with no word about
the order of reading.

* `query_reader_exact`: the two readers are split-and-match.
* `percent_decode_exact`: every encoding of a text decodes to it, and what becomes of any text.
-/

namespace Vanilla.RequestParser
open Scan

/-! ### The query reader -/

/-- `question_mark_u8`. -/
def questionMark : UInt8 := 63
/-- `amperstand_u8`. -/
def ampersand : UInt8 := 38

/-- One pass of the loop of `query_element`; the state is `pos`. -/
def queryStep (buf : List UInt8) (pathEnd : Nat) (key : List UInt8) (bareOk : Bool) (pos : Nat) :
    Turn Nat (Option Slice) :=
  if pathEnd ≤ pos then .exit none
  else
    let amp := findByteIdx ((buf.drop pos).take (pathEnd - pos)) ampersand
    let stop := (amp.map (pos + ·)).getD pathEnd
    let after := pos + key.length
    if after ≤ stop ∧ (buf.drop pos).take key.length = key then
      -- a key with a `=` in it would match the front of a longer name
      if (findByteIdx key equal).isSome then .exit none
      else if after < stop ∧ buf[after]? = some equal then .exit (some ⟨after, stop - after⟩)
      else if after = stop ∧ bareOk then .exit (some ⟨after, 0⟩)
      else .next (stop + 1)
    else .next (stop + 1)

/-- `query_element`. -/
def queryElement (buf : List UInt8) (path : Slice) (key : List UInt8) (bareOk : Bool) :
    Option Slice :=
  if key.length = 0 ∨ path.len = 0 then none
  else
    match findByteIdx (path.view buf) questionMark with
    | none => none
    | some q =>
      let pathEnd := path.start + path.len.toNat
      loop (queryStep buf pathEnd key bareOk) (fun pos => pathEnd - pos) none (path.start + q + 1)

namespace HttpRequest

/-- `get_query_slice`. -/
def getQuerySlice (req : HttpRequest) (key : List UInt8) : Option Slice :=
  (queryElement req.buffer req.path key false).map fun v => ⟨v.start + 1, v.len - 1⟩

/-- `has_query`. -/
def hasQuery (req : HttpRequest) (key : List UInt8) : Bool :=
  (queryElement req.buffer req.path key true).isSome

/-- A request with its target between other bytes of its buffer. -/
def withTarget (req : HttpRequest) (before target behind : List UInt8) : HttpRequest :=
  { req with buffer := before ++ target ++ behind, path := ⟨before.length, target.length⟩ }

end HttpRequest

/-! ### A query string, cut -/

/-- The elements of a target's query string: what is behind its first `?`, cut at every `&`. -/
def queryElements (target : List UInt8) : List (List UInt8) :=
  match target.dropWhile (· != questionMark) with
  | [] => []
  | _ :: query => query.splitOn ampersand

/-- The name of an element: up to its first `=`, or its end. -/
def elementName (e : List UInt8) : List UInt8 := e.takeWhile (· != equal)

/-- The value of an element: what is behind its first `=`. -/
def elementValue (e : List UInt8) : List UInt8 := (e.dropWhile (· != equal)).drop 1

/-- What a pass takes an element for: one that starts with the key and a `=`, or is the key. -/
def Hit (key : List UInt8) (bareOk : Bool) (e : List UInt8) : Prop :=
  equal ∉ key ∧ (key ++ [equal] <+: e ∨ (e = key ∧ bareOk = true))

instance (key : List UInt8) (bareOk : Bool) (e : List UInt8) : Decidable (Hit key bareOk e) :=
  inferInstanceAs (Decidable (_ ∧ _))

theorem elementName_named {key e : List UInt8} (h : equal ∉ key) (hp : key ++ [equal] <+: e) :
    elementName e = key ∧ elementValue e = e.drop (key.length + 1) ∧ equal ∈ e := by
  obtain ⟨r, rfl⟩ := hp
  have hne : ∀ c ∈ key, (c != equal) = true := fun c hc => by
    simpa using fun e : c = equal => h (e ▸ hc)
  have htake : elementName (key ++ [equal] ++ r) = key := by
    rw [elementName, List.append_assoc, List.takeWhile_append_of_pos hne]
    simp
  have hdrop : (key ++ [equal] ++ r).dropWhile (· != equal) = equal :: r := by
    rw [List.append_assoc, List.dropWhile_append_of_pos hne]
    simp
  refine ⟨htake, ?_, by simp⟩
  rw [elementValue, hdrop, List.drop_left' (by simp)]
  rfl

/-- With the bare form allowed, a pass takes the elements of that name. -/
theorem hit_bare_iff {key e : List UInt8} : Hit key true e ↔ elementName e = key := by
  constructor
  · rintro ⟨hkey, hp | ⟨rfl, -⟩⟩
    · exact (elementName_named hkey hp).1
    · exact List.takeWhile_eq_self_iff.mpr fun c hc => by
        simpa using fun he : c = equal => hkey (he ▸ hc)
  · rintro rfl
    have hno : equal ∉ elementName e := fun h => by simpa using List.mem_takeWhile_imp h
    refine ⟨hno, ?_⟩
    have hsplit : elementName e ++ e.dropWhile (· != equal) = e := List.takeWhile_append_dropWhile
    cases hd : e.dropWhile (· != equal) with
    | nil =>
        rw [hd, List.append_nil] at hsplit
        exact .inr ⟨hsplit.symm, rfl⟩
    | cons c r =>
        have hc : c = equal := by
          have := List.head_dropWhile_not (· != equal) (l := e) (by rw [hd]; simp)
          simpa [hd] using this
        exact .inl ⟨r, by rw [← hc, List.append_assoc, List.singleton_append, ← hd, hsplit]⟩

/-- Without it, those of them that have a `=`. -/
theorem hit_value_iff {key e : List UInt8} :
    Hit key false e ↔ elementName e = key ∧ equal ∈ e := by
  constructor
  · rintro ⟨hkey, hp | ⟨-, h⟩⟩
    · exact ⟨(elementName_named hkey hp).1, (elementName_named hkey hp).2.2⟩
    · cases h
  · rintro ⟨hname, he⟩
    obtain ⟨hkey, hp | ⟨rfl, -⟩⟩ := hit_bare_iff.mpr hname
    · exact ⟨hkey, .inl hp⟩
    · exact absurd he hkey

/-! ### The walk over the elements -/

section Walk

variable {buf key : List UInt8} {pathEnd : Nat} {bareOk : Bool}

theorem queryStep_descends :
    Descends (queryStep buf pathEnd key bareOk) (fun pos => pathEnd - pos) fun _ => True := by
  intro pos pos' _ h
  unfold queryStep at h
  split at h
  · cases h
  rename_i hpos
  have hstop : ∀ amp : Option Nat, pos ≤ (amp.map (pos + ·)).getD pathEnd := by
    intro amp
    cases amp with
    | none => exact Nat.le_of_not_le hpos
    | some k => exact Nat.le_add_right pos k
  have := hstop (findByteIdx ((buf.drop pos).take (pathEnd - pos)) ampersand)
  simp only at h
  split at h
  · split at h
    · cases h
    split at h
    · cases h
    split at h
    · cases h
    · cases h
      exact ⟨trivial, by dsimp only; omega⟩
  · cases h
    exact ⟨trivial, by dsimp only; omega⟩

/-- What a pass does at an element `e`, which ends at the end of the path or at an `&`: it answers
what is behind the key in it, or goes on behind it. -/
theorem queryStep_element (key : List UInt8) (bareOk : Bool) {pos : Nat} {e rest : List UInt8}
    (hend : pathEnd ≤ buf.length) (hpos : pos < pathEnd)
    (hrest : (buf.drop pos).take (pathEnd - pos) = e ++ rest)
    (hno : ampersand ∉ e) (hamp : rest = [] ∨ rest.head? = some ampersand) :
    (∃ s, queryStep buf pathEnd key bareOk pos = .exit (some s) ∧ Hit key bareOk e ∧
        s.view buf = e.drop key.length) ∨
      (queryStep buf pathEnd key bareOk pos = .exit none ∧ equal ∈ key) ∨
      (queryStep buf pathEnd key bareOk pos = .next (pos + e.length + 1) ∧
        ¬ Hit key bareOk e) := by
  have hlen : e.length + rest.length = pathEnd - pos := by
    rw [← List.length_append, ← hrest, List.length_take, List.length_drop]
    omega
  have hfront : (buf.drop pos).take e.length = e := by
    have := congrArg (List.take e.length) hrest
    rwa [List.take_take, Nat.min_eq_left (by omega), List.take_left] at this
  have hstop : ((findByteIdx (e ++ rest) ampersand).map (pos + ·)).getD pathEnd =
      pos + e.length := by
    rcases hamp with rfl | hr
    · rw [List.append_nil, findByteIdx, List.idxOf?_eq_none_iff.mpr hno]
      simp only [Option.map_none, Option.getD_none]
      rw [List.length_nil] at hlen
      omega
    · obtain ⟨r, rfl⟩ : ∃ r, rest = ampersand :: r := by
        cases rest with
        | nil => cases hr
        | cons c r => exact ⟨r, by rw [List.head?_cons] at hr; rw [Option.some.inj hr]⟩
      rw [findByteIdx, idxOf?_append_cons hno]
      rfl
  have htake : ∀ k, k ≤ e.length → (buf.drop pos).take k = e.take k := by
    intro k hk
    rw [← hfront, List.take_take, Nat.min_eq_left hk]
  have hkey : (pos + key.length ≤ pos + e.length ∧ (buf.drop pos).take key.length = key) ↔
      key <+: e := by
    rw [Nat.add_le_add_iff_left, List.prefix_iff_eq_take]
    constructor
    · rintro ⟨hk, ht⟩
      rw [← htake _ hk, ht]
    · intro ht
      have hk : key.length ≤ e.length := by
        rw [ht, List.length_take]
        exact Nat.min_le_right _ _
      exact ⟨hk, (htake _ hk).trans ht.symm⟩
  have hview : ∀ n : Int, n.toNat = e.length - key.length → key.length ≤ e.length →
      (⟨pos + key.length, n⟩ : Slice).view buf = e.drop key.length := by
    intro n hn hk
    rw [Slice.view, hn, ← List.drop_drop, ← List.drop_take, hfront]
  unfold queryStep
  rw [if_neg (Nat.not_le.mpr hpos), hrest]
  simp only [hstop, hkey]
  by_cases hp : key <+: e
  · obtain ⟨t, rfl⟩ := hp
    rw [if_pos (List.prefix_append key t)]
    by_cases heq : equal ∈ key
    · have hsome : (findByteIdx key equal).isSome = true := by
        simpa [findByteIdx] using heq
      rw [if_pos hsome]
      exact .inr (.inl ⟨rfl, heq⟩)
    have hnone : ¬ (findByteIdx key equal).isSome = true := by
      simpa [findByteIdx] using heq
    rw [if_neg hnone]
    cases t with
    | nil =>
        rw [if_neg (by simp)]
        cases bareOk with
        | true =>
            rw [if_pos (by simp)]
            exact .inl ⟨_, rfl, ⟨heq, .inr ⟨by simp, rfl⟩⟩, hview _ (by simp) (by simp)⟩
        | false =>
            rw [if_neg (by simp)]
            refine .inr (.inr ⟨rfl, ?_⟩)
            rintro ⟨-, h | ⟨-, h⟩⟩
            · exact absurd h.length_le (by simp)
            · cases h
    | cons c t =>
        have hc : buf[pos + key.length]? = some c := by
          have := congrArg (·[key.length]?) hfront
          simpa [List.getElem?_take] using this
        have hlt : pos + key.length < pos + (key ++ c :: t).length := by simp
        rw [hc, if_neg (Nat.ne_of_lt hlt ∘ And.left)]
        by_cases he : c = equal
        · rw [if_pos ⟨hlt, by rw [he]⟩]
          refine .inl ⟨_, rfl, ⟨heq, .inl ⟨t, by simp [he]⟩⟩, hview _ ?_ (by simp)⟩
          simp only [List.length_append, List.length_cons]
          omega
        · rw [if_neg fun h => he (Option.some.inj h.2)]
          exact .inr (.inr ⟨rfl, by simp [Hit, Ne.symm he]⟩)
  · rw [if_neg hp]
    refine .inr (.inr ⟨rfl, fun h => ?_⟩)
    rcases h.2 with h | ⟨rfl, -⟩
    · exact hp (.trans (List.prefix_append _ _) h)
    · exact hp (List.prefix_refl _)

/-- **What the walk finds**: in the words of the cut string, what is behind the key in the first
element it takes. -/
theorem queryStep_view (hend : pathEnd ≤ buf.length) (hkey : key ≠ []) {pos : Nat} :
    (loop (queryStep buf pathEnd key bareOk) (fun pos => pathEnd - pos) none pos).map
        (fun s => s.view buf) =
      ((((buf.drop pos).take (pathEnd - pos)).splitOn ampersand).find?
        fun e => Hit key bareOk e).map (·.drop key.length) := by
  -- on what is left of the query string
  induction hn : pathEnd - pos using Nat.strongRecOn generalizing pos with
  | _ n ih =>
      subst hn
      by_cases hpos : pathEnd ≤ pos
      · rw [loop_exit (by unfold queryStep; rw [if_pos hpos]), Nat.sub_eq_zero_of_le hpos]
        have hnot : ¬ Hit key bareOk [] := by
          rintro ⟨-, h | ⟨h, -⟩⟩
          · simp at h
          · exact hkey h.symm
        simp [List.splitOn_nil, hnot]
      rw [Nat.not_le] at hpos
      generalize hr : (buf.drop pos).take (pathEnd - pos) = r at *
      have hkeyless : equal ∈ key → ∀ es : List (List UInt8),
          es.find? (fun e => Hit key bareOk e) = none := fun h es =>
        List.find?_eq_none.mpr fun e _ => by simpa using fun hit : Hit key bareOk e => hit.1 h
      by_cases hamp : ampersand ∈ r
      · obtain ⟨e, rest, rfl, hno⟩ := List.eq_append_cons_of_mem hamp
        rw [List.splitOn_append_cons_self_of_not_mem hno]
        rcases queryStep_element key bareOk hend hpos hr hno (.inr rfl) with
          ⟨s, hs, hit, hview⟩ | ⟨hs, heq⟩ | ⟨hs, hit⟩
        · rw [loop_exit hs]
          simp [hit, hview]
        · rw [loop_exit hs, hkeyless heq]
          rfl
        · rw [loop_next queryStep_descends trivial hs, ih _ (by omega) rfl]
          have hdrop : (buf.drop (pos + e.length + 1)).take (pathEnd - (pos + e.length + 1)) =
              rest := by
            have := congrArg (List.drop (e.length + 1)) hr
            rw [List.drop_take, List.drop_drop, List.append_cons, List.drop_left' (by simp)] at this
            simpa [Nat.sub_sub, Nat.add_assoc] using this
          rw [hdrop]
          simp [hit]
      · have hlen : r.length = pathEnd - pos := by
          rw [← hr, List.length_take, List.length_drop]
          omega
        rw [List.splitOn_eq_singleton hamp]
        rcases queryStep_element key bareOk hend hpos
            (hr.trans (List.append_nil r).symm) hamp (.inl rfl) with
          ⟨s, hs, hit, hview⟩ | ⟨hs, heq⟩ | ⟨hs, hit⟩
        · rw [loop_exit hs]
          simp [hit, hview]
        · rw [loop_exit hs, hkeyless heq]
          rfl
        · have hexit : queryStep buf pathEnd key bareOk (pos + r.length + 1) = .exit none := by
            unfold queryStep
            rw [if_pos (by omega)]
          rw [loop_next queryStep_descends trivial hs, loop_exit hexit]
          simp [hit]

end Walk

/-! ### The readers -/

/-- `query_element` on a target: what is behind the key in the first element it takes. -/
theorem queryElement_view (req : HttpRequest) (before target behind key : List UInt8)
    (bareOk : Bool) :
    (queryElement (req.withTarget before target behind).buffer
        (req.withTarget before target behind).path key bareOk).map
        (fun s => s.view (before ++ target ++ behind)) =
      if key = [] then none
      else ((queryElements target).find? fun e => Hit key bareOk e).map (·.drop key.length) := by
  have hbuf : (before ++ target ++ behind).drop before.length = target ++ behind := by
    rw [List.append_assoc, List.drop_left]
  have hview : (⟨before.length, target.length⟩ : Slice).view (before ++ target ++ behind) =
      target := by
    rw [Slice.view, hbuf, Int.toNat_natCast, List.take_left]
  simp only [queryElement, HttpRequest.withTarget, hview, List.length_eq_zero_iff,
    Int.natCast_eq_zero]
  by_cases hkey : key = []
  · simp [hkey]
  by_cases htarget : target = []
  · simp [hkey, htarget, queryElements]
  rw [if_neg (by simp [hkey, htarget]), if_neg hkey]
  by_cases hq : questionMark ∈ target
  · obtain ⟨path, query, rfl, hno⟩ := List.eq_append_cons_of_mem hq
    have helems : queryElements (path ++ questionMark :: query) = query.splitOn ampersand := by
      have hne : ∀ c ∈ path, (c != questionMark) = true := fun c hc => by
        simpa using fun e : c = questionMark => hno (e ▸ hc)
      simp [queryElements, List.dropWhile_append_of_pos hne]
    have hleft : ((before ++ (path ++ questionMark :: query) ++ behind).drop
        (before.length + path.length + 1)).take
          (before.length + (path ++ questionMark :: query).length -
            (before.length + path.length + 1)) = query := by
      have hfront : before ++ (path ++ questionMark :: query) ++ behind =
          (before ++ path ++ [questionMark]) ++ (query ++ behind) := by simp
      rw [hfront, List.drop_left' (by simp; omega), List.take_left' (by simp; omega)]
    simp only [findByteIdx, idxOf?_append_cons hno, Int.toNat_natCast]
    rw [queryStep_view (by simp) hkey, hleft, helems]
  · have hnone : findByteIdx target questionMark = none := List.idxOf?_eq_none_iff.mpr hq
    have helems : queryElements target = [] := by
      have hne : ∀ c ∈ target, (c != questionMark) = true := fun c hc => by
        simpa using fun e : c = questionMark => hq (e ▸ hc)
      rw [queryElements, List.dropWhile_eq_nil_iff.mpr hne]
    simp [hnone, helems]

/-- **The query reader is split-and-match.**  `has_query` finds a key exactly when an element of
that name is in the query string, and `get_query_slice` answers the value of the first one that has
a value; a key with a `=` or an `&` in it is the name of no element. -/
theorem query_reader_exact (req : HttpRequest) (before target behind key : List UInt8) :
    ((req.withTarget before target behind).hasQuery key = true ↔
      key ≠ [] ∧ ∃ e ∈ queryElements target, elementName e = key) ∧
    ((req.withTarget before target behind).getQuerySlice key).map
        (fun s => s.view (before ++ target ++ behind)) =
      ((queryElements target).find?
        fun e => key ≠ [] ∧ elementName e = key ∧ equal ∈ e).map elementValue := by
  constructor
  · have h := congrArg Option.isSome (queryElement_view req before target behind key true)
    rw [Option.isSome_map] at h
    rw [HttpRequest.hasQuery, h]
    by_cases hkey : key = []
    · simp [hkey]
    · simp [hkey, hit_bare_iff]
  · have h := queryElement_view req before target behind key false
    rw [HttpRequest.getQuerySlice, Option.map_map]
    by_cases hkey : key = []
    · rw [if_pos hkey, Option.map_eq_none_iff] at h
      rw [h, List.find?_eq_none.mpr (by simp [hkey])]
      rfl
    rw [if_neg hkey] at h
    have hsame : (queryElements target).find?
          (fun e => key ≠ [] ∧ elementName e = key ∧ equal ∈ e) =
        (queryElements target).find? fun e => Hit key false e := by
      congr 1
      funext e
      simp [hkey, hit_value_iff]
    rw [hsame]
    cases hfind : (queryElements target).find? fun e => Hit key false e with
    | none =>
        rw [hfind, Option.map_none, Option.map_eq_none_iff] at h
        rw [h]
        rfl
    | some e =>
        have hit : Hit key false e := by simpa using List.find?_some hfind
        obtain ⟨hno, hp | ⟨-, hf⟩⟩ := hit
        · rw [hfind, Option.map_some, Option.map_eq_some_iff] at h
          obtain ⟨v, hv, hview⟩ := h
          rw [hv, Option.map_some, Option.map_some, (elementName_named hno hp).2.1]
          refine congrArg some ?_
          have hsub : (v.len - 1).toNat = v.len.toNat - 1 := by omega
          change ((before ++ target ++ behind).drop (v.start + 1)).take (v.len - 1).toNat = _
          rw [hsub, ← List.drop_drop, ← List.drop_take]
          change (v.view (before ++ target ++ behind)).drop 1 = _
          rw [hview, List.drop_drop]
        · cases hf

/-! ### Percent-decoding -/

def percent : UInt8 := 37
def plus : UInt8 := 43

/-- `u8((hi << 4) | lo)` of two hex digits. -/
def hexByte (a b : UInt8) : Option UInt8 :=
  match hexDigit a, hexDigit b with
  | some hi, some lo => some (hi <<< 4 ||| lo).toUInt8
  | _, _ => none

/-- A byte that starts no escape: `+` may stand for a space. -/
def plainByte (plusAsSpace : Bool) (c : UInt8) : UInt8 := if c = plus ∧ plusAsSpace then sp else c

/-- The loop of `percent_decode_into` over what is left of `src`: the bytes it writes.  A `%` with
less than two bytes behind it, or not two hex digits, is kept as it is. -/
def percentDecode (plusAsSpace : Bool) : List UInt8 → List UInt8
  | c :: a :: b :: rest =>
    if c = percent then
      match hexByte a b with
      | some v => v :: percentDecode plusAsSpace rest
      | none => c :: percentDecode plusAsSpace (a :: b :: rest)
    else plainByte plusAsSpace c :: percentDecode plusAsSpace (a :: b :: rest)
  | c :: src => plainByte plusAsSpace c :: percentDecode plusAsSpace src
  | [] => []

/-- `percent_decode_into`. -/
def percentDecodeInto (src out : List UInt8) (plusAsSpace : Bool) : List UInt8 :=
  out ++ percentDecode plusAsSpace src

/-- `src` is an encoding of a text: each byte as itself, as an escape, or a space as `+`. -/
inductive Encodes (plusAsSpace : Bool) : List UInt8 → List UInt8 → Prop where
  | nil : Encodes plusAsSpace [] []
  | itself {c : UInt8} {src t : List UInt8} (hc : c ≠ percent)
      (hp : plusAsSpace = true → c ≠ plus) (h : Encodes plusAsSpace src t) :
      Encodes plusAsSpace (c :: src) (c :: t)
  | escape {a b : UInt8} {hi lo : Nat} {src t : List UInt8} (ha : hexDigit a = some hi)
      (hb : hexDigit b = some lo) (h : Encodes plusAsSpace src t) :
      Encodes plusAsSpace (percent :: a :: b :: src) ((16 * hi + lo).toUInt8 :: t)
  | space {src t : List UInt8} (hp : plusAsSpace = true) (h : Encodes plusAsSpace src t) :
      Encodes plusAsSpace (plus :: src) (sp :: t)

/-- The escape at a position of `src`: the byte it stands for. -/
def escapeAt (src : List UInt8) (i : Nat) : Option UInt8 :=
  match src.drop i with
  | c :: a :: b :: _ => if c = percent then hexByte a b else none
  | _ => none

/-- What becomes of a position: the byte of an escape that starts there, nothing inside an escape,
the byte itself otherwise. -/
def decodedAt (plusAsSpace : Bool) (src : List UInt8) (i : Nat) : Option UInt8 :=
  if (escapeAt src i).isSome then escapeAt src i
  else if ∃ j < i, i < j + 3 ∧ (escapeAt src j).isSome then none
  else src[i]?.map (plainByte plusAsSpace)

section Percent

variable {plusAsSpace : Bool}

theorem hexDigit_lt : ∀ c : UInt8, ∀ n ∈ hexDigit c, n < 16 := forall_byte (by decide +kernel)

theorem hexDigit_percent : hexDigit percent = none := by decide

/-- A hex digit is no `%`, so it starts no escape. -/
theorem hexByte_ne_percent {a b v : UInt8} (h : hexByte a b = some v) :
    a ≠ percent ∧ b ≠ percent := by
  constructor
  · rintro rfl
    simp [hexByte, hexDigit_percent] at h
  · rintro rfl
    cases ha : hexDigit a <;> simp [hexByte, hexDigit_percent, ha] at h

theorem hexByte_digits {a b : UInt8} {hi lo : Nat} (ha : hexDigit a = some hi)
    (hb : hexDigit b = some lo) : hexByte a b = some (16 * hi + lo).toUInt8 := by
  have hlo : lo < 2 ^ 4 := hexDigit_lt b lo hb
  have hor : hi <<< 4 ||| lo = 16 * hi + lo := by
    rw [← Nat.shiftLeft_add_eq_or_of_lt hlo, Nat.shiftLeft_eq, Nat.mul_comm]
  simp only [hexByte, ha, hb, hor]

theorem plainByte_percent : plainByte plusAsSpace percent = percent :=
  if_neg fun h => absurd h.1 (by decide)

theorem escapeAt_of_ne {c : UInt8} (h : c ≠ percent) (src : List UInt8) :
    escapeAt (c :: src) 0 = none := by
  unfold escapeAt
  split
  · rename_i hd
    cases hd
    exact if_neg h
  · rfl

/-- One pass: an escape at the front is taken whole. -/
theorem percentDecode_cons (c : UInt8) (src : List UInt8) :
    percentDecode plusAsSpace (c :: src) =
      match escapeAt (c :: src) 0 with
      | some v => v :: percentDecode plusAsSpace (src.drop 2)
      | none => plainByte plusAsSpace c :: percentDecode plusAsSpace src := by
  match src with
  | [] => rfl
  | [_] => rfl
  | a :: b :: rest =>
      simp only [percentDecode, escapeAt, List.drop_zero]
      by_cases hc : c = percent
      · rw [if_pos hc, if_pos hc, hc, plainByte_percent]
        cases hexByte a b <;> rfl
      · rw [if_neg hc, if_neg hc]

/-- **Decoding inverts every encoder.** -/
theorem percentDecode_encodes {src t : List UInt8} (h : Encodes plusAsSpace src t) :
    percentDecode plusAsSpace src = t := by
  induction h with
  | nil => rfl
  | @itself c src t hc hp h ih =>
      have hplain : plainByte plusAsSpace c = c := if_neg fun e => hp e.2 e.1
      rw [percentDecode_cons, escapeAt_of_ne hc]
      simp only [hplain, ih]
  | escape ha hb h ih =>
      rw [percentDecode, if_pos rfl]
      simp only [hexByte_digits ha hb, ih]
  | space hp h ih =>
      have hplain : plainByte plusAsSpace plus = sp := if_pos ⟨rfl, hp⟩
      rw [percentDecode_cons, escapeAt_of_ne (by decide)]
      simp only [hplain, ih]

/-! ### Position by position -/

/-- An escape, taken apart: the two positions behind its start start none. -/
theorem escapeAt_some {c v : UInt8} {src : List UInt8} (h : escapeAt (c :: src) 0 = some v) :
    ∃ a b rest, src = a :: b :: rest ∧ a ≠ percent ∧ b ≠ percent := by
  match src with
  | [] => cases h
  | [_] => cases h
  | a :: b :: rest =>
      have hhex : hexByte a b = some v := by
        simp only [escapeAt, List.drop_zero] at h
        split at h
        · exact h
        · cases h
      exact ⟨a, b, rest, rfl, hexByte_ne_percent hhex⟩

/-- **Escapes do not overlap.** -/
theorem escapes_apart {src : List UInt8} {i j : Nat} (hi : (escapeAt src i).isSome)
    (hj : (escapeAt src j).isSome) (hij : i < j) : i + 3 ≤ j := by
  induction i generalizing src j with
  | zero =>
      obtain ⟨v, hv⟩ := Option.isSome_iff_exists.mp hi
      cases src with
      | nil => cases hi
      | cons c src =>
          obtain ⟨a, b, rest, rfl, ha, hb⟩ := escapeAt_some hv
          match j with
          | 1 =>
              have := escapeAt_of_ne ha (b :: rest)
              exact absurd (this ▸ hj : (none : Option UInt8).isSome) (by simp)
          | 2 =>
              have := escapeAt_of_ne hb rest
              exact absurd (this ▸ hj : (none : Option UInt8).isSome) (by simp)
          | j + 3 => omega
  | succ i ih =>
      cases src with
      | nil => cases hi
      | cons c src =>
          obtain ⟨j, rfl⟩ : ∃ k, j = k + 1 := ⟨j - 1, by omega⟩
          have hi' : (escapeAt src i).isSome := hi
          have := ih hi' hj (by omega)
          omega

/-- A position further on does not depend on the first byte, unless that starts an escape. -/
theorem decodedAt_succ {c : UInt8} {src : List UInt8} {i : Nat}
    (h : escapeAt (c :: src) 0 = none ∨ 2 ≤ i) :
    decodedAt plusAsSpace (c :: src) (i + 1) = decodedAt plusAsSpace src i := by
  have hinside : (∃ j < i + 1, i + 1 < j + 3 ∧ (escapeAt (c :: src) j).isSome) ↔
      ∃ j < i, i < j + 3 ∧ (escapeAt src j).isSome := by
    constructor
    · rintro ⟨j, hj, hi, hs⟩
      cases j with
      | zero =>
          rcases h with h | h
          · rw [h] at hs
            cases hs
          · omega
      | succ j => exact ⟨j, by omega, by omega, hs⟩
    · rintro ⟨j, hj, hi, hs⟩
      exact ⟨j + 1, by omega, by omega, hs⟩
  have hat : escapeAt (c :: src) (i + 1) = escapeAt src i := rfl
  simp only [decodedAt, hinside, hat, List.getElem?_cons_succ]

/-- **What becomes of any text**, position by position. -/
theorem percentDecode_positions (src : List UInt8) :
    percentDecode plusAsSpace src =
      (List.range src.length).filterMap (decodedAt plusAsSpace src) := by
  -- on the text left behind the byte, or the escape, at the front
  induction hn : src.length using Nat.strongRecOn generalizing src with
  | _ n ih =>
      subst hn
      cases src with
      | nil => rfl
      | cons c src =>
          rw [percentDecode_cons]
          cases hesc : escapeAt (c :: src) 0 with
          | none =>
              have hzero : decodedAt plusAsSpace (c :: src) 0 = some (plainByte plusAsSpace c) := by
                simp [decodedAt, hesc]
              have hshift : decodedAt plusAsSpace (c :: src) ∘ Nat.succ =
                  decodedAt plusAsSpace src := funext fun i => decodedAt_succ (.inl hesc)
              rw [List.length_cons, List.range_succ_eq_map, List.filterMap_cons, hzero,
                List.filterMap_map, hshift]
              simp only [ih src.length (by simp) src rfl]
          | some v =>
              obtain ⟨a, b, rest, rfl, ha, hb⟩ := escapeAt_some hesc
              have hzero : decodedAt plusAsSpace (c :: a :: b :: rest) 0 = some v := by
                simp [decodedAt, hesc]
              have hone : decodedAt plusAsSpace (c :: a :: b :: rest) 1 = none := by
                have : escapeAt (c :: a :: b :: rest) 1 = none := escapeAt_of_ne ha _
                rw [decodedAt, this, if_neg (by simp)]
                exact if_pos ⟨0, by decide, by decide, by rw [hesc]; rfl⟩
              have htwo : decodedAt plusAsSpace (c :: a :: b :: rest) 2 = none := by
                have : escapeAt (c :: a :: b :: rest) 2 = none := escapeAt_of_ne hb _
                rw [decodedAt, this, if_neg (by simp)]
                exact if_pos ⟨0, by decide, by decide, by rw [hesc]; rfl⟩
              have hshift : ∀ i, decodedAt plusAsSpace (c :: a :: b :: rest) (i + 3) =
                  decodedAt plusAsSpace rest i := fun i => by
                rw [decodedAt_succ (.inr (Nat.le_add_left 2 i)),
                  decodedAt_succ (.inl (escapeAt_of_ne ha _)),
                  decodedAt_succ (.inl (escapeAt_of_ne hb _))]
              simp only [List.length_cons, List.range_succ_eq_map, List.filterMap_cons,
                List.map_cons, List.map_map, List.filterMap_map, hzero, hone, htwo,
                Nat.succ_eq_add_one, Function.comp_def, hshift]
              rw [List.drop_succ_cons, List.drop_succ_cons, List.drop_zero,
                ih rest.length (by simp only [List.length_cons]; omega) rest rfl]

/-- **Percent-decoding is exact.**  Every encoding of a text decodes to it; and any text decodes to
no more bytes than it has, each escape to the byte it stands for and every other byte to itself. -/
theorem percent_decode_exact (plusAsSpace : Bool) (out : List UInt8) :
    (∀ src t, Encodes plusAsSpace src t → percentDecodeInto src out plusAsSpace = out ++ t) ∧
    ∀ src, percentDecodeInto src out plusAsSpace =
        out ++ (List.range src.length).filterMap (decodedAt plusAsSpace src) ∧
      (percentDecodeInto src out plusAsSpace).length ≤ out.length + src.length ∧
      ∀ i j, (escapeAt src i).isSome → (escapeAt src j).isSome → i < j → i + 3 ≤ j := by
  refine ⟨fun src t h => ?_, fun src => ⟨?_, ?_, fun i j => escapes_apart⟩⟩
  · rw [percentDecodeInto, percentDecode_encodes h]
  · rw [percentDecodeInto, percentDecode_positions]
  · rw [percentDecodeInto, percentDecode_positions, List.length_append]
    have := List.length_filterMap_le (decodedAt plusAsSpace src) (List.range src.length)
    rw [List.length_range] at this
    omega

/-- A slash as an escape, a space as `+`. -/
theorem percent_decode_exact_slash :
    Encodes true (ascii "a%2Fb+c") (ascii "a/b c") ∧
      percentDecodeInto (ascii "a%2Fb+c") (ascii "q=") true = ascii "q=" ++ ascii "a/b c" := by
  have h : Encodes true (ascii "a%2Fb+c") (ascii "a/b c") :=
    .itself (by decide) (by decide) (.escape (show hexDigit 50 = some 2 by decide)
      (show hexDigit 70 = some 15 by decide) (.itself (by decide) (by decide)
        (.space rfl (.itself (by decide) (by decide) .nil))))
  exact ⟨h, (percent_decode_exact true (ascii "q=")).1 _ _ h⟩

/-- A `%` that starts no escape is kept. -/
example : percentDecodeInto (ascii "100%+%2g%41") [] false = ascii "100%+%2gA" := by decide

end Percent

end Vanilla.RequestParser

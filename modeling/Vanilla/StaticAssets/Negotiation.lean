import Vanilla.RequestParser.Definitions
import Vanilla.Support.Decimals
import Vanilla.Support.Listing

/-!
# Static assets — content negotiation

`slice_accepts_token` and `choose_variant` of `static_assets/static_assets.v`.  The scanner is given
the bytes of the `Accept-Encoding` value; it looks for a weight by the bytes `q=` wherever they
stand in an element.

* `AcceptEncoding v xs`: the value as RFC 9110 §12.5.3 reads it, the codings with their weights.
* `acceptsStep_spec`: a pass of the scanner deals with one coding.
* `negotiation_exact`: the scanner and the choice of the variant say what the value says.
-/

namespace Vanilla.StaticAssets
open Scan RequestParser Decimals

/-! ### The source -/

/-- `Encoding`. -/
inductive Encoding where
  | br
  | gzip
  deriving DecidableEq

/-- `enc_token`. -/
def encToken : Encoding → List UInt8
  | .br => ascii "br"
  | .gzip => ascii "gzip"

/-- The byte `.`. -/
def dot : UInt8 := 46

def isDigit (c : UInt8) : Bool := 48 ≤ c && c ≤ 57

/-- `q_value_is_zero` on what follows `q=`. -/
def qValueIsZero : List UInt8 → Bool
  | [] => false
  | c :: r =>
    if c ≠ 48 then false
    else if r.head? = some dot then ((r.drop 1).takeWhile isDigit).all (· == 48)
    else true

/-- `ci_equals`, the lengths being the same. -/
def ciEquals (name target : List UInt8) : Bool := name.map (· ||| 0x20) = target

/-- The rest of an element, up to the next comma: `q_zero`, and what is left. -/
def weight : Bool → List UInt8 → Bool × List UInt8
  | qZero, [] => (qZero, [])
  | qZero, c :: r =>
    if c = comma then (qZero, c :: r)
    else
      weight (if c ||| 0x20 = 113 ∧ r.head? = some equal then qValueIsZero (r.drop 1) else qZero) r

/-- What an element's name ends at. -/
def nameEnd (c : UInt8) : Bool := c == comma || c == semicolon || c == sp || c == htab

/-- One pass of `slice_accepts_token`; the state is what is left of the value. -/
def acceptsStep (token v : List UInt8) : Turn (List UInt8) Bool :=
  if v = [] then .exit false
  else
    let v := v.dropWhile fun c => isOws c || c == comma
    let name := v.takeWhile (!nameEnd ·)
    let (qZero, v) := weight false (v.dropWhile (!nameEnd ·))
    if name.length = token.length ∧ ciEquals name token = true ∧ qZero = false then .exit true
    else .next v

/-- `slice_accepts_token`. -/
def sliceAcceptsToken (v token : List UInt8) : Bool :=
  loop (acceptsStep token) List.length false v

/-- `Asset`: `encoded` are the slots of `reps` behind the identity one, `none` for nil. -/
structure Asset (V : Type) where
  negotiable : Bool
  identity : V
  encoded : Encoding → Option V

/-- The loop of `choose_variant`. -/
def chooseEncoded {V : Type} (a : Asset V) (accept : List UInt8) : List Encoding → V
  | [] => a.identity
  | e :: es =>
    match a.encoded e with
    | some v => if sliceAcceptsToken accept (encToken e) then v else chooseEncoded a accept es
    | none => chooseEncoded a accept es

/-- `choose_variant`, the server's `precompressed` being given. -/
def chooseVariant {V : Type} (precompressed : List Encoding) (a : Asset V) (req : HttpRequest) :
    V :=
  if a.negotiable then
    match getHeaderValueSlice req (ascii "Accept-Encoding") with
    | some ae => chooseEncoded a (ae.view req.buffer) precompressed
    | none => a.identity
  else a.identity

/-! ### What a value says -/

/-- `qvalue`, in thousandths. -/
inductive QValue : List UInt8 → Nat → Prop where
  | zero : QValue [48] 0
  | fraction {ds : List UInt8} (hd : Decimals.Digits ds) (hlen : ds.length ≤ 3) :
      QValue (48 :: dot :: ds) (value ds * 10 ^ (3 - ds.length))
  | one : QValue [49] 1000
  | whole {k : Nat} (hk : k ≤ 3) : QValue (49 :: dot :: List.replicate k 48) 1000

/-- `weight`: `q` in either case, blanks around the semicolon; 1 where there is none. -/
inductive Weight : List UInt8 → Nat → Prop where
  | absent : Weight [] 1000
  | given {a b t : List UInt8} {q : UInt8} {n : Nat} (ha : ∀ c ∈ a, isOws c = true)
      (hb : ∀ c ∈ b, isOws c = true) (hq : q = 113 ∨ q = 81) (ht : QValue t n) :
      Weight (a ++ semicolon :: (b ++ q :: equal :: t)) n

/-- A coding of the list, and its weight. -/
structure Weighted where
  name : List UInt8
  weight : Nat

/-- `codings [ weight ]`: a name is a token. -/
inductive IsCoding : List UInt8 → Weighted → Prop where
  | mk {name w : List UInt8} {n : Nat} (hne : name ≠ []) (hname : ∀ c ∈ name, chunkTchar c = true)
      (hw : Weight w n) : IsCoding (name ++ w) ⟨name, n⟩

/-- The value of an `Accept-Encoding`. -/
abbrev AcceptEncoding (v : List UInt8) (xs : List Weighted) : Prop :=
  Listing comma isOws IsCoding v xs

/-- The coding is the token, whatever the case, and is not refused. -/
def Weighted.accepts (x : Weighted) (token : List UInt8) : Bool :=
  decide (x.name.map lower = token) && x.weight != 0

/-- A token in lower case; `^`, `_` and `~` are not told apart from others by `| 0x20`. -/
def CodingName (token : List UInt8) : Prop :=
  token ≠ [] ∧ ∀ c ∈ token, chunkTchar c = true ∧ lower c = c ∧ c ≠ 94 ∧ c ≠ 95 ∧ c ≠ 126

theorem encToken_name (e : Encoding) : CodingName (encToken e) := by
  unfold CodingName
  cases e <;> decide +kernel

/-! ### Bytes -/

theorem tchar_plain : ∀ c : UInt8, chunkTchar c = true →
    nameEnd c = false ∧ isOws c = false ∧ c ≠ comma :=
  forall_byte (by decide +kernel)

theorem ows_plain : ∀ c : UInt8, isOws c = true →
    nameEnd c = true ∧ c ≠ comma ∧ c ||| 0x20 ≠ 113 ∧ isDigit c = false ∧ c ≠ dot :=
  forall_byte (by decide +kernel)

theorem folded_byte : ∀ c : UInt8, chunkTchar c = true →
    c ||| 0x20 = lower c ∨ c = 94 ∨ c = 95 :=
  forall_byte (by decide +kernel)

theorem digit_plain : ∀ c : UInt8, 48 ≤ c → c ≤ 57 →
    isDigit c = true ∧ c ≠ comma ∧ c ||| 0x20 ≠ 113 :=
  forall_byte (by decide +kernel)

/-- `ci_equals` on a byte of a name and one of the token. -/
theorem folded_iff {c t : UInt8} (hc : chunkTchar c = true)
    (ht : chunkTchar t = true ∧ lower t = t ∧ t ≠ 94 ∧ t ≠ 95 ∧ t ≠ 126) :
    c ||| 0x20 = t ↔ lower c = t := by
  obtain ⟨htchar, -, h94, h95, h126⟩ := ht
  rcases folded_byte c hc with h | rfl | rfl
  · rw [h]
  · exact ⟨fun h => absurd h.symm h126, fun h => absurd h.symm h94⟩
  · refine ⟨fun h => ?_, fun h => absurd h.symm h95⟩
    subst h
    cases htchar

theorem ciEquals_iff {name token : List UInt8} (hname : ∀ c ∈ name, chunkTchar c = true)
    (ht : ∀ t ∈ token, chunkTchar t = true ∧ lower t = t ∧ t ≠ 94 ∧ t ≠ 95 ∧ t ≠ 126) :
    ciEquals name token = true ↔ name.map lower = token := by
  unfold ciEquals
  rw [decide_eq_true_eq]
  induction name generalizing token with
  | nil => rfl
  | cons c name ih =>
      cases token with
      | nil => exact ⟨nofun, nofun⟩
      | cons t token =>
          rw [List.map_cons, List.map_cons, List.cons.injEq, List.cons.injEq,
            folded_iff (hname c List.mem_cons_self) (ht t List.mem_cons_self),
            ih (fun d hd => hname d (List.mem_cons_of_mem _ hd))
              fun d hd => ht d (List.mem_cons_of_mem _ hd)]

/-! ### Weights -/

theorem value_eq_zero {ds : List UInt8} (h : Decimals.Digits ds) :
    value ds = 0 ↔ ds.all (· == 48) = true := by
  induction ds with
  | nil => exact iff_of_true rfl rfl
  | cons c ds ih =>
      have hc := h c List.mem_cons_self
      have hcons : value (c :: ds) = (c.toNat - 48) * 10 ^ ds.length + value ds := by
        rw [value, List.foldl_cons, foldl_value, Nat.zero_mul, Nat.zero_add]
      have hzero : c.toNat - 48 = 0 ↔ c = 48 := by
        constructor
        · intro h0
          have : 48 ≤ c.toNat := hc.1
          exact UInt8.toNat_inj.mp (show c.toNat = 48 by omega)
        · rintro rfl
          rfl
      rw [hcons, Nat.add_eq_zero_iff, ih fun d hd => h d (List.mem_cons_of_mem _ hd),
        Nat.mul_eq_zero, or_iff_left (Nat.pos_iff_ne_zero.mp (Nat.pow_pos (by decide))), hzero,
        List.all_cons, Bool.and_eq_true, beq_iff_eq]

/-- What follows a weight is not taken for a part of it. -/
theorem qValueIsZero_eq {t r : List UInt8} {n : Nat} (h : QValue t n)
    (hr : ∀ c ∈ r.head?, isDigit c = false ∧ c ≠ dot) :
    qValueIsZero (t ++ r) = decide (n = 0) := by
  cases h with
  | zero =>
      have hdot : ¬ r.head? = some dot := fun h => (hr dot h).2 rfl
      rw [List.singleton_append, qValueIsZero, if_neg (by decide), if_neg hdot]
      rfl
  | @fraction ds hd hlen =>
      have hrun : (ds ++ r).takeWhile isDigit = ds :=
        takeWhile_run (fun c hc => (digit_plain c (hd c hc).1 (hd c hc).2).1)
          fun c hc => (hr c hc).1
      have hzero : value ds * 10 ^ (3 - ds.length) = 0 ↔ value ds = 0 := by
        rw [Nat.mul_eq_zero, or_iff_left (Nat.pos_iff_ne_zero.mp (Nat.pow_pos (by decide)))]
      show (if (48 : UInt8) ≠ 48 then false else if some dot = some dot then
        ((ds ++ r).takeWhile isDigit).all (· == 48) else true) = _
      rw [if_neg (by decide), if_pos rfl, hrun, Bool.eq_iff_iff, decide_eq_true_eq, hzero,
        value_eq_zero hd]
  | one => rfl
  | whole hk => rfl

theorem qValue_plain {t : List UInt8} {n : Nat} (h : QValue t n) :
    ∀ c ∈ t, c ≠ comma ∧ c ||| 0x20 ≠ 113 := by
  cases h with
  | zero => decide +kernel
  | fraction hd hlen =>
      simp only [List.forall_mem_cons]
      exact ⟨by decide, by decide, fun c hc => (digit_plain c (hd c hc).1 (hd c hc).2).2⟩
  | one => decide +kernel
  | whole hk =>
      simp only [List.forall_mem_cons]
      refine ⟨by decide, by decide, fun c hc => ?_⟩
      rw [List.eq_of_mem_replicate hc]
      decide

/-- Bytes that are neither a comma nor a `q` change nothing. -/
theorem weight_run {w : List UInt8} (hw : ∀ c ∈ w, c ≠ comma ∧ c ||| 0x20 ≠ 113) (z : Bool)
    (r : List UInt8) : weight z (w ++ r) = weight z r := by
  induction w with
  | nil => rfl
  | cons c w ih =>
      obtain ⟨hc, hq⟩ := hw c List.mem_cons_self
      rw [List.cons_append, weight, if_neg hc, if_neg fun h => hq h.1,
        ih fun d hd => hw d (List.mem_cons_of_mem _ hd)]

theorem weight_end {t : List UInt8} (h : t = [] ∨ ∃ v, t = comma :: v) (z : Bool) :
    weight z t = (z, t) := by
  rcases h with rfl | ⟨v, rfl⟩
  · rfl
  · exact if_pos rfl

theorem weight_eq {w b t : List UInt8} {n : Nat} (h : Weight w n) (hb : ∀ c ∈ b, isOws c = true)
    (ht : t = [] ∨ ∃ v, t = comma :: v) :
    weight false (w ++ (b ++ t)) = (decide (n = 0), t) := by
  have hblank : ∀ c ∈ b, c ≠ comma ∧ c ||| 0x20 ≠ 113 := fun c hc =>
    ⟨(ows_plain c (hb c hc)).2.1, (ows_plain c (hb c hc)).2.2.1⟩
  cases h with
  | absent =>
      rw [List.nil_append, weight_run hblank, weight_end ht]
      rfl
  | @given a b' tq q n ha hb' hq htq =>
      have hfront : ∀ c ∈ a ++ semicolon :: b', c ≠ comma ∧ c ||| 0x20 ≠ 113 := by
        simp only [List.forall_mem_append, List.forall_mem_cons]
        exact ⟨fun c hc => ⟨(ows_plain c (ha c hc)).2.1, (ows_plain c (ha c hc)).2.2.1⟩, by decide,
          fun c hc => ⟨(ows_plain c (hb' c hc)).2.1, (ows_plain c (hb' c hc)).2.2.1⟩⟩
      have hback : ∀ c ∈ equal :: tq ++ b, c ≠ comma ∧ c ||| 0x20 ≠ 113 := by
        simp only [List.cons_append, List.forall_mem_cons, List.forall_mem_append]
        exact ⟨by decide, qValue_plain htq, hblank⟩
      have hq' : q ≠ comma ∧ q ||| 0x20 = 113 := by
        rcases hq with rfl | rfl <;> decide
      have hhead : ∀ c ∈ (b ++ t).head?, isDigit c = false ∧ c ≠ dot := by
        cases b with
        | nil =>
            rcases ht with rfl | ⟨v, rfl⟩
            · exact nofun
            · intro c hc
              cases hc
              decide
        | cons d b =>
            intro c hc
            cases hc
            exact (ows_plain d (hb d List.mem_cons_self)).2.2.2
      have hassoc : a ++ semicolon :: (b' ++ q :: equal :: tq) ++ (b ++ t) =
          (a ++ semicolon :: b') ++ q :: equal :: (tq ++ (b ++ t)) := by simp
      have hrest : equal :: (tq ++ (b ++ t)) = equal :: tq ++ b ++ t := by simp
      rw [hassoc, weight_run hfront, weight, if_neg hq'.1, if_pos ⟨hq'.2, rfl⟩, List.drop_one,
        List.tail_cons, qValueIsZero_eq htq hhead, hrest, weight_run hback, weight_end ht]

/-! ### The scanner -/

theorem isCoding_start (e : List UInt8) (x : Weighted) (h : IsCoding e x) :
    ∃ c t, e = c :: t ∧ isOws c = false ∧ c ≠ comma := by
  cases h with
  | @mk name w n hne hname hw =>
      cases name with
      | nil => exact absurd rfl hne
      | cons c name => exact ⟨c, _, rfl, (tchar_plain c (hname c List.mem_cons_self)).2⟩

/-- A name ends at a blank. -/
theorem notAt_blank {b r : List UInt8} (hb : ∀ c ∈ b, isOws c = true)
    (hr : NotAt (!nameEnd ·) r) : NotAt (!nameEnd ·) (b ++ r) := by
  cases b with
  | nil => exact hr
  | cons c b =>
      rw [List.cons_append, notAt_cons, (ows_plain c (hb c List.mem_cons_self)).1]
      rfl

/-- **A pass of the scanner** deals with one coding. -/
theorem acceptsStep_looks {token : List UInt8} (htoken : CodingName token) {v : List UInt8}
    {xs : List Weighted} (h : AcceptEncoding v xs) :
    Looks (acceptsStep token) List.length AcceptEncoding (·.accepts token) v xs := by
  by_cases hv : v = []
  · subst hv
    rcases h.skip isCoding_start with ⟨-, rfl⟩ | ⟨e, x, r, ys, hu, he, -, -⟩
    · exact .done rfl
    · obtain ⟨c, t, rfl, -, -⟩ := isCoding_start e x he
      cases hu
  have hstep : acceptsStep token v = _ := if_neg hv
  dsimp only at hstep
  have hle := length_dropWhile_le (p := fun c => isOws c || c == comma) v
  rcases h.skip isCoding_start with ⟨hnil, rfl⟩ | ⟨e, x, r, ys, hu, he, rfl, hr⟩
  · rw [hnil] at hstep
    refine .pass (hstep.trans (if_neg fun h => ?_)) listing_nil (List.length_pos_iff.mpr hv)
    exact htoken.1 (List.eq_nil_of_length_eq_zero h.1.symm)
  · rw [hu] at hstep hle
    obtain ⟨b, t, rfl, hb, ht, hend⟩ := hr.split
    have hend : t = [] ∨ ∃ v, t = comma :: v := hend.imp_right fun ⟨v, hv, _⟩ => ⟨v, hv⟩
    cases he with
    | @mk name w n hne hname hw =>
        have hrun : ∀ c ∈ name, (!nameEnd c) = true := fun c hc => by
          rw [(tchar_plain c (hname c hc)).1]
          rfl
        have hstop : NotAt (!nameEnd ·) (w ++ (b ++ t)) := by
          cases hw with
          | absent =>
              rw [List.nil_append]
              refine notAt_blank hb ?_
              rcases hend with rfl | ⟨v, rfl⟩
              · exact notAt_nil
              · exact notAt_cons.mpr rfl
          | given ha hb' hq ht =>
              rw [List.append_assoc]
              exact notAt_blank ha (notAt_cons.mpr rfl)
        rw [List.append_assoc, takeWhile_run hrun hstop, dropWhile_run hrun hstop,
          weight_eq hw hb hend] at hstep
        have hlt : t.length < v.length := by
          simp only [List.length_append] at hle
          have := List.length_pos_iff.mpr hne
          omega
        have hcond : (name.length = token.length ∧ ciEquals name token = true ∧
            decide (n = 0) = false) ↔ Weighted.accepts ⟨name, n⟩ token = true := by
          rw [ciEquals_iff hname htoken.2, Weighted.accepts, Bool.and_eq_true, decide_eq_true_eq,
            bne_iff_ne, decide_eq_false_iff_not]
          refine ⟨And.right, fun h => ⟨?_, h⟩⟩
          rw [← h.1, List.length_map]
        refine .look ?_ ht hlt
        rw [hstep]
        exact if_congr hcond rfl rfl

/-- The scanner answers whether a coding of the list is the token and is not refused. -/
theorem sliceAcceptsToken_eq {v token : List UInt8} {xs : List Weighted}
    (htoken : CodingName token) (h : AcceptEncoding v xs) :
    sliceAcceptsToken v token = xs.any (·.accepts token) :=
  loop_search (fun _ _ => acceptsStep_looks htoken) h false

/-! ### The variant -/

/-- What a request's `Accept-Encoding` says; nothing, where it has none. -/
def Asks (req : HttpRequest) (xs : List Weighted) : Prop :=
  match getHeaderValueSlice req (ascii "Accept-Encoding") with
  | some ae => AcceptEncoding (ae.view req.buffer) xs
  | none => xs = []

/-- The encodings of a preference order that a request accepts. -/
def acceptedOf (xs : List Weighted) (order : List Encoding) : List Encoding :=
  order.filter fun e => xs.any (·.accepts (encToken e))

theorem chooseEncoded_eq {V : Type} (a : Asset V) {v : List UInt8} {xs : List Weighted}
    (h : AcceptEncoding v xs) (order : List Encoding) :
    chooseEncoded a v order = ((acceptedOf xs order).findSome? a.encoded).getD a.identity := by
  induction order with
  | nil => rfl
  | cons e order ih =>
      have hcons : acceptedOf xs (e :: order) = if xs.any (·.accepts (encToken e)) = true then
          e :: acceptedOf xs order else acceptedOf xs order := List.filter_cons
      rw [chooseEncoded, hcons, sliceAcceptsToken_eq (encToken_name e) h, ih]
      cases xs.any (·.accepts (encToken e)) with
      | false => cases a.encoded e <;> rfl
      | true =>
          rw [if_pos rfl, List.findSome?_cons]
          cases a.encoded e <;> rfl

/-- **Content negotiation is exact**: a token is accepted exactly when some element of the value
names it, whatever the case, with a weight other than zero; and the variant chosen is the first of
the preference order that is accepted and present, and else the identity. -/
theorem negotiation_exact {V : Type} :
    (∀ token v xs, CodingName token → AcceptEncoding v xs →
      (sliceAcceptsToken v token = true ↔
        ∃ x ∈ xs, x.name.map lower = token ∧ x.weight ≠ 0)) ∧
    ∀ (precompressed : List Encoding) (a : Asset V) (req : HttpRequest) (xs : List Weighted),
      Asks req xs →
      chooseVariant precompressed a req =
        if a.negotiable then
          ((acceptedOf xs precompressed).findSome? a.encoded).getD a.identity
        else a.identity := by
  refine ⟨fun token v xs htoken h => ?_, fun precompressed a req xs h => ?_⟩
  · rw [sliceAcceptsToken_eq htoken h]
    simp only [List.any_eq_true, Weighted.accepts, Bool.and_eq_true, decide_eq_true_eq, bne_iff_ne]
  · unfold chooseVariant
    unfold Asks at h
    split
    · cases hget : getHeaderValueSlice req (ascii "Accept-Encoding") with
      | some ae =>
          rw [hget] at h
          exact chooseEncoded_eq a h precompressed
      | none =>
          rw [hget] at h
          subst h
          simp [acceptedOf]
    · rfl

/-- `br` is refused, `GZIP` is not: the second of two variants is chosen. -/
theorem negotiation_exact_gzip :
    sliceAcceptsToken (ascii "br;q=0, GZIP") (ascii "gzip") = true ∧
      chooseVariant [.br, .gzip] ⟨true, [], some ∘ encToken⟩
        { buffer := ascii "Accept-Encoding: br;q=0, GZIP\r\n", headerFields := ⟨0, 31⟩ } =
        ascii "gzip" := by
  have hbr : IsCoding (ascii "br;q=0") ⟨ascii "br", 0⟩ :=
    @IsCoding.mk (ascii "br") (ascii ";q=0") 0 (by decide +kernel) (by decide +kernel)
      (@Weight.given [] [] [48] 113 0 (by decide +kernel) (by decide +kernel) (.inl rfl) .zero)
  have hgzip : IsCoding (ascii "GZIP") ⟨ascii "GZIP", 1000⟩ :=
    @IsCoding.mk (ascii "GZIP") [] 1000 (by decide +kernel) (by decide +kernel) .absent
  have hlist : AcceptEncoding (ascii "br;q=0, GZIP") [⟨ascii "br", 0⟩, ⟨ascii "GZIP", 1000⟩] :=
    @Listing.cons _ _ comma isOws IsCoding (ascii "br;q=0") (ascii " GZIP") _ _
      (@Piece.elem _ _ isOws IsCoding [] (ascii "br;q=0") [] _ (by decide +kernel) hbr
        (by decide +kernel))
      (.last (@Piece.elem _ _ isOws IsCoding [sp] (ascii "GZIP") [] _ (by decide +kernel) hgzip
        (by decide +kernel)))
  have hget : getHeaderValueSlice
      { buffer := ascii "Accept-Encoding: br;q=0, GZIP\r\n", headerFields := ⟨0, 31⟩ }
      (ascii "Accept-Encoding") = some ⟨17, 12⟩ := by decide +kernel
  refine ⟨?_, ?_⟩
  · refine ((negotiation_exact (V := Unit)).1 _ _ _ (encToken_name .gzip) hlist).mpr ?_
    exact ⟨_, List.mem_cons_of_mem _ List.mem_cons_self, by decide, by decide⟩
  · refine (negotiation_exact.2 _ _ _ [⟨ascii "br", 0⟩, ⟨ascii "GZIP", 1000⟩] ?_).trans rfl
    unfold Asks
    rw [hget]
    exact hlist

end Vanilla.StaticAssets

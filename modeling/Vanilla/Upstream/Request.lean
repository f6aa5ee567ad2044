import Vanilla.RequestParser.Decode
import Vanilla.Upstream.Definitions

/-!
# Upstream — the request an exchange sends

What `request`, `header` and `send` write is one message of the server's grammar, and the server
reads back from it what it was built from.

* `wi_digits`: `wi` writes the decimal digits of its number.
* `header_sent`, `headers_sent`: an accepted field is one line behind the head.
* `finishHead_bytes`: the finished head, as the lines of a `Head`.
* `request_not_split`: the framer cuts the head and the body off as one message, and the decoder
  finds the method, the target and the lines in it.
-/

namespace Vanilla.Upstream
open Scan RequestParser Vanilla.Chunk Vanilla.Client

/-! ### Numbers -/

theorem decValue_append (acc : Nat) (v w : List UInt8) :
    decValue acc (v ++ w) = decValue (decValue acc v) w := List.foldl_append

theorem digit_toNat (v : Nat) : ((48 + v % 10).toUInt8).toNat = 48 + v % 10 := by
  have : 48 + v % 10 < 256 := by omega
  simpa using this

theorem wiStep_descends : Descends wiStep (fun s => s.1) fun _ => True := by
  rintro ⟨v, d⟩ s' - h
  unfold wiStep at h
  dsimp only at h
  split at h
  · cases h
  · cases h
    exact ⟨trivial, Nat.div_lt_self (by omega) (by decide)⟩

/-- The loop of `wi` writes the digits of `v` in front of those it has. -/
theorem wi_loop (v : Nat) (d : List UInt8) :
    ∃ p, loop wiStep (fun s => s.1) [] (v, d) = p ++ d ∧ (∀ c ∈ p, 48 ≤ c ∧ c ≤ 57) ∧
      decValue 0 p = v ∧ (v ≠ 0 → p ≠ []) := by
  refine loop_rule wiStep_descends
    (P := fun s a => ∃ p, a = p ++ s.2 ∧ (∀ c ∈ p, 48 ≤ c ∧ c ≤ 57) ∧ decValue 0 p = s.1 ∧
      (s.1 ≠ 0 → p ≠ []))
    (fun ⟨v, d⟩ a _ h => ?_) (fun ⟨v, d⟩ s' a _ h => ?_) trivial
  · unfold wiStep at h
    dsimp only at h
    split at h <;> cases h
    rename_i hv
    exact ⟨[], rfl, by simp, by simp [decValue, hv], fun h => absurd hv h⟩
  · unfold wiStep at h
    dsimp only at h
    split at h <;> cases h
    rintro ⟨p, rfl, hp, hval, -⟩
    refine ⟨p ++ [(48 + v % 10).toUInt8], by simp, fun c hc => ?_, ?_, fun _ => by simp⟩
    · rcases List.mem_append.mp hc with hc | hc
      · exact hp c hc
      · obtain rfl := List.mem_singleton.mp hc
        rw [UInt8.le_iff_toNat_le, UInt8.le_iff_toNat_le, digit_toNat]
        exact ⟨Nat.le_add_right 48 _, by show 48 + v % 10 ≤ 57; omega⟩
    · rw [decValue_append, hval]
      simp only [decValue, List.foldl_cons, List.foldl_nil, digit_toNat]
      omega

/-- **`wi` writes the decimal digits of its number.** -/
theorem wi_digits (n : Nat) : Digits (wi n) ∧ decValue 0 (wi n) = n := by
  unfold wi
  split
  · rename_i h
    subst h
    exact ⟨⟨by simp, by decide +kernel⟩, rfl⟩
  · rename_i h
    obtain ⟨p, e, hp, hval, hne⟩ := wi_loop n []
    rw [e, List.append_nil]
    exact ⟨⟨hne h, hp⟩, hval⟩

theorem digit_sep : ∀ c : UInt8, 48 ≤ c ∧ c ≤ 57 → isOws c = false ∧ isCtl c = false :=
  forall_byte (by decide +kernel)

theorem trimmed_of_digits {v : List UInt8} (h : Digits v) : Trimmed isOws v :=
  ⟨fun c hc => (digit_sep c (h.2 c (List.mem_of_mem_head? hc))).1,
    fun c hc => (digit_sep c (h.2 c (List.mem_reverse.mp (List.mem_of_mem_head? hc)))).1⟩

/-! ### Lines -/

/-- The line `name: value`. -/
def lineOf (f : List UInt8 × List UInt8) : List UInt8 := f.1 ++ (ascii ": " ++ f.2)

/-- What `header` accepts. -/
structure Accepted (f : List UInt8 × List UInt8) : Prop where
  name : Token f.1
  value : ∀ c ∈ f.2, isCtl c = false
  host : ¬ CiEq f.1 (ascii "Host")
  length : ¬ CiEq f.1 clName
  coding : ¬ CiEq f.1 teName

theorem validToken_iff {s : List UInt8} : validToken s = true ↔ Token s := by
  simp only [validToken, Token, Bool.and_eq_true, Bool.not_eq_true', List.isEmpty_eq_false_iff,
    List.all_eq_true, chunkTchar_eq]

theorem eqCi_iff {s name : List UInt8} : eqCi s (name.map lower) = true ↔ CiEq s name := by
  simp only [eqCi, CiEq, beq_iff_eq]

/-- A line `name: value` with a token for a name and no control byte in its value. -/
theorem lineOf_field {n v : List UInt8} (hn : Token n) (hv : ∀ c ∈ v, isCtl c = false) :
    TrailerLine (lineOf (n, v)) := by
  refine ⟨n, sp :: v, rfl, hn, fun c hc => ?_⟩
  rcases List.mem_cons.mp hc with rfl | hc
  · decide
  · exact hv c hc

theorem named_lineOf {name n v : List UInt8} (hn : Token n) (hname : Token name) :
    Named name (lineOf (n, v)) ↔ CiEq n name := named_token hn hname

/-- Its name has no whitespace behind it. -/
theorem not_spaced_field {name l : List UInt8} (h : TrailerLine l) (hname : Token name) :
    ¬ Spaced name l := by
  obtain ⟨n, v, rfl, hn, -⟩ := h
  exact not_spaced_token hn hname

theorem clName_token : Token clName := ⟨by decide, by decide +kernel⟩

theorem teName_token : Token teName := ⟨by decide, by decide +kernel⟩

/-- A Content-Length line as `send` writes it. -/
theorem length_field {ds : List UInt8} (hd : Digits ds) :
    Field clName (lineOf (clName, ds)) ds := by
  refine ⟨clName, [sp], [], ?_, rfl, ?_, ?_, trimmed_of_digits hd⟩
  · rw [List.append_nil]
    rfl
  · exact fun c hc => by rw [List.mem_singleton.mp hc]; rfl
  · exact fun c hc => absurd hc (by simp)

/-- **The Host line.**  A host that is accepted brings no control byte into it. -/
theorem hostHdr_line {o : Origin} (ho : validHost o.host = true) :
    ∃ v, hostHdr o = lineOf (ascii "Host", v) ++ crlf ∧ ∀ c ∈ v, isCtl c = false := by
  have hsep : ∀ c, hostRefused c = false → isCtl c = false := forall_byte (by decide +kernel)
  have hhost : ∀ c ∈ o.host, isCtl c = false := by
    simp only [validHost, Bool.and_eq_true, List.all_eq_true, Bool.not_eq_true'] at ho
    exact fun c hc => hsep c (ho.2 c hc)
  have hport : ∀ c ∈ colon :: wi o.port, isCtl c = false := fun c hc => by
    rcases List.mem_cons.mp hc with rfl | hc
    · decide
    · exact (digit_sep c ((wi_digits o.port).1.2 c hc)).2
  refine ⟨(if o.host.contains colon then [91] else []) ++
    (if o.host.contains colon then o.host.takeWhile (· != 37) else o.host) ++
    (if o.host.contains colon then [93] else []) ++
    (if o.port ≠ (if o.https then 443 else 80) then colon :: wi o.port else []), ?_, ?_⟩
  · simp only [hostHdr, lineOf, List.append_assoc]
    rfl
  · intro c hc
    simp only [List.mem_append] at hc
    rcases hc with ((hc | hc) | hc) | hc
    · rw [List.mem_singleton.mp (List.mem_ite_nil_right.mp hc).2]
      decide
    · split at hc
      · exact hhost c ((List.takeWhile_sublist _).subset hc)
      · exact hhost c hc
    · rw [List.mem_singleton.mp (List.mem_ite_nil_right.mp hc).2]
      decide
    · exact hport c (List.mem_ite_nil_right.mp hc).2

/-! ### The calls -/

theorem request_sent {x y : Exchange} {method target : List UInt8}
    (h : x.request method target = (true, y)) :
    Token method ∧ (target ≠ [] ∧ ∀ c ∈ target, 0x20 < c ∧ c < 0x7f) ∧
      y.head = method ++ sp :: (target ++ (ascii " HTTP/1.1\r\n" ++ x.pool.hostHdr)) := by
  unfold Exchange.request at h
  dsimp only at h
  split at h
  · cases h
  · rename_i hok
    cases h
    simp only [Bool.or_eq_true, Bool.not_eq_true', not_or, Bool.not_eq_false, validToken_iff,
      validTarget, Bool.and_eq_true, List.isEmpty_eq_false_iff, List.all_eq_true,
      decide_eq_true_eq] at hok
    exact ⟨hok.1, hok.2, rfl⟩

/-- **An accepted field is one line more.** -/
theorem header_sent {x y : Exchange} {name value : List UInt8}
    (h : x.header name value = (true, y)) :
    Accepted (name, value) ∧ y.head = x.head ++ (lineOf (name, value) ++ crlf) := by
  unfold Exchange.header at h
  split at h
  · cases h
  · rename_i hok
    obtain rfl := (Prod.mk.inj h).2
    have e₁ : ascii "host" = (ascii "Host").map lower := by decide
    have e₂ : ascii "content-length" = clName.map lower := by decide
    have e₃ : ascii "transfer-encoding" = teName.map lower := by decide
    simp only [Bool.or_eq_true, Bool.not_eq_true', not_or, Bool.not_eq_false, validToken_iff,
      e₁, e₂, e₃, eqCi_iff, validFieldValue, List.all_eq_true] at hok
    obtain ⟨⟨⟨⟨⟨-, hname⟩, hvalue⟩, hhost⟩, hlen⟩, hte⟩ := hok
    refine ⟨⟨hname, hvalue, hhost, hlen, hte⟩, ?_⟩
    dsimp only
    split <;> simp only [lineOf, List.append_assoc]

/-- **All fields were accepted: a line for each, in call order.** -/
theorem headers_sent {x y : Exchange} {fs : List (List UInt8 × List UInt8)}
    (h : x.headers fs = some y) :
    (∀ f ∈ fs, Accepted f) ∧ y.head = x.head ++ unlines cr lf (fs.map lineOf) := by
  induction fs generalizing x with
  | nil =>
      cases h
      exact ⟨by simp, by simp⟩
  | cons f fs ih =>
      simp only [Exchange.headers, List.foldlM_cons, Option.bind_eq_bind,
        Option.bind_eq_some_iff] at h
      obtain ⟨x', hx, hrest⟩ := h
      split at hx
      · rename_i x'' e
        cases hx
        obtain ⟨hf, hhead⟩ := header_sent e
        obtain ⟨hfs, hy⟩ := ih hrest
        refine ⟨List.forall_mem_cons.mpr ⟨hf, hfs⟩, ?_⟩
        rw [hy, hhead]
        simp [crlf]
      · cases hx

/-- The Content-Length line `send` adds, if it adds one. -/
def lengthLine (x : Exchange) : List (List UInt8) :=
  if 0 < x.body.length ∨ x.head.head? = some 80 then [lineOf (clName, wi x.body.length)] else []

theorem finishHead_eq (x : Exchange) :
    x.finishHead.head = x.head ++ (unlines cr lf (lengthLine x) ++ crlf) := by
  have e : ascii "Content-Length: " = clName ++ ascii ": " := by decide
  unfold Exchange.finishHead lengthLine
  dsimp only
  split
  · simp [lineOf, e, crlf]
  · rfl

/-! ### The message -/

section Message

variable {method target v body : List UInt8} {fs : List (List UInt8 × List UInt8)}
  {cl : List (List UInt8)}

/-- At most one Content-Length line, for a body of `n` bytes, and one where there is a body. -/
def LengthLine (n : Nat) (cl : List (List UInt8)) : Prop :=
  (cl = [] ∧ n = 0) ∨ ∃ ds, cl = [lineOf (clName, ds)] ∧ Digits ds ∧ decValue 0 ds = n

/-- The head an exchange sends: `v` is what stands behind `Host: `. -/
def sentHead (method target v : List UInt8) (fs : List (List UInt8 × List UInt8))
    (cl : List (List UInt8)) : Head :=
  ⟨method ++ sp :: (target ++ sp :: ascii "HTTP/1.1"),
    lineOf (ascii "Host", v) :: (fs.map lineOf ++ cl)⟩

theorem lengthLine_ok (x : Exchange) : LengthLine x.body.length (lengthLine x) := by
  unfold lengthLine
  split
  · exact .inr ⟨_, rfl, wi_digits _⟩
  · rename_i h
    exact .inl ⟨rfl, by omega⟩

theorem length_line_ctl {ds : List UInt8} (hd : Digits ds) : ∀ c ∈ ds, isCtl c = false :=
  fun c hc => (digit_sep c (hd.2 c hc)).2

/-- Every line of it is a field line. -/
theorem sent_fields (hv : ∀ c ∈ v, isCtl c = false) (hfs : ∀ f ∈ fs, Accepted f)
    (hcl : LengthLine body.length cl) :
    ∀ l ∈ (sentHead method target v fs cl).fields, TrailerLine l := by
  intro l hl
  simp only [sentHead, List.mem_cons, List.mem_append, List.mem_map] at hl
  rcases hl with rfl | ⟨f, hf, rfl⟩ | hl
  · exact lineOf_field ⟨by decide, by decide +kernel⟩ hv
  · exact lineOf_field (hfs f hf).name (hfs f hf).value
  · rcases hcl with ⟨rfl, -⟩ | ⟨ds, rfl, hd, -⟩
    · cases hl
    · obtain rfl := List.mem_singleton.mp hl
      exact lineOf_field clName_token (length_line_ctl hd)

/-- The lines before the Content-Length line are no field `name` that `header` refuses. -/
theorem sent_values {name : List UInt8} (hname : Token name) (hhost : ¬ CiEq (ascii "Host") name)
    (hfs : ∀ f ∈ fs, Token f.1 ∧ ¬ CiEq f.1 name) {vs : List (List UInt8)}
    (hcl : Values name cl vs) : Values name (sentHead method target v fs cl).fields vs := by
  have hother : Values name (fs.map lineOf) [] := Values.none fun l hl => by
    obtain ⟨f, hf, rfl⟩ := List.mem_map.mp hl
    rw [named_lineOf (hfs f hf).1 hname]
    exact (hfs f hf).2
  refine .other ?_ (hother.append hcl)
  rwa [named_lineOf ⟨by decide, by decide +kernel⟩ hname]

/-- **What an exchange sends is a message.** -/
theorem sent_message (hm : Token method) (ht : ∀ c ∈ target, 0x20 < c ∧ c < 0x7f)
    (hv : ∀ c ∈ v, isCtl c = false) (hfs : ∀ f ∈ fs, Accepted f)
    (hcl : LengthLine body.length cl) (hbody : body.length ≤ maxDeclared) :
    Message ((sentHead method target v fs cl).bytes ++ body) := by
  have hline : lf ∉ (sentHead method target v fs cl).requestLine := by
    intro h
    simp only [sentHead, List.mem_append, List.mem_cons] at h
    rcases h with h | h | h | h | h
    · exact absurd rfl (isTchar_sep lf (hm.2 lf h)).2.2.2.2.2.2.2.2
    · revert h; decide
    · revert h; exact fun h => absurd (ht lf h).1 (by decide)
    · revert h; decide
    · revert h; decide
  have hfields : ∀ l ∈ (sentHead method target v fs cl).fields, TrailerLine l :=
    sent_fields hv hfs hcl
  have hte : Values teName (sentHead method target v fs cl).fields [] := by
    refine sent_values teName_token (by decide) (fun f hf => ⟨(hfs f hf).name, (hfs f hf).coding⟩)
      (Values.none fun l hl => ?_)
    rcases hcl with ⟨rfl, -⟩ | ⟨ds, rfl, -⟩
    · cases hl
    · rw [List.mem_singleton.mp hl, named_lineOf clName_token teName_token]
      decide
  have hcl' : ∀ {vs}, Values clName cl vs →
      Values clName (sentHead method target v fs cl).fields vs :=
    sent_values clName_token (by decide) fun f hf => ⟨(hfs f hf).name, (hfs f hf).length⟩
  have hok : ∀ {vs}, Values clName cl vs → (∀ w ∈ vs, Digits w ∧ decValue 0 w = body.length) →
      (sentHead method target v fs cl).Ok Spaced vs [] := fun hvs hval => {
    lines := ⟨hline, fun l hl => (hfields l hl).isLine⟩
    good := fun l hl => ⟨not_spaced_field (hfields l hl) clName_token,
      not_spaced_field (hfields l hl) teName_token⟩
    cl := hcl' hvs
    te := hte
    digits := fun w hw => ⟨(hval w hw).1, (hval w hw).2 ▸ hbody⟩
    same := fun w hw w' hw' => (hval w hw).2.trans (hval w' hw').2.symm
    coded := fun w hw => absurd hw (by simp)
    final := fun h => absurd rfl h
    alone := fun h => absurd rfl h }
  rcases hcl with ⟨rfl, h0⟩ | ⟨ds, rfl, hd, hn⟩
  · obtain rfl := List.eq_nil_of_length_eq_zero h0
    exact ⟨_, [], [], [], rfl, hok .nil (by simp), .none rfl rfl⟩
  · exact ⟨_, [ds], [], body, rfl, hok (.named (length_field hd) .nil) (by simp [hd, hn]),
      .length (by simp) rfl hn.symm⟩

end Message

/-- **No request of an exchange is split.**  The head that `request`, `header` and `send` built
and the body behind it are one message for the server's framer; the decoder finds the method and
the target in it, and for header section the Host line, the fields in call order, and at most one
Content-Length line, which is the length of the body and is there for every body. -/
theorem request_not_split (o : Origin) (ho : validHost o.host = true) (x x₁ x₂ : Exchange)
    (hpool : x.pool.hostHdr = hostHdr o) (method target : List UInt8)
    (hreq : x.request method target = (true, x₁)) (fs : List (List UInt8 × List UInt8))
    (hfs : x₁.headers fs = some x₂) (body : List UInt8) (hbody : body.length ≤ 2 ^ 30)
    (b : List UInt8) (hb : b = ({ x₂ with body := body } : Exchange).finishHead.head ++ body) :
    frameRequestLengthLimIdx b 0 0 = b.length ∧
      ∃ (req : HttpRequest) (host : List UInt8) (cl : List (List UInt8)),
        decodeInto { buffer := b } = (true, req) ∧
        req.method.view b = method ∧ req.path.view b = target ∧
        req.headerFields.view b ++ crlf = unlines cr lf (host :: (fs.map lineOf ++ cl)) ∧
        (∀ l ∈ host :: (fs.map lineOf ++ cl), IsLine lf l) ∧
        host ++ crlf = hostHdr o ∧ LengthLine body.length cl := by
  obtain ⟨hm, ⟨htne, ht⟩, hhead⟩ := request_sent hreq
  obtain ⟨hacc, hfields⟩ := headers_sent hfs
  obtain ⟨v, hhost, hv⟩ := hostHdr_line ho
  have hcl := lengthLine_ok { x₂ with body := body }
  set cl := lengthLine { x₂ with body := body } with hcldef
  have hbytes : b = (sentHead method target v fs cl).bytes ++ body := by
    rw [hb, finishHead_eq, ← hcldef]
    simp only [hfields, hhead, hpool, hhost]
    simp only [sentHead, Head.bytes, unlines_cons, unlines_append, List.append_assoc,
      List.cons_append]
    rfl
  have hlines : ∀ l ∈ (sentHead method target v fs cl).fields, IsLine lf l := fun l hl =>
    (sent_fields hv hacc hcl l hl).isLine
  refine ⟨?_, ?_⟩
  · rw [frameIdx_nat, frameRequest_iff, List.take_length, hbytes]
    exact ⟨Nat.le_refl _, sent_message hm ht hv hacc hcl hbody⟩
  · have hparts : b = method ++ sp :: (target ++ sp :: (ascii "HTTP/1.1" ++ cr :: lf ::
        (unlines cr lf (sentHead method target v fs cl).fields ++ cr :: lf :: body))) := by
      rw [hbytes]
      simp [sentHead, Head.bytes, crlf]
    have hsp : sp ∉ method := fun h => by
      have := (isTchar_sep sp (hm.2 sp h)).1
      revert this; decide
    have ht' : target ≠ [] ∧ sp ∉ target ∧ cr ∉ target :=
      ⟨htne, fun h => absurd (ht sp h).1 (by decide), fun h => absurd (ht cr h).1 (by decide)⟩
    have hlen : 12 ≤ b.length := by
      rw [hparts]
      simp only [List.length_append, List.length_cons, show (ascii "HTTP/1.1").length = 8 from rfl]
      omega
    obtain ⟨req, hdec, hmethod, hpath, hsection⟩ := @decodeInto_parts _ _ _ _
      { buffer := b } _ _ ⟨hm.1, hsp⟩ ht' (by decide) hlines hparts hlen
    exact ⟨req, _, cl, hdec, hmethod, hpath, hsection, hlines, hhost.symm, hcl⟩

/-- A request with a field and a body of two bytes. -/
theorem request_not_split_post :
    ∃ (b : List UInt8) (req : HttpRequest),
      b = ascii "POST /a HTTP/1.1\r\nHost: h\r\nX: y\r\nContent-Length: 2\r\n\r\nhi" ∧
      frameRequestLengthLimIdx b 0 0 = b.length ∧
      decodeInto { buffer := b } = (true, req) ∧ req.path.view b = ascii "/a" := by
  obtain ⟨hframe, req, -, -, hdec, -, hpath, -⟩ := request_not_split
    { host := ascii "h" } (by decide) { pool := ⟨ascii "Host: h\r\n"⟩ } _ _ (by decide +kernel)
    (ascii "POST") (ascii "/a") rfl [(ascii "X", ascii "y")] rfl (ascii "hi") (by decide)
    (ascii "POST /a HTTP/1.1\r\nHost: h\r\nX: y\r\nContent-Length: 2\r\n\r\nhi")
    (by decide +kernel)
  exact ⟨_, req, rfl, hframe, hdec, hpath⟩

end Vanilla.Upstream

import Vanilla.RequestParser.Decode

/-!
# Router — the request line read a second time

`http1_1/router/router.v`: `method` looks for the first space where a registered method would end,
`path` runs over the request line up to the target, and `next` pops one segment after the other off
it.  Neither has the parser's answer at hand; both scan the raw bytes.

A cursor `Path` is the bytes from `base` on, of which `len` belong to the path.  `Path.left` are
the segments it has not popped: `next_left` says that `next` pops their head, `pops_left` says so
of any number of pops.

* `reads_request_line`: on a request that the framer accepts and the decoder takes, with a
  registered method, the router sees the decoder's method and the segments of the decoder's path.
-/

namespace Vanilla.Router
open Scan Vanilla.RequestParser

/-! ### The functions -/

/-- A slash. -/
def slash : UInt8 := 47
/-- A question mark. -/
def question : UInt8 := 63

/-- `Method`. -/
inductive Method where
  | get | head | post | put | delete | connect | options | trace | patch | unknown
  deriving DecidableEq

/-- The token of a registered method. -/
def Method.token : Method → List UInt8
  | .get => ascii "GET"
  | .head => ascii "HEAD"
  | .post => ascii "POST"
  | .put => ascii "PUT"
  | .delete => ascii "DELETE"
  | .connect => ascii "CONNECT"
  | .options => ascii "OPTIONS"
  | .trace => ascii "TRACE"
  | .patch => ascii "PATCH"
  | .unknown => []

/-- `method`. -/
def method (reqBuffer : List UInt8) : Method :=
  if reqBuffer[3]? = some sp then
    if reqBuffer.take 3 = ascii "GET" then .get
    else if reqBuffer.take 3 = ascii "PUT" then .put
    else .unknown
  else if reqBuffer[4]? = some sp then
    if reqBuffer.take 4 = ascii "POST" then .post
    else if reqBuffer.take 4 = ascii "HEAD" then .head
    else .unknown
  else if reqBuffer[5]? = some sp then
    if reqBuffer.take 5 = ascii "PATCH" then .patch
    else if reqBuffer.take 5 = ascii "TRACE" then .trace
    else .unknown
  else if reqBuffer[6]? = some sp then
    if reqBuffer.take 6 = ascii "DELETE" then .delete
    else .unknown
  else if reqBuffer[7]? = some sp then
    if reqBuffer.take 7 = ascii "OPTIONS" then .options
    else if reqBuffer.take 7 = ascii "CONNECT" then .connect
    else .unknown
  else .unknown

/-- `no_path`. -/
def noPath : List UInt8 := [sp]

/-- `Path`: `base` are the bytes the pointer has behind it. -/
structure Path where
  base : List UInt8
  len : Nat
  pos : Nat
  fits : len ≤ base.length

/-- The cursor of a request with no path to route. -/
def Path.noRoute : Path := ⟨noPath, 1, 0, by decide⟩

/-- The first loop of `path`: what there is from the first space on, unless a line break comes
first. -/
def toSpace : List UInt8 → Option (List UInt8)
  | [] => some []
  | c :: b =>
    if c = sp then some (c :: b)
    else if c = cr ∨ c = lf then none
    else toSpace b

/-- The bytes its last loop passes over. -/
def targetByte (c : UInt8) : Bool := !(c == sp || c == question || c == cr || c == lf)

theorem target_le (c : UInt8) (t : List UInt8) :
    1 + (t.takeWhile targetByte).length ≤ (c :: t).length := by
  have := (List.takeWhile_prefix targetByte (l := t)).length_le
  simp only [List.length_cons]
  omega

/-- `path`. -/
def path (reqBuffer : List UInt8) : Path :=
  match toSpace reqBuffer with
  | none => .noRoute
  | some b =>
    match b.dropWhile (· == sp) with
    | [] => .noRoute
    | c :: t =>
      if c ≠ slash then .noRoute
      else ⟨c :: t, 1 + (t.takeWhile targetByte).length, 1, target_le c t⟩

/-- `done`. -/
def Path.done (p : Path) : Bool := decide (p.len < p.pos)

/-- `rest`. -/
def Path.rest (p : Path) : List UInt8 :=
  if p.len < p.pos then [] else (p.base.drop p.pos).take (p.len - p.pos)

/-- `next`: the segment, and the cursor behind it. -/
def Path.next (p : Path) : List UInt8 × Path :=
  if p.len < p.pos then ([], p)
  else
    let stop := match findByteIdx ((p.base.drop p.pos).take (p.len - p.pos)) slash with
      | none => p.len
      | some q => p.pos + q
    ((p.base.drop p.pos).take (stop - p.pos), { p with pos := stop + 1 })

/-- `k` calls of `next`. -/
def Path.pops : Nat → Path → List (List UInt8) × Path
  | 0, p => ([], p)
  | k + 1, p =>
    let (s, p) := p.next
    let (ss, p) := p.pops k
    (s :: ss, p)

/-! ### What a cursor has left -/

/-- The segments not yet popped. -/
def Path.left (p : Path) : List (List UInt8) :=
  if p.done then [] else p.rest.splitOn slash

theorem Path.left_eq_nil {p : Path} : p.left = [] ↔ p.done = true := by
  unfold Path.left
  split
  · simp [*]
  · simp [*, List.splitOn_ne_nil]

/-- `rest` is what is left, with the slashes between. -/
theorem Path.rest_left (p : Path) : p.rest = [slash].intercalate p.left := by
  unfold Path.left
  split
  · rename_i hd
    rw [Path.rest, if_pos (of_decide_eq_true hd)]
    rfl
  · exact (List.intercalate_splitOn slash).symm

theorem Path.next_done {p : Path} (h : p.left = []) : p.next = ([], p) := by
  rw [Path.left_eq_nil] at h
  rw [Path.next, if_pos (of_decide_eq_true h)]

/-- **`next` pops the head of what is left.** -/
theorem Path.next_left {p : Path} {s : List UInt8} {ss : List (List UInt8)}
    (h : p.left = s :: ss) : p.next.1 = s ∧ p.next.2.left = ss := by
  have hd : ¬ p.len < p.pos := by
    intro hlt
    have := Path.left_eq_nil.mpr (decide_eq_true hlt)
    rw [h] at this
    cases this
  rw [Path.left, Path.done, decide_eq_false hd, if_neg Bool.false_ne_true] at h
  have hrest : p.rest = (p.base.drop p.pos).take (p.len - p.pos) := if_neg hd
  rw [Path.next, if_neg hd, ← hrest]
  cases hq : findByteIdx p.rest slash with
  | none =>
      -- no slash: the rest is the last segment
      have hno : slash ∉ p.rest := by simpa [findByteIdx, List.idxOf?_eq_none_iff] using hq
      rw [List.splitOn_eq_singleton hno] at h
      obtain ⟨rfl, rfl⟩ := List.cons.inj h
      exact ⟨hrest.symm, Path.left_eq_nil.mpr (decide_eq_true (Nat.lt_succ_self _))⟩
  | some q =>
      obtain ⟨l, r, hr, rfl, hno⟩ := idxOf?_eq_some hq
      rw [hr, List.splitOn_append_cons_self_of_not_mem hno] at h
      obtain ⟨rfl, rfl⟩ := List.cons.inj h
      have hlen : l.length + 1 + r.length ≤ p.len - p.pos := by
        have e := congrArg List.length (hrest.symm.trans hr)
        simp only [List.length_take, List.length_append, List.length_cons] at e
        omega
      have hbehind : ((p.base.drop p.pos).drop (l.length + 1)).take
          (p.len - p.pos - (l.length + 1)) = r := by
        rw [← List.drop_take, ← hrest, hr, List.append_cons,
          show l.length + 1 = (l ++ [slash]).length by simp, List.drop_left]
      constructor
      · have e : ((p.base.drop p.pos).take (p.len - p.pos)).take l.length = l := by
          rw [← hrest, hr, List.take_left]
        rw [List.take_take, Nat.min_eq_left (by omega)] at e
        simpa only [Nat.add_sub_cancel_left] using e
      · have hnot : ¬ p.len < p.pos + l.length + 1 := by omega
        rw [Path.left, Path.done, decide_eq_false hnot, if_neg Bool.false_ne_true, Path.rest,
          if_neg hnot, ← hbehind, List.drop_drop]
        simp only [Nat.add_assoc, Nat.sub_sub]

/-- `k` pops take `k` segments, and nothing more once the path is spent. -/
theorem Path.pops_left (k : Nat) (p : Path) :
    (p.pops k).1 = p.left.take k ++ List.replicate (k - p.left.length) [] ∧
      (p.pops k).2.left = p.left.drop k := by
  induction k generalizing p with
  | zero => simp [Path.pops]
  | succ k ih =>
      cases hl : p.left with
      | nil =>
          have := ih p
          simp only [Path.pops, Path.next_done hl, hl] at this ⊢
          simpa [List.replicate_succ] using this
      | cons s ss =>
          obtain ⟨h₁, h₂⟩ := Path.next_left hl
          have := ih p.next.2
          rw [h₂] at this
          simpa [Path.pops, h₁] using this

/-- Popping the cursor yields the segments `ss`: after `k` pops the first `k` of them are out, the
cursor is done exactly when all of them are, and `rest` is what lies behind. -/
structure Yields (p : Path) (ss : List (List UInt8)) : Prop where
  popped : ∀ k, (p.pops k).1 = ss.take k ++ List.replicate (k - ss.length) []
  done : ∀ k, (p.pops k).2.done = true ↔ ss.length ≤ k
  rest : ∀ k, (p.pops k).2.rest = [slash].intercalate (ss.drop k)

theorem Path.yields_left (p : Path) : Yields p p.left where
  popped k := (p.pops_left k).1
  done k := by rw [← Path.left_eq_nil, (p.pops_left k).2, List.drop_eq_nil_iff]
  rest k := by rw [Path.rest_left, (p.pops_left k).2]

theorem Path.noRoute_left : Path.noRoute.left = [noPath] := by decide

/-! ### The decoder's method and path -/

/-- The target ends at the space or the CR, whichever comes first. -/
theorem requestLineVersion_parts (req : HttpRequest) (pos spPos crPos : Nat) :
    (requestLineVersion req pos spPos crPos).2.method = req.method ∧
      (requestLineVersion req pos spPos crPos).2.path = ⟨pos, (min spPos crPos : Nat)⟩ := by
  have hlen : ((if spPos < crPos then pos + spPos else pos + crPos : Nat) : Int) - (pos : Nat) =
      (min spPos crPos : Nat) := by
    split <;> omega
  unfold requestLineVersion
  simp only [hlen]
  repeat' split
  all_goals exact ⟨rfl, rfl⟩

/-- The bytes of a decoded path. -/
def wireByte (c : UInt8) : Bool := !(c == sp || c == cr)

theorem takeWhile_wire {b : List UInt8} {i j : Nat} (hsp : findByteIdx b sp = some i)
    (hcr : findByteIdx b cr = some j) : b.takeWhile wireByte = b.take (min i j) := by
  induction b generalizing i j with
  | nil => simp
  | cons c b ih =>
      rw [findByteIdx, List.idxOf?_cons] at hsp hcr
      by_cases hc : c = sp
      · obtain rfl : 0 = i := by simpa [hc] using hsp
        simp [hc, wireByte]
      · by_cases hc' : c = cr
        · obtain rfl : 0 = j := by simpa [hc'] using hcr
          simp [hc', wireByte]
        · rw [if_neg (by simpa using hc)] at hsp
          rw [if_neg (by simpa using hc')] at hcr
          obtain ⟨i, hi, rfl⟩ := Option.map_eq_some_iff.mp hsp
          obtain ⟨j, hj, rfl⟩ := Option.map_eq_some_iff.mp hcr
          rw [List.takeWhile_cons_of_pos (by simp [wireByte, hc, hc']), ih hi hj,
            Nat.succ_min_succ, List.take_succ_cons]

/-- What the decoder takes for the method and the path. -/
theorem decodeInto_views {req req' : HttpRequest} (h : decodeInto req = (true, req')) :
    ∃ m t, req.buffer = m ++ sp :: t ∧ sp ∉ m ∧ req'.method.view req.buffer = m ∧
      req'.path.view req.buffer =
        (t.dropWhile (· == sp)).takeWhile wireByte := by
  obtain ⟨hs, req₁, hline, hparts⟩ : ∃ hs req₁, requestLineEnd req = (.ok hs, req₁) ∧
      req'.method = req₁.method ∧ req'.path = req₁.path := by
    unfold decodeInto at h
    simp only at h
    split at h
    · cases h
    rename_i hs req₁ hline
    refine ⟨hs, req₁, hline, ?_⟩
    split at h
    · cases h
      exact ⟨rfl, rfl⟩
    · split at h <;> cases h
      exact ⟨rfl, rfl⟩
  rw [hparts.1, hparts.2]
  unfold requestLineEnd at hline
  simp only at hline
  split at hline
  · cases hline
  split at hline
  · cases hline
  · cases hline
  rename_i k hk
  obtain ⟨m, t, hb, hm, hno⟩ := idxOf?_eq_some hk
  have ht : req.buffer.drop (k + 2) = t := by
    rw [hb, List.append_cons, show k + 2 = (m ++ [sp]).length by simp [hm], List.drop_left]
  have hskip : req.buffer.drop (k + 2 + (t.takeWhile (· == sp)).length) =
      t.dropWhile (· == sp) := by
    have e : (t.takeWhile (· == sp) ++ t.dropWhile (· == sp)).drop
        (t.takeWhile (· == sp)).length = t.dropWhile (· == sp) := List.drop_left
    rwa [List.takeWhile_append_dropWhile, ← ht, List.drop_drop, ht] at e
  rw [ht, hskip] at hline
  split at hline
  · cases hline
  split at hline
  · cases hline
  rename_i spPos hsp
  split at hline
  · cases hline
  rename_i crPos hcr
  have hp := requestLineVersion_parts { req with method := ⟨0, (k + 1 : Nat)⟩ }
    (k + 2 + (t.takeWhile (· == sp)).length) spPos crPos
  rw [hline] at hp
  refine ⟨m, t, hb, hno, ?_, ?_⟩
  · rw [hp.1, hb]
    change (m ++ sp :: t).take (k + 1) = m
    rw [← Nat.succ_eq_add_one, ← hm, List.take_left]
  · rw [hp.2, takeWhile_wire hsp hcr, ← hskip]
    rfl

/-! ### The router on a decoded request -/

/-- `method` finds a registered token. -/
theorem method_token {m : Method} (hm : m ≠ .unknown) (t : List UInt8) :
    method (m.token ++ sp :: t) = m := by
  cases m with
  | unknown => exact absurd rfl hm
  | _ => rfl

/-- A token has no line break in it. -/
theorem token_no_break (m : Method) : ∀ c ∈ m.token, c ≠ sp ∧ c ≠ cr ∧ c ≠ lf := by
  have hall : m.token.all (fun c => c ≠ sp ∧ c ≠ cr ∧ c ≠ lf) = true := by cases m <;> rfl
  intro c hc
  exact of_decide_eq_true (List.all_eq_true.mp hall c hc)

theorem toSpace_behind {m : List UInt8} (hm : ∀ c ∈ m, c ≠ sp ∧ c ≠ cr ∧ c ≠ lf)
    (t : List UInt8) : toSpace (m ++ sp :: t) = some (sp :: t) := by
  induction m with
  | nil => simp [toSpace]
  | cons c m ih =>
      obtain ⟨h₁, h₂, h₃⟩ := hm c (by simp)
      simp only [List.cons_append, toSpace, if_neg h₁, h₂, h₃, or_self, if_false]
      exact ih fun c hc => hm c (by simp [hc])

/-- `path` behind a token: the segments of the target, if it starts with a slash. -/
theorem path_behind {m : List UInt8} (hm : ∀ c ∈ m, c ≠ sp ∧ c ≠ cr ∧ c ≠ lf)
    (t : List UInt8) :
    (path (m ++ sp :: t)).left =
      match t.dropWhile (· == sp) with
      | [] => [noPath]
      | c :: u => if c ≠ slash then [noPath] else (u.takeWhile targetByte).splitOn slash := by
  have hskip : (sp :: t).dropWhile (· == sp) = t.dropWhile (· == sp) := by simp
  unfold path
  rw [toSpace_behind hm]
  simp only
  rw [hskip]
  cases t.dropWhile (· == sp) with
  | nil => exact Path.noRoute_left
  | cons c u =>
      simp only
      by_cases hc : c = slash
      · simp only [hc, ne_eq, not_true_eq_false, if_false]
        rw [Path.left, Path.done, decide_eq_false (Nat.not_lt.mpr (Nat.le_add_right _ _)),
          if_neg Bool.false_ne_true, Path.rest, if_neg (Nat.not_lt.mpr (Nat.le_add_right _ _))]
        simp only [Nat.add_sub_cancel_left, List.drop_succ_cons, List.drop_zero]
        rw [← List.prefix_iff_eq_take.mp (List.takeWhile_prefix targetByte)]
      · simp only [ne_eq, hc, not_false_eq_true, if_true]
        exact Path.noRoute_left

/-- The router's end of a target, inside the parser's: at the first question mark. -/
theorem takeWhile_target {u : List UInt8}
    (h : lf ∉ u.takeWhile wireByte) :
    u.takeWhile targetByte =
      (u.takeWhile wireByte).takeWhile (· != question) := by
  induction u with
  | nil => rfl
  | cons c u ih =>
      by_cases hc : wireByte c = true
      · rw [List.takeWhile_cons_of_pos hc] at h ⊢
        have hlf : c ≠ lf := fun e => h (by simp [e])
        by_cases hq : c = question
        · simp [hq, targetByte]
        · have ht : targetByte c = true := by
            simp only [wireByte, Bool.not_eq_true', Bool.or_eq_false_iff] at hc
            simp [targetByte, hc.1, hc.2, hq, hlf]
          rw [List.takeWhile_cons_of_pos ht, List.takeWhile_cons_of_pos (by simpa using hq),
            ih fun hmem => h (List.mem_cons_of_mem _ hmem)]
      · have ht : ¬ targetByte c = true := by
          simp only [wireByte, Bool.not_eq_true', Bool.not_eq_false, Bool.or_eq_true] at hc
          rcases hc with hc | hc <;> simp [targetByte, hc]
        rw [List.takeWhile_cons_of_neg hc, List.takeWhile_cons_of_neg ht, List.takeWhile_nil]

/-- In a request line there is no LF, so none in a path that ends in it. -/
theorem path_no_lf {h : Head} {body : List UInt8} (hl : h.Lines) {req req' : HttpRequest}
    (hbuf : req.buffer = h.bytes ++ body) {s pos : Nat}
    (hend : LineEnd req req' s pos h.requestLine.length) :
    lf ∉ req'.path.view req.buffer := by
  intro hmem
  obtain ⟨i, hi⟩ := List.getElem?_of_mem hmem
  rw [Slice.view, List.getElem?_take, List.getElem?_drop] at hi
  split at hi
  · rename_i hlt
    have hle := hend.path.2
    rw [hbuf, head_append, List.getElem?_append_left (by omega)] at hi
    exact hl.1 (List.mem_of_getElem? hi)
  · cases hi

/-- **The router reads a request line the way the parser does.** -/
theorem reads_request_line (b : List UInt8) (n : Nat) (req req' : HttpRequest) (m : Method)
    (hframe : frameRequestLengthLimIdx b 0 0 = n) (hbuf : req.buffer = b.take n)
    (hdec : decodeInto req = (true, req'))
    (hm : m ≠ .unknown) (hmethod : req'.method.view req.buffer = m.token) :
    method req.buffer = m ∧
      (∀ t, req'.path.view req.buffer = slash :: t →
        Yields (path req.buffer) ((t.takeWhile (· != question)).splitOn slash)) ∧
      ((∀ t, req'.path.view req.buffer ≠ slash :: t) → Yields (path req.buffer) [noPath]) := by
  obtain ⟨h, vs, ws, body, rest, -, hmsg, -, hok, -⟩ := framed_parts hframe
  obtain ⟨tok, t, hb, hno, hview, hpath⟩ := decodeInto_views hdec
  obtain rfl : tok = m.token := hview.symm.trans hmethod
  obtain ⟨s, pos, c, hend, -⟩ := decodeInto_ok hdec
  have hmsg' : req.buffer = h.bytes ++ body := hbuf.trans hmsg
  -- the first space stands in the request line: a CR before it would be in the token
  have hs : s = m.token.length := by
    have := hend.space
    rw [hb, findByteIdx, idxOf?_append_cons hno] at this
    exact (Option.some.inj this).symm
  have hlt : s < h.requestLine.length + 1 := by
    by_contra hge
    have hcr : req.buffer[h.requestLine.length]? = some cr := by
      rw [hmsg', head_append]
      simp
    rw [hb, List.getElem?_append_left (by omega)] at hcr
    exact (token_no_break m _ (List.mem_of_getElem? hcr)).2.1 rfl
  obtain rfl := lineEnd_in_line hok.lines hmsg' hend hlt
  have hlf := path_no_lf hok.lines hmsg' hend
  have hleft := path_behind (token_no_break m) t
  rw [← hb] at hleft
  rw [hpath] at hlf ⊢
  have hyields := (path req.buffer).yields_left
  refine ⟨hb ▸ method_token hm t, fun u hu => ?_, fun hu => ?_⟩
  · rw [hleft] at hyields
    cases ht : t.dropWhile (· == sp) with
    | nil =>
        rw [ht] at hu
        cases hu
    | cons c v =>
        rw [ht] at hu hyields hlf
        rw [List.takeWhile_cons] at hu hlf
        split at hu
        · rename_i hc
          obtain ⟨rfl, rfl⟩ := List.cons.inj hu
          rw [if_pos hc] at hlf
          simp only [ne_eq, not_true_eq_false, if_false] at hyields
          rwa [takeWhile_target fun hv => hlf (List.mem_cons_of_mem _ hv)] at hyields
        · cases hu
  · rw [hleft] at hyields
    cases ht : t.dropWhile (· == sp) with
    | nil => rwa [ht] at hyields
    | cons c v =>
        rw [ht] at hu hyields
        have hc : c ≠ slash := by
          rintro rfl
          exact hu _ (List.takeWhile_cons_of_pos (by decide))
        simpa only [if_pos hc] using hyields

/-- `/users//7?x=1` under an extra space: three segments, one of them empty. -/
theorem reads_request_line_users :
    method (ascii "PUT  /users//7?x=1 HTTP/1.1\r\n\r\n") = .put ∧
      Yields (path (ascii "PUT  /users//7?x=1 HTTP/1.1\r\n\r\n"))
        [ascii "users", [], ascii "7"] := by
  have h := reads_request_line (ascii "PUT  /users//7?x=1 HTTP/1.1\r\n\r\n") 31
    { buffer := ascii "PUT  /users//7?x=1 HTTP/1.1\r\n\r\n" } _ .put (by decide +kernel)
    (by decide +kernel) rfl (by decide) (by decide +kernel)
  exact ⟨h.1, h.2.1 (ascii "users//7?x=1") (by decide +kernel)⟩

end Vanilla.Router

import Vanilla.PgAsync.Run

/-!
# PostgreSQL — what the server reads in a frame

The other end of the wire: a reader of frontend messages as the protocol describes them, and what
it makes of the frame of a query or a batch.

* `Front`, `frontend`: the messages of a stream, every one with its declared length and nothing
  left over in it.
* `frontend_frameOf`: a frame reads as its statements.  A Bind counts its parameters in 16 bits,
  and `write_bind` writes the count `% 2¹⁶`.  The only bound of a submit is the send buffer, which
  holds more parameters than that.
-/

namespace Vanilla.PgAsync
open PgConn

open Words (Reader readNumber readBytes readCstr readMany readNumber_bytesOf
  readBytes_append readCstr_append readMany_flatMap length_readMany readNumber_lt)

/-! ### The reader -/

/-- The frontend messages of the extended query protocol. -/
inductive Front where
  | parse (name sql : List UInt8) (types : List Nat)
  | bind (portal stmt : List UInt8) (formats : List Nat) (params : List (Option (List UInt8)))
      (results : List Nat)
  | describe (kind : UInt8) (name : List UInt8)
  | execute (portal : List UInt8) (maxRows : Nat)
  | sync
  deriving DecidableEq, Repr

namespace Front

/-- A count in 16 bits, and so many values. -/
def readCounted {α : Type} (read : Reader α) : Reader (List α) := fun b => do
  let (n, b) ← readNumber 2 b
  readMany read n b

/-- A parameter: a length and so many bytes; the length −1 is NULL, any other below 0 is none. -/
def readParam : Reader (Option (List UInt8)) := fun b => do
  let (n, b) ← readNumber 4 b
  if n = 2 ^ 32 - 1 then some (none, b)
  else if 2 ^ 31 ≤ n then none
  else (readBytes n b).map fun r => (some r.1, r.2)

/-- A body is read to its end. -/
def whole {α : Type} (m : α) : List UInt8 → Option α
  | [] => some m
  | _ :: _ => none

/-- The body of a message of type `typ`. -/
def readBody (typ : UInt8) (b : List UInt8) : Option Front :=
  if typ = 80 then do
    let (name, b) ← readCstr b
    let (sql, b) ← readCstr b
    let (types, b) ← readCounted (readNumber 4) b
    whole (parse name sql types) b
  else if typ = 66 then do
    let (portal, b) ← readCstr b
    let (stmt, b) ← readCstr b
    let (formats, b) ← readCounted (readNumber 2) b
    let (params, b) ← readCounted readParam b
    let (results, b) ← readCounted (readNumber 2) b
    whole (bind portal stmt formats params results) b
  else if typ = 68 then
    match b with
    | [] => none
    | kind :: b => do
      let (name, b) ← readCstr b
      whole (describe kind name) b
  else if typ = 69 then do
    let (portal, b) ← readCstr b
    let (maxRows, b) ← readNumber 4 b
    whole (execute portal maxRows) b
  else if typ = 83 then whole sync b
  else none

/-- A message: its type, a length that counts itself, a body of that length. -/
def read : Reader Front
  | [] => none
  | typ :: b => do
    let (n, b) ← readNumber 4 b
    let (body, b) ← if n < 4 then none else readBytes (n - 4) b
    let m ← readBody typ body
    some (m, b)

/-- At most `n` messages, to the end of the bytes. -/
def readAll : Nat → List UInt8 → Option (List Front)
  | _, [] => some []
  | 0, _ :: _ => none
  | n + 1, c :: b => do
    let (m, b) ← read (c :: b)
    let ms ← readAll n b
    some (m :: ms)

end Front

/-- The frontend messages in some bytes. -/
def frontend (b : List UInt8) : Option (List Front) := Front.readAll b.length b

/-- The messages of a statement, as it was given. -/
def Stmt.asGiven (s : Stmt) : List Front :=
  [.parse [] s.sql [], .bind [] [] [] s.params [1], .describe 80 [], .execute [] 0]

/-! ### Bodies -/

namespace Front

theorem readCounted_flatMap {α : Type} {read : Reader α} {put : α → List UInt8} {xs : List α}
    (h : ∀ x ∈ xs, ∀ r, read (put x ++ r) = some (x, r)) (hx : xs.length < 2 ^ 16)
    (r : List UInt8) :
    readCounted read (putU16 xs.length ++ (xs.flatMap put ++ r)) = some (xs, r) := by
  have hmod : xs.length % 256 ^ 2 = xs.length := Nat.mod_eq_of_lt (by omega)
  rw [readCounted, putU16, readNumber_bytesOf, hmod]
  exact readMany_flatMap h r

theorem readCounted_lt {α : Type} {read : Reader α} {b r : List UInt8} {xs : List α}
    (h : readCounted read b = some (xs, r)) : xs.length < 2 ^ 16 := by
  simp only [readCounted, Option.bind_eq_bind, Option.bind_eq_some_iff, Prod.exists] at h
  obtain ⟨n, b', hn, hxs⟩ := h
  rw [length_readMany hxs]
  exact readNumber_lt hn

theorem readParam_bindParam {p : Option (List UInt8)} (h : (p.getD []).length < 2 ^ 31)
    (r : List UInt8) : readParam (bindParam p ++ r) = some (p, r) := by
  cases p with
  | none =>
      rw [bindParam, readParam, putU32, readNumber_bytesOf]
      rfl
  | some v =>
      have hv : v.length < 2 ^ 31 := h
      have hmod : v.length % 256 ^ 4 = v.length := Nat.mod_eq_of_lt (by omega)
      rw [bindParam, List.append_assoc, readParam, putU32, readNumber_bytesOf, hmod]
      simp only [Option.bind_eq_bind, Option.bind_some]
      rw [if_neg (by omega), if_neg (by omega), readBytes_append]
      rfl

theorem readCstr_nil (r : List UInt8) : readCstr (putCstrS [] ++ r) = some ([], r) :=
  readCstr_append List.not_mem_nil r

theorem readCstr_putCstrS {s : List UInt8} (h : 0 ∉ s) (r : List UInt8) :
    readCstr (putCstrS s ++ r) = some (s, r) := by
  rw [putCstrS, List.append_assoc]
  exact readCstr_append h r

/-- **A Parse reads as it was given.** -/
theorem readBody_parse {sql : List UInt8} (h : 0 ∉ sql) :
    readBody 80 (putCstrS [] ++ putCstrS sql ++ putU16 0) = some (.parse [] sql []) := by
  have h₃ : readCounted (readNumber 4) (putU16 0) = some ([], []) := rfl
  unfold readBody
  rw [if_pos rfl, List.append_assoc, readCstr_nil]
  simp only [Option.bind_eq_bind, Option.bind_some, readCstr_putCstrS h, h₃, whole]

/-- The body `write_bind` writes. -/
def bindBody (params : List (Option (List UInt8))) : List UInt8 :=
  putCstrS [] ++ putCstrS [] ++ putU16 0 ++ putU16 params.length ++
    params.flatMap bindParam ++ putU16 1 ++ putU16 1

/-- **A Bind reads as it was given**, up to the parameters its count can tell. -/
theorem readBody_bind {params : List (Option (List UInt8))}
    (h : ∀ p ∈ params, (p.getD []).length < 2 ^ 31) :
    readBody 66 (bindBody params) = some (.bind [] [] [] params [1]) ↔ params.length < 2 ^ 16 := by
  have hnone : ∀ r, readCounted (readNumber 2) (putU16 0 ++ r) = some ([], r) := fun _ => rfl
  unfold readBody
  rw [if_neg (by decide), if_pos rfl]
  simp only [bindBody, List.append_assoc, Option.bind_eq_bind, readCstr_nil, Option.bind_some,
    hnone]
  constructor
  · intro hb
    simp only [Option.bind_eq_some_iff, Prod.exists] at hb
    obtain ⟨ps, b, hps, rs, b', -, hw⟩ := hb
    cases b' with
    | nil =>
        cases hw
        exact readCounted_lt hps
    | cons c b' => cases hw
  · intro hlt
    have hres : readCounted (readNumber 2) (putU16 1 ++ putU16 1) = some ([1], []) := by decide
    rw [readCounted_flatMap (fun p hp => readParam_bindParam (h p hp)) hlt]
    simp only [Option.bind_some, hres, whole]

/-! ### Messages -/

theorem read_message {typ : UInt8} {body : List UInt8} (h : 4 + body.length < 2 ^ 32)
    (r : List UInt8) : read (message typ body ++ r) = (readBody typ body).map fun m => (m, r) := by
  have hmod : (4 + body.length) % 256 ^ 4 = 4 + body.length := Nat.mod_eq_of_lt (by omega)
  rw [message, List.cons_append, List.cons_append, List.append_assoc, read, putU32,
    readNumber_bytesOf, hmod]
  simp only [Option.bind_eq_bind, Option.bind_some]
  rw [if_neg (by omega), Nat.add_sub_cancel_left, readBytes_append, Option.bind_some]
  cases readBody typ body <;> rfl

theorem readAll_message {typ : UInt8} {body : List UInt8} (h : 4 + body.length < 2 ^ 32)
    (n : Nat) (r : List UInt8) :
    readAll (n + 1) (message typ body ++ r) =
      (readBody typ body).bind fun m => (readAll n r).map (m :: ·) := by
  have hread : read (message typ body ++ r) = _ := read_message h r
  rw [message, List.cons_append, List.cons_append] at hread ⊢
  rw [readAll, hread]
  cases readBody typ body with
  | none => rfl
  | some m => cases hr : readAll n r <;> simp [hr]

theorem readAll_message_eq {typ : UInt8} {body : List UInt8} (h : 4 + body.length < 2 ^ 32)
    {n : Nat} {r : List UInt8} {m : Front} {ms : List Front} :
    readAll (n + 1) (message typ body ++ r) = some (m :: ms) ↔
      readBody typ body = some m ∧ readAll n r = some ms := by
  rw [readAll_message h]
  cases readBody typ body with
  | none => simp
  | some m' => cases readAll n r <;> simp

end Front

/-! ### Frames -/

theorem readAll_statement {s : Stmt} (hsql : 0 ∉ s.sql) (hlen : s.bytes.length < 2 ^ 31)
    {n : Nat} {r : List UInt8} {ms : List Front} :
    Front.readAll (n + 4) (s.bytes ++ r) = some (s.asGiven ++ ms) ↔
      s.params.length < 2 ^ 16 ∧ Front.readAll n r = some ms := by
  have hall : (s.bytes ++ r) = message 80 (putCstrS [] ++ putCstrS s.sql ++ putU16 0) ++
      (message 66 (Front.bindBody s.params) ++ (message 68 (80 :: putCstrS []) ++
        (message 69 (putCstrS [] ++ putU32 0) ++ r))) := by
    simp only [Stmt.bytes, writeParse, writeBind, writeDescribePortal, writeExecute,
      Front.bindBody, List.append_assoc]
  have hlens := congrArg List.length hall
  simp only [List.length_append, length_message] at hlens
  have hparams : ∀ p ∈ s.params, (p.getD []).length < 2 ^ 31 := by
    intro p hp
    obtain ⟨ps, ps', hps⟩ := List.append_of_mem hp
    have hbody : (p.getD []).length ≤ (Front.bindBody s.params).length := by
      simp only [Front.bindBody, hps, List.length_append, List.flatMap_append, List.flatMap_cons,
        length_bindParam]
      omega
    omega
  have hdesc : Front.readBody 68 (80 :: putCstrS []) = some (.describe 80 []) := by decide
  have hexec : Front.readBody 69 (putCstrS [] ++ putU32 0) = some (.execute [] 0) := by decide
  have h₁ : 4 + (putCstrS [] ++ putCstrS s.sql ++ putU16 0).length < 2 ^ 32 := by
    simp only [List.length_append]; omega
  have h₂ : 4 + (Front.bindBody s.params).length < 2 ^ 32 := by omega
  rw [hall]
  simp only [Stmt.asGiven, List.cons_append, List.nil_append]
  rw [Front.readAll_message_eq h₁, Front.readAll_message_eq h₂,
    Front.readAll_message_eq (by decide), Front.readAll_message_eq (by decide),
    Front.readBody_bind hparams, Front.readBody_parse hsql, hdesc, hexec]
  simp

theorem readAll_frameOf {stmts : List Stmt} (hsql : ∀ s ∈ stmts, 0 ∉ s.sql)
    (hlen : (frameOf stmts).length < 2 ^ 31) (n : Nat) :
    Front.readAll (n + (4 * stmts.length + 1)) (frameOf stmts) =
        some (stmts.flatMap Stmt.asGiven ++ [.sync]) ↔
      ∀ s ∈ stmts, s.params.length < 2 ^ 16 := by
  induction stmts with
  | nil =>
      have : Front.readAll (n + 1) writeSync = some [.sync] := by
        have hm : Front.readAll (n + 1) (message 83 [] ++ []) = some [.sync] :=
          (Front.readAll_message_eq (by decide)).mpr ⟨rfl, by cases n <;> rfl⟩
        rwa [List.append_nil] at hm
      simp [frameOf, this]
  | cons s stmts ih =>
      obtain ⟨hs, hstmts⟩ := List.forall_mem_cons.mp hsql
      have hcons : frameOf (s :: stmts) = s.bytes ++ frameOf stmts := by
        simp [frameOf, List.flatMap_cons]
      rw [hcons, List.length_append] at hlen
      have hn : n + (4 * (s :: stmts).length + 1) = n + (4 * stmts.length + 1) + 4 := by
        rw [List.length_cons]; omega
      rw [hcons, hn, List.flatMap_cons, List.append_assoc, readAll_statement hs (by omega),
        ih hstmts (by omega), List.forall_mem_cons]

/-- **A frame reads as its statements**, if and only if every one of them has less than 2¹⁶
parameters. -/
theorem frontend_frameOf {stmts : List Stmt} (hsql : ∀ s ∈ stmts, 0 ∉ s.sql)
    (hlen : (frameOf stmts).length < 2 ^ 31) :
    frontend (frameOf stmts) = some (stmts.flatMap Stmt.asGiven ++ [.sync]) ↔
      ∀ s ∈ stmts, s.params.length < 2 ^ 16 := by
  have hle : 4 * stmts.length + 1 ≤ (frameOf stmts).length := by
    rw [← batchFrameLen_eq]
    have : ∀ stmts : List Stmt, 4 * stmts.length ≤ (stmts.map statementFrameLen).sum := by
      intro stmts
      induction stmts with
      | nil => simp
      | cons s stmts ih =>
          simp only [List.length_cons, List.map_cons, List.sum_cons, statementFrameLen] at ih ⊢
          omega
    have := this stmts
    simp only [batchFrameLen, syncLen]
    omega
  have hn : (frameOf stmts).length =
      (frameOf stmts).length - (4 * stmts.length + 1) + (4 * stmts.length + 1) := by omega
  rw [frontend, hn]
  exact readAll_frameOf hsql hlen _

/-! ### Accepted queries -/

/-- What a submission appended to the send buffer reads as what was submitted. -/
def SentAsGiven (c : PgConn) (sub : Submission) : Prop :=
  frontend ((sub.on c).2.send.pending.drop c.send.pending.length) =
    some (sub.stmts.flatMap Stmt.asGiven ++ [.sync])

instance (c : PgConn) (sub : Submission) : Decidable (SentAsGiven c sub) :=
  inferInstanceAs (Decidable (_ = _))

theorem PgConn.maxFrameLen_le (c : PgConn) : c.maxFrameLen ≤ maxSendBufCap := by
  unfold maxFrameLen
  split
  · exact c.send.size_le
  · decide

theorem sentAsGiven_eq {c : PgConn} (sub : Submission) (h : c.Takes (frameOf sub.stmts).length)
    (hon : sub.on c = (true, c.queued (frameOf sub.stmts))) (hsql : ∀ s ∈ sub.stmts, 0 ∉ s.sql) :
    SentAsGiven c sub ↔ ∀ s ∈ sub.stmts, s.params.length < 2 ^ 16 := by
  have hlen : (frameOf sub.stmts).length < 2 ^ 31 := by
    have h₁ := h.room
    have h₂ := c.maxFrameLen_le
    have h₃ : maxSendBufCap = 16 * 1024 * 1024 := rfl
    omega
  rw [SentAsGiven, hon, queued_pending h, List.drop_left, frontend_frameOf hsql hlen]

/-- **An accepted query is sent as it was given if and only if no statement of it has 2¹⁶ or more
parameters.** -/
theorem accepted_sent_as_given (c : PgConn) (sub : Submission) (hacc : (sub.on c).1 = true)
    (hsql : ∀ s ∈ sub.stmts, 0 ∉ s.sql) :
    SentAsGiven c sub ↔ ∀ s ∈ sub.stmts, s.params.length ≤ 65535 := by
  have hle : ∀ s : Stmt, s.params.length ≤ 65535 ↔ s.params.length < 2 ^ 16 := by omega
  simp only [hle]
  have hcases := sub.on_cases c
  generalize hon : sub.on c = r at hcases hacc
  cases hcases with
  | refused => cases hacc
  | accepted h => exact sentAsGiven_eq sub h hon hsql

/-- A connection with a send buffer of 1 MiB, and nothing in flight. -/
def wideConn : PgConn := { send := .fresh (1024 * 1024) (by decide) }

theorem wideConn_takes {n : Nat} (h : n ≤ 1024 * 1024) : wideConn.Takes n where
  ready := rfl
  slot := by decide
  room := by
    have hpend : wideConn.send.pending = [] := Buffers.Window.pending_fresh _ _
    have hsize : wideConn.send.size = 1024 * 1024 := Buffers.Window.size_fresh _ _
    rw [PgConn.maxFrameLen, hpend, hsize, if_pos (by decide)]
    simpa using h

theorem Submission.submit_on {c : PgConn} {s : Stmt} (h : c.Takes (queryFrameLen s)) :
    (Submission.submit s).on c = (true, c.queued (frameOf [s])) := by
  have ht := h
  rw [queryFrameLen_eq] at ht
  simp only [Submission.on, PgConn.submit, PgConn.checkSubmit_ok.mpr h, PgConn.queueScratch,
    PgConn.enqueue_eq ht]

theorem accepted_sent_as_given_one :
    SentAsGiven wideConn (.submit ⟨ascii "select $1", [none]⟩) :=
  (accepted_sent_as_given wideConn (.submit ⟨ascii "select $1", [none]⟩)
    (by rw [Submission.submit_on (wideConn_takes (by decide))]) (by decide)).mpr (by decide)

theorem Submission.submit_not_as_given {c : PgConn} {s : Stmt} (h : c.Takes (queryFrameLen s))
    (hsql : 0 ∉ s.sql) (hs : 2 ^ 16 ≤ s.params.length) :
    ((Submission.submit s).on c).1 = true ∧ ¬ SentAsGiven c (.submit s) := by
  have hon := Submission.submit_on h
  rw [queryFrameLen_eq] at h
  have hgiven := sentAsGiven_eq (.submit s) h hon (List.forall_mem_singleton.mpr hsql)
  rw [hgiven]
  refine ⟨by rw [hon], fun hall => ?_⟩
  exact absurd (hall s List.mem_cons_self) (Nat.not_lt.mpr hs)

theorem queryFrameLen_nulls (sql : List UInt8) (n : Nat) :
    queryFrameLen ⟨sql, List.replicate n none⟩ = 46 + sql.length + 4 * n := by
  simp only [queryFrameLen, statementFrameLen, List.map_replicate, List.sum_replicate_nat,
    Option.getD_none, List.length_nil, syncLen]
  omega

/-- 65536 NULLs: the Bind says it has none of them. -/
theorem too_many_params :
    ((Submission.submit ⟨ascii "select 1", List.replicate 65536 none⟩).on wideConn).1 = true ∧
      ¬ SentAsGiven wideConn (.submit ⟨ascii "select 1", List.replicate 65536 none⟩) := by
  have hlen : queryFrameLen ⟨ascii "select 1", List.replicate 65536 none⟩ ≤ 1024 * 1024 := by
    rw [queryFrameLen_nulls]
    decide
  refine Submission.submit_not_as_given (wideConn_takes hlen) (by decide) ?_
  rw [List.length_replicate]
  decide

end Vanilla.PgAsync

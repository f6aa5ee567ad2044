import Vanilla.Kqueue.Worker

/-!
# Kqueue — a parked request

What should hold of a parked request: the watch it waits for is its own, and until it resumes or
closes its handler is not called, its buffer neither cleared nor sent, and no other answer leaves on
its connection; then responses leave in request order, each request answered once (`LeftAlone`).

The worker does nothing to keep that.  A client that sends again while its request is parked has
its handler called, or is answered by a status line; a call that watches a number another request is
parked on takes that watch; and a watch left over from an earlier request resumes the connection
whenever it fires.  `Undisturbed w e` says that the event does none of the three.

* `Kept`: the account agrees with the state, and a parked request is the next to be answered; for
  all connections, or for all but the one that is being served.
* `Kept.run`, `Kept.handle`: one call of a handler or continuation, one event.
* `left_alone`: a run no event of which disturbs a parked request leaves parked requests alone.
-/

namespace Vanilla.Kqueue
open Worker

/-! ### The account of parks and answers -/

/-- The connection at `fd` has parked, and neither resumed nor closed since. -/
def parkedIn (fd : Int) : List Mark → Bool
  | [] => false
  | .parked f _ :: l => if f = fd then true else parkedIn fd l
  | .unparked f :: l => if f = fd then false else parkedIn fd l
  | .closed f :: l => if f = fd then false else parkedIn fd l
  | _ :: l => parkedIn fd l

/-- The marks since the last close of `fd`. -/
def since (fd : Int) (l : List Mark) : List Mark := l.takeWhile (· != .closed fd)

/-- Request `k` is answered on `fd`: by the connection's buffer, or by a status line. -/
inductive Answer (fd : Int) (k : Nat) : Mark → Prop where
  | sent : Answer fd k (.sent fd k)
  | status {code : Nat} : Answer fd k (.status fd k code)

/-- Every request answered on this connection is before `k`. -/
def InTurn (fd : Int) (k : Nat) (l : List Mark) : Prop :=
  ∀ m ∈ since fd l, ∀ j, Answer fd j m → j < k

/-- The handler of `fd` is called, its buffer cleared, or a request answered on it. -/
inductive Touches (fd : Int) : Mark → Prop where
  | cleared : Touches fd (.cleared fd)
  | called {k : Nat} : Touches fd (.called fd k)
  | answer {k : Nat} {m : Mark} : Answer fd k m → Touches fd m

/-- Every parked connection is the client of the watch it waits for. -/
def Recorded (w : Worker) : Prop :=
  ∀ fd c, w.conns fd = some c → 0 ≤ c.awaitingFd →
    ∃ x, w.watches c.awaitingFd = some x ∧ x.clientFd = fd

/-- Parked requests are left alone until they resume or close. -/
structure LeftAlone (hs : List Happening) : Prop where
  recorded : ∀ before, before <+: hs → Recorded (reach before)
  silent : ∀ fd m a b, (reach hs).log = a ++ m :: b → Touches fd m → parkedIn fd b = false
  /-- what is sent answers a request that came on this connection -/
  own : ∀ fd k a b, (reach hs).log = a ++ .sent fd k :: b → .called fd k ∈ since fd b
  /-- and every answer is to a later request than those before it -/
  ordered : ∀ fd k m a b, (reach hs).log = a ++ m :: b → Answer fd k m → InTurn fd k b

/-! ### What disturbs -/

/-- The event makes a call for the connection at `fd`. -/
inductive Calls (w : Worker) (e : Event) : Int → Prop where
  | resumed {x : KqWatch} {c : KqConn} : w.watches e.fd = some x → w.conns x.clientFd = some c →
      Calls w e x.clientFd
  | request {buf : List UInt8} : w.watches e.fd = none → ¬ (e.eof = true ∧ e.data = 0) →
      e.read = .request buf → Calls w e e.fd

/-- The call of the connection at `fd` watches no number that another one is parked on. -/
def Unshared (w : Worker) (fd : Int) (call : Call) : Prop :=
  ∀ x ∈ call.watches, 0 ≤ x.1 → ∀ f c, f ≠ fd → w.conns f = some c → c.awaitingFd ≠ x.1

/-- The event disturbs no parked request. -/
structure Undisturbed (w : Worker) (e : Event) : Prop where
  /-- of a parked connection it brings nothing, or its end -/
  unasked : w.watches e.fd = none → w.parked e.fd = true →
    e.eof = true ∧ e.data = 0 ∨ e.read = .noData ∨ e.read = .clientClosed
  /-- its call watches no number that another connection is parked on -/
  unshared : ∀ fd, Calls w e fd → Unshared w fd e.call
  /-- the watch it fires is the one its client is parked on -/
  current : ∀ x c, w.watches e.fd = some x → w.conns x.clientFd = some c →
    0 ≤ e.fd ∧ c.awaitingFd = e.fd

/-! ### The log by its newest mark -/

/-- What a mark asks of the log before it. -/
structure Mark.Fine (m : Mark) (l : List Mark) : Prop where
  silent : ∀ fd, Touches fd m → parkedIn fd l = false
  own : ∀ fd k, m = .sent fd k → .called fd k ∈ since fd l
  ordered : ∀ fd k, Answer fd k m → InTurn fd k l

/-- Every mark of the log is fine. -/
def LogFine : List Mark → Prop
  | [] => True
  | m :: l => m.Fine l ∧ LogFine l

theorem LogFine.at {a b : List Mark} {m : Mark} (h : LogFine (a ++ m :: b)) : m.Fine b := by
  induction a with
  | nil => exact h.1
  | cons _ a ih => exact ih h.2

/-- The connection a mark is about. -/
def Mark.conn : Mark → Option Int
  | .dropped _ => none
  | .accepted fd | .closed fd | .cleared fd | .called fd _ | .sent fd _ | .status fd _ _
  | .parked fd _ | .unparked fd => some fd

/-- The request a mark is about. -/
def Mark.request : Mark → Option Nat
  | .called _ k | .sent _ k | .status _ k _ => some k
  | _ => none

theorem Answer.conn {fd : Int} {k : Nat} {m : Mark} (h : Answer fd k m) : m.conn = some fd := by
  cases h <;> rfl

theorem Answer.request {fd : Int} {k : Nat} {m : Mark} (h : Answer fd k m) :
    m.request = some k := by
  cases h <;> rfl

/-- A mark of no request that clears nothing is fine anywhere. -/
theorem Mark.fine_of_silent {m : Mark} (hr : m.request = none) (hc : ∀ fd, m ≠ .cleared fd)
    (l : List Mark) : m.Fine l := by
  have hno : ∀ fd k, ¬ Answer fd k m := by
    intro fd k ha
    rw [ha.request] at hr
    cases hr
  refine ⟨fun fd ht => ?_, fun fd k hm => ?_, fun fd k ha => absurd ha (hno fd k)⟩
  · cases ht with
    | cleared => exact absurd rfl (hc fd)
    | called => cases hr
    | answer ha => exact absurd ha (hno fd _)
  · rw [hm] at hr
    cases hr

theorem since_cons {fd : Int} {m : Mark} (hm : m ≠ .closed fd) (l : List Mark) :
    since fd (m :: l) = m :: since fd l :=
  List.takeWhile_cons_of_pos (by simpa using hm)

theorem mem_of_mem_since {fd : Int} {m : Mark} {l : List Mark} (h : m ∈ since fd l) : m ∈ l :=
  (List.takeWhile_prefix _).mem h

theorem parkedIn_other {f : Int} {m : Mark} (hm : m.conn ≠ some f) (l : List Mark) :
    parkedIn f (m :: l) = parkedIn f l := by
  cases m with
  | parked fd _ | unparked fd | closed fd =>
      rw [parkedIn, if_neg fun h => hm (congrArg some h)]
  | _ => rfl

/-- Request `k` came on the connection at `fd` and is the next to be answered on it. -/
structure Pending (fd : Int) (k : Nat) (l : List Mark) : Prop where
  called : .called fd k ∈ since fd l
  inTurn : InTurn fd k l

/-- It stays so until the connection closes or answers. -/
theorem Pending.cons {fd : Int} {k : Nat} {l : List Mark} (h : Pending fd k l) {m : Mark}
    (hc : m ≠ .closed fd) (ha : ∀ j, ¬ Answer fd j m) : Pending fd k (m :: l) where
  called := by
    rw [since_cons hc]
    exact List.mem_cons_of_mem _ h.called
  inTurn n hn j hj := by
    rw [since_cons hc] at hn
    rcases List.mem_cons.mp hn with rfl | hn
    · exact absurd hj (ha j)
    · exact h.inTurn n hn j hj

theorem Pending.other {fd : Int} {k : Nat} {l : List Mark} (h : Pending fd k l) {m : Mark}
    (hm : m.conn ≠ some fd) : Pending fd k (m :: l) :=
  h.cons (fun hc => hm (by rw [hc]; rfl)) fun _ ha => hm ha.conn

theorem Pending.sent_fine {fd : Int} {k : Nat} {l : List Mark} (h : Pending fd k l)
    (hp : parkedIn fd l = false) : (Mark.sent fd k).Fine l where
  silent f ht := by
    cases ht with
    | answer ha => cases ha; exact hp
  own f j hm := by cases hm; exact h.called
  ordered f j ha := by cases ha; exact h.inTurn

/-! ### What is kept -/

/-- The watch that the connection `c` at `fd` is parked on, if any, is its own, and the request it
was armed for is the next to be answered. -/
def Waits (w : Worker) (fd : Int) (c : KqConn) : Prop :=
  0 ≤ c.awaitingFd →
    ∃ x, w.watches c.awaitingFd = some x ∧ x.clientFd = fd ∧ Pending fd x.request w.log

theorem awaiting_neg {w : Worker} {fd : Int} {c : KqConn} (hp : w.parked fd = false)
    (hc : w.conns fd = some c) : ¬ 0 ≤ c.awaitingFd := by
  simpa [parked, hc] using hp

/-- The account agrees with the state and every mark of it is fine, and the parked connections have
their watches; leaving out the connection that is `busy`. -/
structure Kept (busy : Option Int) (w : Worker) : Prop where
  numbered : ∀ m ∈ w.log, ∀ k, m.request = some k → k < w.requests
  fine : LogFine w.log
  parks : ∀ fd, busy ≠ some fd → parkedIn fd w.log = w.parked fd
  waits : ∀ fd c, busy ≠ some fd → w.conns fd = some c → Waits w fd c

namespace Kept

variable {w : Worker} {fd : Int} {conn : KqConn}

theorem parkedIn_eq (h : Kept none w) (fd : Int) : parkedIn fd w.log = w.parked fd :=
  h.parks fd (by simp)

theorem watch (h : Kept none w) (hc : w.conns fd = some conn) : Waits w fd conn :=
  h.waits fd conn (by simp) hc

theorem but (h : Kept none w) (fd : Int) : Kept (some fd) w :=
  ⟨h.numbered, h.fine, fun f _ => h.parkedIn_eq f, fun _ _ _ => h.watch⟩

theorem whole (h : Kept (some fd) w) (hp : parkedIn fd w.log = w.parked fd)
    (hw : ∀ c, w.conns fd = some c → Waits w fd c) : Kept none w where
  numbered := h.numbered
  fine := h.fine
  parks f _ := by
    by_cases hf : f = fd
    · rw [hf, hp]
    · exact h.parks f fun e => hf (Option.some.inj e).symm
  waits f c _ hc := by
    by_cases hf : f = fd
    · subst hf
      exact hw c hc
    · exact h.waits f c (fun e => hf (Option.some.inj e).symm) hc

/-- A connection that is not parked waits for nothing. -/
theorem whole_unparked (h : Kept (some fd) w) (hl : parkedIn fd w.log = false)
    (hp : w.parked fd = false) : Kept none w :=
  h.whole (hl.trans hp.symm) fun _ hc hawait => absurd hawait (awaiting_neg hp hc)

theorem count {busy : Option Int} (h : Kept busy w) (n : Int) : Kept busy (w.count n) :=
  ⟨h.numbered, h.fine, h.parks, h.waits⟩

theorem note (h : Kept (some fd) w) {m : Mark} (hm : ∀ f, m.conn = some f → f = fd)
    (hn : ∀ k, m.request = some k → k < w.requests) (hf : m.Fine w.log) :
    Kept (some fd) (w.note m) where
  numbered n hmem k hk := by
    rcases List.mem_cons.mp hmem with rfl | hmem
    · exact hn k hk
    · exact h.numbered n hmem k hk
  fine := ⟨hf, h.fine⟩
  parks f hb := (parkedIn_other (fun e => hb (by rw [hm f e])) w.log).trans (h.parks f hb)
  waits f c hb hc hawait := by
    obtain ⟨x, hx, hclient, hpend⟩ := h.waits f c hb hc hawait
    exact ⟨x, hx, hclient, hpend.other fun e => hb (by rw [hm f e])⟩

/-- A mark of no request that clears nothing. -/
theorem note_silent (h : Kept (some fd) w) {m : Mark} (hm : ∀ f, m.conn = some f → f = fd)
    (hr : m.request = none) (hc : ∀ f, m ≠ .cleared f) : Kept (some fd) (w.note m) := by
  refine h.note hm (fun k hk => ?_) (Mark.fine_of_silent hr hc _)
  rw [hr] at hk
  cases hk

theorem setConn (h : Kept (some fd) w) (c : Option KqConn) : Kept (some fd) (w.setConn fd c) := by
  have hconns : ∀ f, some fd ≠ some f → (w.setConn fd c).conns f = w.conns f := fun f hb =>
    Function.update_of_ne (fun e => hb (by rw [e])) _ _
  refine ⟨h.numbered, h.fine, fun f hb => ?_, fun f d hb hd => ?_⟩
  · rw [parked, hconns f hb]
    exact h.parks f hb
  · rw [hconns f hb] at hd
    exact h.waits f d hb hd

/-- A watch that no other connection is parked on. -/
theorem setWatch (h : Kept (some fd) w) {n : Int} (x : Option KqWatch)
    (hn : ∀ f c, f ≠ fd → w.conns f = some c → 0 ≤ c.awaitingFd → c.awaitingFd ≠ n) :
    Kept (some fd) (w.setWatch n x) := by
  refine ⟨h.numbered, h.fine, h.parks, fun f c hb hc hawait => ?_⟩
  obtain ⟨y, hy, hrest⟩ := h.waits f c hb hc hawait
  have hne := hn f c (fun e => hb (by rw [e])) hc hawait
  exact ⟨y, (Function.update_of_ne hne _ _).trans hy, hrest⟩

theorem park_but (h : Kept (some fd) w) (ext : Int) : Kept (some fd) (w.park fd conn ext) := by
  have hnote : ∀ w', Kept (some fd) w' → Kept (some fd) ((w'.setConn fd
      (some { conn with awaitingFd := ext })).note
        (if 0 ≤ ext then .parked fd ext else .unparked fd)) := by
    intro w' h'
    split
    · exact (h'.setConn _).note_silent (fun f e => by cases e; rfl) rfl (by simp)
    · exact (h'.setConn _).note_silent (fun f e => by cases e; rfl) rfl (by simp)
  unfold Worker.park
  split
  · exact hnote _ (h.count _)
  · exact hnote _ h

theorem park (h : Kept (some fd) w) {ext : Int}
    (hw : 0 ≤ ext →
      ∃ x, w.watches ext = some x ∧ x.clientFd = fd ∧ Pending fd x.request w.log) :
    Kept none (w.park fd conn ext) := by
  refine (h.park_but ext).whole ?_ fun c hc hawait => ?_
  · simp only [park_log, parked, park_conns, Function.update_self]
    by_cases he : 0 ≤ ext <;> simp [he, parkedIn]
  · rw [park_conns, Function.update_self] at hc
    obtain rfl := Option.some.inj hc
    obtain ⟨x, hx, hclient, hpend⟩ := hw hawait
    refine ⟨x, by rwa [park_watches], hclient, ?_⟩
    rw [park_log, if_pos hawait]
    exact hpend.cons (by simp) fun _ ha => by cases ha

/-- Closing a connection whose watch, if it is parked, no other one is parked on. -/
theorem kqClose_own (h : Kept (some fd) w)
    (hown : ∀ c, w.conns fd = some c → 0 ≤ c.awaitingFd →
      ∀ f d, f ≠ fd → w.conns f = some d → 0 ≤ d.awaitingFd → d.awaitingFd ≠ c.awaitingFd) :
    Kept none (w.kqClose fd) := by
  have hnote : ∀ w', Kept (some fd) w' → Kept (some fd) (w'.note (.closed fd)) := fun w' h' =>
    h'.note_silent (fun f e => by cases e; rfl) rfl (by simp)
  have hbut : Kept (some fd) (w.kqClose fd) := by
    unfold Worker.kqClose
    cases hc : w.conns fd with
    | none => exact hnote _ h
    | some c =>
        simp only
        split
        · rename_i hawait
          have hdrop := (h.setWatch none (hown c hc hawait)).note_silent
            (m := .dropped c.awaitingFd) (by simp [Mark.conn]) rfl (by simp)
          exact hnote _ ((hdrop.park_but (-1)).setConn none)
        · exact hnote _ (h.setConn none)
  refine hbut.whole_unparked ?_ (by simp [parked])
  rcases w.kqClose_log fd with hl | ⟨ext, hl⟩ <;> simp [hl, parkedIn]

theorem kqClose_unparked (h : Kept (some fd) w) (hp : w.parked fd = false) :
    Kept none (w.kqClose fd) :=
  h.kqClose_own fun _ hc hawait => absurd hawait (awaiting_neg hp hc)

theorem kqClose (h : Kept none w) (fd : Int) : Kept none (w.kqClose fd) := by
  refine (h.but fd).kqClose_own fun c hc hawait f d hf hd hawait' heq => ?_
  -- the watch would be of both
  obtain ⟨x, hx, hclient, -⟩ := h.watch hc hawait
  obtain ⟨y, hy, hclient', -⟩ := h.watch hd hawait'
  rw [heq, hx] at hy
  obtain rfl := Option.some.inj hy
  exact hf (hclient'.symm.trans hclient)

/-! ### One call -/

/-- The watches of a call are for the client and the request it was made for, and the last one is
there. -/
theorem register (h : Kept (some fd) w) (k : Nat) (xs : List (Int × Nat)) (last : Int)
    (hun : ∀ x ∈ xs, 0 ≤ x.1 → ∀ f c, f ≠ fd → w.conns f = some c → c.awaitingFd ≠ x.1)
    (hlast : 0 ≤ last → ∃ x, w.watches last = some x ∧ x.clientFd = fd ∧ x.request = k) :
    Kept (some fd) (register fd k xs (w, last)).1 ∧
      (0 ≤ (Worker.register fd k xs (w, last)).2 →
        ∃ x, (Worker.register fd k xs (w, last)).1.watches (Worker.register fd k xs (w, last)).2 =
          some x ∧ x.clientFd = fd ∧ x.request = k) := by
  induction xs generalizing w last with
  | nil => exact ⟨h, hlast⟩
  | cons x xs ih =>
      have hrest := fun y hy => hun y (List.mem_cons_of_mem _ hy)
      rw [Worker.register, kqueueAsyncRegister]
      split
      · -- a call without a client arms nothing
        exact ih h (-1) hrest (by omega)
      · refine ih (h.setWatch _ fun f c hf hc hawait heq => ?_) x.1 hrest fun _ =>
          ⟨⟨fd, x.2, k⟩, by simp [Worker.setWatch], rfl, rfl⟩
        exact hun x List.mem_cons_self (heq ▸ hawait) f c hf hc heq

theorem settle (h : Kept (some fd) w) (hconn : w.conns fd = some conn)
    (hawait : conn.awaitingFd < 0) (hp : parkedIn fd w.log = false) {k : Nat}
    (hk : Pending fd k w.log) {last : Int}
    (hlast : 0 ≤ last → ∃ x, w.watches last = some x ∧ x.clientFd = fd ∧ x.request = k)
    (step : Step) (sent : Bool) : Kept none (w.settle fd conn k last step sent) := by
  have hparked : w.parked fd = false := by
    simp only [parked, hconn, decide_eq_false_iff_not]
    omega
  have hsent : Kept (some fd) (w.note (.sent fd k)) :=
    h.note (fun f e => by cases e; rfl)
      (fun j hj => by
        cases hj
        exact h.numbered _ (mem_of_mem_since hk.called) k rfl) (hk.sent_fine hp)
  unfold Worker.settle
  cases step with
  | done =>
      simp only
      split
      · exact hsent.whole_unparked hp hparked
      · exact hsent.kqClose_unparked hparked
  | suspend =>
      -- the last watch of the call is the one it is parked on
      refine h.park fun hpos => ?_
      obtain ⟨x, hx, hclient, rfl⟩ := hlast hpos
      exact ⟨x, hx, hclient, hk⟩
  | close =>
      simp only
      split
      · exact hsent.kqClose_unparked hparked
      · exact h.kqClose_unparked hparked

/-- **A call for a connection that is not parked**, made for the request that is next to be
answered on it. -/
theorem run (h : Kept (some fd) w) (hawait : conn.awaitingFd < 0)
    (hp : parkedIn fd w.log = false) {k : Nat} (hk : Pending fd k w.log) {call : Call}
    (hun : Unshared w fd call) (sent : Bool) : Kept none (w.run fd conn k call sent) := by
  have hset := h.setConn (some { conn with out := conn.out ++ call.appended })
  obtain ⟨hreg, hlast⟩ := hset.register k call.watches (-1)
    (fun x hx hpos f c hf hc => hun x hx hpos f c hf ((Function.update_of_ne hf _ _).symm.trans hc))
    (by omega)
  obtain ⟨hconns, hlog, -⟩ := register_kept fd k call.watches
    (w.setConn fd (some { conn with out := conn.out ++ call.appended }), -1)
  have hconn := (congrFun hconns fd).trans (Function.update_self ..)
  exact hreg.settle hconn hawait (by rw [hlog]; exact hp) (by rw [hlog]; exact hk) hlast _ _

/-! ### One event -/

/-- The next request is later than any answered. -/
theorem next_inTurn (h : Kept none w) (fd : Int) : InTurn fd w.requests w.log :=
  fun m hm j hj => h.numbered m (mem_of_mem_since hm) j hj.request

theorem asked (h : Kept none w) (hp : parkedIn fd w.log = false) :
    Kept (some fd) (w.asked fd) ∧ Pending fd w.requests (w.asked fd).log := by
  have hfine : (Mark.cleared fd).Fine w.log := by
    refine ⟨fun f ht => ?_, nofun, nofun⟩
    cases ht with
    | cleared => exact hp
    | answer ha => cases ha
  have hcleared : Kept (some fd) (w.note (.cleared fd)) :=
    (h.but fd).note (fun f e => by cases e; rfl) nofun hfine
  -- the second mark, `.called`, comes with the next number
  refine ⟨⟨fun m hm k hk => ?_, ⟨?_, hcleared.fine⟩, fun f hb => ?_, fun f c hb hc hawait => ?_⟩,
    ?_, ?_⟩
  · rcases List.mem_cons.mp hm with rfl | hm
    · cases hk
      exact Nat.lt_succ_self _
    · exact Nat.lt_succ_of_lt (hcleared.numbered m hm k hk)
  · refine ⟨fun f ht => ?_, nofun, nofun⟩
    cases ht with
    | called => exact hp
    | answer ha => cases ha
  · exact hcleared.parks f hb
  · obtain ⟨x, hx, hclient, hpend⟩ := hcleared.waits f c hb hc hawait
    exact ⟨x, hx, hclient, hpend.cons (by simp) fun _ ha => by cases ha⟩
  · change _ ∈ since fd (.called fd w.requests :: .cleared fd :: w.log)
    rw [since_cons (m := .called fd _) nofun]
    exact List.mem_cons_self
  · intro m hm j hj
    change m ∈ since fd (.called fd w.requests :: .cleared fd :: w.log) at hm
    rw [since_cons (m := .called fd _) nofun, since_cons (m := .cleared fd) nofun] at hm
    rcases List.mem_cons.mp hm with rfl | hm
    · cases hj
    rcases List.mem_cons.mp hm with rfl | hm
    · cases hj
    · exact h.next_inTurn fd m hm j hj

theorem refuse (h : Kept none w) (hp : w.parked fd = false) (code : Nat) :
    Kept none (w.refuse fd code) := by
  have hpark : parkedIn fd w.log = false := (h.parkedIn_eq fd).trans hp
  have hstatus : (Mark.status fd w.requests code).Fine w.log :=
    ⟨fun f ht => by cases ht with | answer ha => cases ha; exact hpark, nofun,
      fun f j ha => by cases ha; exact h.next_inTurn fd⟩
  have hnote :
      Kept none { w.note (.status fd w.requests code) with requests := w.requests + 1 } := by
    refine ⟨fun m hm k hk => ?_, ⟨hstatus, h.fine⟩, h.parks, fun f c _ hc hawait => ?_⟩
    · rcases List.mem_cons.mp hm with rfl | hm
      · cases hk
        exact Nat.lt_succ_self _
      · exact Nat.lt_succ_of_lt (h.numbered m hm k hk)
    · obtain ⟨x, hx, hclient, hpend⟩ := h.watch hc hawait
      have hf : f ≠ fd := by
        rintro rfl
        exact awaiting_neg hp hc hawait
      exact ⟨x, hx, hclient, hpend.other fun e => hf (Option.some.inj e).symm⟩
  exact hnote.kqClose fd

theorem kqHandleRequest (h : Kept none w) {e : Event}
    (hquiet : w.parked e.fd = true → e.read = .noData ∨ e.read = .clientClosed)
    (hun : ∀ buf, e.read = .request buf → Unshared w e.fd e.call) :
    Kept none (w.kqHandleRequest e) := by
  have hidle : e.read ≠ .noData → e.read ≠ .clientClosed → w.parked e.fd = false := by
    intro h₁ h₂
    by_contra hp
    exact (hquiet (by simpa using hp)).elim h₁ h₂
  unfold Worker.kqHandleRequest
  refine count ?_ (-1)
  have hc := h.count 1
  cases hread : e.read with
  | noData => exact hc
  | clientClosed => exact hc.kqClose e.fd
  | refused code => exact hc.refuse (hidle (by simp [hread]) (by simp [hread])) code
  | failed => exact hc.refuse (hidle (by simp [hread]) (by simp [hread])) 444
  | request buf =>
      have hp := hidle (by simp [hread]) (by simp [hread])
      have hlog : parkedIn e.fd w.log = false := (h.parkedIn_eq e.fd).trans hp
      obtain ⟨hasked, hpend⟩ := hc.asked hlog
      refine hasked.run ?_ hlog hpend (hun buf hread) e.sent
      change ((w.conns e.fd).getD {}).awaitingFd < 0
      cases hconn : w.conns e.fd with
      | none => decide
      | some c => exact Int.not_le.mp (awaiting_neg hp hconn)

/-- Without the watch that fires, the connections other than its client keep theirs. -/
theorem fired (h : Kept none w) {n : Int} {x : KqWatch} (hx : w.watches n = some x) :
    Kept (some x.clientFd) (w.setWatch n none) := by
  refine (h.but x.clientFd).setWatch none fun f c hf hc hawait heq => ?_
  obtain ⟨y, hy, hclient, -⟩ := h.watch hc hawait
  rw [heq, hx] at hy
  obtain rfl := Option.some.inj hy
  exact hf hclient.symm

theorem kqRunCont (h : Kept none w) {e : Event} (hun : Undisturbed w e) {x : KqWatch}
    (hx : w.watches e.fd = some x) : Kept none ((w.setWatch e.fd none).kqRunCont x e) := by
  have hfired := h.fired hx
  unfold Worker.kqRunCont
  cases hc : w.conns x.clientFd with
  | none =>
      -- the client is gone: nothing runs
      rw [show (w.setWatch e.fd none).conns x.clientFd = none from hc]
      have hp : w.parked x.clientFd = false := by simp [parked, hc]
      exact hfired.whole_unparked ((h.parkedIn_eq _).trans hp) hp
  | some c =>
      rw [show (w.setWatch e.fd none).conns x.clientFd = some c from hc]
      -- the watch is the one its client is parked on, so its request is the next to be answered
      obtain ⟨hpos, hawait⟩ := hun.current x c hx hc
      obtain ⟨y, hy, -, hpend⟩ := h.watch hc (by omega)
      rw [hawait, hx] at hy
      obtain rfl := Option.some.inj hy
      have hlog : (((w.setWatch e.fd none).count 1).park x.clientFd c (-1)).log =
          .unparked x.clientFd :: w.log := by
        rw [park_log]
        rfl
      refine count ((hfired.count 1).park_but (-1) |>.run ?_ ?_ ?_ ?_ e.sent) (-1)
      · exact Int.negSucc_lt_zero 0
      · rw [hlog, parkedIn, if_pos rfl]
      · rw [hlog]
        exact hpend.cons (by simp) fun _ ha => by cases ha
      · intro z hz hz' f d hf hd
        refine hun.unshared _ (.resumed hx hc) z hz hz' f d hf ?_
        rwa [park_conns, Function.update_of_ne hf] at hd

theorem handle (h : Kept none w) {e : Event} (hun : Undisturbed w e) :
    Kept none (w.handle e) := by
  unfold Worker.handle
  cases hx : w.watches e.fd with
  | some x => exact h.kqRunCont hun hx
  | none =>
      simp only
      split
      · exact h.kqClose e.fd
      · rename_i hlast
        have hlast : ¬ (e.eof = true ∧ e.data = 0) := by simpa using hlast
        have hreq : Kept none (w.kqHandleRequest e) := h.kqHandleRequest
          (fun hp => (hun.unasked hx hp).resolve_left hlast)
          fun buf hread => hun.unshared _ (.request hx hlast hread)
        split
        · exact hreq.kqClose e.fd
        · exact hreq

/-- A number that nobody watches is one that nobody is parked on. -/
theorem unshared (h : Kept none w) {call : Call}
    (hfree : ∀ x ∈ call.watches, w.watches x.1 = none) : Unshared w fd call := by
  intro x hx hpos f c _ hc heq
  obtain ⟨y, hy, -⟩ := h.watch hc (heq ▸ hpos)
  rw [heq, hfree x hx] at hy
  cases hy

/-- A client that is not parked has something to read. -/
theorem undisturbed_client (h : Kept none w) {e : Event} (hx : w.watches e.fd = none)
    (hp : w.parked e.fd = false) (hfree : ∀ x ∈ e.call.watches, w.watches x.1 = none) :
    Undisturbed w e where
  unasked _ hp' := by rw [hp] at hp'; cases hp'
  unshared _ _ := h.unshared hfree
  current _ _ hx' := by rw [hx] at hx'; cases hx'

/-- The number that a client is parked on is ready. -/
theorem undisturbed_resumed (h : Kept none w) {e : Event} {x : KqWatch} {c : KqConn}
    (hx : w.watches e.fd = some x) (hc : w.conns x.clientFd = some c) (hpos : 0 ≤ e.fd)
    (hawait : c.awaitingFd = e.fd) (hfree : ∀ x ∈ e.call.watches, w.watches x.1 = none) :
    Undisturbed w e where
  unasked hx' := by rw [hx] at hx'; cases hx'
  unshared _ _ := h.unshared hfree
  current y d hy hd := by
    obtain rfl := Option.some.inj (hx.symm.trans hy)
    obtain rfl := Option.some.inj (hc.symm.trans hd)
    exact ⟨hpos, hawait⟩

theorem recorded (h : Kept none w) : Recorded w := by
  intro fd c hc hawait
  obtain ⟨x, hx, hclient, -⟩ := h.watch hc hawait
  exact ⟨x, hx, hclient⟩

end Kept

/-! ### Runs -/

theorem kept_reach {hs : List Happening} (h : Throughout Undisturbed hs) :
    Kept none (reach hs) := by
  induction hs using List.reverseRecOn with
  | nil => exact ⟨nofun, trivial, fun _ _ => rfl, nofun⟩
  | append_singleton hs l ih =>
      rw [reach_snoc]
      cases l with
      | accept fd =>
          have hkept := ih ((throughout_accept hs).mp h)
          have hacc : Kept (some fd) ((reach hs).note (.accepted fd)) :=
            (hkept.but fd).note_silent (fun f e => by cases e; rfl) rfl (by simp)
          refine hacc.whole (hkept.parkedIn_eq fd) fun c hc hawait => ?_
          obtain ⟨x, hx, hclient, hpend⟩ := hkept.watch hc hawait
          exact ⟨x, hx, hclient, hpend.cons (by simp) fun _ ha => by cases ha⟩
      | event e =>
          obtain ⟨hold, hnew⟩ := (throughout_event hs).mp h
          exact (ih hold).handle hnew

/-- **A parked request is left alone until it resumes or closes**, and every request is answered at
most once and in request order, in every run no event of which disturbs a parked request. -/
theorem left_alone (hs : List Happening) (h : Throughout Undisturbed hs) : LeftAlone hs := by
  have hfine := (kept_reach h).fine
  refine ⟨fun before hb => (kept_reach (h.of_prefix hb)).recorded, fun fd m a b hl => ?_,
    fun fd k a b hl => ?_, fun fd k m a b hl => ?_⟩
  · rw [hl] at hfine
    exact hfine.at.silent fd
  · rw [hl] at hfine
    exact hfine.at.own fd k rfl
  · rw [hl] at hfine
    exact hfine.at.ordered fd k

/-- Two clients park on one number, the second when the first has resumed; the first then sends what
cannot be read. -/
def twoParked : List Happening :=
  [.event { fd := 5, data := 18, read := .request [],
            call := { watches := [(7, 0)], appended := [65], step := .suspend } },
    .event { fd := 7, data := 1, read := .noData, call := { appended := [66], step := .done } },
    .event { fd := 6, data := 18, read := .request [],
             call := { watches := [(7, 0)], step := .suspend } },
    .event { fd := 5, data := 3, read := .refused 400, call := { step := .done } },
    .event { fd := 7, data := 1, read := .noData, call := { appended := [67], step := .done } }]

theorem left_alone_two :
    Throughout Undisturbed twoParked ∧ LeftAlone twoParked ∧ (reach twoParked).log =
      [.sent 6 1, .unparked 6, .closed 5, .status 5 2 400, .parked 6 7, .called 6 1, .cleared 6,
        .sent 5 0, .unparked 5, .parked 5 7, .called 5 0, .cleared 5] := by
  have h₁ : Throughout Undisturbed (twoParked.take 1) := (throughout_event []).mpr
    ⟨throughout_nil, (kept_reach throughout_nil).undisturbed_client rfl rfl (by decide)⟩
  have h₂ : Throughout Undisturbed (twoParked.take 2) := (throughout_event _).mpr
    ⟨h₁, (kept_reach h₁).undisturbed_resumed (x := ⟨5, 0, 0⟩) (c := ⟨[65], 7⟩) (by decide)
      (by decide) (by decide) rfl (by decide)⟩
  have h₃ : Throughout Undisturbed (twoParked.take 3) := (throughout_event _).mpr
    ⟨h₂, (kept_reach h₂).undisturbed_client (by decide) (by decide) (by decide)⟩
  have h₄ : Throughout Undisturbed (twoParked.take 4) := (throughout_event _).mpr
    ⟨h₃, (kept_reach h₃).undisturbed_client (by decide) (by decide) (by decide)⟩
  have h₅ : Throughout Undisturbed twoParked := (throughout_event _).mpr
    ⟨h₄, (kept_reach h₄).undisturbed_resumed (x := ⟨6, 0, 1⟩) (c := ⟨[], 7⟩) (by decide)
      (by decide) (by decide) rfl (by decide)⟩
  exact ⟨h₅, left_alone twoParked h₅, by decide⟩

/-- A client that sends a second request while the first is parked. -/
def asksAgain : List Happening :=
  [.accept 5,
    .event { fd := 5, data := 18, read := .request [],
             call := { watches := [(7, 0)], appended := [65], step := .suspend } },
    .event { fd := 5, data := 18, read := .request [],
             call := { appended := [66], step := .done } }]

/-- Its handler is called again and the first request's buffer cleared, and the second response
leaves before the first. -/
theorem asks_again_disturbed :
    ¬ LeftAlone asksAgain ∧ (reach asksAgain).log =
      [.sent 5 1, .called 5 1, .cleared 5, .parked 5 7, .called 5 0, .cleared 5, .accepted 5] := by
  have hlog : (reach asksAgain).log =
      [.sent 5 1, .called 5 1, .cleared 5, .parked 5 7, .called 5 0, .cleared 5, .accepted 5] := by
    decide
  refine ⟨fun h => ?_, hlog⟩
  have := h.silent 5 (.called 5 1) [.sent 5 1] _ hlog .called
  revert this
  decide

end Vanilla.Kqueue

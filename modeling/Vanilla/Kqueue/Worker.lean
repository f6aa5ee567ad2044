import Mathlib.Data.List.Induction

/-!
# Kqueue — the worker

`server/async_darwin.c.v`: the worker loop of the macOS backend, function by function.  Client fds
and watched fds share one kqueue and one number space; `conns` has a connection once it has sent a
request, `watches` has a watched fd with the client to resume.

What the worker does not decide is in the `Event` it is given: what the kernel reports, what a read
of the client finds, what the handler or continuation does when it is called, and whether a send
succeeds.  The accept thread's `accept` is the other thing that happens.

`log` is an account of the run, newest first: acceptances, closes, calls, answers, parks.  Requests
are numbered as they are read, those that are refused with the others, and a watch has the number of
the request it was armed for.
-/

namespace Vanilla.Kqueue

/-! ### The state -/

/-- `core.Step`. -/
inductive Step where
  | done
  | suspend
  | close
  deriving DecidableEq

/-- `KqConn`. -/
structure KqConn where
  out : List UInt8 := []
  awaitingFd : Int := -1
  deriving DecidableEq

/-- `KqWatch`, with the request it was armed for. -/
structure KqWatch where
  clientFd : Int
  /-- the continuation and its payload -/
  cont : Nat
  request : Nat
  deriving DecidableEq

/-- The account of a run. -/
inductive Mark where
  | accepted (fd : Int)
  /-- `kq_close` of a client -/
  | closed (fd : Int)
  /-- a watched fd closed with the client parked on it -/
  | dropped (ext : Int)
  | cleared (fd : Int)
  | called (fd : Int) (request : Nat)
  /-- `send_response` of the connection's buffer -/
  | sent (fd : Int) (request : Nat)
  /-- a status line of the runtime itself -/
  | status (fd : Int) (request : Nat) (code : Nat)
  | parked (fd : Int) (ext : Int)
  | unparked (fd : Int)
  deriving DecidableEq

/-- `KqReactor`. -/
structure Worker where
  conns : Int → Option KqConn := fun _ => none
  watches : Int → Option KqWatch := fun _ => none
  inflight : Int := 0
  /-- requests read so far -/
  requests : Nat := 0
  log : List Mark := []

/-! ### What the worker is given -/

/-- What `read_request` finds. -/
inductive Read where
  | request (buf : List UInt8)
  | noData
  | clientClosed
  /-- 413, 431 or 400 -/
  | refused (code : Nat)
  /-- any other error: answered 444 -/
  | failed
  deriving DecidableEq

/-- One call of a handler or a continuation: the fds it watches, in order, each with its
continuation, the bytes it appends, and the step it returns. -/
structure Call where
  watches : List (Int × Nat) := []
  appended : List UInt8 := []
  step : Step
  deriving DecidableEq

/-- An event the kernel reports, with what is found on the way. -/
structure Event where
  fd : Int
  /-- `EV_EOF` or `EV_ERROR` -/
  eof : Bool := false
  /-- unread bytes -/
  data : Nat
  read : Read
  call : Call
  /-- the send succeeds -/
  sent : Bool := true
  deriving DecidableEq

/-! ### The functions -/

namespace Worker

def note (w : Worker) (m : Mark) : Worker := { w with log := m :: w.log }

def setConn (w : Worker) (fd : Int) (c : Option KqConn) : Worker :=
  { w with conns := Function.update w.conns fd c }

def setWatch (w : Worker) (fd : Int) (x : Option KqWatch) : Worker :=
  { w with watches := Function.update w.watches fd x }

def count (w : Worker) (n : Int) : Worker := { w with inflight := w.inflight + n }

/-- `park`, of the connection `conn` at `fd`. -/
def park (w : Worker) (fd : Int) (conn : KqConn) (ext : Int) : Worker :=
  let w :=
    if decide (0 ≤ conn.awaitingFd) != decide (0 ≤ ext) then w.count (if 0 ≤ ext then 1 else -1)
    else w
  (w.setConn fd (some { conn with awaitingFd := ext })).note
    (if 0 ≤ ext then .parked fd ext else .unparked fd)

/-- `kqueue_async_register`: the worker, and `last_watched`. -/
def kqueueAsyncRegister (w : Worker) (clientFd : Int) (request : Nat) (ext : Int) (cont : Nat) :
    Worker × Int :=
  if clientFd < 0 then (w, -1)
  else (w.setWatch ext (some ⟨clientFd, cont, request⟩), ext)

/-- The watches of a call, one after the other. -/
def register (clientFd : Int) (request : Nat) : List (Int × Nat) → Worker × Int → Worker × Int
  | [], r => r
  | (ext, cont) :: xs, (w, _) =>
    register clientFd request xs (w.kqueueAsyncRegister clientFd request ext cont)

/-- `kq_close`. -/
def kqClose (w : Worker) (fd : Int) : Worker :=
  let w := match w.conns fd with
    | none => w
    | some conn =>
      let w :=
        if 0 ≤ conn.awaitingFd then
          ((w.setWatch conn.awaitingFd none).note (.dropped conn.awaitingFd)).park fd conn (-1)
        else w
      w.setConn fd none
  w.note (.closed fd)

/-- The `match` on the step, in `kq_handle_request` and `kq_run_cont` alike. -/
def settle (w : Worker) (fd : Int) (conn : KqConn) (request : Nat) (last : Int) (step : Step)
    (sent : Bool) : Worker :=
  match step with
  | .done =>
    let w := w.note (.sent fd request)
    if sent then w else w.kqClose fd
  | .suspend => w.park fd conn last
  | .close => (if conn.out ≠ [] then w.note (.sent fd request) else w).kqClose fd

/-- The handler or continuation `call` for the connection `conn` at `fd`, and what follows. -/
def run (w : Worker) (fd : Int) (conn : KqConn) (request : Nat) (call : Call) (sent : Bool) :
    Worker :=
  let conn := { conn with out := conn.out ++ call.appended }
  let (w, last) := register fd request call.watches (w.setConn fd (some conn), -1)
  w.settle fd conn request last call.step sent

/-- The buffer of `fd` is cleared for a new request. -/
def asked (w : Worker) (fd : Int) : Worker :=
  { (w.note (.cleared fd)).note (.called fd w.requests) with requests := w.requests + 1 }

/-- A request that cannot be read is answered by a status line, and its connection closed. -/
def refuse (w : Worker) (fd : Int) (code : Nat) : Worker :=
  { w.note (.status fd w.requests code) with requests := w.requests + 1 }.kqClose fd

/-- `kq_handle_request`. -/
def kqHandleRequest (w : Worker) (e : Event) : Worker :=
  let w := w.count 1
  let w := match e.read with
    | .noData => w
    | .clientClosed => w.kqClose e.fd
    | .refused code => w.refuse e.fd code
    | .failed => w.refuse e.fd 444
    | .request _ =>
      let conn := (w.conns e.fd).getD {}
      (w.asked e.fd).run e.fd { conn with out := [] } w.requests e.call e.sent
  w.count (-1)

/-- `kq_run_cont`. -/
def kqRunCont (w : Worker) (watch : KqWatch) (e : Event) : Worker :=
  match w.conns watch.clientFd with
  | none => w
  | some conn =>
    let w := (w.count 1).park watch.clientFd conn (-1)
    (w.run watch.clientFd { conn with awaitingFd := -1 } watch.request e.call e.sent).count (-1)

/-- The connection at `fd` is parked. -/
def parked (w : Worker) (fd : Int) : Bool :=
  match w.conns fd with
  | some conn => decide (0 ≤ conn.awaitingFd)
  | none => false

/-- One event of `process_kqueue_worker`. -/
def handle (w : Worker) (e : Event) : Worker :=
  match w.watches e.fd with
  | some watch => (w.setWatch e.fd none).kqRunCont watch e
  | none =>
    if e.eof && e.data == 0 then w.kqClose e.fd
    else
      let w := w.kqHandleRequest e
      if e.eof && !w.parked e.fd then w.kqClose e.fd else w

end Worker

/-! ### What the functions touch -/

namespace Worker

variable (w : Worker) (fd : Int) (conn : KqConn) (ext : Int)

@[simp] theorem park_log : (w.park fd conn ext).log =
    (if 0 ≤ ext then .parked fd ext else .unparked fd) :: w.log := by
  unfold park
  split <;> rfl

@[simp] theorem park_conns : (w.park fd conn ext).conns =
    Function.update w.conns fd (some { conn with awaitingFd := ext }) := by
  unfold park
  split <;> rfl

@[simp] theorem park_watches : (w.park fd conn ext).watches = w.watches := by
  unfold park
  split <;> rfl

/-- The watches of a call touch `watches` only. -/
theorem register_kept (request : Nat) (xs : List (Int × Nat)) (r : Worker × Int) :
    (register fd request xs r).1.conns = r.1.conns ∧
      (register fd request xs r).1.log = r.1.log ∧
      (register fd request xs r).1.requests = r.1.requests := by
  induction xs generalizing r with
  | nil => exact ⟨rfl, rfl, rfl⟩
  | cons x xs ih =>
      obtain ⟨w, last⟩ := r
      obtain ⟨h₁, h₂, h₃⟩ := ih (w.kqueueAsyncRegister fd request x.1 x.2)
      have hkept : (w.kqueueAsyncRegister fd request x.1 x.2).1.conns = w.conns ∧
          (w.kqueueAsyncRegister fd request x.1 x.2).1.log = w.log ∧
          (w.kqueueAsyncRegister fd request x.1 x.2).1.requests = w.requests := by
        unfold kqueueAsyncRegister
        split <;> exact ⟨rfl, rfl, rfl⟩
      exact ⟨h₁.trans hkept.1, h₂.trans hkept.2.1, h₃.trans hkept.2.2⟩

@[simp] theorem kqClose_conns : (w.kqClose fd).conns = Function.update w.conns fd none := by
  unfold kqClose
  cases hc : w.conns fd with
  | none =>
      simp only [note]
      rw [← hc, Function.update_eq_self]
  | some conn =>
      simp only [note, setConn]
      split
      · simp [setWatch]
      · rfl

theorem kqClose_log : (w.kqClose fd).log = .closed fd :: w.log ∨
    ∃ ext, (w.kqClose fd).log = .closed fd :: .unparked fd :: .dropped ext :: w.log := by
  unfold kqClose
  cases w.conns fd with
  | none => exact .inl rfl
  | some conn =>
      simp only [note, setConn]
      split
      · exact .inr ⟨conn.awaitingFd, by simp [setWatch]⟩
      · exact .inl rfl

end Worker

/-! ### Runs -/

/-- What happens next to a worker. -/
inductive Happening where
  | accept (fd : Int)
  | event (e : Event)
  deriving DecidableEq

def Worker.step (w : Worker) : Happening → Worker
  | .accept fd => w.note (.accepted fd)
  | .event e => w.handle e

/-- A run from the start. -/
def reach (hs : List Happening) : Worker := hs.foldl Worker.step {}

theorem reach_snoc (hs : List Happening) (h : Happening) :
    reach (hs ++ [h]) = (reach hs).step h := by
  simp [reach]

/-- Every event of the run satisfies `Q` in the state it meets. -/
def Throughout (Q : Worker → Event → Prop) (hs : List Happening) : Prop :=
  ∀ before e behind, hs = before ++ .event e :: behind → Q (reach before) e

section Throughout

variable {Q : Worker → Event → Prop}

theorem throughout_nil : Throughout Q [] := by
  intro before e behind h
  simp at h

theorem throughout_snoc (hs : List Happening) (h : Happening) :
    Throughout Q (hs ++ [h]) ↔ Throughout Q hs ∧ ∀ e, h = .event e → Q (reach hs) e := by
  constructor
  · intro hall
    refine ⟨fun before e behind hsplit => hall before e (behind ++ [h]) ?_, fun e he => ?_⟩
    · rw [hsplit]
      simp
    · exact hall hs e [] (by rw [he])
  · rintro ⟨hold, hnew⟩ before e behind hsplit
    rcases List.eq_nil_or_concat behind with rfl | ⟨behind, l, rfl⟩
    · obtain ⟨rfl, h'⟩ := List.append_inj' hsplit rfl
      exact hnew e (List.cons.inj h').1
    · rw [List.concat_eq_append, ← List.cons_append, ← List.append_assoc] at hsplit
      exact hold before e behind (List.append_inj' hsplit rfl).1

theorem throughout_accept (hs : List Happening) {fd : Int} :
    Throughout Q (hs ++ [.accept fd]) ↔ Throughout Q hs :=
  (throughout_snoc hs _).trans ⟨And.left, fun h => ⟨h, fun _ he => by cases he⟩⟩

theorem throughout_event (hs : List Happening) {e : Event} :
    Throughout Q (hs ++ [.event e]) ↔ Throughout Q hs ∧ Q (reach hs) e :=
  (throughout_snoc hs _).trans (and_congr_right fun _ =>
    ⟨fun h => h e rfl, fun h e' he => by cases he; exact h⟩)

theorem Throughout.of_prefix {before hs : List Happening} (h : Throughout Q hs)
    (hb : before <+: hs) : Throughout Q before := by
  obtain ⟨rest, rfl⟩ := hb
  intro b e behind hsplit
  refine h b e (behind ++ rest) ?_
  rw [hsplit, List.append_assoc, List.cons_append]

end Throughout

end Vanilla.Kqueue

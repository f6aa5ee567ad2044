import Vanilla.Kqueue.Worker

/-!
# Kqueue — closing a connection

A number passed to `kq_close` twice without an acceptance in between: the second close may hit a
file that another thread has opened under that number.

There are two ways to close twice.  An event with an EOF flag and unread bytes whose request ends in
a close is closed by `kq_handle_request` and then again by the loop (`ClosesOnce` excludes it).  And
an event that comes after its number was closed, as one left over in the batch that closed it, may
close it again (`Event.Live` excludes it).

* `ledger_kqHandleRequest`, `ledger_kqRunCont`: the closes of one event.
* `Gone`: a number that is closed has no connection, so no continuation closes it.
* `closed_once_iff`: in a run whose events are live, every number is closed at most once per
  acceptance exactly when no event closes twice.
-/

namespace Vanilla.Kqueue
open Worker

/-! ### The account of acceptances and closes -/

/-- Between two closes of a number in the log there is an acceptance of it. -/
def ClosedOnce (log : List Mark) : Prop :=
  ∀ n a b c, log = a ++ .closed n :: (b ++ .closed n :: c) → .accepted n ∈ b

/-- `n` has been closed and not accepted since. -/
def closedSince (n : Int) : List Mark → Bool
  | [] => false
  | .accepted m :: l => if m = n then false else closedSince n l
  | .closed m :: l => if m = n then true else closedSince n l
  | _ :: l => closedSince n l

/-- An acceptance or a close. -/
def Mark.ends : Mark → Bool
  | .accepted _ | .closed _ => true
  | _ => false

/-- The acceptances and closes of a log. -/
def ledger (log : List Mark) : List Mark := log.filter Mark.ends

@[simp] theorem ledger_accepted (n : Int) (l : List Mark) :
    ledger (.accepted n :: l) = .accepted n :: ledger l := rfl

@[simp] theorem ledger_closed (n : Int) (l : List Mark) :
    ledger (.closed n :: l) = .closed n :: ledger l := rfl

theorem closedSince_ledger (n : Int) (l : List Mark) :
    closedSince n (ledger l) = closedSince n l := by
  induction l with
  | nil => rfl
  | cons m l ih =>
      cases m with
      | accepted k => simp only [ledger_accepted, closedSince, ih]
      | closed k => simp only [ledger_closed, closedSince, ih]
      | _ => exact ih

/-- `n` is closed exactly when its last close has no acceptance behind it. -/
theorem closedSince_iff {n : Int} {l : List Mark} :
    closedSince n l = true ↔ ∃ b c, l = b ++ .closed n :: c ∧ .accepted n ∉ b := by
  induction l with
  | nil => simp [closedSince]
  | cons m l ih =>
      -- the newest mark decides, unless it is about something else
      have hskip : m ≠ .accepted n → m ≠ .closed n →
          ((∃ b c, m :: l = b ++ .closed n :: c ∧ .accepted n ∉ b) ↔
            ∃ b c, l = b ++ .closed n :: c ∧ .accepted n ∉ b) := by
        intro ha hc
        constructor
        · rintro ⟨b, c, hl, hb⟩
          cases b with
          | nil => exact absurd (List.cons.inj hl).1 hc
          | cons k b => exact ⟨b, c, (List.cons.inj hl).2, fun h => hb (List.mem_cons_of_mem _ h)⟩
        · rintro ⟨b, c, rfl, hb⟩
          exact ⟨m :: b, c, rfl, by simp [hb, Ne.symm ha]⟩
      cases m with
      | accepted k =>
          by_cases hk : k = n
          · subst hk
            simp only [closedSince, if_pos]
            refine ⟨nofun, ?_⟩
            rintro ⟨b, c, hl, hb⟩
            cases b with
            | nil => cases hl
            | cons m b => exact absurd (by simp [(List.cons.inj hl).1]) hb
          · rw [closedSince, if_neg hk, ih, hskip (by simp [hk]) nofun]
      | closed k =>
          by_cases hk : k = n
          · subst hk
            simp only [closedSince, if_pos, true_iff]
            exact ⟨[], l, rfl, by simp⟩
          · rw [closedSince, if_neg hk, ih, hskip nofun (by simp [hk])]
      | _ => exact ih.trans (hskip nofun nofun).symm

theorem closedOnce_cons (m : Mark) (l : List Mark) :
    ClosedOnce (m :: l) ↔ (∀ n, m = .closed n → closedSince n l = false) ∧ ClosedOnce l := by
  constructor
  · intro h
    refine ⟨fun n hm => ?_, fun n a b c hl => h n (m :: a) b c (by rw [hl]; rfl)⟩
    by_contra hsince
    obtain ⟨b, c, rfl, hb⟩ := closedSince_iff.mp (Bool.not_eq_false _ ▸ hsince)
    exact hb (h n [] b c (by rw [hm]; rfl))
  · rintro ⟨hnew, hold⟩ n a b c hl
    cases a with
    | nil =>
        obtain ⟨rfl, rfl⟩ := List.cons.inj hl
        by_contra hb
        have := hnew n rfl
        rw [closedSince_iff.mpr ⟨b, c, rfl, hb⟩] at this
        cases this
    | cons k a => exact hold n a b c (List.cons.inj hl).2

theorem closedOnce_closed (n : Int) (l : List Mark) :
    ClosedOnce (.closed n :: l) ↔ closedSince n l = false ∧ ClosedOnce l := by
  rw [closedOnce_cons]
  exact and_congr_left fun _ =>
    ⟨fun h => h n rfl, fun h m hm => by rwa [← Mark.closed.inj hm]⟩

theorem closedOnce_ledger (l : List Mark) : ClosedOnce (ledger l) ↔ ClosedOnce l := by
  induction l with
  | nil => rfl
  | cons m l ih =>
      cases m with
      | accepted k => rw [ledger_accepted, closedOnce_cons, closedOnce_cons, ih]; simp
      | closed k =>
          rw [ledger_closed, closedOnce_closed, closedOnce_closed, ih, closedSince_ledger]
      | _ =>
          rw [closedOnce_cons]
          refine ih.trans ⟨fun h => ⟨nofun, h⟩, And.right⟩

/-! ### The closes of an event -/

/-- A call ends in a close: it asks for one, or its response cannot be sent. -/
def Event.callCloses (e : Event) : Bool :=
  e.call.step == .close || (e.call.step == .done && !e.sent)

/-- What is read of the client ends in a close. -/
def Event.readCloses (e : Event) : Bool :=
  match e.read with
  | .request _ => e.callCloses
  | .noData => false
  | _ => true

section Ledger

variable (w : Worker)

theorem ledger_kqClose (fd : Int) :
    ledger (w.kqClose fd).log = .closed fd :: ledger w.log := by
  unfold kqClose
  cases w.conns fd with
  | none => rfl
  | some conn =>
      simp only
      split
      · simp only [note, setConn, park_log]
        rfl
      · rfl

theorem ledger_settle (fd : Int) (conn : KqConn) (request : Nat) (last : Int) (e : Event) :
    ledger (w.settle fd conn request last e.call.step e.sent).log =
      if e.callCloses then .closed fd :: ledger w.log else ledger w.log := by
  unfold settle Event.callCloses
  cases e.call.step with
  | done =>
      cases e.sent with
      | true => rfl
      | false => exact ledger_kqClose _ fd
  | suspend =>
      -- the mark of a park is not in the ledger
      simp only [park_log]
      split <;> rfl
  | close =>
      refine (ledger_kqClose _ fd).trans ?_
      split <;> rfl

theorem ledger_run (fd : Int) (conn : KqConn) (request : Nat) (e : Event) :
    ledger (w.run fd conn request e.call e.sent).log =
      if e.callCloses then .closed fd :: ledger w.log else ledger w.log := by
  unfold run
  refine (ledger_settle _ fd _ request _ e).trans ?_
  rw [(register_kept fd request e.call.watches _).2.1]
  rfl

theorem ledger_kqHandleRequest (e : Event) :
    ledger (w.kqHandleRequest e).log =
      if e.readCloses then .closed e.fd :: ledger w.log else ledger w.log := by
  unfold kqHandleRequest Event.readCloses
  cases e.read with
  | request buf => exact ledger_run _ e.fd _ _ e
  | noData => rfl
  | clientClosed => exact ledger_kqClose _ e.fd
  | refused code => exact ledger_kqClose _ e.fd
  | failed => exact ledger_kqClose _ e.fd

theorem ledger_kqRunCont (x : KqWatch) (e : Event) :
    ledger (w.kqRunCont x e).log =
      if (w.conns x.clientFd).isSome && e.callCloses then .closed x.clientFd :: ledger w.log
      else ledger w.log := by
  unfold kqRunCont
  cases w.conns x.clientFd with
  | none => rfl
  | some conn =>
      refine (ledger_run _ x.clientFd _ _ e).trans ?_
      simp only [park_log]
      rfl

end Ledger

/-- A client event that closes leaves no connection. -/
theorem parked_of_readCloses {w : Worker} {e : Event} (h : e.readCloses = true) :
    (w.kqHandleRequest e).parked e.fd = false := by
  have hclose : ∀ w : Worker, ((w.kqClose e.fd).count (-1)).parked e.fd = false := by
    intro w
    simp [parked, count]
  unfold Event.readCloses at h
  unfold kqHandleRequest
  cases hr : e.read with
  | noData => simp [hr] at h
  | clientClosed | refused | failed => exact hclose _
  | request buf =>
      rw [hr] at h
      simp only [run, settle]
      cases hs : e.call.step with
      | close => exact hclose _
      | suspend => simp [Event.callCloses, hs] at h
      | done =>
          have hsent : e.sent = false := by simpa [Event.callCloses, hs] using h
          simp only [hsent, if_neg Bool.false_ne_true]
          exact hclose _

/-! ### A closed number has no connection -/

/-- A number that is closed has no connection. -/
def Gone (w : Worker) : Prop := ∀ n, closedSince n w.log = true → w.conns n = none

namespace Gone

variable {w w' : Worker} {fd : Int}

/-- Closing `fd`, with its connection. -/
theorem closed (h : Gone w) (hl : ledger w'.log = .closed fd :: ledger w.log)
    (hc : w'.conns = Function.update w.conns fd none) : Gone w' := by
  intro n hn
  rw [hc, Function.update_apply]
  split
  · rfl
  · rename_i hne
    rw [← closedSince_ledger, hl, closedSince, if_neg (Ne.symm hne), closedSince_ledger] at hn
    exact h n hn

/-- Nothing is closed, and only the connection of a number that is open changes. -/
theorem kept (h : Gone w) (hfd : closedSince fd w.log = false)
    (hl : ledger w'.log = ledger w.log) (hc : ∀ n, n ≠ fd → w'.conns n = w.conns n) : Gone w' := by
  intro n hn
  rw [← closedSince_ledger, hl, closedSince_ledger] at hn
  have hne : n ≠ fd := by
    rintro rfl
    rw [hfd] at hn
    cases hn
  rw [hc n hne]
  exact h n hn

theorem kqClose (h : Gone w) (fd : Int) : Gone (w.kqClose fd) :=
  h.closed (ledger_kqClose w fd) (w.kqClose_conns fd)

theorem refuse (h : Gone w) (fd : Int) (code : Nat) : Gone (w.refuse fd code) := by
  have hnote : Gone { w.note (.status fd w.requests code) with requests := w.requests + 1 } := h
  exact hnote.kqClose fd

theorem settle (h : Gone w) (hfd : closedSince fd w.log = false) (conn : KqConn) (request : Nat)
    (last : Int) (step : Step) (sent : Bool) :
    Gone (w.settle fd conn request last step sent) := by
  have hsent : Gone (w.note (.sent fd request)) := h
  unfold Worker.settle
  cases step with
  | done =>
      simp only
      split
      · exact hsent
      · exact hsent.kqClose fd
  | suspend =>
      refine h.kept hfd ?_ fun n hn => by simp [hn]
      rw [park_log]
      split <;> rfl
  | close =>
      simp only
      split
      · exact hsent.kqClose fd
      · exact h.kqClose fd

theorem run (h : Gone w) (hfd : closedSince fd w.log = false) (conn : KqConn) (request : Nat)
    (call : Call) (sent : Bool) : Gone (w.run fd conn request call sent) := by
  have hkept := register_kept fd request call.watches
    (w.setConn fd (some { conn with out := conn.out ++ call.appended }), -1)
  have hreg : Gone (register fd request call.watches
      (w.setConn fd (some { conn with out := conn.out ++ call.appended }), -1)).1 := by
    refine h.kept hfd (by rw [hkept.2.1]; rfl) fun n hn => ?_
    rw [hkept.1]
    exact Function.update_of_ne hn _ _
  exact hreg.settle (by rw [hkept.2.1]; exact hfd) _ _ _ _ _

theorem kqHandleRequest (h : Gone w) {e : Event} (hfd : closedSince e.fd w.log = false) :
    Gone (w.kqHandleRequest e) := by
  unfold Worker.kqHandleRequest
  cases e.read with
  | noData => exact h
  | clientClosed => exact kqClose (w := w.count 1) h e.fd
  | refused code | failed => exact refuse (w := w.count 1) h e.fd _
  | request buf => exact run (w := (w.count 1).asked e.fd) h hfd _ _ _ _

theorem kqRunCont (h : Gone w) (x : KqWatch) (e : Event) : Gone (w.kqRunCont x e) := by
  unfold Worker.kqRunCont
  cases hc : w.conns x.clientFd with
  | none => exact h
  | some conn =>
      -- the client has a connection, so it is open
      have hfd : closedSince x.clientFd w.log = false := by
        by_contra hclosed
        rw [h _ (by simpa using hclosed)] at hc
        cases hc
      have hpark : Gone ((w.count 1).park x.clientFd conn (-1)) :=
        h.kept hfd (by rw [park_log]; rfl) fun n hn => by simp [hn, count]
      exact hpark.run (by rw [park_log]; exact hfd) _ _ _ _

end Gone

/-! ### Runs -/

/-- No client event comes between the close of its number and the next acceptance of it: the kernel
reports none, and none is left over in the batch that closed it. -/
def Event.Live (w : Worker) (e : Event) : Prop :=
  w.watches e.fd = none → closedSince e.fd w.log = false

/-- With an EOF flag and unread bytes, the request of a client event does not end in a close. -/
def ClosesOnce (w : Worker) (e : Event) : Prop :=
  w.watches e.fd = none → e.eof = true → e.data ≠ 0 → e.readCloses = false

theorem Gone.handle {w : Worker} (h : Gone w) {e : Event} (hlive : e.Live w) :
    Gone (w.handle e) := by
  unfold Worker.handle
  cases hx : w.watches e.fd with
  | some x => exact Gone.kqRunCont (w := w.setWatch e.fd none) h x e
  | none =>
      have hreq := h.kqHandleRequest (hlive hx)
      simp only
      split
      · exact h.kqClose e.fd
      · split
        · exact hreq.kqClose e.fd
        · exact hreq

theorem closedOnce_closing {n : Int} {l : List Mark} (h : closedSince n l = false) :
    ClosedOnce (.closed n :: ledger l) ↔ ClosedOnce (ledger l) := by
  rw [closedOnce_closed, closedSince_ledger]
  exact and_iff_right h

/-- The closes of a client event. -/
theorem closedOnce_client {w : Worker} {e : Event} (hx : w.watches e.fd = none)
    (hlive : closedSince e.fd w.log = false) :
    ClosedOnce (ledger (w.handle e).log) ↔ ClosedOnce (ledger w.log) ∧ ClosesOnce w e := by
  unfold handle
  rw [hx]
  simp only
  by_cases hlast : e.eof = true ∧ e.data = 0
  · -- an end with nothing unread: one close, and nothing is called
    rw [if_pos (by simpa using hlast), ledger_kqClose, closedOnce_closing hlive]
    exact ⟨fun h => ⟨h, fun _ _ hd => absurd hlast.2 hd⟩, And.left⟩
  rw [if_neg (by simpa using hlast)]
  have hreq : ClosedOnce (ledger (w.kqHandleRequest e).log) ↔ ClosedOnce (ledger w.log) := by
    rw [ledger_kqHandleRequest]
    split
    · exact closedOnce_closing hlive
    · rfl
  by_cases heof : e.eof = true
  · by_cases hread : e.readCloses = true
    · -- the loop closes again what the request has closed
      rw [parked_of_readCloses hread, if_pos (by simp [heof]), ledger_kqClose,
        ledger_kqHandleRequest, if_pos hread, closedOnce_closed]
      simp only [closedSince, if_true, Bool.true_eq_false, false_and, false_iff, not_and]
      intro _ honce
      have := honce hx heof fun hd => hlast ⟨heof, hd⟩
      rw [hread] at this
      cases this
    · have hread : e.readCloses = false := by simpa using hread
      have honce : ClosesOnce w e := fun _ _ _ => hread
      rw [← hreq]
      split
      · -- the request left the number open, and only the loop closes it
        rw [ledger_kqClose, ledger_kqHandleRequest, hread, if_neg Bool.false_ne_true,
          closedOnce_closing hlive]
        exact ⟨fun h => ⟨h, honce⟩, And.left⟩
      · exact ⟨fun h => ⟨h, honce⟩, And.left⟩
  · rw [if_neg (by simp [heof]), hreq]
    exact ⟨fun h => ⟨h, fun _ he => absurd he heof⟩, And.left⟩

/-- **The closes of one event**: the log stays one close for each acceptance exactly when the event
does not close twice. -/
theorem closedOnce_handle {w : Worker} (hgone : Gone w) {e : Event} (hlive : e.Live w) :
    ClosedOnce (w.handle e).log ↔ ClosedOnce w.log ∧ ClosesOnce w e := by
  rw [← closedOnce_ledger, ← closedOnce_ledger w.log]
  cases hx : w.watches e.fd with
  | none => exact closedOnce_client hx (hlive hx)
  | some x =>
      have honce : ClosesOnce w e := fun h => by rw [hx] at h; cases h
      have hone : ClosedOnce (ledger (w.handle e).log) ↔ ClosedOnce (ledger w.log) := by
        unfold handle
        rw [hx]
        simp only
        rw [ledger_kqRunCont]
        split
        · rename_i hc
          -- a client with a connection is open
          refine closedOnce_closing (l := w.log) (by_contra fun hclosed => ?_)
          have hnone : w.conns x.clientFd = none := hgone _ (by simpa using hclosed)
          rw [show (w.setWatch e.fd none).conns x.clientFd = none from hnone] at hc
          cases hc
        · rfl
      rw [hone]
      exact ⟨fun h => ⟨h, honce⟩, And.left⟩

theorem gone_reach {hs : List Happening} (hlive : Throughout (fun w e => e.Live w) hs) :
    Gone (reach hs) := by
  induction hs using List.reverseRecOn with
  | nil => exact nofun
  | append_singleton hs h ih =>
      rw [reach_snoc]
      cases h with
      | accept fd =>
          -- an acceptance opens its number and touches no connection
          intro n hn
          refine ih ((throughout_accept hs).mp hlive) n ?_
          change closedSince n (.accepted fd :: _) = true at hn
          rw [closedSince] at hn
          split at hn
          · cases hn
          · exact hn
      | event e =>
          obtain ⟨hold, hnew⟩ := (throughout_event hs).mp hlive
          exact (ih hold).handle hnew

/-- **The worker closes an accepted connection at most once.**  Where no client event comes between
the close of its number and the next acceptance of it, these are exactly the runs in which no event
with an EOF flag and unread bytes has a request that ends in a close. -/
theorem closed_once_iff (hs : List Happening)
    (hlive : Throughout (fun w e => e.Live w) hs) :
    ClosedOnce (reach hs).log ↔ Throughout ClosesOnce hs := by
  induction hs using List.reverseRecOn with
  | nil => exact ⟨fun _ => throughout_nil, fun _ n a b c hl => by simp [reach] at hl⟩
  | append_singleton hs h ih =>
      rw [reach_snoc]
      cases h with
      | accept fd =>
          have hlive := (throughout_accept hs).mp hlive
          change ClosedOnce (.accepted fd :: (reach hs).log) ↔ _
          rw [closedOnce_cons, throughout_accept, ih hlive]
          exact ⟨And.right, fun h => ⟨fun _ hn => (by cases hn), h⟩⟩
      | event e =>
          obtain ⟨hold, hnew⟩ := (throughout_event hs).mp hlive
          change ClosedOnce ((reach hs).handle e).log ↔ _
          rw [closedOnce_handle (gone_reach hold) hnew, throughout_event, ih hold]

/-- A client that is answered half closed, and the next one of its number, whose request is
refused. -/
def reused : List Happening :=
  [.accept 5,
    .event { fd := 5, eof := true, data := 18, read := .request [], call := { step := .done } },
    .accept 5,
    .event { fd := 5, data := 18, read := .refused 400, call := { step := .done } }]

theorem closed_once_iff_reused :
    Throughout (fun w e => e.Live w) reused ∧ Throughout ClosesOnce reused ∧
      ClosedOnce (reach reused).log ∧ .closed 5 ∈ (reach reused).log := by
  have hevents : ∀ Q : Worker → Event → Prop, Q (reach [.accept 5])
        { fd := 5, eof := true, data := 18, read := .request [], call := { step := .done } } →
      Q (reach (reused.take 3))
        { fd := 5, data := 18, read := .refused 400, call := { step := .done } } →
      Throughout Q reused := by
    intro Q h₁ h₂
    have htwo : Throughout Q ([.accept 5] ++ [.event _]) :=
      (throughout_event _).mpr ⟨(throughout_accept []).mpr throughout_nil, h₁⟩
    exact (throughout_event (reused.take 3)).mpr ⟨(throughout_accept _).mpr htwo, h₂⟩
  have hlive : Throughout (fun w e => e.Live w) reused :=
    hevents _ (fun _ => by decide) fun _ => by decide
  have honce : Throughout ClosesOnce reused :=
    hevents _ (fun _ _ _ => by decide) fun _ h => by cases h
  exact ⟨hlive, honce, (closed_once_iff reused hlive).mpr honce, by decide⟩

/-- A client that sends a request and shuts down its side, answered with `.close`: the number is
closed by `kq_handle_request` and closed again by the loop. -/
def halfClosed : List Happening :=
  [.accept 5, .event
    { fd := 5, eof := true, data := 18, read := .request [], call := { step := .close } }]

theorem half_closed_twice : ¬ ClosedOnce (reach halfClosed).log := by
  intro h
  have hlog : (reach halfClosed).log =
      [.closed 5, .closed 5, .called 5 0, .cleared 5, .accepted 5] := by decide
  have := h 5 [] [] _ hlog
  cases this

end Vanilla.Kqueue

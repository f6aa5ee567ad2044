import Vanilla.PgAsync.Blocking
import Vanilla.PgAsync.Replies

/-!
# PostgreSQL — the two query paths

`async_on_readable` and `query` read the same replies.  One stops at the end of a reply and looks at
the text of the error it has kept, the other has a flag; one goes on with what has arrived behind a
FATAL, the other returns at it.

* `asyncOutcome_eq`: what the non-blocking path comes to, said of the stream.
* `paths_agree_iff`: the paths agree on a stream, however it is cut, if and only if the last
  ErrorResponse of the reply has a text.
-/

namespace Vanilla.PgAsync
open PgConn

open Scan (Stop Framing)
open Scan.Framing (Inside Complete Reads)

/-! ### Readiness events -/

/-- What a call of `async_on_readable` comes to; `none` is not ready. -/
def pollOutcome : Except QueryError (Option Result) → Option QueryOutcome
  | .ok none => none
  | .ok (some res) => some (.success res.rowsAffected res.rows)
  | .error _ => some .failure

/-- The non-blocking path: a call at each readiness event, until one completes the query. -/
def asyncOutcome : PgConn → List (List Recv) → QueryOutcome
  | _, [] => .blocked
  | c, script :: scripts =>
    let r := c.asyncOnReadable script
    (pollOutcome r.1.poll).getD (asyncOutcome r.2 scripts)

/-- The readiness events bring the stream `b`; if it is closed, the last of them finds its end. -/
inductive Feeds : List UInt8 → Bool → List (List Recv) → Prop where
  | nil : Feeds [] false []
  | last {script : List Recv} (h : Recv.ending script = .eof) :
      Feeds (Recv.arrived script) true [script]
  | cons {script : List Recv} {b : List UInt8} {closed : Bool} {scripts : List (List Recv)}
      (h : ¬ Lossy script) (t : Feeds b closed scripts) :
      Feeds (Recv.arrived script ++ b) closed (script :: scripts)

/-- All of `b` in one piece. -/
def Recv.piece (b : List UInt8) (script : List Recv) : List Recv :=
  match b with
  | [] => script
  | x :: xs => .data x xs :: script

/-- The last ErrorResponse among some messages. -/
def lastError (ms : List Msg) : Option Msg := (ms.filter isError).getLast?

/-- The text of the last ErrorResponse, or `e` if there is none. -/
def errorText (e : List UInt8) (ms : List Msg) : List UInt8 :=
  match lastError ms with
  | none => e
  | some m => (parseErrorResponse m.payload).message

theorem errorText_cons (e : List UInt8) (m : Msg) (ms : List Msg) :
    errorText e (m :: ms) =
      errorText (if isError m then (parseErrorResponse m.payload).message else e) ms := by
  unfold errorText lastError
  by_cases hm : isError m = true
  · rw [List.filter_cons_of_pos hm, List.getLast?_cons, if_pos hm]
    cases (ms.filter isError).getLast? <;> rfl
  · rw [List.filter_cons_of_neg hm, if_neg hm]

theorem errorText_append (e : List UInt8) (ms ms' : List Msg) :
    errorText e (ms ++ ms') = errorText (errorText e ms) ms' := by
  induction ms generalizing e with
  | nil => rfl
  | cons m ms ih => rw [List.cons_append, errorText_cons, ih, ← errorText_cons]

theorem affected_append (n : Nat) (ms ms' : List Msg) :
    affected n (ms ++ ms') = affected (affected n ms) ms' := by
  simp [affected]

namespace PendingQuery

theorem onMessage_error (q : PendingQuery) (frames : List UInt8) (m : Msg) :
    (q.onMessage frames m).error =
      if isError m then (parseErrorResponse m.payload).message else q.error := by
  unfold onMessage isError
  split
  · rename_i h
    rw [h]
    rfl
  · split
    · rename_i h
      rw [h]
      rfl
    · rename_i h
      rw [if_neg (by simpa using h)]

theorem onMessage_rowsAffected (q : PendingQuery) (frames : List UInt8) (m : Msg) :
    (q.onMessage frames m).rowsAffected = affected q.rowsAffected [m] := by
  unfold onMessage affected
  split
  · rename_i h
    simp [h]
  · rename_i h
    split <;> simp [h]

theorem onMessages_error (q : PendingQuery) (frames : List UInt8) (ms : List Msg) :
    (q.onMessages frames ms).error = errorText q.error ms := by
  induction ms generalizing q frames with
  | nil => rfl
  | cons m ms ih => rw [onMessages, ih, onMessage_error, errorText_cons]

theorem onMessages_rowsAffected (q : PendingQuery) (frames : List UInt8) (ms : List Msg) :
    (q.onMessages frames ms).rowsAffected = affected q.rowsAffected ms := by
  induction ms generalizing q frames with
  | nil => rfl
  | cons m ms ih =>
      rw [onMessages, ih, onMessage_rowsAffected, ← affected_append]
      rfl

end PendingQuery

/-! ### The non-blocking path -/

/-- One query in flight, which has taken the messages `ms` of its reply. -/
structure Awaits (c : PgConn) (q : PendingQuery) (ms : List Msg) : Prop where
  ready : c.state = .ready
  inflight : c.inflight = [q]
  slot : q.frameSlot < c.framePool.length
  frames : c.framesOf q = framing.encs ms
  error : q.error = errorText [] ms
  rows : q.rowsAffected = affected 0 ms
  inside : Inside framing isReady ms
  alive : ms.any fatalMsg = false
  next : framing.next c.recv.rest = none

namespace Awaits

variable {c c₁ c' : PgConn} {q q' : PendingQuery} {ms ms' : List Msg} {script : List Recv}

section Read

variable (hw : Awaits c q ms) (hf : Filled c script c₁)
include hw hf

theorem slot_filled : q.frameSlot < c₁.framePool.length := by
  rw [hf.queue.pool]
  exact hw.slot

variable (ht : PgConn.Took c₁ q [] ms' q' c')
include ht

theorem took_frames : c'.framesOf q' = framing.encs (ms ++ ms') := by
  rw [ht.frames (hw.slot_filled hf), hf.queue.framesOf, hw.frames, Framing.encs_append]

theorem took_error : q'.error = errorText [] (ms ++ ms') := by
  rw [ht.front (hw.slot_filled hf), PendingQuery.onMessages_error, hw.error, errorText_append]

theorem took_rows : q'.rowsAffected = affected 0 (ms ++ ms') := by
  rw [ht.front (hw.slot_filled hf), PendingQuery.onMessages_rowsAffected, hw.rows, affected_append]

/-- The query goes on waiting. -/
theorem waiting (hin : Inside framing isReady ms') (hnext : framing.next c'.recv.rest = none)
    (hs : c'.state = .ready) : Awaits c' q' (ms ++ ms') where
  ready := hs
  inflight := ht.inflight
  slot := by rw [ht.slot, ht.length, hf.queue.pool]; exact hw.slot
  frames := hw.took_frames hf ht
  error := hw.took_error hf ht
  rows := hw.took_rows hf ht
  inside := hw.inside.append hin
  alive := by
    have hms := (ht.state.mp hs).2
    rw [List.any_append, hw.alive, Bool.false_or, List.any_eq_false]
    intro m hm
    rw [hms m hm]
    decide
  next := hnext

/-- The query is complete: what it comes to is what its whole reply does, if the last
ErrorResponse in it has a text. -/
theorem complete (hms : Complete framing isReady ms') :
    pollOutcome (Call.byReady q' (c'.framesOf q')).poll =
      some (if errorText [] (ms ++ ms') = [] then
        .success (affected 0 (ms ++ ms')) (dataRows (ms ++ ms')) else .failure) := by
  have hfits : ∀ m ∈ ms ++ ms', m.Fits := by
    obtain ⟨init, m, he, hin, hok, -⟩ := hw.inside.complete hms
    rw [he]
    intro m' hm'
    rcases List.mem_append.mp hm' with hm' | hm'
    · exact (hin m' hm').1
    · rw [List.mem_singleton.mp hm']
      exact hok
  simp only [Call.poll, hw.took_error hf ht, hw.took_rows hf ht, hw.took_frames hf ht]
  by_cases he : errorText [] (ms ++ ms') = []
  · rw [if_neg (not_not.mpr he), if_pos he, pollOutcome, rows_encs hfits]
  · rw [if_pos he, if_neg he]
    rfl

end Read

/-- How a call ends, by what is in front of the stream. -/
inductive Ends (c : PgConn) (ms : List Msg) (script : List Recv) : Call × PgConn → Prop where
  | complete {ms' : List Msg} {r : List UInt8} {k : Call × PgConn}
      (hfirst : framing.first isReady (c.unread script) = (ms', .done r))
      (hpoll : pollOutcome k.1.poll = some (if errorText [] (ms ++ ms') = [] then
        .success (affected 0 (ms ++ ms')) (dataRows (ms ++ ms')) else .failure)) :
      Ends c ms script k
  | fails {ms' : List Msg} {r : List UInt8} {k : Call × PgConn}
      (hfirst : framing.first isReady (c.unread script) = (ms', .more r))
      (hlost : Lossy script ∨ ms'.any fatalMsg = true)
      (hpoll : pollOutcome k.1.poll = some .failure) : Ends c ms script k
  | waits {ms' : List Msg} {q' : PendingQuery} {c' : PgConn}
      (hfirst : framing.first isReady (c.unread script) = (ms', .more c'.recv.rest))
      (hopen : ¬ Lossy script) (halive : ms'.any fatalMsg = false)
      (hw : Awaits c' q' (ms ++ ms')) : Ends c ms script (.notReady, c')

theorem call (hw : Awaits c q ms) (script : List Recv) :
    Ends c ms script (c.asyncOnReadable script) := by
  have hans := c.asyncOnReadable_spec script
  have hreads : Reads framing isReady (c.unread script) _ _ := Framing.first_reads _
  generalize c.asyncOnReadable script = r at hans
  cases hans with
  | idle hf hq | gone hf hq =>
      rw [hw.inflight] at hq
      cases hq
  | @ready c₁ c' q₁ q' qs ms' hf hq hfirst ht =>
      rw [hw.inflight] at hq
      cases hq
      refine .complete hfirst ?_
      rw [hfirst] at hreads
      generalize c.unread script = u at hreads
      cases hreads with
      | done hms => exact hw.complete hf ht hms
  | @waiting c₁ c' q₁ q' qs ms' hf hq hfirst ht hs =>
      rw [hw.inflight] at hq
      cases hq
      have hc₁ := ht.state.mp hs
      have hw' : Awaits c' q' (ms ++ ms') := by
        rw [hfirst] at hreads
        generalize c.unread script = u at hreads
        cases hreads with
        | more hin hnext => exact hw.waiting hf ht hin hnext hs
      have halive := hw'.alive
      rw [List.any_append, Bool.or_eq_false_iff] at halive
      exact .waits hfirst (hf.state.mp hc₁.1).2 halive.2 hw'
  | @fails c₁ c' q₁ q' qs ms' hf hq hfirst ht hs =>
      rw [hw.inflight] at hq
      cases hq
      refine .fails hfirst ?_ rfl
      -- the connection was live: the script or a message of this call lost it
      by_contra hno
      rw [not_or] at hno
      refine hs (ht.state.mpr ⟨hf.state.mpr ⟨hw.ready, hno.1⟩, fun m hm => ?_⟩)
      have := hno.2
      rw [Bool.not_eq_true, List.any_eq_false] at this
      exact Bool.eq_false_iff.mpr (this m hm)

end Awaits

/-- A stream that answers one query: it ends in its ReadyForQuery, in a FATAL or PANIC error, or
where the server closes. -/
inductive AnswersQuery : List UInt8 → Bool → Prop where
  | ready {ms : List Msg} (h : Complete framing isReady ms) (closed : Bool) :
      AnswersQuery (framing.encs ms) closed
  | fatal {ms : List Msg} {m : Msg} (h : Inside framing isReady ms) (hok : m.Fits)
      (hf : fatalMsg m = true) (closed : Bool) : AnswersQuery (framing.encs (ms ++ [m])) closed
  | eof (b : List UInt8) : AnswersQuery b true

theorem fatalMsg_not_ready {m : Msg} (h : fatalMsg m = true) : isReady m = false := by
  simp only [fatalMsg, Bool.and_eq_true, beq_iff_eq] at h
  rw [isReady, h.1]
  decide

theorem AnswersQuery.ends {b : List UInt8} {closed : Bool} (h : AnswersQuery b closed) :
    closed = true ∨ (framing.first isReady b).1.any fatalMsg = true ∨
      ∃ r, (framing.first isReady b).2 = .done r := by
  cases h with
  | @ready ms h closed =>
      have := Framing.first_complete h []
      rw [List.append_nil] at this
      exact .inr (.inr ⟨[], by rw [this]⟩)
  | @fatal ms m h hok hf closed =>
      have hin : Inside framing isReady (ms ++ [m]) := by
        refine h.append fun m' hm' => ?_
        rw [List.mem_singleton.mp hm']
        exact ⟨hok, fatalMsg_not_ready hf⟩
      have := Framing.first_encs hin []
      rw [List.append_nil] at this
      refine .inr (.inl ?_)
      rw [this]
      simp [hf]
  | eof => exact .inl rfl

/-- Live, with nothing in flight and nothing unread. -/
structure Idle (c : PgConn) : Prop where
  inflight : c.inflight = []
  rest : c.recv.rest = []
  ring : c.frameRing < c.inflightLimit

/-- The two paths come to the same on a stream, a result or an error, however it is cut. -/
def SameOutcome (c : PgConn) (s : Stmt) (b : List UInt8) (closed : Bool) : Prop :=
  ∀ scripts pieces, Feeds b closed scripts → pieces.flatten = b →
    ∃ o, (o = .failure ∨ ∃ n rows, o = .success n rows) ∧
      asyncOutcome (c.asyncSubmit s).2 scripts = o ∧
      (c.query { pieces := pieces, closed := closed }).1.outcome = o

end Vanilla.PgAsync

import Vanilla.Http2.Conn

/-!
# HTTP/2 — runs of a connection

What can be done to a connection: `consume` is called with a buffer, a response is written, a
stream is aborted.  A run (`runCalls`) makes such calls one after the other, up to the first one
that reports close.

A call of `consume` handles several frames.  The history of a run therefore lists what happened one
event at a time, each with the connection it found, and `Trace` says that these follow from one
another.  What a single event keeps holds along every run: a proof is by induction on the trace.

* `Trace.rule`: what holds at first and survives every event holds along a trace.
* `step_more`, `run_more`: what `consume` does with a buffer it does with a longer one.
* `runCalls_trace`: a run is a trace.
-/

namespace Vanilla.Http2
open Scan ConsumeState

/-! ### Events -/

/-- A call that writes to a stream. -/
inductive Write where
  | headers (id : Nat) (block : List UInt8) (endStream : Bool)
  | body (id : Nat) (bytes : List UInt8) (endStream : Bool)
  | data (id : Nat) (bytes : List UInt8)
  | trailers (id : Nat) (block : List UInt8)
  | abort (id : Nat) (code : ErrorCode)

namespace Write

def streamId : Write → Nat
  | headers id _ _ => id
  | body id _ _ => id
  | data id _ => id
  | trailers id _ => id
  | abort id _ => id

def exec (c : ServerConn) : Write → Reply
  | headers id block endStream => c.writeResponseHeaders id block endStream
  | body id bytes endStream => c.writeResponseBody id bytes endStream
  | data id bytes => c.writeResponseData id bytes
  | trailers id block => c.writeResponseTrailers id block
  | abort id code => c.abortStream id code

end Write

/-- What happens to a connection: the preface is read, a frame is received, a call writes. -/
inductive Event where
  | preface
  | recv (f : Frame)
  | write (w : Write)

def Event.exec (c : ServerConn) : Event → Reply
  | preface => { conn := { c with prefaceSeen := true } }
  | recv f => c.frame f
  | write w => w.exec c

/-- An event, and the connection it found. -/
structure Done where
  before : ServerConn
  event : Event

namespace Done

def reply (d : Done) : Reply := d.event.exec d.before

/-- The event was no error of the connection. -/
def Ok (d : Done) : Prop := d.reply.code = .noError

end Done

/-- The events of a history follow from one another, each error of the connection being the last
event. -/
inductive Trace (c₀ : ServerConn) : List Done → ServerConn → Prop where
  | nil : Trace c₀ [] c₀
  | snoc {h : List Done} {c : ServerConn} (t : Trace c₀ h c) (hok : ∀ d ∈ h, d.Ok) (e : Event) :
      Trace c₀ (h ++ [⟨c, e⟩]) (e.exec c).conn

theorem Trace.append {c₀ c c' : ServerConn} {h h' : List Done} (t : Trace c₀ h c)
    (hok : ∀ d ∈ h, d.Ok) (t' : Trace c h' c') : Trace c₀ (h ++ h') c' := by
  induction t' with
  | nil => rwa [List.append_nil]
  | snoc t' hok' e ih =>
      rw [← List.append_assoc]
      refine .snoc ih (fun d hd => ?_) e
      rcases List.mem_append.mp hd with hd | hd
      · exact hok d hd
      · exact hok' d hd

/-- **The rule for traces without errors.**  What holds at first and survives the preface, every
frame that is no error and every write holds at the end. -/
theorem Trace.rule {c₀ c : ServerConn} {h : List Done} {P : ServerConn → Prop} (h₀ : P c₀)
    (hpreface : ∀ c, P c → P (Event.preface.exec c).conn)
    (hframe : ∀ c f, P c → (c.frame f).code = .noError → P (c.frame f).conn)
    (hwrite : ∀ c w, P c → P (Write.exec c w).conn) (t : Trace c₀ h c) (hok : ∀ d ∈ h, d.Ok) :
    P c := by
  induction t with
  | nil => exact h₀
  | @snoc h c t hok' e ih =>
      have hc := ih hok'
      have he : Done.Ok ⟨c, e⟩ := hok _ (by simp)
      cases e with
      | preface => exact hpreface c hc
      | recv f => exact hframe c f hc he
      | write w => exact hwrite c w hc

/-- Where a list with one more element can be cut. -/
theorem snoc_eq_append_cons {α : Type} {l l₁ l₂ : List α} {x y : α}
    (h : l ++ [x] = l₁ ++ y :: l₂) :
    l = l₁ ∧ x = y ∧ l₂ = [] ∨ ∃ l', l = l₁ ++ y :: l' ∧ l₂ = l' ++ [x] := by
  rcases l₂.eq_nil_or_concat with rfl | ⟨l', z, rfl⟩
  · obtain ⟨rfl, hx⟩ := List.append_inj' h rfl
    exact .inl ⟨rfl, List.singleton_inj.mp hx, rfl⟩
  · rw [List.concat_eq_append, ← List.cons_append, ← List.append_assoc] at h
    obtain ⟨rfl, hx⟩ := List.append_inj' h rfl
    exact .inr ⟨l', rfl, by rw [List.concat_eq_append, hx]⟩

/-- A trace up to one of its events, and from there on. -/
theorem Trace.cut {c₀ c : ServerConn} {h₁ h₂ : List Done} {d : Done}
    (t : Trace c₀ (h₁ ++ d :: h₂) c) :
    Trace c₀ h₁ d.before ∧ (∀ d ∈ h₁, d.Ok) ∧ Trace d.reply.conn h₂ c := by
  generalize he : h₁ ++ d :: h₂ = h at t
  induction t generalizing h₂ with
  | nil => simp at he
  | @snoc h c t hok e ih =>
      rcases snoc_eq_append_cons he.symm with ⟨rfl, rfl, rfl⟩ | ⟨h', rfl, rfl⟩
      · exact ⟨t, hok, .nil⟩
      · obtain ⟨t₁, hok₁, t₂⟩ := ih rfl
        exact ⟨t₁, hok₁, .snoc t₂ (fun d' hd' => hok d' (by simp [hd'])) e⟩

/-- What is before an event of a trace. -/
theorem Trace.before {c₀ c : ServerConn} {h : List Done} (t : Trace c₀ h c) {d : Done}
    (hd : d ∈ h) : ∃ h₁ h₂, h = h₁ ++ d :: h₂ ∧ Trace c₀ h₁ d.before ∧ ∀ d ∈ h₁, d.Ok := by
  obtain ⟨h₁, h₂, rfl⟩ := List.append_of_mem hd
  obtain ⟨t₁, hok₁, -⟩ := t.cut
  exact ⟨h₁, h₂, rfl, t₁, hok₁⟩

/-- A trace has no error, or one at its end. -/
theorem Trace.last {c₀ c : ServerConn} {h : List Done} (t : Trace c₀ h c) :
    (∀ d ∈ h, d.Ok) ∨ ∃ h' d, h = h' ++ [d] ∧ Trace c₀ h' d.before ∧ (∀ d ∈ h', d.Ok) ∧
      ¬ d.Ok ∧ c = d.reply.conn := by
  cases t with
  | nil => exact .inl fun d hd => (by cases hd)
  | @snoc h c t hok e =>
      by_cases he : Done.Ok ⟨c, e⟩
      · refine .inl fun d hd => ?_
        rcases List.mem_append.mp hd with hd | hd
        · exact hok d hd
        · rwa [List.mem_singleton.mp hd]
      · exact .inr ⟨h, _, rfl, t, hok, he, rfl⟩

/-- The frames handled by a call, as events. -/
def events (l : List Handled) : List Done := l.map fun d => ⟨d.before, .recv d.frame⟩

theorem writeResponseBody_ok (c : ServerConn) (id : Nat) (bytes : List UInt8) (endStream : Bool) :
    (c.writeResponseBody id bytes endStream).code = .noError := by
  unfold ServerConn.writeResponseBody
  split
  · rfl
  · split
    · split <;> rfl
    · dsimp only
      split <;> rfl

/-- Writing is never an error of the connection. -/
theorem write_ok (c : ServerConn) (w : Write) : (w.exec c).code = .noError := by
  cases w with
  | headers => rfl
  | abort => rfl
  | body id bytes endStream => exact writeResponseBody_ok c id bytes endStream
  | data id bytes => exact writeResponseBody_ok c id bytes true
  | trailers id block =>
      show (c.writeResponseTrailers id block).code = _
      unfold ServerConn.writeResponseTrailers
      split
      · rfl
      · split <;> rfl

/-! ### Frames at the head of a buffer -/

theorem parseFrameHeader_append {b : List UInt8} {fh : FrameHeader} (x : List UInt8)
    (h : parseFrameHeader b = some fh) :
    parseFrameHeader (b ++ x) = some fh ∧ frameHeaderLen ≤ b.length := by
  unfold parseFrameHeader at h ⊢
  split at h
  · cases h
  · rename_i hlen
    have hle : 9 ≤ b.length := Nat.le_of_not_lt hlen
    refine ⟨?_, hle⟩
    rw [if_neg (by rw [List.length_append]; omega), ← h]
    rw [List.take_append_of_le_length (by omega), List.drop_append_of_le_length (by omega),
      List.take_append_of_le_length (by rw [List.length_drop]; omega)]
    simp only [List.getD_eq_getElem?_getD, List.getElem?_append_left (show 3 < b.length by omega),
      List.getElem?_append_left (show 4 < b.length by omega)]

/-- A complete frame is the same with more bytes behind it. -/
theorem headFrame_frame {b rest : List UInt8} {f : Frame} (h : headFrame b = .frame f rest) :
    rest.length < b.length ∧ ∀ x, headFrame (b ++ x) = .frame f (rest ++ x) := by
  unfold headFrame at h
  split at h
  · cases h
  · rename_i fh hfh
    split at h
    · cases h
    · split at h
      · cases h
      · rename_i hsize hlen
        cases h
        refine ⟨?_, fun x => ?_⟩
        · rw [List.length_drop]
          have : 0 < frameHeaderLen := by decide
          omega
        · obtain ⟨hfh', -⟩ := parseFrameHeader_append x hfh
          unfold headFrame
          rw [hfh']
          dsimp only
          rw [if_neg hsize, if_neg (by rw [List.length_append]; omega),
            List.drop_append_of_le_length (by omega), List.drop_append_of_le_length (by omega),
            List.take_append_of_le_length (by rw [List.length_drop]; omega)]

theorem headFrame_tooLarge {b : List UInt8} (h : headFrame b = .tooLarge) (x : List UInt8) :
    headFrame (b ++ x) = .tooLarge := by
  unfold headFrame at h
  split at h
  · cases h
  · rename_i fh hfh
    split at h
    · rename_i hsize
      unfold headFrame
      rw [(parseFrameHeader_append x hfh).1]
      exact if_pos hsize
    · split at h <;> cases h

/-! ### The loop of `consume` -/

/-- A call with frames handled before and with more bytes behind its buffer. -/
def Consumed.more (r : Consumed) (l : List Handled) (x : List UInt8) : Consumed :=
  { r with rest := r.rest ++ x, handled := l ++ r.handled }

namespace ConsumeState

/-- The loop with frames handled before and with more bytes behind its buffer. -/
def more (s : ConsumeState) (l : List Handled) (x : List UInt8) : ConsumeState :=
  { s with rest := s.rest ++ x, handled := l ++ s.handled }

variable {s s' : ConsumeState} {r : Consumed}

theorem handle_more (s : ConsumeState) (f : Frame) (rest x : List UInt8) (l : List Handled) :
    (s.more l x).handle f (rest ++ x) = (s.handle f rest).more l x := by
  simp [handle, more]

/-- **One pass of `consume`**: it waits, closes, skips a frame of no known type, or hands a frame
over, which may close. -/
inductive Pass (s : ConsumeState) : Turn ConsumeState Consumed → Prop where
  | wait (h : headFrame s.rest = .wait) : Pass s (.exit s.wait)
  | refuse (code : ErrorCode) : Pass s (.exit (s.goaway code))
  | skip {f : Frame} {rest : List UInt8} (h : headFrame s.rest = .frame f rest) :
      Pass s (.next { s with rest := rest })
  | handle {f : Frame} {rest : List UInt8} (h : headFrame s.rest = .frame f rest)
      (hok : (s.conn.frame f).code = .noError) : Pass s (.next (s.handle f rest))
  | fail {f : Frame} {rest : List UInt8} (code : ErrorCode) :
      Pass s (.exit ((s.handle f rest).goaway code))

theorem step_pass (s : ConsumeState) : Pass s s.step := by
  unfold step
  split
  · rename_i h
    exact .wait h
  · exact .refuse _
  · rename_i f rest h
    split
    · split
      · exact .refuse _
      · exact .skip h
    · dsimp only
      split
      · exact .fail _
      · rename_i hc
        exact .handle h (not_not.mp hc)

/-- A pass that does not wait is the same with frames before and bytes behind. -/
theorem step_more (h : headFrame s.rest ≠ .wait) (l : List Handled) (x : List UInt8) :
    (s.more l x).step = s.step.map (more · l x) (Consumed.more · l x) := by
  unfold step
  cases hh : headFrame s.rest with
  | wait => exact absurd hh h
  | tooLarge =>
      rw [show headFrame (s.more l x).rest = .tooLarge from headFrame_tooLarge hh x]
      rfl
  | frame f rest =>
      rw [show headFrame (s.more l x).rest = .frame f (rest ++ x) from (headFrame_frame hh).2 x]
      dsimp only
      rw [handle_more, apply_ite (Turn.map _ _), apply_ite (Turn.map _ _), apply_ite (Turn.map _ _)]
      rfl

theorem step_descends : Descends step (·.rest.length) fun _ => True := by
  intro s s' _ e
  have hp := step_pass s
  rw [e] at hp
  cases hp with
  | skip h => exact ⟨trivial, (headFrame_frame h).1⟩
  | handle h => exact ⟨trivial, (headFrame_frame h).1⟩

theorem run_next (e : s.step = .next s') : s.run = s'.run := by
  rw [run, loop_next step_descends trivial e]
  exact loop_out step_descends trivial _

theorem run_exit (e : s.step = .exit r) : s.run = r := loop_exit e

/-- What every return and every pass of the loop establishes holds of a call. -/
theorem run_rule {P : ConsumeState → Consumed → Prop}
    (hexit : ∀ s r, s.step = .exit r → P s r)
    (hnext : ∀ s s' r, s.step = .next s' → P s' r → P s r) (s : ConsumeState) : P s s.run :=
  loop_rule step_descends (fun s r _ e => hexit s r e) (fun s s' r _ e h => hnext s s' r e h)
    trivial

/-- **Frames before and bytes behind.**  A call that closes is the same; one that waits goes on
from where it waits. -/
theorem run_more (s : ConsumeState) (l : List Handled) (x : List UInt8) :
    (s.run.close = true → (s.more l x).run = s.run.more l x) ∧
      (s.run.close = false → (s.more l x).run =
        (mk s.run.conn s.run.rest s.run.handled |>.more l x).run) := by
  refine run_rule (P := fun s r => (r.close = true → (s.more l x).run = r.more l x) ∧
      (r.close = false →
        (s.more l x).run = (mk r.conn r.rest r.handled |>.more l x).run))
    (fun s r e => ?_) (fun s s' r e ih => ?_) s
  · by_cases h : headFrame s.rest = .wait
    · obtain rfl : s.wait = r := by
        simpa [step, h] using e
      exact ⟨fun hc => (by cases hc), fun _ => rfl⟩
    · have hm := step_more h l x
      rw [e] at hm
      refine ⟨fun _ => run_exit hm, fun hc => ?_⟩
      have hp := step_pass s
      rw [e] at hp
      cases hp with
      | wait h' => exact absurd h' h
      | refuse code => cases hc
      | fail code => cases hc
  · have h : headFrame s.rest ≠ .wait := by
      intro h
      simp [step, h] at e
    have hm := step_more h l x
    rw [e] at hm
    rw [run_next hm]
    exact ih

/-- A call that does not close waits, with no complete frame left. -/
theorem run_waits (s : ConsumeState) :
    s.run.close = false → ∃ s' : ConsumeState, s.run = s'.wait ∧ headFrame s'.rest = .wait :=
  run_rule
    (P := fun _ r =>
      r.close = false → ∃ s' : ConsumeState, r = s'.wait ∧ headFrame s'.rest = .wait)
    (fun s r e hc => by
      have hp := step_pass s
      rw [e] at hp
      cases hp with
      | wait h => exact ⟨s, rfl, h⟩
      | refuse code => cases hc
      | fail code => cases hc)
    (fun _ _ _ _ ih => ih) s

theorem run_wait (h : headFrame s.rest = .wait) : s.run = s.wait :=
  run_exit (by rw [step, h])

/-- The frames handled before have no part in what is handled next. -/
theorem run_handled (c : ServerConn) (rest : List UInt8) (l : List Handled) :
    run ⟨c, rest, l⟩ = (run ⟨c, rest, []⟩).more l [] := by
  have hl : mk c rest l = (mk c rest []).more l [] := by simp [more]
  obtain ⟨hclose, hwait⟩ := run_more ⟨c, rest, []⟩ l []
  rw [hl]
  cases hc : (run ⟨c, rest, []⟩).close with
  | true => exact hclose hc
  | false =>
      obtain ⟨s', hs', hw⟩ := run_waits _ hc
      rw [hwait hc, hs', run_wait (by simpa [more, wait] using hw)]
      rfl

theorem events_handle (s : ConsumeState) (f : Frame) (rest : List UInt8) :
    events (s.handle f rest).handled = events s.handled ++ [⟨s.conn, .recv f⟩] := by
  simp [events, handle]

theorem trace_handle {c : ServerConn} (ht : Trace c (events s.handled) s.conn)
    (hok : ∀ d ∈ events s.handled, d.Ok) (f : Frame) (rest : List UInt8) :
    Trace c (events (s.handle f rest).handled) (s.handle f rest).conn := by
  rw [events_handle]
  exact .snoc ht hok (.recv f)

/-- The frames a call handles, as events, are a trace, and unless it closes none of them was an
error of the connection. -/
theorem run_trace (c : ServerConn) (buf : List UInt8) :
    Trace c (events (run ⟨c, buf, []⟩).handled) (run ⟨c, buf, []⟩).conn ∧
      ((run ⟨c, buf, []⟩).close = false →
        ∀ d ∈ events (run ⟨c, buf, []⟩).handled, d.Ok) := by
  refine run_rule (P := fun s r => Trace c (events s.handled) s.conn →
      (∀ d ∈ events s.handled, d.Ok) → Trace c (events r.handled) r.conn ∧
        (r.close = false → ∀ d ∈ events r.handled, d.Ok))
    (fun s r e ht hok => ?_) (fun s s' r e ih ht hok => ?_) ⟨c, buf, []⟩ .nil (by simp [events])
  · have hp := step_pass s
    rw [e] at hp
    cases hp with
    | wait => exact ⟨ht, fun _ => hok⟩
    | refuse => exact ⟨ht, fun h => (by cases h)⟩
    | @fail f rest code => exact ⟨trace_handle ht hok f rest, fun h => (by cases h)⟩
  · have hp := step_pass s
    rw [e] at hp
    cases hp with
    | skip => exact ih ht hok
    | @handle f rest h hf =>
        refine ih (trace_handle ht hok f rest) fun d hd => ?_
        rw [events_handle] at hd
        rcases List.mem_append.mp hd with hd | hd
        · exact hok d hd
        · rw [List.mem_singleton.mp hd]
          exact hf

end ConsumeState

/-! ### Calls -/

/-- A call of the connection's interface. -/
inductive Call where
  | consume (buf : List UInt8)
  | write (w : Write)

/-- What a run leaves: the connection, its history, and what a call that closed has said. -/
structure Outcome where
  conn : ServerConn
  history : List Done := []
  goaway : Option Frame := none
  closed : Bool := false

/-- The events of a call of `consume`. -/
def consumeEvents (c : ServerConn) (buf : List UInt8) : List Done :=
  if c.prefaceSeen then events (c.consume buf).handled
  else if buf.take prefaceTail.length = prefaceTail then
    ⟨c, .preface⟩ :: events (c.consume buf).handled
  else []

/-- Calls, one after the other, up to the first one that reports close. -/
def runCalls (c : ServerConn) : List Call → Outcome
  | [] => { conn := c }
  | .write w :: calls =>
    let r := runCalls (w.exec c).conn calls
    { r with history := ⟨c, .write w⟩ :: r.history }
  | .consume buf :: calls =>
    let r := c.consume buf
    let done := consumeEvents c buf
    if r.close then { conn := r.conn, history := done, goaway := r.goaway, closed := true }
    else
      let rest := runCalls r.conn calls
      { rest with history := done ++ rest.history }

/-- Calls on a new connection. -/
def session (calls : List Call) : Outcome := runCalls newServerConn calls

/-- The connection with its preface read. -/
def ServerConn.seen (c : ServerConn) : ServerConn := { c with prefaceSeen := true }

theorem consume_seen {c : ServerConn} (h : c.prefaceSeen = true) (buf : List UInt8) :
    c.consume buf = run ⟨c, buf, []⟩ ∧
      consumeEvents c buf = events (run ⟨c, buf, []⟩).handled := by
  have he : c.consume buf = run ⟨c, buf, []⟩ := by
    unfold ServerConn.consume
    rw [if_pos h]
  refine ⟨he, ?_⟩
  unfold consumeEvents
  rw [if_pos h, he]

theorem consume_preface {c : ServerConn} (h : c.prefaceSeen = false) {buf : List UInt8}
    (hb : buf.take prefaceTail.length = prefaceTail) :
    c.consume buf = run ⟨c.seen, buf.drop prefaceTail.length, []⟩ ∧
      consumeEvents c buf = ⟨c, .preface⟩ ::
        events (run ⟨c.seen, buf.drop prefaceTail.length, []⟩).handled := by
  have hlen : ¬ buf.length < prefaceTail.length := by
    rw [← hb, List.length_take]
    omega
  have he : c.consume buf = run ⟨c.seen, buf.drop prefaceTail.length, []⟩ := by
    unfold ServerConn.consume
    rw [h, if_neg Bool.false_ne_true, if_neg hlen, if_neg (not_not.mpr hb)]
    rfl
  refine ⟨he, ?_⟩
  unfold consumeEvents
  rw [h, if_neg Bool.false_ne_true, if_pos hb, he]

/-- Before the preface, a buffer that does not begin with it is not consumed: it is too short, or
the connection is closed. -/
theorem consume_no_preface {c : ServerConn} (h : c.prefaceSeen = false) {buf : List UInt8}
    (hb : ¬ buf.take prefaceTail.length = prefaceTail) :
    (c.consume buf).conn = c ∧ (c.consume buf).rest = buf ∧ (c.consume buf).handled = [] ∧
      ((c.consume buf).close = false → buf.length < prefaceTail.length) ∧
      consumeEvents c buf = [] := by
  have hev : consumeEvents c buf = [] := by
    unfold consumeEvents
    rw [h, if_neg Bool.false_ne_true, if_neg hb]
  unfold ServerConn.consume
  rw [h, if_neg Bool.false_ne_true, if_pos hb]
  split
  · rename_i hlen
    exact ⟨rfl, rfl, rfl, fun _ => hlen, hev⟩
  · exact ⟨rfl, rfl, rfl, fun hc => (by cases hc), hev⟩

/-- A call of `consume` is a trace, and unless it closes none of its events was an error of the
connection. -/
theorem consume_trace (c : ServerConn) (buf : List UInt8) :
    Trace c (consumeEvents c buf) (c.consume buf).conn ∧
      ((c.consume buf).close = false → ∀ d ∈ consumeEvents c buf, d.Ok) := by
  cases hp : c.prefaceSeen with
  | true =>
      obtain ⟨he, hev⟩ := consume_seen hp buf
      rw [he, hev]
      exact run_trace c buf
  | false =>
      by_cases hb : buf.take prefaceTail.length = prefaceTail
      · obtain ⟨he, hev⟩ := consume_preface hp hb
        obtain ⟨ht, hok⟩ := run_trace c.seen (buf.drop prefaceTail.length)
        have hpre : Trace c [⟨c, .preface⟩] c.seen := .snoc .nil (by simp) .preface
        have hpok : ∀ d ∈ [(⟨c, .preface⟩ : Done)], d.Ok := by
          intro d hd
          rw [List.mem_singleton.mp hd]
          rfl
        rw [he, hev]
        refine ⟨hpre.append hpok ht, fun hc d hd => ?_⟩
        rcases List.mem_cons.mp hd with rfl | hd
        · rfl
        · exact hok hc d hd
      · obtain ⟨hc, -, -, -, hev⟩ := consume_no_preface hp hb
        rw [hc, hev]
        exact ⟨.nil, fun _ d hd => (by cases hd)⟩

/-- **A run is a trace**, and unless it has closed none of its events was an error of the
connection. -/
theorem runCalls_trace (c : ServerConn) (calls : List Call) :
    Trace c (runCalls c calls).history (runCalls c calls).conn ∧
      ((runCalls c calls).closed = false → ∀ d ∈ (runCalls c calls).history, d.Ok) := by
  induction calls generalizing c with
  | nil => exact ⟨.nil, fun _ d hd => (by cases hd)⟩
  | cons call calls ih =>
      cases call with
      | write w =>
          obtain ⟨ht, hok⟩ := ih (w.exec c).conn
          have hw : Trace c [⟨c, .write w⟩] (w.exec c).conn := .snoc .nil (by simp) (.write w)
          have hwok : ∀ d ∈ [(⟨c, .write w⟩ : Done)], d.Ok := by
            intro d hd
            rw [List.mem_singleton.mp hd]
            exact write_ok c w
          refine ⟨hw.append hwok ht, fun hc d hd => ?_⟩
          rcases List.mem_cons.mp hd with rfl | hd
          · exact write_ok c w
          · exact hok hc d hd
      | consume buf =>
          obtain ⟨ht, hok⟩ := consume_trace c buf
          unfold runCalls
          dsimp only
          split
          · exact ⟨ht, fun h => (by cases h)⟩
          · rename_i hc
            have hok := hok (by simpa using hc)
            obtain ⟨ht', hok'⟩ := ih (c.consume buf).conn
            refine ⟨ht.append hok ht', fun hcl d hd => ?_⟩
            rcases List.mem_append.mp hd with hd | hd
            · exact hok d hd
            · exact hok' hcl d hd

end Vanilla.Http2

import Vanilla.PgAsync.Reading

/-!
# PostgreSQL — the send buffer is a queue of frames

`append_send` writes behind the unsent bytes of a fixed buffer, sliding them to the front when there
is no room behind them; `async_flush` takes as much off as the transport does.  Along every run what
the transport took, with what is still unsent, is the frames of the accepted queries one behind the
other (`sent_in_order`).
-/

namespace Vanilla.PgAsync
open PgConn

namespace PgConn

theorem Took.send {c c' : PgConn} {q q' : PendingQuery} {qs : List PendingQuery} {ms : List Msg}
    (h : Took c q qs ms q' c') : c'.send = c.send := (congrArg PgConn.send h.same :)

theorem Filled.send {c c' : PgConn} {script : List Recv} (h : Filled c script c') :
    c'.send = c.send := (congrArg PgConn.send h.same :)

/-- Reading leaves what is unsent alone. -/
theorem Answers.send {c : PgConn} {script : List Recv} {r : Call × PgConn}
    (h : Answers c script r) : r.2.send = c.send := by
  cases h with
  | idle hf | gone hf => exact hf.send
  | ready hf _ _ ht | waiting hf _ _ ht | fails hf _ _ ht => exact ht.send.trans hf.send

end PgConn

namespace History

/-- The bytes of an operation: what it queues is what it adds to the bytes handed over and
unsent. -/
theorem step_bytes (h : History) (op : Op) :
    ∃ more, (h.step op).accepted = h.accepted ++ more ∧
      (h.step op).sent ++ (h.step op).conn.send.pending =
        h.sent ++ h.conn.send.pending ++ more.flatMap frameOf := by
  cases op with
  | submit sub =>
      have ho := sub.on_cases h.conn
      rw [step]
      generalize sub.on h.conn = r at ho
      cases ho with
      | refused => exact ⟨[], by simp⟩
      | accepted ht =>
          refine ⟨[sub.stmts], rfl, ?_⟩
          rw [queued_pending ht]
          simp
  | flush recvs sends =>
      have hp := (h.conn.asyncFlush_spec recvs sends).pending
      refine ⟨[], by simp [step], ?_⟩
      rw [step, List.append_assoc, hp]
      simp
  | readable recvs =>
      refine ⟨[], by simp [step], ?_⟩
      rw [step, (h.conn.asyncOnReadable_spec recvs).send]
      simp

end History

/-- **Nothing is lost, repeated or reordered on its way out.**  What the transport took, then what
is unsent, is what was unsent at the start, then the frames of the accepted queries; a refused
submission changes nothing; the length formulas are exact, and a frame that passed the check is
appended. -/
theorem sent_in_order (c : PgConn) (ops : List Op) :
    (run c ops).sent ++ (run c ops).conn.send.pending =
        c.send.pending ++ (run c ops).accepted.flatMap frameOf ∧
      (∀ (c : PgConn) (sub : Submission), (sub.on c).1 = false → (sub.on c).2 = c) ∧
      (∀ s, queryFrameLen s = (frameOf [s]).length) ∧
      (∀ stmts, batchFrameLen stmts = (frameOf stmts).length) ∧
      ∀ (c : PgConn) (frame : List UInt8),
        c.cannotTake frame.length = false ∨ c.checkSubmit frame.length = .ok () →
          (c.appendSend frame).1 = true := by
  refine ⟨?_, fun c sub h => ?_, queryFrameLen_eq, batchFrameLen_eq, fun c frame h => ?_⟩
  · -- on the operations, the last one split off
    induction ops using List.reverseRecOn with
    | nil => simp [run, History.start]
    | append_singleton ops op ih =>
        obtain ⟨more, hacc, hbytes⟩ := (run c ops).step_bytes op
        rw [run_concat, hbytes, ih, hacc, List.flatMap_append, List.append_assoc]
  · have ho := sub.on_cases c
    generalize sub.on c = r at ho h
    cases ho with
    | refused => rfl
    | accepted => cases h
  · have ht : c.Takes frame.length := by
      rcases h with h | h
      · exact cannotTake_eq_false.mp h
      · exact checkSubmit_ok.mp h
    obtain ⟨s, hs, -, -⟩ := appendSend_spec ht.room
    rw [hs]

end Vanilla.PgAsync

import Vanilla.Http2.Handlers

/-!
# HTTP/2 — segmentation

The engine calls `consume` with what the last call left and what has arrived since.  However the
bytes of a connection arrive, the server comes out the same.

* `consume_append`: a buffer in two pieces, the second behind what the first left.
* `deliver_eq_consume`: any number of pieces.
-/

namespace Vanilla.Http2
open ConsumeState

/-! ### Delivery -/

/-- What a delivery comes to: the connection, whether it was closed, and what was appended. -/
structure Delivered where
  conn : ServerConn
  close : Bool := false
  out : List Frame := []
  reqs : List Http2Request := []

/-- A call of `consume`, as a delivery. -/
def Consumed.delivered (r : Consumed) : Delivered := ⟨r.conn, r.close, r.out, r.reqs⟩

/-- What was appended before, and a delivery. -/
def Delivered.after (d : Delivered) (r : Consumed) : Delivered :=
  { d with out := r.out ++ d.out, reqs := r.reqs ++ d.reqs }

/-- The pieces arrive one after the other, behind the bytes `tail` of before, up to a call that
closes. -/
def deliver (c : ServerConn) (tail : List UInt8) : List (List UInt8) → Delivered
  | [] => { conn := c }
  | piece :: pieces =>
    let r := c.consume (tail ++ piece)
    if r.close then r.delivered else (deliver r.conn r.rest pieces).after r

/-! ### Two pieces -/

/-- `consume` has nothing to do with these bytes yet. -/
def Idle (c : ServerConn) (tail : List UInt8) : Prop :=
  c.consume tail = { conn := c, rest := tail, handled := [] }

theorem run_prefaceSeen (s : ConsumeState) (h : s.conn.prefaceSeen = true) :
    s.run.conn.prefaceSeen = true := by
  refine run_rule
    (P := fun s r => s.conn.prefaceSeen = true → r.conn.prefaceSeen = true)
    (fun s r e hs => ?_) (fun s s' r e ih hs => ?_) s h
  · have hp := step_pass s
    rw [e] at hp
    cases hp with
    | wait => exact hs
    | refuse => exact hs
    | @fail f => exact (ServerConn.frame_prefaceSeen s.conn f).trans hs
  · have hp := step_pass s
    rw [e] at hp
    cases hp with
    | skip => exact ih hs
    | @handle f => exact ih ((ServerConn.frame_prefaceSeen s.conn f).trans hs)

/-- Behind the preface, what a call leaves waits. -/
theorem run_idle {c : ServerConn} {b : List UInt8} (hp : c.prefaceSeen = true)
    (hc : (run ⟨c, b, []⟩).close = false) :
    Idle (run ⟨c, b, []⟩).conn (run ⟨c, b, []⟩).rest := by
  have hseen := run_prefaceSeen ⟨c, b, []⟩ hp
  obtain ⟨s', hs', hw⟩ := run_waits _ hc
  rw [Idle, (consume_seen hseen _).1, hs', run_wait (by exact hw)]
  rfl

/-- Behind the preface, a buffer in two pieces. -/
theorem run_append {c : ServerConn} (hp : c.prefaceSeen = true) (b x : List UInt8) :
    (run ⟨c, b ++ x, []⟩).delivered =
      if (run ⟨c, b, []⟩).close then (run ⟨c, b, []⟩).delivered
      else ((run ⟨c, b, []⟩).conn.consume
        ((run ⟨c, b, []⟩).rest ++ x)).delivered.after
          (run ⟨c, b, []⟩) := by
  obtain ⟨hclose, hwait⟩ := run_more ⟨c, b, []⟩ [] x
  have hb : mk c (b ++ x) [] = (mk c b []).more [] x := rfl
  rw [hb]
  split
  · rename_i hc
    rw [hclose hc]
    rfl
  · rename_i hc
    have hc : (run ⟨c, b, []⟩).close = false := by simpa using hc
    have hseen := run_prefaceSeen ⟨c, b, []⟩ hp
    obtain ⟨s', hs', -⟩ := run_waits _ hc
    rw [hwait hc, (consume_seen hseen _).1]
    have hm : (mk (run ⟨c, b, []⟩).conn (run ⟨c, b, []⟩).rest
        (run ⟨c, b, []⟩).handled).more [] x =
        ⟨(run ⟨c, b, []⟩).conn, (run ⟨c, b, []⟩).rest ++ x,
          (run ⟨c, b, []⟩).handled⟩ := rfl
    rw [hm, run_handled]
    have hg : (run ⟨c, b, []⟩).goaway = none := by
      rw [hs']
      rfl
    simp [Consumed.delivered, Delivered.after, Consumed.more, Consumed.out, Consumed.reqs, hg]

theorem take_preface {b : List UInt8} (x : List UInt8) (h : prefaceTail.length ≤ b.length) :
    (b ++ x).take prefaceTail.length = b.take prefaceTail.length :=
  List.take_append_of_le_length h

/-- A buffer of at least its length that does not begin with the preface closes the connection. -/
theorem consume_bad_preface {c : ServerConn} (hp : c.prefaceSeen = false) {b : List UInt8}
    (hlen : prefaceTail.length ≤ b.length) (hb : ¬ b.take prefaceTail.length = prefaceTail) :
    (c.consume b).close = true ∧
      (c.consume b).delivered = ⟨c, true, [writeGoaway 0 .protocolError], []⟩ := by
  unfold ServerConn.consume
  rw [hp, if_neg Bool.false_ne_true, if_neg (Nat.not_lt_of_le hlen), if_pos hb]
  exact ⟨rfl, rfl⟩

/-- A buffer shorter than the preface waits. -/
theorem consume_short {c : ServerConn} (hp : c.prefaceSeen = false) {b : List UInt8}
    (hlen : b.length < prefaceTail.length) : Idle c b := by
  unfold Idle ServerConn.consume
  rw [hp, if_neg Bool.false_ne_true, if_pos hlen]

/-- What a call leaves waits. -/
theorem consume_idle {c : ServerConn} {b : List UInt8} (hc : (c.consume b).close = false) :
    Idle (c.consume b).conn (c.consume b).rest := by
  cases hp : c.prefaceSeen with
  | true =>
      rw [(consume_seen hp b).1] at hc ⊢
      exact run_idle hp hc
  | false =>
      by_cases hb : b.take prefaceTail.length = prefaceTail
      · rw [(consume_preface hp hb).1] at hc ⊢
        exact run_idle rfl hc
      · obtain ⟨hconn, hrest, -, hlen, -⟩ := consume_no_preface hp hb
        rw [hconn, hrest]
        exact consume_short hp (hlen hc)

/-- **Two pieces.**  A call with both closes where a call with the first closes, and otherwise is
that call and a call with what it left and the second. -/
theorem consume_append (c : ServerConn) (b x : List UInt8) :
    (c.consume (b ++ x)).delivered =
      if (c.consume b).close then (c.consume b).delivered
      else ((c.consume b).conn.consume ((c.consume b).rest ++ x)).delivered.after
        (c.consume b) := by
  cases hp : c.prefaceSeen with
  | true =>
      rw [(consume_seen hp b).1, (consume_seen hp (b ++ x)).1]
      exact run_append hp b x
  | false =>
      by_cases hlen : prefaceTail.length ≤ b.length
      · by_cases hb : b.take prefaceTail.length = prefaceTail
        · have hbx : (b ++ x).take prefaceTail.length = prefaceTail := by
            rw [take_preface x hlen, hb]
          rw [(consume_preface hp hb).1, (consume_preface hp hbx).1,
            List.drop_append_of_le_length hlen]
          exact run_append rfl _ x
        · obtain ⟨hclose, hd⟩ := consume_bad_preface hp hlen hb
          have hbx : ¬ (b ++ x).take prefaceTail.length = prefaceTail := by
            rwa [take_preface x hlen]
          rw [if_pos hclose, hd]
          exact (consume_bad_preface hp (by rw [List.length_append]; omega) hbx).2
      · have hi : Idle c b := consume_short hp (Nat.lt_of_not_le hlen)
        rw [Idle] at hi
        rw [hi]
        rfl

/-! ### Any number of pieces -/

theorem deliver_idle {c : ServerConn} {tail : List UInt8} (hi : Idle c tail)
    (pieces : List (List UInt8)) :
    deliver c tail pieces = (c.consume (tail ++ pieces.flatten)).delivered := by
  induction pieces generalizing c tail with
  | nil =>
      rw [List.flatten_nil, List.append_nil, hi]
      rfl
  | cons piece pieces ih =>
      rw [List.flatten_cons, ← List.append_assoc, consume_append, deliver]
      split
      · rfl
      · rename_i hc
        rw [ih (consume_idle (by simpa using hc))]

/-- **Segmentation makes no difference.**  However a byte string is delivered to a fresh connection,
each call getting what the last one left and the bytes that came after, up to the first call that
closes: the frames written, the requests surfaced and the connection are those of one call with the
whole. -/
theorem deliver_eq_consume (pieces : List (List UInt8)) :
    deliver newServerConn [] pieces = (newServerConn.consume pieces.flatten).delivered :=
  deliver_idle (consume_short rfl (by decide)) pieces

end Vanilla.Http2

import Vanilla.PgAsync.Reading

/-!
# PostgreSQL — replies and queries

A connection has no names for its replies: the k-th ReadyForQuery of the stream ends the reply of
the k-th query.  What keeps that true along a run is that the cursor, the in-flight queue and the
accumulators move together.

* `Slots`: the queries in flight have consecutive places of the frame pool, and only the front one
  has bytes in its place.
* `Aligned`: the bytes received are those of the replies delivered, the part of the next reply that
  is in the front accumulator, and the bytes unread.
* `replies_in_order`: every run keeps the two.
-/

namespace Vanilla.PgAsync
open PgConn

open Scan (Framing)
open Scan.Framing (Inside Complete Reads)

/-! ### Places in the pool -/

namespace PgConn

/-- The places of the queries in flight. -/
structure Slots (c : PgConn) : Prop where
  places : ∃ start, c.inflight.map PendingQuery.frameSlot =
      Buffers.ring c.inflightLimit start c.inflight.length ∧
    c.frameRing = (start + c.inflight.length) % c.inflightLimit
  length_le : c.inflight.length ≤ c.inflightLimit
  pool : c.inflight ≠ [] → c.inflightLimit ≤ c.framePool.length
  behind : ∀ q ∈ c.inflight.tail, c.framesOf q = []

/-- Two connections with the same queries in flight. -/
structure SameQueue (c c' : PgConn) : Prop where
  inflight : c'.inflight = c.inflight
  cap : c'.inflightCap = c.inflightCap
  pool : c'.framePool = c.framePool
  next : c'.frameRing = c.frameRing
  submitted : c'.submitted = c.submitted

theorem SameQueue.framesOf {c c' : PgConn} (h : SameQueue c c') (q : PendingQuery) :
    c'.framesOf q = c.framesOf q := by
  simp only [PgConn.framesOf, h.pool]

theorem Filled.queue {c c' : PgConn} {script : List Recv} (h : Filled c script c') :
    SameQueue c c' where
  inflight := (congrArg inflight h.same :)
  cap := (congrArg inflightCap h.same :)
  pool := (congrArg framePool h.same :)
  next := (congrArg frameRing h.same :)
  submitted := (congrArg submitted h.same :)

theorem Flushed.queue {c : PgConn} {recvs : List Recv}
    {r : Except QueryError Bool × PgConn × List UInt8} (h : Flushed c recvs r) :
    SameQueue c r.2.1 where
  inflight := (congrArg inflight h.same :)
  cap := (congrArg inflightCap h.same :)
  pool := (congrArg framePool h.same :)
  next := (congrArg frameRing h.same :)
  submitted := (congrArg submitted h.same :)

namespace Slots

variable {c c' : PgConn} {q q' : PendingQuery} {qs : List PendingQuery}

theorem slot_lt (h : Slots c) (hq : q ∈ c.inflight) : q.frameSlot < c.framePool.length := by
  obtain ⟨start, hring, -⟩ := h.places
  have hm : q.frameSlot ∈ Buffers.ring c.inflightLimit start c.inflight.length :=
    hring ▸ List.mem_map_of_mem hq
  exact Nat.lt_of_lt_of_le (Buffers.mem_ring_lt c.inflightLimit_pos hm)
    (h.pool (List.ne_nil_of_mem hq))

/-- The places behind the front one are others. -/
theorem slot_ne (h : Slots c) (hc : c.inflight = q :: qs) (hq : q' ∈ qs) :
    q'.frameSlot ≠ q.frameSlot := by
  obtain ⟨start, hring, -⟩ := h.places
  have hlen := h.length_le
  rw [hc, List.length_cons] at hlen
  rw [hc, List.length_cons, List.map_cons, Buffers.ring_cons, List.cons.injEq] at hring
  have hm : q'.frameSlot ∈ Buffers.ring c.inflightLimit (start + 1) qs.length :=
    hring.2 ▸ List.mem_map_of_mem hq
  intro he
  rw [he, hring.1] at hm
  exact Buffers.head_notMem_ring hlen hm

theorem of_idle (hin : c.inflight = []) (hring : c.frameRing < c.inflightLimit) : Slots c := by
  refine ⟨⟨c.frameRing, ?_, ?_⟩, ?_, fun hne => absurd hin hne, ?_⟩
  · simp [hin, Buffers.ring]
  · simp [hin, Nat.mod_eq_of_lt hring]
  · simp [hin]
  · simp [hin]

/-- What does not touch the queue and the pool. -/
theorem congr (h : Slots c) (hq : SameQueue c c') : Slots c' := by
  have hlim : c'.inflightLimit = c.inflightLimit := by simp only [inflightLimit, hq.cap]
  refine ⟨?_, ?_, ?_, ?_⟩
  · rw [hq.inflight, hlim, hq.next]
    exact h.places
  · rw [hq.inflight, hlim]
    exact h.length_le
  · rw [hq.inflight, hlim, hq.pool]
    exact h.pool
  · rw [hq.inflight]
    intro q hm
    rw [hq.framesOf]
    exact h.behind q hm

/-- The front query takes messages. -/
theorem took {ms : List Msg} (h : Slots c) (hc : c.inflight = q :: qs)
    (ht : PgConn.Took c q qs ms q' c') : Slots c' := by
  have hcap : c'.inflightCap = c.inflightCap := (congrArg inflightCap ht.same :)
  have hr : c'.frameRing = c.frameRing := (congrArg frameRing ht.same :)
  have hlim : c'.inflightLimit = c.inflightLimit := by simp only [inflightLimit, hcap]
  have hlen : c'.inflight.length = c.inflight.length := by rw [ht.inflight, hc]; rfl
  refine ⟨?_, by rw [hlen, hlim]; exact h.length_le, fun _ => ?_, ?_⟩
  · have hmap : c'.inflight.map PendingQuery.frameSlot = c.inflight.map PendingQuery.frameSlot := by
      rw [ht.inflight, hc, List.map_cons, List.map_cons, ht.slot]
    rw [hmap, hlen, hlim, hr]
    exact h.places
  · rw [hlim, ht.length]
    exact h.pool (by rw [hc]; exact List.cons_ne_nil _ _)
  · rw [ht.inflight]
    intro p hp
    have hold := h.behind p (by rw [hc]; exact hp)
    simp only [framesOf, List.getD, ht.others _ (h.slot_ne hc hp)] at hold ⊢
    exact hold

/-- The front query leaves. -/
theorem pop (h : Slots c) (hc : c.inflight = q :: qs) : Slots c.popFront := by
  have hin : c.popFront.inflight = qs := by simp [popFront, hc]
  have hlen := h.length_le
  rw [hc, List.length_cons] at hlen
  refine ⟨?_, ?_, fun hne => ?_, ?_⟩
  · obtain ⟨start, hring, hr⟩ := h.places
    rw [hc, List.length_cons, List.map_cons, Buffers.ring_cons, List.cons.injEq] at hring
    rw [hc, List.length_cons] at hr
    rw [hin]
    refine ⟨start + 1, hring.2, ?_⟩
    show c.frameRing = (start + 1 + qs.length) % c.inflightLimit
    rw [hr]
    congr 1
    omega
  · rw [hin]
    exact Nat.le_of_succ_le hlen
  · exact h.pool (by rw [hc]; exact List.cons_ne_nil _ _)
  · rw [hin]
    intro p hp
    exact h.behind p (by rw [hc]; exact List.mem_of_mem_tail hp)

end Slots

/-! ### A new query -/

/-- What a queued frame makes of the connection. -/
structure Pushed (c c' : PgConn) : Prop where
  inflight : c'.inflight = c.inflight ++ [{ frameSlot := c.frameRing, ticket := c.submitted }]
  pool : c'.framePool = (if c.framePool.length < c.inflightLimit then
    List.replicate c.inflightLimit [] else c.framePool).set c.frameRing []
  same : { c' with
    send := c.send, inflight := c.inflight, framePool := c.framePool, frameRing := c.frameRing
    submitted := c.submitted } = c
  next : c'.frameRing = (c.frameRing + 1) % c.inflightLimit
  submitted : c'.submitted = c.submitted + 1

theorem queued_pushed {c : PgConn} {frame : List UInt8} (h : c.Takes frame.length) :
    Pushed c (c.queued frame) := by
  obtain ⟨s, hs, -, -⟩ := appendSend_spec h.room
  unfold queued
  rw [hs]
  exact ⟨rfl, rfl, rfl, rfl, rfl⟩

namespace Pushed

variable {c c' : PgConn}

theorem framesOf_new (hp : Pushed c c') (q : PendingQuery) (hq : q.frameSlot = c.frameRing) :
    c'.framesOf q = [] := by
  have hset : ∀ (pool : List (List UInt8)) (i : Nat), (pool.set i []).getD i [] = [] := by
    intro pool i
    rw [List.getD, List.getElem?_set_self']
    cases pool[i]? <;> rfl
  rw [framesOf, hp.pool, hq, hset]

theorem framesOf_old (hp : Pushed c c') (hs : Slots c) (hfree : c.inflight.length < c.inflightLimit)
    {q : PendingQuery} (hq : q ∈ c.inflight) : c'.framesOf q = c.framesOf q := by
  obtain ⟨start, hring, hr⟩ := hs.places
  have hne : c.frameRing ≠ q.frameSlot := by
    intro he
    have hm : q.frameSlot ∈ Buffers.ring c.inflightLimit start c.inflight.length :=
      hring ▸ List.mem_map_of_mem hq
    rw [← he, hr] at hm
    exact Buffers.next_notMem_ring hfree hm
  have hlen := hs.pool (List.ne_nil_of_mem hq)
  rw [framesOf, framesOf, hp.pool, if_neg (by omega), List.getD, List.getD,
    List.getElem?_set_ne hne]

theorem slots (hp : Pushed c c') (hs : Slots c) (hfree : c.inflight.length < c.inflightLimit) :
    Slots c' := by
  have hcap : c'.inflightCap = c.inflightCap := (congrArg inflightCap hp.same :)
  have hlim : c'.inflightLimit = c.inflightLimit := by simp only [inflightLimit, hcap]
  have hlen : c'.inflight.length = c.inflight.length + 1 := by rw [hp.inflight]; simp
  refine ⟨?_, by rw [hlen, hlim]; exact hfree, fun _ => ?_, ?_⟩
  · obtain ⟨start, hring, hr⟩ := hs.places
    refine ⟨start, ?_, ?_⟩
    · rw [hlen, hlim, Buffers.ring_concat, ← hring, ← hr, hp.inflight, List.map_append]
      rfl
    · rw [hlen, hlim, hp.next, hr, Nat.mod_add_mod, Nat.add_assoc]
  · rw [hlim, hp.pool, List.length_set]
    split
    · exact Nat.le_of_eq (List.length_replicate ..).symm
    · omega
  · intro q hq
    rw [hp.inflight] at hq
    cases hc : c.inflight with
    | nil =>
        rw [hc] at hq
        cases hq
    | cons q₀ qs =>
        rw [hc, List.cons_append, List.tail_cons, List.mem_append, List.mem_singleton] at hq
        rcases hq with hq | rfl
        · rw [framesOf_old hp hs hfree (by rw [hc]; exact List.mem_cons_of_mem _ hq)]
          exact hs.behind q (by rw [hc]; exact hq)
        · exact framesOf_new hp _ rfl

end Pushed

end PgConn

/-! ### What has been delivered -/

namespace Call

/-- The query a call completes. -/
def query : Call → Option PendingQuery
  | byReady q _ => some q
  | byLoss q _ => some q
  | _ => none

/-- The frames of a query that its ReadyForQuery completed. -/
def reply : Call → Option (List UInt8)
  | byReady _ frames => some frames
  | _ => none

end Call

namespace History

/-- The calls that completed a query. -/
def completions (h : History) : List Call := (h.calls.map Called.call).filter (·.query.isSome)

/-- The queries completed, by number. -/
def completedTickets (h : History) : List Nat :=
  h.completions.filterMap fun k => k.query.map PendingQuery.ticket

end History

/-- The replies of a backend's stream: the bytes up to each ReadyForQuery, from the one before. -/
def replies (b : List UInt8) : List (List UInt8) := (framing.groups isReady b).map framing.encs

/-- A call that returned on a lost connection did not report not-ready, and completed a query if
one was waiting. -/
def Called.Settles (k : Called) : Prop :=
  k.lost = true → k.call.poll ≠ .ok none ∧ (k.waiting = true → k.call.query.isSome = true)

/-- What an application can tell from the calls it has made. -/
structure InOrder (h : History) : Prop where
  /-- the k-th completion is of the k-th query, and no query is missing -/
  tickets : h.completedTickets ++ h.conn.inflight.map PendingQuery.ticket =
    List.range h.accepted.length
  /-- a query its ReadyForQuery completed has the bytes of its own reply -/
  frames : ∀ (k : Nat) (frames : List UInt8),
    (h.completions.map Call.reply)[k]? = some (some frames) → (replies h.received)[k]? = some frames
  /-- a query fails by the loss only if its reply is not in the stream -/
  fails : ∀ k : Nat, (h.completions.map Call.reply)[k]? = some none →
    (replies h.received).length ≤ k
  settles : ∀ k ∈ h.calls, k.Settles

/-- **The invariant.**  `gs` are the replies delivered, `ms` what is known of the next one, `fails`
how many queries the loss has failed. -/
structure Aligned (h : History) (gs : List (List Msg)) (ms : List Msg) (fails : Nat) : Prop where
  slots : h.conn.Slots
  complete : ∀ g ∈ gs, Complete framing isReady g
  inside : Inside framing isReady ms
  stream : h.received = framing.encs gs.flatten ++ (framing.encs ms ++ h.conn.recv.rest)
  delivered : h.completions.map Call.reply =
    gs.map (fun g => some (framing.encs g)) ++ List.replicate fails none
  tickets : h.completedTickets ++ h.conn.inflight.map PendingQuery.ticket =
    List.range h.accepted.length
  submitted : h.conn.submitted = h.accepted.length
  front : fails = 0 → ∀ q qs, h.conn.inflight = q :: qs → h.conn.framesOf q = framing.encs ms
  idle : fails = 0 → h.conn.inflight = [] → ms = []
  dead : 0 < fails → h.conn.state ≠ .ready ∧ framing.next h.conn.recv.rest = none
  settles : ∀ k ∈ h.calls, k.Settles

namespace Aligned

variable {h : History} {gs : List (List Msg)} {ms : List Msg} {fails : Nat}

theorem replies_eq (ha : Aligned h gs ms fails) :
    replies h.received = gs.map framing.encs ++ replies (framing.encs ms ++ h.conn.recv.rest) := by
  rw [replies, ha.stream, Framing.groups_encs ha.complete, List.map_append]
  rfl

theorem replies_dead (ha : Aligned h gs ms fails) (hf : 0 < fails) :
    replies h.received = gs.map framing.encs := by
  have hnil : framing.groups isReady (framing.encs ms ++ h.conn.recv.rest) = [] := by
    refine Framing.groups_eq_nil fun r hr => ?_
    rw [Framing.first_encs ha.inside, Framing.first_more (ha.dead hf).2] at hr
    cases hr
  rw [ha.replies_eq, replies, hnil, List.map_nil, List.append_nil]

/-- **An aligned history is in order.** -/
theorem inOrder (ha : Aligned h gs ms fails) : InOrder h where
  tickets := ha.tickets
  settles := ha.settles
  frames k frames hk := by
    rw [ha.delivered, List.getElem?_append] at hk
    rw [ha.replies_eq]
    split at hk
    · rename_i hlt
      rw [List.length_map] at hlt
      rw [List.getElem?_append_left (by rwa [List.length_map])]
      simp only [List.getElem?_map, Option.map_eq_some_iff, Option.some.injEq] at hk ⊢
      exact hk
    · rw [List.getElem?_replicate] at hk
      split at hk <;> cases hk
  fails k hk := by
    rw [ha.delivered, List.getElem?_append] at hk
    split at hk
    · simp at hk
    · rename_i hge
      rw [List.length_map, Nat.not_lt] at hge
      rw [List.getElem?_replicate] at hk
      split at hk
      · rw [ha.replies_dead (by omega), List.length_map]
        exact hge
      · cases hk

end Aligned

/-! ### The operations -/

namespace Aligned

variable {h : History} {gs : List (List Msg)} {ms ms' : List Msg} {fails : Nat}
  {q q' : PendingQuery} {qs : List PendingQuery} {c' : PgConn}

/-- A query is accepted. -/
theorem pushed (ha : Aligned h gs ms fails) (hp : Pushed h.conn c') (hready : h.conn.state = .ready)
    (hfree : h.conn.inflight.length < h.conn.inflightLimit) (x : List Stmt) :
    Aligned { h with conn := c', accepted := h.accepted ++ [x] } gs ms fails := by
  have hzero : fails = 0 := by
    by_contra hne
    exact (ha.dead (Nat.pos_of_ne_zero hne)).1 hready
  have hrecv : c'.recv = h.conn.recv := (congrArg recv hp.same :)
  refine ⟨hp.slots ha.slots hfree, ha.complete, ha.inside, ?_, ha.delivered, ?_, ?_,
    fun _ q qs hq => ?_, fun _ hnil => ?_, fun hpos => by omega, ha.settles⟩
  · show h.received = _ ++ (_ ++ c'.recv.rest)
    rw [hrecv]
    exact ha.stream
  · show h.completedTickets ++ c'.inflight.map _ = _
    rw [hp.inflight, List.map_append, ← List.append_assoc, ha.tickets, List.length_append]
    simp [List.range_succ, ha.submitted]
  · show c'.submitted = _
    rw [hp.submitted, ha.submitted]
    simp
  · show c'.framesOf q = _
    change c'.inflight = q :: qs at hq
    rw [hp.inflight] at hq
    cases hc : h.conn.inflight with
    | nil =>
        rw [hc, List.nil_append, List.cons.injEq] at hq
        rw [hp.framesOf_new q (by rw [← hq.1]), ha.idle hzero hc]
        rfl
    | cons q₀ qs₀ =>
        rw [hc, List.cons_append, List.cons.injEq] at hq
        obtain ⟨rfl, -⟩ := hq
        rw [hp.framesOf_old ha.slots hfree (by rw [hc]; exact List.mem_cons_self)]
        exact ha.front hzero _ _ hc
  · change c'.inflight = [] at hnil
    rw [hp.inflight] at hnil
    simp at hnil

/-- Bytes arrive, or the loss is noticed. -/
theorem fed (ha : Aligned h gs ms fails) {arr : List UInt8} (hq : SameQueue h.conn c')
    (hrest : c'.recv.rest = h.conn.recv.rest ++ arr)
    (hdead : h.conn.state ≠ .ready → arr = [] ∧ c'.state ≠ .ready) (bs : List UInt8) :
    Aligned { h with conn := c', sent := bs, received := h.received ++ arr } gs ms fails := by
  refine ⟨ha.slots.congr hq, ha.complete, ha.inside, ?_, ha.delivered, ?_, ?_,
    fun hz p ps hp => ?_, fun hz hnil => ha.idle hz (hq.inflight ▸ hnil), fun hpos => ?_,
    ha.settles⟩
  · show h.received ++ arr = _ ++ (_ ++ c'.recv.rest)
    rw [hrest, ha.stream]
    simp only [List.append_assoc]
  · show h.completedTickets ++ c'.inflight.map _ = _
    rw [hq.inflight]
    exact ha.tickets
  · exact hq.submitted.trans ha.submitted
  · exact (hq.framesOf p).trans (ha.front hz p ps (hq.inflight ▸ hp))
  · obtain ⟨hs, hnext⟩ := ha.dead hpos
    obtain ⟨rfl, hs'⟩ := hdead hs
    refine ⟨hs', ?_⟩
    show framing.next c'.recv.rest = none
    rw [hrest, List.append_nil]
    exact hnext

theorem filled (ha : Aligned h gs ms fails) {script : List Recv} (hf : Filled h.conn script c') :
    Aligned { h with
      conn := c'
      received := h.received ++ if h.conn.state = .ready then Recv.arrived script else [] }
      gs ms fails :=
  ha.fed hf.queue hf.rest (fun hs => ⟨if_neg hs, fun hs' => hs (hf.state.mp hs').1⟩) h.sent

theorem flushed (ha : Aligned h gs ms fails) {recvs : List Recv}
    {r : Except QueryError Bool × PgConn × List UInt8} (hf : Flushed h.conn recvs r)
    (bs : List UInt8) :
    Aligned { h with
      conn := r.2.1
      sent := bs
      received := h.received ++
        if h.conn.state = .ready ∧ h.conn.tlsReadBlocked then Recv.arrived recvs else [] }
      gs ms fails :=
  ha.fed hf.queue hf.rest
    (fun hs => ⟨if_neg fun hb => hs hb.1, fun hs' => hs (hf.ready hs')⟩) bs

/-- The front query takes messages that do not end its reply. -/
theorem took (ha : Aligned h gs ms fails) (hq : h.conn.inflight = q :: qs)
    (ht : PgConn.Took h.conn q qs ms' q' c') (hin : Inside framing isReady ms')
    (hdead : 0 < fails → ms' = []) : Aligned { h with conn := c' } gs (ms ++ ms') fails := by
  have hlt : q.frameSlot < h.conn.framePool.length :=
    ha.slots.slot_lt (by rw [hq]; exact List.mem_cons_self)
  refine ⟨ha.slots.took hq ht, ha.complete, ha.inside.append hin, ?_, ha.delivered, ?_, ?_,
    fun hz p ps hp => ?_, fun hz hnil => ?_, fun hpos => ?_, ha.settles⟩
  · show h.received = _ ++ (_ ++ c'.recv.rest)
    rw [ha.stream, ht.rest, Framing.encs_append]
    simp only [List.append_assoc]
  · show h.completedTickets ++ c'.inflight.map _ = _
    rw [ht.inflight, List.map_cons, ht.ticket, ← List.map_cons, ← hq]
    exact ha.tickets
  · exact (congrArg PgConn.submitted ht.same :).trans ha.submitted
  · change c'.inflight = p :: ps at hp
    rw [ht.inflight, List.cons.injEq] at hp
    show c'.framesOf p = _
    rw [← hp.1, ht.frames hlt, ha.front hz q qs hq, Framing.encs_append]
  · change c'.inflight = [] at hnil
    rw [ht.inflight] at hnil
    cases hnil
  · obtain ⟨hs, hnext⟩ := ha.dead hpos
    refine ⟨fun hs' => hs (ht.state.mp hs').1, ?_⟩
    have hrest := ht.rest
    rw [hdead hpos] at hrest
    show framing.next c'.recv.rest = none
    rw [← hnext, hrest]
    rfl

/-- A call that completes no query. -/
theorem called (ha : Aligned h gs ms fails) {k : Called} (hk : k.call.query = none)
    (hs : k.Settles) : Aligned { h with calls := h.calls ++ [k] } gs ms fails := by
  have hcomp : ({ h with calls := h.calls ++ [k] } : History).completions = h.completions := by
    simp [History.completions, List.filter_append, hk]
  refine ⟨ha.slots, ha.complete, ha.inside, ha.stream, ?_, ?_, ha.submitted, ha.front, ha.idle,
    ha.dead, ?_⟩
  · rw [hcomp]
    exact ha.delivered
  · rw [History.completedTickets, hcomp]
    exact ha.tickets
  · intro k' hk'
    rcases List.mem_append.mp hk' with hk' | hk'
    · exact ha.settles k' hk'
    · rw [List.mem_singleton.mp hk']
      exact hs

end Aligned

/-! ### Completing the front query -/

theorem Called.settles_of_query {k : Called} {q : PendingQuery} (hq : k.call.query = some q) :
    k.Settles := by
  intro _
  refine ⟨?_, fun _ => by rw [hq]; rfl⟩
  cases hk : k.call with
  | byReady q frames =>
      simp only [Call.poll]
      split <;> simp
  | byLoss q e => simp [Call.poll]
  | lost e | notReady =>
      rw [hk] at hq
      cases hq

/-- The history of a call that completes the query in front. -/
def History.completing (h : History) (c' : PgConn) (k : Called) : History :=
  { h with conn := c'.popFront, calls := h.calls ++ [k] }

namespace History

variable {h : History} {c' : PgConn} {k : Called} {q' : PendingQuery} {qs : List PendingQuery}

theorem completions_completing (hk : k.call.query = some q') :
    (h.completing c' k).completions = h.completions ++ [k.call] := by
  simp [completing, completions, List.filter_append, hk]

theorem tickets_completing {q : PendingQuery} (hk : k.call.query = some q')
    (hq : h.conn.inflight = q :: qs) (hin : c'.inflight = q' :: qs) (ht : q'.ticket = q.ticket) :
    (h.completing c' k).completedTickets ++
        (h.completing c' k).conn.inflight.map PendingQuery.ticket =
      h.completedTickets ++ h.conn.inflight.map PendingQuery.ticket := by
  rw [completedTickets, completions_completing hk]
  simp [completedTickets, List.filterMap_append, hk, completing, popFront, hin, hq, ht]

end History

namespace Aligned

variable {h : History} {gs : List (List Msg)} {ms ms' : List Msg} {fails : Nat}
  {q q' : PendingQuery} {qs : List PendingQuery} {c' : PgConn}

theorem settles_completing (ha : Aligned h gs ms fails) {k : Called}
    (hk : k.call.query = some q') : ∀ k' ∈ (h.completing c' k).calls, k'.Settles := by
  intro k' hk'
  rcases List.mem_append.mp hk' with hk' | hk'
  · exact ha.settles k' hk'
  · rw [List.mem_singleton.mp hk']
    exact Called.settles_of_query hk

/-- The ReadyForQuery of the front query. -/
theorem ready (ha : Aligned h gs ms 0) (hq : h.conn.inflight = q :: qs)
    (ht : PgConn.Took h.conn q qs ms' q' c') (hms : Complete framing isReady ms') (w l : Bool) :
    Aligned (h.completing c' ⟨.byReady q' (c'.framesOf q'), w, l⟩) (gs ++ [ms ++ ms']) [] 0 := by
  have hlt : q.frameSlot < h.conn.framePool.length :=
    ha.slots.slot_lt (by rw [hq]; exact List.mem_cons_self)
  have hslots := ha.slots.took hq ht
  have hpop : c'.popFront.inflight = qs := by simp [popFront, ht.inflight]
  have hframes : c'.framesOf q' = framing.encs (ms ++ ms') := by
    rw [ht.frames hlt, ha.front rfl q qs hq, Framing.encs_append]
  have hkey : (⟨.byReady q' (c'.framesOf q'), w, l⟩ : Called).call.query = some q' := rfl
  refine ⟨hslots.pop ht.inflight, ?_, Framing.inside_nil, ?_, ?_, ?_, ?_, fun _ p ps hp => ?_,
    fun _ _ => rfl, fun hpos => by omega, ha.settles_completing hkey⟩
  · intro g hg
    rcases List.mem_append.mp hg with hg | hg
    · exact ha.complete g hg
    · rw [List.mem_singleton.mp hg]
      exact ha.inside.complete hms
  · show h.received = _ ++ (_ ++ c'.recv.rest)
    rw [ha.stream, ht.rest]
    simp
  · rw [History.completions_completing hkey, List.map_append, ha.delivered]
    simp [Call.reply, hframes]
  · rw [History.tickets_completing hkey hq ht.inflight ht.ticket, ha.tickets]
    rfl
  · exact (congrArg PgConn.submitted ht.same :).trans ha.submitted
  · -- the next query in front has taken nothing yet
    change c'.popFront.inflight = p :: ps at hp
    rw [hpop] at hp
    exact hslots.behind p (by rw [ht.inflight, List.tail_cons, hp]; exact List.mem_cons_self)

/-- The loss of the connection fails the front query. -/
theorem lost (ha : Aligned h gs ms fails) (hq : h.conn.inflight = q :: qs)
    (ht : PgConn.Took h.conn q qs ms' q' c') (hms : Inside framing isReady ms')
    (hnext : framing.next c'.recv.rest = none) (hs : c'.state ≠ .ready) (e : QueryError)
    (w l : Bool) :
    Aligned (h.completing c' ⟨.byLoss q' e, w, l⟩) gs (ms ++ ms') (fails + 1) := by
  have hkey : (⟨.byLoss q' e, w, l⟩ : Called).call.query = some q' := rfl
  refine ⟨(ha.slots.took hq ht).pop ht.inflight, ha.complete, ha.inside.append hms, ?_, ?_, ?_, ?_,
    fun hz => by omega, fun hz => by omega, fun _ => ⟨hs, hnext⟩, ha.settles_completing hkey⟩
  · show h.received = _ ++ (_ ++ c'.recv.rest)
    rw [ha.stream, ht.rest]
    simp
  · rw [History.completions_completing hkey, List.map_append, ha.delivered, List.replicate_succ']
    simp [Call.reply]
  · rw [History.tickets_completing hkey hq ht.inflight ht.ticket, ha.tickets]
    rfl
  · exact (congrArg PgConn.submitted ht.same :).trans ha.submitted

end Aligned

/-! ### Runs -/

namespace Aligned

variable {h : History} {gs : List (List Msg)} {ms : List Msg} {fails : Nat}

/-- **A call keeps the alignment.** -/
theorem readable (ha : Aligned h gs ms fails) (script : List Recv) :
    ∃ gs' ms' fails', Aligned (h.step (.readable script)) gs' ms' fails' := by
  have hans := h.conn.asyncOnReadable_spec script
  rw [History.step]
  generalize h.conn.asyncOnReadable script = r at hans
  -- on a lost connection with a failed query nothing more is framed
  have hdead : 0 < fails → framing.first isReady (h.conn.unread script) =
      ([], .more h.conn.recv.rest) := by
    intro hpos
    obtain ⟨hs, hnext⟩ := ha.dead hpos
    rw [unread, if_neg hs, List.append_nil]
    exact Framing.first_more hnext
  have hreads : Reads framing isReady (h.conn.unread script) _ _ := Framing.first_reads _
  cases hans with
  | @idle c₁ hf hq hs =>
      exact ⟨_, _, _, (ha.filled hf).called rfl fun hlost => by simp [hs] at hlost⟩
  | @gone c₁ hf hq hs =>
      refine ⟨_, _, _, (ha.filled hf).called rfl fun _ => ⟨by simp [Call.poll], ?_⟩⟩
      simp [hq]
  | @ready c₁ c' q q' qs ms' hf hq hfirst ht =>
      have hzero : fails = 0 := by
        by_contra hne
        rw [hdead (Nat.pos_of_ne_zero hne)] at hfirst
        cases hfirst
      subst hzero
      rw [hfirst] at hreads
      generalize h.conn.unread script = u at hreads
      cases hreads with
      | done hms =>
          exact ⟨_, _, _, (ha.filled hf).ready (hf.queue.inflight.trans hq) ht hms _ _⟩
  | @waiting c₁ c' q q' qs ms' hf hq hfirst ht hs =>
      have hnil : 0 < fails → ms' = [] := fun hpos =>
        (congrArg Prod.fst (hfirst.symm.trans (hdead hpos)) :)
      rw [hfirst] at hreads
      generalize h.conn.unread script = u at hreads
      cases hreads with
      | more hin hnext =>
          have hc := (ha.filled hf).took (hf.queue.inflight.trans hq) ht hin hnil
          exact ⟨_, _, _, hc.called rfl fun hlost => by simp [hs] at hlost⟩
  | @fails c₁ c' q q' qs ms' hf hq hfirst ht hs =>
      rw [hfirst] at hreads
      generalize h.conn.unread script = u at hreads
      cases hreads with
      | more hin hnext =>
          exact ⟨_, _, _,
            (ha.filled hf).lost (hf.queue.inflight.trans hq) ht hin hnext hs _ _ _⟩

theorem step (ha : Aligned h gs ms fails) (op : Op) :
    ∃ gs' ms' fails', Aligned (h.step op) gs' ms' fails' := by
  cases op with
  | readable script => exact ha.readable script
  | flush recvs sends =>
      rw [History.step]
      exact ⟨_, _, _, ha.flushed (h.conn.asyncFlush_spec recvs sends) _⟩
  | submit sub =>
      rw [History.step]
      have hon := sub.on_cases h.conn
      generalize sub.on h.conn = r at hon
      cases hon with
      | refused => exact ⟨_, _, _, ha⟩
      | accepted ht =>
          exact ⟨_, _, _, ha.pushed (queued_pushed ht) ht.ready ht.slot sub.stmts⟩

end Aligned

/-- A connection that has just been brought up: live, nothing in flight.  `push_inflight` keeps
`frame_ring` below the limit. -/
structure Opened (c : PgConn) : Prop where
  ready : c.state = .ready
  inflight : c.inflight = []
  ring : c.frameRing < c.inflightLimit
  submitted : c.submitted = 0

theorem Opened.aligned {c : PgConn} (hc : Opened c) : Aligned (.start c) [] [] 0 where
  slots := .of_idle hc.inflight hc.ring
  complete := by simp
  inside := Framing.inside_nil
  stream := rfl
  delivered := rfl
  tickets := by simp [History.start, History.completedTickets, History.completions, hc.inflight]
  submitted := by simp [History.start, hc.submitted]
  front _ q qs hq := by simp [History.start, hc.inflight] at hq
  idle _ _ := rfl
  dead h := absurd h (Nat.lt_irrefl 0)
  settles := by simp [History.start]

theorem run_aligned {c : PgConn} (hc : Opened c) (ops : List Op) :
    ∃ gs ms fails, Aligned (run c ops) gs ms fails := by
  induction ops using List.reverseRecOn with
  | nil => exact ⟨[], [], 0, hc.aligned⟩
  | append_singleton ops op ih =>
      obtain ⟨gs, ms, fails, ha⟩ := ih
      rw [run_concat]
      exact ha.step op

/-- **Replies are matched to queries in order**, along every run. -/
theorem replies_in_order (c : PgConn) (hc : Opened c) (ops : List Op) : InOrder (run c ops) := by
  obtain ⟨gs, ms, fails, ha⟩ := run_aligned hc ops
  exact ha.inOrder

/-- A connection with a small send buffer, just opened. -/
def freshConn : PgConn := { send := .fresh minSendBufCap (by decide) }

theorem freshConn_opened : Opened freshConn := ⟨rfl, rfl, by decide, rfl⟩

/-- `select 1`. -/
def selectOne : Op := .submit (.submit ⟨ascii "select 1", []⟩)

/-- Two queries; the first reply in two pieces, with the beginning of the second one behind it, then
the end of the stream and a third call. -/
def piecesRun : List Op :=
  [selectOne, selectOne, .readable [.data 90 [0, 0]], .readable [.data 0 [5, 73, 67], .eof],
    .readable [], .readable []]

/-- The first query is completed by its ReadyForQuery with its own bytes, the second one by the
loss, and the last call finds none. -/
theorem replies_in_order_pieces :
    InOrder (run freshConn piecesRun) ∧
      (run freshConn piecesRun).completions.map Call.reply = [some [90, 0, 0, 0, 5, 73], none] ∧
      (run freshConn piecesRun).completedTickets = [0, 1] :=
  ⟨replies_in_order freshConn freshConn_opened piecesRun, by decide +kernel, by decide +kernel⟩

end Vanilla.PgAsync

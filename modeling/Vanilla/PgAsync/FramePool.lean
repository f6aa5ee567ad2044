import Vanilla.PgAsync.Redial
import Vanilla.PgAsync.Replies

/-!
# PostgreSQL — the reply buffers of a connection

`pg_async/conn_async.v` and `pg_async/redial.v`: a query in flight borrows its reply buffer from a
pool, slot by slot in turn, and gives it back when it leaves.

A `[]u8` is a header with the block its bytes are in.  The header in the pool and the header in the
query are two: the query's may have moved to a larger block, and the pool learns of it when the
query leaves.  A block is allocated for one slot and stays with it (`owner`), so buffers in
different slots never share bytes.

* `Inv`: slots in turn, blocks in their slots; kept by every event (`step_inv`).
* `Kept`: what a query leaves in its slot stays until the slot is taken again.
* `Spared`: what a Result reads is written only by the query one turn of the ring behind.
* `reply_buffers_never_shared`: the three over all runs.
* `pool_follows_connection`: the runs of a connection are runs of its pool.
-/

namespace Vanilla.PgAsync
open PgConn Scan

/-- `frame_buf_cap`. -/
def frameBufCap : Nat := 16 * 1024

/-- A `[]u8`: the block its bytes are in, how many fit, how many there are. -/
structure FrameBuf where
  block : Nat
  cap : Nat
  len : Nat
  deriving DecidableEq, Repr

/-- A `PendingQuery` as far as its buffer goes; `ticket` is its number in the session. -/
structure Holder where
  frames : FrameBuf
  frameSlot : Nat
  ticket : Nat
  deriving DecidableEq, Repr

/-- The pool of a connection with the limit `limit`, and the memory behind it: `heap` are the bytes
of each block, `owner` the slot it was allocated for, `fresh` the next block.  `lost` says that a
query failed by a loss: nothing is framed any more until the connection is dialed again. -/
structure FramePool where
  limit : Nat
  framePool : List FrameBuf := []
  frameRing : Nat := 0
  inflight : List Holder := []
  submitted : Nat := 0
  lost : Bool := false
  heap : Nat → List UInt8 := fun _ => []
  owner : Nat → Nat := id
  fresh : Nat := 0

/-- The bytes a header shows. -/
def FrameBuf.view (b : FrameBuf) (heap : Nat → List UInt8) : List UInt8 := (heap b.block).take b.len

namespace FramePool

/-- The buffers `push_inflight` allocates when it has too few. -/
def fill (p : FramePool) : FramePool :=
  if p.framePool.length < p.limit then
    { p with
      framePool := (List.range p.limit).map fun i => ⟨p.fresh + i, frameBufCap, 0⟩
      owner := fun b => if p.fresh ≤ b then b - p.fresh else p.owner b
      fresh := p.fresh + p.limit }
  else p

/-- The rest of `push_inflight`. -/
def borrow (p : FramePool) : FramePool :=
  match p.framePool[p.frameRing]? with
  | none => p
  | some fbuf =>
    { p with
      frameRing := (p.frameRing + 1) % p.limit
      inflight := p.inflight ++ [⟨{ fbuf with len := 0 }, p.frameRing, p.submitted⟩]
      submitted := p.submitted + 1 }

/-- `push_inflight`. -/
def pushInflight (p : FramePool) : FramePool := p.fill.borrow

/-- `inflight[0].frames << bs`: in place, or in a larger block; `grow` is how much larger. -/
def append (grow : Nat → Nat → Nat) (p : FramePool) (bs : List UInt8) : FramePool :=
  match p.inflight with
  | [] => p
  | q :: qs =>
    let b := q.frames
    let n := b.len + bs.length
    if n ≤ b.cap then
      { p with
        heap := Function.update p.heap b.block
          ((p.heap b.block).take b.len ++ bs ++ (p.heap b.block).drop n)
        inflight := { q with frames := { b with len := n } } :: qs }
    else
      { p with
        heap := Function.update p.heap p.fresh ((p.heap b.block).take b.len ++ bs)
        owner := Function.update p.owner p.fresh q.frameSlot
        fresh := p.fresh + 1
        inflight := { q with frames := ⟨p.fresh, grow b.cap n, n⟩ } :: qs }

/-- `pop_front`. -/
def popFront (p : FramePool) : FramePool :=
  match p.inflight with
  | [] => p
  | done :: qs => { p with inflight := qs, framePool := p.framePool.set done.frameSlot done.frames }

/-- What `redial_start` resets. -/
def redialStart (p : FramePool) : FramePool :=
  { p with inflight := [], frameRing := 0, submitted := 0, lost := false }

end FramePool

/-- What happens to the pool: a query is submitted, if the limit allows it; a message of the front
query's reply is framed, and completes it if it is a ReadyForQuery; the front query fails by a loss;
the connection is dialed again. -/
inductive FrameEvent where
  | submit
  | message (bs : List UInt8) (ready : Bool)
  | loss
  | redial
  deriving DecidableEq, Repr

namespace FramePool

/-- One event. -/
def step (grow : Nat → Nat → Nat) (p : FramePool) : FrameEvent → FramePool
  | .submit => if p.inflight.length < p.limit then p.pushInflight else p
  | .message bs ready =>
    if p.lost then p
    else if ready then (p.append grow bs).popFront else p.append grow bs
  | .loss => { p.popFront with lost := true }
  | .redial => p.redialStart

/-- A run. -/
def run (grow : Nat → Nat → Nat) (p : FramePool) (es : List FrameEvent) : FramePool :=
  es.foldl (step grow) p

/-- The slot an event takes. -/
def takes (p : FramePool) : FrameEvent → Option Nat
  | .submit => if p.inflight.length < p.limit then some p.frameRing else none
  | _ => none

/-- The query an event frames a message for. -/
def frames (p : FramePool) : FrameEvent → Option Nat
  | .message _ _ => if p.lost then none else p.inflight.head?.map Holder.ticket
  | _ => none

/-- What an event lets go, as it then is. -/
def releases (grow : Nat → Nat → Nat) (p : FramePool) : FrameEvent → Option Holder
  | .message bs true => if p.lost then none else (p.append grow bs).inflight.head?
  | .loss => p.inflight.head?
  | _ => none

/-- What a run says of its events, one after the other. -/
def along {α : Type} (grow : Nat → Nat → Nat) (f : FramePool → FrameEvent → Option α) :
    FramePool → List FrameEvent → List α
  | _, [] => []
  | p, e :: es => (f p e).toList ++ along grow f (p.step grow e) es

/-- The number of the front query, or of the next one if there is none. -/
def front (p : FramePool) : Nat := p.submitted - p.inflight.length

/-- Slots in turn, blocks in their slots. -/
structure Inv (p : FramePool) : Prop where
  pos : 0 < p.limit
  few : p.inflight.length ≤ p.limit
  ring : p.frameRing = p.submitted % p.limit
  count : p.inflight.length ≤ p.submitted
  tickets : p.inflight.map Holder.ticket = List.range' p.front p.inflight.length
  slots : ∀ q ∈ p.inflight, q.frameSlot = q.ticket % p.limit
  pool : p.framePool.length = p.limit ∨ p.framePool = [] ∧ p.inflight = []
  owned : ∀ s b, p.framePool[s]? = some b → p.owner b.block = s ∧ b.block < p.fresh
  held : ∀ q ∈ p.inflight, p.owner q.frames.block = q.frameSlot ∧ q.frames.block < p.fresh

theorem start_inv {L : Nat} (h : 0 < L) : Inv { limit := L } where
  pos := h
  few := Nat.zero_le _
  ring := (Nat.zero_mod L).symm
  count := Nat.le_refl 0
  tickets := rfl
  slots _ hq := nomatch hq
  pool := .inr ⟨rfl, rfl⟩
  owned s b hb := by cases s <;> cases hb
  held _ hq := nomatch hq

/-! ### What one event does -/

section Steps

variable {grow : Nat → Nat → Nat} {p : FramePool} {q : Holder} {qs : List Holder}

theorem Inv.fill (h : p.Inv) : p.fill.Inv ∧ p.fill.framePool.length = p.limit := by
  unfold FramePool.fill
  by_cases hlen : p.framePool.length < p.limit
  · rw [if_pos hlen]
    obtain hfull | ⟨hnil, hidle⟩ := h.pool
    · exact absurd hlen (by omega)
    · refine ⟨{ h with pool := .inl (by simp), owned := fun s b hb => ?_, held := ?_ }, by simp⟩
      · obtain ⟨i, hi, rfl⟩ := Option.map_eq_some_iff.mp (List.getElem?_map ▸ hb)
        obtain ⟨hlt, rfl⟩ := List.getElem?_eq_some_iff.mp hi
        rw [List.length_range] at hlt
        simp only [List.getElem_range]
        exact ⟨by rw [if_pos (by omega)]; omega, by omega⟩
      · intro q hq
        rw [show p.inflight = [] from hidle] at hq
        cases hq
  · rw [if_neg hlen]
    refine ⟨h, h.pool.elim id fun hnil => ?_⟩
    have := h.pos
    rw [hnil.1, List.length_nil] at hlen
    omega

/-- Filling the pool leaves the queue, the limit and what is written alone. -/
theorem fill_same (p : FramePool) : p.fill.limit = p.limit ∧ p.fill.frameRing = p.frameRing ∧
    p.fill.inflight = p.inflight ∧ p.fill.submitted = p.submitted ∧ p.fill.heap = p.heap ∧
    p.fill.lost = p.lost := by
  unfold fill
  split <;> exact ⟨rfl, rfl, rfl, rfl, rfl, rfl⟩

/-- A new query: the buffer in its slot, emptied. -/
theorem push_spec (h : p.Inv) : ∃ b, p.fill.framePool[p.frameRing]? = some b ∧
    p.pushInflight =
      { p.fill with
        frameRing := (p.frameRing + 1) % p.limit
        inflight := p.inflight ++ [⟨{ b with len := 0 }, p.frameRing, p.submitted⟩]
        submitted := p.submitted + 1 } := by
  have hring : p.frameRing < p.limit := by rw [h.ring]; exact Nat.mod_lt _ h.pos
  have hlt : p.frameRing < p.fill.framePool.length := by rw [h.fill.2]; exact hring
  refine ⟨_, List.getElem?_eq_getElem hlt, ?_⟩
  obtain ⟨hl, hr, hi, hs, -, -⟩ := p.fill_same
  rw [pushInflight, borrow, hr, List.getElem?_eq_getElem hlt]
  dsimp only
  rw [hl, hi, hs]

theorem Inv.push (h : p.Inv) (hfree : p.inflight.length < p.limit) : p.pushInflight.Inv := by
  obtain ⟨b, hb, heq⟩ := push_spec h
  obtain ⟨hfill, hlen⟩ := h.fill
  obtain ⟨hl, -, hi, -, -, -⟩ := p.fill_same
  have hfront : p.submitted + 1 - (p.inflight.length + 1) = p.front := by
    rw [front]; omega
  have hnext : p.front + p.inflight.length = p.submitted := Nat.sub_add_cancel h.count
  rw [heq]
  refine ⟨by rw [hl]; exact h.pos, ?_, ?_, ?_, ?_, ?_, .inl (by rw [hl]; exact hlen),
    hfill.owned, ?_⟩
  · rw [List.length_append, List.length_singleton, hl]
    exact hfree
  · show (p.frameRing + 1) % p.limit = (p.submitted + 1) % p.fill.limit
    rw [hl, h.ring, Nat.mod_add_mod]
  · rw [List.length_append, List.length_singleton]
    exact Nat.succ_le_succ h.count
  · rw [front, List.length_append, List.length_singleton, hfront, List.map_append, h.tickets,
      List.range'_concat, Nat.one_mul, hnext]
    rfl
  · intro q hq
    rw [hl]
    rcases List.mem_append.mp hq with hq | hq
    · exact h.slots q hq
    · rw [List.mem_singleton.mp hq]
      exact h.ring
  · intro q hq
    rcases List.mem_append.mp hq with hq | hq
    · exact hfill.held q (by rw [hi]; exact hq)
    · have hnew := hfill.owned _ _ hb
      rw [List.mem_singleton.mp hq]
      exact hnew

/-- What the front query's buffer becomes, and that nothing else is written. -/
structure Appended (p : FramePool) (q : Holder) (qs : List Holder) (bs : List UInt8)
    (p' : FramePool) (q' : Holder) : Prop where
  inflight : p'.inflight = q' :: qs
  slot : q'.frameSlot = q.frameSlot
  ticket : q'.ticket = q.ticket
  block : q'.frames.block = q.frames.block ∨ q'.frames.block = p.fresh
  heap : ∀ b, b ≠ q'.frames.block → p'.heap b = p.heap b
  view : q'.frames.view p'.heap = q.frames.view p.heap ++ bs
  owner : ∀ b, b < p.fresh → p'.owner b = p.owner b
  grown : q'.frames.block = p.fresh → p'.owner q'.frames.block = q.frameSlot
  fresh : p.fresh ≤ p'.fresh ∧ (q'.frames.block = p.fresh → p.fresh < p'.fresh)
  same : { p' with
    heap := p.heap, owner := p.owner, fresh := p.fresh, inflight := p.inflight } = p

theorem append_spec (hq : p.inflight = q :: qs) (hblock : q.frames.block < p.fresh)
    (bs : List UInt8) : ∃ q', Appended p q qs bs (p.append grow bs) q' := by
  unfold append
  rw [hq]
  dsimp only
  split
  · refine ⟨{ q with frames := { q.frames with len := q.frames.len + bs.length } }, rfl, rfl, rfl,
      .inl rfl, fun b hb => Function.update_of_ne hb _ _, ?_, fun _ _ => rfl,
      fun he => absurd he (Nat.ne_of_lt hblock), ⟨Nat.le_refl _, fun he => ?_⟩, rfl⟩
    · show ((Function.update p.heap q.frames.block _) q.frames.block).take
        (q.frames.len + bs.length) = _
      rw [Function.update_self, FrameBuf.view]
      -- the block may hold bytes of an older, longer reply behind the header's length
      by_cases hlen : (p.heap q.frames.block).length ≤ q.frames.len
      · rw [List.drop_eq_nil_of_le (by omega), List.append_nil, List.take_of_length_le]
        rw [List.length_append, List.length_take]
        omega
      · have htake : ((p.heap q.frames.block).take q.frames.len ++ bs).length =
            q.frames.len + bs.length := by rw [List.length_append, List.length_take]; omega
        rw [← htake, List.take_left]
    · exact absurd he (Nat.ne_of_lt hblock)
  · refine ⟨{ q with frames := ⟨p.fresh, _, q.frames.len + bs.length⟩ }, rfl, rfl, rfl, .inr rfl,
      fun b hb => Function.update_of_ne hb _ _, ?_,
      fun b hb => Function.update_of_ne (Nat.ne_of_lt hb) _ _,
      fun _ => Function.update_self _ _ _, ⟨Nat.le_succ _, fun _ => Nat.lt_succ_self _⟩, rfl⟩
    show ((Function.update p.heap p.fresh _) p.fresh).take (q.frames.len + bs.length) = _
    rw [Function.update_self, FrameBuf.view, List.take_of_length_le]
    rw [List.length_append, List.length_take]
    omega

theorem Appended.inv {bs : List UInt8} {p' : FramePool} {q' : Holder} (h : p.Inv)
    (hq : p.inflight = q :: qs) (ha : Appended p q qs bs p' q') : p'.Inv := by
  have hlimit : p'.limit = p.limit := (congrArg FramePool.limit ha.same :)
  have hsub : p'.submitted = p.submitted := (congrArg FramePool.submitted ha.same :)
  have hpool : p'.framePool = p.framePool := (congrArg FramePool.framePool ha.same :)
  have hring : p'.frameRing = p.frameRing := (congrArg FramePool.frameRing ha.same :)
  have hlen : p'.inflight.length = p.inflight.length := by rw [ha.inflight, hq]; rfl
  refine ⟨by rw [hlimit]; exact h.pos, by rw [hlimit, hlen]; exact h.few,
    by rw [hring, hsub, hlimit]; exact h.ring, by rw [hlen, hsub]; exact h.count, ?_, ?_, ?_, ?_,
    ?_⟩
  · rw [front, hlen, hsub, ← front, ← h.tickets, ha.inflight, hq, List.map_cons, List.map_cons,
      ha.ticket]
  · rw [ha.inflight, hlimit]
    intro r hr
    rcases List.mem_cons.mp hr with rfl | hr
    · rw [ha.slot, ha.ticket]
      exact h.slots q (hq ▸ List.mem_cons_self)
    · exact h.slots r (hq ▸ List.mem_cons_of_mem _ hr)
  · rw [hpool, hlimit]
    refine .inl (h.pool.elim id fun hidle => ?_)
    rw [hidle.2] at hq
    cases hq
  · rw [hpool]
    intro s b hb
    obtain ⟨ho, hlt⟩ := h.owned s b hb
    exact ⟨(ha.owner _ hlt).trans ho, Nat.lt_of_lt_of_le hlt ha.fresh.1⟩
  · rw [ha.inflight]
    intro r hr
    rcases List.mem_cons.mp hr with rfl | hr
    · rcases ha.block with he | he
      · obtain ⟨ho, hlt⟩ := h.held q (hq ▸ List.mem_cons_self)
        rw [he, ha.slot]
        exact ⟨(ha.owner _ hlt).trans ho, Nat.lt_of_lt_of_le hlt ha.fresh.1⟩
      · exact ⟨(ha.grown he).trans ha.slot.symm, he ▸ ha.fresh.2 he⟩
    · obtain ⟨ho, hlt⟩ := h.held r (hq ▸ List.mem_cons_of_mem _ hr)
      exact ⟨(ha.owner _ hlt).trans ho, Nat.lt_of_lt_of_le hlt ha.fresh.1⟩

theorem append_same (p : FramePool) (bs : List UInt8) :
    (p.append grow bs).limit = p.limit ∧ (p.append grow bs).lost = p.lost := by
  unfold append
  split
  · exact ⟨rfl, rfl⟩
  · dsimp only
    split <;> exact ⟨rfl, rfl⟩

theorem popFront_eq (hq : p.inflight = q :: qs) : p.popFront =
    { p with inflight := qs, framePool := p.framePool.set q.frameSlot q.frames } := by
  rw [popFront, hq]

theorem front_pop (h : p.Inv) (hq : p.inflight = q :: qs) :
    q.ticket = p.front ∧ p.popFront.front = p.front + 1 := by
  have ht := h.tickets
  have hcount := h.count
  rw [hq, List.map_cons, List.length_cons, List.range'_succ] at ht
  refine ⟨(List.cons.inj ht).1, ?_⟩
  rw [hq, List.length_cons] at hcount
  rw [popFront_eq hq, front, front, hq, List.length_cons]
  dsimp only
  omega

theorem Inv.pop (h : p.Inv) : p.popFront.Inv := by
  cases hq : p.inflight with
  | nil => rw [popFront, hq]; exact h
  | cons q qs =>
      have hfront := (front_pop h hq).2
      have hcount := h.count
      have hfew := h.few
      have ht := h.tickets
      rw [hq, List.length_cons] at hcount hfew
      rw [hq, List.map_cons, List.length_cons, List.range'_succ] at ht
      have hmem : ∀ r ∈ qs, r ∈ p.inflight := fun r hr => hq ▸ List.mem_cons_of_mem _ hr
      rw [popFront_eq hq] at hfront ⊢
      refine ⟨h.pos, Nat.le_of_succ_le hfew, h.ring, Nat.le_of_succ_le hcount, ?_,
        fun r hr => h.slots r (hmem r hr), ?_, fun s b hb => ?_, fun r hr => h.held r (hmem r hr)⟩
      · rw [hfront]
        exact (List.cons.inj ht).2
      · rw [List.length_set]
        refine .inl (h.pool.elim id fun hidle => ?_)
        rw [hidle.2] at hq
        cases hq
      · by_cases hs : q.frameSlot = s
        · subst hs
          obtain ⟨hlt, rfl⟩ := List.getElem?_eq_some_iff.mp hb
          rw [List.getElem_set_self]
          exact h.held q (hq ▸ List.mem_cons_self)
        · rw [List.getElem?_set_ne hs] at hb
          exact h.owned s b hb

theorem popFront_limit (p : FramePool) : p.popFront.limit = p.limit := by
  unfold popFront
  split <;> rfl

/-- The limit is fixed. -/
theorem step_limit (p : FramePool) (e : FrameEvent) : (p.step grow e).limit = p.limit := by
  cases e with
  | submit =>
      rw [step]
      split
      · rw [pushInflight, borrow]
        split <;> exact p.fill_same.1
      · rfl
  | message bs ready =>
      rw [step]
      split
      · rfl
      split
      · rw [popFront_limit, (append_same p bs).1]
      · exact (append_same p bs).1
  | loss => exact popFront_limit p
  | redial => rfl

theorem run_limit (p : FramePool) (es : List FrameEvent) : (p.run grow es).limit = p.limit := by
  induction es generalizing p with
  | nil => rfl
  | cons e es ih => exact (ih (p.step grow e)).trans (step_limit p e)

theorem Inv.append (h : p.Inv) (bs : List UInt8) : (p.append grow bs).Inv := by
  cases hq : p.inflight with
  | nil => rw [FramePool.append, hq]; exact h
  | cons q qs =>
      obtain ⟨q', ha⟩ := append_spec hq (h.held q (hq ▸ List.mem_cons_self)).2 bs
      exact ha.inv h hq

/-- **Every event keeps the invariant.** -/
theorem step_inv (h : p.Inv) (e : FrameEvent) : (p.step grow e).Inv := by
  cases e with
  | submit =>
      rw [step]
      split
      · exact h.push ‹_›
      · exact h
  | message bs ready =>
      rw [step]
      split
      · exact h
      split
      · exact (h.append bs).pop
      · exact h.append bs
  | loss => exact { h.pop with }
  | redial =>
      refine ⟨h.pos, Nat.zero_le _, (Nat.zero_mod _).symm, Nat.le_refl 0, rfl,
        fun _ hq => (nomatch hq), h.pool.imp id fun hidle => ⟨hidle.1, rfl⟩, h.owned,
        fun _ hq => (nomatch hq)⟩

theorem run_inv (h : p.Inv) (es : List FrameEvent) : (p.run grow es).Inv := by
  induction es generalizing p with
  | nil => exact h
  | cons e es ih => exact ih (step_inv h e)

/-- **The queries in flight hold different slots.** -/
theorem Inv.nodup (h : p.Inv) : (p.inflight.map Holder.frameSlot).Nodup := by
  have hring : p.inflight.map Holder.frameSlot =
      Buffers.ring p.limit p.front p.inflight.length := by
    rw [Buffers.ring, ← h.tickets, List.map_map]
    exact List.map_congr_left h.slots
  rw [hring]
  exact Buffers.nodup_ring h.few

/-! ### What is left in a slot -/

/-- The slot `s` has the buffer `b`, and nobody holds it. -/
structure Kept (s : Nat) (b : FrameBuf) (p : FramePool) : Prop where
  here : p.framePool[s]? = some b
  full : p.framePool.length = p.limit
  free : ∀ q ∈ p.inflight, q.frameSlot ≠ s

theorem Kept.append {s : Nat} {b : FrameBuf} (h : p.Inv) (hk : Kept s b p) (bs : List UInt8) :
    Kept s b (p.append grow bs) := by
  cases hq : p.inflight with
  | nil => rw [FramePool.append, hq]; exact hk
  | cons q qs =>
      obtain ⟨q', ha⟩ := append_spec hq (h.held q (hq ▸ List.mem_cons_self)).2 bs
      have hpool := (congrArg FramePool.framePool ha.same :)
      have hlimit := (congrArg FramePool.limit ha.same :)
      refine ⟨hpool ▸ hk.here, by rw [hpool, hlimit]; exact hk.full, ?_⟩
      rw [ha.inflight]
      intro r hr
      rcases List.mem_cons.mp hr with rfl | hr
      · rw [ha.slot]
        exact hk.free q (hq ▸ List.mem_cons_self)
      · exact hk.free r (hq ▸ List.mem_cons_of_mem _ hr)

theorem Kept.pop {s : Nat} {b : FrameBuf} (hk : Kept s b p) : Kept s b p.popFront := by
  cases hq : p.inflight with
  | nil => rw [popFront, hq]; exact hk
  | cons q qs =>
      rw [popFront_eq hq]
      refine ⟨?_, (List.length_set ..).trans hk.full,
        fun r hr => hk.free r (hq ▸ List.mem_cons_of_mem _ hr)⟩
      rw [List.getElem?_set_ne (hk.free q (hq ▸ List.mem_cons_self))]
      exact hk.here

/-- With a pool at its full size `push_inflight` allocates nothing. -/
theorem push_full (h : p.Inv) (hfull : p.framePool.length = p.limit) {b : FrameBuf}
    (hb : p.framePool[p.frameRing]? = some b) :
    p.pushInflight =
      { p with
        frameRing := (p.frameRing + 1) % p.limit
        inflight := p.inflight ++ [⟨{ b with len := 0 }, p.frameRing, p.submitted⟩]
        submitted := p.submitted + 1 } := by
  have hfill : p.fill = p := by rw [FramePool.fill, if_neg (by omega)]
  obtain ⟨b', hb', heq⟩ := push_spec h
  rw [hfill, hb] at hb'
  cases hb'
  rw [heq, hfill]

theorem Kept.step {s : Nat} {b : FrameBuf} (h : p.Inv) (hk : Kept s b p) (e : FrameEvent)
    (htake : p.takes e ≠ some s) : Kept s b (p.step grow e) := by
  cases e with
  | submit =>
      rw [takes] at htake
      rw [FramePool.step]
      split
      · rename_i hfree
        rw [if_pos hfree] at htake
        have hne : p.frameRing ≠ s := fun he => htake (congrArg some he)
        have hlt : p.frameRing < p.framePool.length := by
          rw [hk.full, h.ring]; exact Nat.mod_lt _ h.pos
        rw [push_full h hk.full (List.getElem?_eq_getElem hlt)]
        refine ⟨hk.here, hk.full, fun q hq => ?_⟩
        rcases List.mem_append.mp hq with hq | hq
        · exact hk.free q hq
        · rw [List.mem_singleton.mp hq]
          exact hne
      · exact hk
  | message bs ready =>
      rw [FramePool.step]
      split
      · exact hk
      split
      · exact (hk.append h bs).pop
      · exact hk.append h bs
  | loss => exact { hk.pop with }
  | redial => exact ⟨hk.here, hk.full, fun _ hq => (nomatch hq)⟩

theorem Kept.run {s : Nat} {b : FrameBuf} (h : p.Inv) (hk : Kept s b p) {es : List FrameEvent}
    (htake : s ∉ along grow takes p es) : Kept s b (p.run grow es) := by
  induction es generalizing p with
  | nil => exact hk
  | cons e es ih =>
      rw [along, List.mem_append, not_or, Option.mem_toList] at htake
      exact ih (step_inv h e) (hk.step h e htake.1) htake.2

/-- The slot of a query that left has its buffer. -/
theorem pop_kept (h : p.Inv) (hq : p.inflight = q :: qs) :
    Kept q.frameSlot q.frames p.popFront := by
  have hfull : p.framePool.length = p.limit := h.pool.elim id fun hidle => by
    rw [hidle.2] at hq; cases hq
  have hnodup := h.nodup
  rw [hq, List.map_cons, List.nodup_cons] at hnodup
  rw [popFront_eq hq]
  refine ⟨List.getElem?_set_self ?_, (List.length_set ..).trans hfull, fun r hr he => ?_⟩
  · rw [hfull, h.slots q (hq ▸ List.mem_cons_self)]
    exact Nat.mod_lt _ h.pos
  · exact hnodup.1 (he ▸ List.mem_map_of_mem hr)

/-- The event that lets a query go pops it off a queue that it is the front of. -/
theorem releases_pop {e : FrameEvent} (h : p.Inv) (hr : p.releases grow e = some q) :
    ∃ p' : FramePool, p'.Inv ∧ p'.inflight.head? = some q ∧ (p.step grow e = p'.popFront ∨
        p.step grow e = { p'.popFront with lost := true }) := by
  cases e with
  | submit => cases hr
  | redial => cases hr
  | loss => exact ⟨p, h, hr, .inr rfl⟩
  | message bs ready =>
      cases ready with
      | false => cases hr
      | true =>
          rw [releases] at hr
          split at hr
          · cases hr
          · rename_i hlost
            refine ⟨p.append grow bs, h.append bs, hr, .inl ?_⟩
            rw [FramePool.step, if_neg hlost, if_pos rfl]

/-! ### What a Result reads -/

/-- The buffer `b` of query `k` is in the slot of `k`, and the query one turn of the ring behind is
not at the front, or nothing is framed any more. -/
structure Spared (k : Nat) (b : FrameBuf) (p : FramePool) : Prop where
  inv : p.Inv
  slot : p.owner b.block = k % p.limit
  old : b.block < p.fresh
  ahead : p.lost = true ∨ k < p.front ∧ p.front ≤ k + p.limit

/-- The front query is another than `k`'s successor in the slot: what it is written is elsewhere. -/
theorem Spared.append {k : Nat} {b : FrameBuf} (h : Spared k b p) (hlost : p.lost = false)
    (hne : p.inflight.head?.map Holder.ticket ≠ some (k + p.limit)) (bs : List UInt8) :
    Spared k b (p.append grow bs) ∧ (p.append grow bs).heap b.block = p.heap b.block := by
  cases hq : p.inflight with
  | nil => rw [FramePool.append, hq]; exact ⟨h, rfl⟩
  | cons q qs =>
      have hmem : q ∈ p.inflight := hq ▸ List.mem_cons_self
      obtain ⟨hheld, hold⟩ := h.inv.held q hmem
      obtain ⟨q', ha⟩ := append_spec hq hold bs
      have hlimit := (congrArg FramePool.limit ha.same :)
      have hsub := (congrArg FramePool.submitted ha.same :)
      have hlost' := (congrArg FramePool.lost ha.same :)
      have hfront : (p.append grow bs).front = p.front := by
        rw [front, ha.inflight, hsub, front, hq]; rfl
      obtain hl | ⟨hlo, hhi⟩ := h.ahead
      · rw [hlost] at hl; cases hl
      have hticket := (front_pop h.inv hq).1
      have hlast : q.ticket ≠ k + p.limit := fun he => hne (by rw [hq, List.head?_cons]; simp [he])
      have hslot : k % p.limit ≠ q.frameSlot := by
        rw [h.inv.slots q hmem]
        exact Buffers.mod_ne (by omega) (by omega)
      refine ⟨⟨ha.inv h.inv hq, ?_, Nat.lt_of_lt_of_le h.old ha.fresh.1, .inr ?_⟩, ?_⟩
      · rw [ha.owner _ h.old, hlimit]
        exact h.slot
      · rw [hfront, hlimit]
        exact ⟨hlo, hhi⟩
      · refine ha.heap _ fun he => ?_
        rcases ha.block with hb | hb
        · exact hslot (by rw [← h.slot, he, hb]; exact hheld)
        · exact absurd (he.trans hb) (Nat.ne_of_lt h.old)

theorem Spared.pop {k : Nat} {b : FrameBuf} (h : Spared k b p)
    (hroom : p.lost = true ∨ p.inflight = [] ∨ p.front < k + p.limit) :
    Spared k b p.popFront ∧ p.popFront.heap = p.heap := by
  cases hq : p.inflight with
  | nil => rw [popFront, hq]; exact ⟨h, rfl⟩
  | cons q qs =>
      have hfront := (front_pop h.inv hq).2
      refine ⟨⟨h.inv.pop, ?_, ?_, ?_⟩, ?_⟩
      · rw [popFront_eq hq]; exact h.slot
      · rw [popFront_eq hq]; exact h.old
      · rw [hfront, popFront_eq hq]
        dsimp only
        rcases hroom with hl | hnil | hlt
        · exact .inl hl
        · rw [hnil] at hq; cases hq
        · exact h.ahead.imp id fun ⟨hlo, _⟩ => ⟨Nat.lt_succ_of_lt hlo, hlt⟩
      · rw [popFront_eq hq]

/-- A query that is completed leaves its bytes so. -/
theorem spared_of_pop (h : p.Inv) (hq : p.inflight = q :: qs) :
    Spared q.ticket q.frames p.popFront := by
  have hmem : q ∈ p.inflight := hq ▸ List.mem_cons_self
  obtain ⟨hticket, hfront⟩ := front_pop h hq
  obtain ⟨howner, hold⟩ := h.held q hmem
  have hpos := h.pos
  refine ⟨h.pop, ?_, ?_, .inr ?_⟩
  · rw [popFront_limit, popFront_eq hq, ← h.slots q hmem]
    exact howner
  · rw [popFront_eq hq]
    exact hold
  · rw [hfront, popFront_limit]
    omega

/-- An event that neither dials again nor frames a message for the query one turn behind. -/
theorem Spared.step {k : Nat} {b : FrameBuf} (h : Spared k b p) {e : FrameEvent}
    (he : e ≠ .redial) (hf : p.frames e ≠ some (k + p.limit)) :
    Spared k b (p.step grow e) ∧ (p.step grow e).heap b.block = p.heap b.block := by
  cases e with
  | redial => exact absurd rfl he
  | submit =>
      rw [FramePool.step]
      split
      · rename_i hfree
        obtain ⟨b', -, heq⟩ := push_spec h.inv
        obtain ⟨hl, -, -, -, hheap, hlost⟩ := p.fill_same
        obtain ⟨howner, hfresh⟩ :
            p.fill.owner b.block = p.owner b.block ∧ p.fresh ≤ p.fill.fresh := by
          unfold FramePool.fill
          split
          · exact ⟨if_neg (Nat.not_le.mpr h.old), Nat.le_add_right _ _⟩
          · exact ⟨rfl, Nat.le_refl _⟩
        have hfront : p.pushInflight.front = p.front := by
          rw [heq, front, front, List.length_append, List.length_singleton, Nat.add_sub_add_right]
        have hinv := h.inv.push hfree
        refine ⟨⟨hinv, ?_, ?_, ?_⟩, ?_⟩
        · rw [heq]; dsimp only; rw [howner, hl]; exact h.slot
        · rw [heq]; exact Nat.lt_of_lt_of_le h.old hfresh
        · rw [hfront, heq]; dsimp only; rw [hlost, hl]; exact h.ahead
        · rw [heq]; dsimp only; rw [hheap]
      · exact ⟨h, rfl⟩
  | loss =>
      have hpop : p.popFront.Inv := h.inv.pop
      cases hq : p.inflight with
      | nil =>
          have hnone : p.popFront = p := by rw [popFront, hq]
          rw [FramePool.step, hnone]
          exact ⟨⟨{ h.inv with }, h.slot, h.old, .inl rfl⟩, rfl⟩
      | cons q qs =>
          rw [FramePool.step]
          rw [popFront_eq hq] at hpop ⊢
          exact ⟨⟨{ hpop with }, h.slot, h.old, .inl rfl⟩, rfl⟩
  | message bs ready =>
      rw [FramePool.step]
      split
      · exact ⟨h, rfl⟩
      rename_i hlost
      rw [FramePool.frames, if_neg hlost] at hf
      obtain ⟨happ, hheap⟩ := h.append (Bool.eq_false_iff.mpr hlost) hf bs
      split
      · -- the front query is completed: it was not the one a turn behind
        have hroom : (p.append grow bs).lost = true ∨ (p.append grow bs).inflight = [] ∨
            (p.append grow bs).front < k + (p.append grow bs).limit := by
          rcases happ.ahead with hl | ⟨-, hle⟩
          · exact .inl hl
          refine .inr ?_
          cases hq : p.inflight with
          | nil => exact .inl (by rw [FramePool.append, hq]; exact hq)
          | cons q qs =>
              obtain ⟨q', ha⟩ := append_spec hq (h.inv.held q (hq ▸ List.mem_cons_self)).2 bs
              have hticket := (front_pop happ.inv ha.inflight).1
              rw [hq, List.head?_cons, Option.map_some, Ne, Option.some.injEq, ← ha.ticket,
                hticket, ← (append_same p bs).1] at hf
              exact .inr (Nat.lt_of_le_of_ne hle hf)
        obtain ⟨hpop, hsame⟩ := happ.pop hroom
        exact ⟨hpop, by rw [hsame]; exact hheap⟩
      · exact ⟨happ, hheap⟩

theorem Spared.run {k : Nat} {b : FrameBuf} (h : Spared k b p) {es : List FrameEvent}
    (hredial : FrameEvent.redial ∉ es)
    (hf : k + p.limit ∉ along grow FramePool.frames p es) :
    (p.run grow es).heap b.block = p.heap b.block := by
  induction es generalizing p with
  | nil => rfl
  | cons e es ih =>
      rw [along, List.mem_append, not_or, Option.mem_toList] at hf
      obtain ⟨he, hes⟩ := not_or.mp (mt List.mem_cons.mpr hredial)
      obtain ⟨hstep, hheap⟩ := h.step (Ne.symm he) hf.1
      exact (ih hstep hes (by rw [step_limit]; exact hf.2)).trans hheap

end Steps

/-- **Reply buffers are never shared.**  In every run with the limit `L`: the queries in flight
hold different slots; a query that leaves hands its buffer, as it has grown, to the next query in
its slot; and the bytes of the Result of query `k` stay, with no re-dial in between, until a message
is framed for query `k + L`. -/
theorem reply_buffers_never_shared (grow : Nat → Nat → Nat) {L : Nat} (hL : 0 < L)
    (es : List FrameEvent) {p : FramePool} (hp : run grow { limit := L } es = p) :
    (p.inflight.map Holder.frameSlot).Nodup ∧
      (∀ e q, p.releases grow e = some q →
        ∀ es', q.frameSlot ∉ along grow takes (p.step grow e) es' →
        ∀ p', (p.step grow e).run grow es' = p' → p'.takes .submit = some q.frameSlot →
          (p'.step grow .submit).inflight =
            p'.inflight ++ [⟨{ q.frames with len := 0 }, q.frameSlot, p'.submitted⟩]) ∧
      ∀ bs q, p.releases grow (.message bs true) = some q →
        ∀ es', FrameEvent.redial ∉ es' →
          q.ticket + L ∉ along grow FramePool.frames (p.step grow (.message bs true)) es' →
          q.frames.view ((p.step grow (.message bs true)).run grow es').heap =
            q.frames.view (p.step grow (.message bs true)).heap := by
  have hinv : p.Inv := hp ▸ run_inv (start_inv hL) es
  refine ⟨hinv.nodup, fun e q hr es' htake p' hp' hsub => ?_, fun bs q hr es' hredial hf => ?_⟩
  · obtain ⟨p₁, h₁, hhead, hstep⟩ := releases_pop hinv hr
    obtain ⟨qs, hqs⟩ : ∃ qs, p₁.inflight = q :: qs := List.head?_eq_some_iff.mp hhead
    have hkept : Kept q.frameSlot q.frames (p.step grow e) := by
      rcases hstep with hstep | hstep
      · rw [hstep]; exact pop_kept h₁ hqs
      · rw [hstep]; exact { pop_kept h₁ hqs with }
    have hkept' := hkept.run (step_inv hinv e) htake
    have hinv' : ((p.step grow e).run grow es').Inv := run_inv (step_inv hinv e) es'
    rw [hp'] at hkept' hinv'
    rw [takes] at hsub
    split at hsub
    · rename_i hfree
      have hring : p'.frameRing = q.frameSlot := Option.some.inj hsub
      rw [FramePool.step, if_pos hfree, push_full hinv' hkept'.full (hring ▸ hkept'.here), hring]
    · cases hsub
  · rw [releases] at hr
    split at hr
    · cases hr
    rename_i hlost
    obtain ⟨qs, hqs⟩ : ∃ qs, (p.append grow bs).inflight = q :: qs := List.head?_eq_some_iff.mp hr
    have hspared : Spared q.ticket q.frames (p.step grow (.message bs true)) := by
      rw [step, if_neg hlost, if_pos rfl]
      exact spared_of_pop (hinv.append bs) hqs
    have hlimit : (p.step grow (.message bs true)).limit = L := by
      rw [step_limit, ← hp, run_limit]
    rw [FrameBuf.view, FrameBuf.view, hspared.run hredial (by rw [hlimit]; exact hf)]

/-- Two queries in flight with a limit of two. -/
def twoSubmitted : FramePool := run (fun cap n => cap + n) { limit := 2 } [.submit, .submit]

/-- The first query is answered.  The third one gets its buffer, and the bytes of its Result stay
while the second one is answered and two more are submitted. -/
theorem reply_buffers_never_shared_two :
    (twoSubmitted.inflight.map Holder.frameSlot).Nodup ∧
      ((twoSubmitted.run (fun cap n => cap + n)
          [.message [1, 2, 3] true, .message [4] false]).step (fun cap n => cap + n)
          .submit).inflight =
        [⟨⟨1, frameBufCap, 1⟩, 1, 1⟩, ⟨⟨0, frameBufCap, 0⟩, 0, 2⟩] ∧
      FrameBuf.view ⟨0, frameBufCap, 3⟩ (twoSubmitted.run (fun cap n => cap + n)
        [.message [1, 2, 3] true, .message [4] true, .submit, .submit]).heap = [1, 2, 3] := by
  have h := reply_buffers_never_shared (fun cap n => cap + n) (by decide) [.submit, .submit]
    (rfl : _ = twoSubmitted)
  refine ⟨h.1, ?_, ?_⟩
  · exact h.2.1 (.message [1, 2, 3] true) ⟨⟨0, frameBufCap, 3⟩, 0, 0⟩ rfl [.message [4] false]
      (by decide) _ rfl rfl
  · exact h.2.2 [1, 2, 3] ⟨⟨0, frameBufCap, 3⟩, 0, 0⟩ rfl [.message [4] true, .submit, .submit]
      (by decide) (by decide)

/-! ### The pool of a connection -/

/-- The events of messages that complete no query. -/
def framed (ms : List Msg) : List FrameEvent := ms.map fun m => .message m.bytes false

/-- The slots in use, with the bytes their headers show. -/
def soFar (p : FramePool) : List (Nat × List UInt8) :=
  p.inflight.map fun q => (q.frameSlot, q.frames.view p.heap)

/-- The same of the connection of the other modules, which has the bytes in the slots. -/
def connSoFar (c : PgConn) : List (Nat × List UInt8) :=
  c.inflight.map fun q => (q.frameSlot, c.framesOf q)

section Connection

variable {grow : Nat → Nat → Nat} {p : FramePool} {c c' : PgConn} {s : Nat} {b : List UInt8}
  {r : List (Nat × List UInt8)}

theorem run_snoc (es : List FrameEvent) (e : FrameEvent) :
    p.run grow (es ++ [e]) = (p.run grow es).step grow e := by
  simp [run]

theorem run_framed_same (ms : List Msg) :
    (p.run grow (framed ms)).lost = p.lost ∧ (p.run grow (framed ms)).frameRing = p.frameRing := by
  induction ms generalizing p with
  | nil => exact ⟨rfl, rfl⟩
  | cons m ms ih =>
      have hm : (p.step grow (.message m.bytes false)).lost = p.lost ∧
          (p.step grow (.message m.bytes false)).frameRing = p.frameRing := by
        rw [step]
        split
        · exact ⟨rfl, rfl⟩
        · rw [if_neg (by decide)]
          unfold append
          split
          · exact ⟨rfl, rfl⟩
          · dsimp only
            split <;> exact ⟨rfl, rfl⟩
      exact ⟨ih.1.trans hm.1, ih.2.trans hm.2⟩

/-- A ReadyForQuery is framed like any message, and then the query leaves. -/
theorem run_framed_ready (hlost : p.lost = false) (ms : List Msg) (m : Msg) :
    p.run grow (framed ms ++ [.message m.bytes true]) =
      (p.run grow (framed (ms ++ [m]))).popFront := by
  have hl : (p.run grow (framed ms)).lost = false := (run_framed_same ms).1.trans hlost
  have hmore : framed (ms ++ [m]) = framed ms ++ [.message m.bytes false] := by simp [framed]
  rw [hmore, run_snoc, run_snoc]
  simp [step, hl]

/-- A message goes to the front query, and no other slot is written. -/
theorem soFar_append (h : p.Inv) (hp : p.soFar = (s, b) :: r) (bs : List UInt8) :
    (p.append grow bs).soFar = (s, b ++ bs) :: r := by
  obtain ⟨q, qs, hq, hsb, hr⟩ := List.map_eq_cons_iff.mp hp
  obtain ⟨rfl, rfl⟩ := Prod.mk.inj hsb
  obtain ⟨hheld, hold⟩ := h.held q (hq ▸ List.mem_cons_self)
  obtain ⟨q', ha⟩ : ∃ q', Appended p q qs bs (p.append grow bs) q' := append_spec hq hold bs
  rw [soFar, ha.inflight, List.map_cons, ha.slot, ha.view, ← hr]
  congr 1
  refine List.map_congr_left fun x hx => ?_
  obtain ⟨ho, hlt⟩ := h.held x (hq ▸ List.mem_cons_of_mem _ hx)
  have hne : x.frames.block ≠ q'.frames.block := by
    intro he
    rcases ha.block with hb | hb
    · have hnodup := h.nodup
      rw [hq, List.map_cons, List.nodup_cons, ← hheld, ← hb, ← he, ho] at hnodup
      exact hnodup.1 (List.mem_map_of_mem hx)
    · omega
  rw [FrameBuf.view, FrameBuf.view, ha.heap _ hne]

theorem soFar_framed (h : p.Inv) {ms : List Msg} (hlost : p.lost = true → ms = [])
    (hp : p.soFar = (s, b) :: r) :
    (p.run grow (framed ms)).soFar = (s, b ++ framing.encs ms) :: r := by
  induction ms generalizing p b with
  | nil => rw [Framing.encs_nil, List.append_nil]; exact hp
  | cons m ms ih =>
      have hl : p.lost = false := Bool.eq_false_iff.mpr fun hl => (by cases hlost hl)
      have hstep : p.step grow (.message m.bytes false) = p.append grow m.bytes := by
        simp [step, hl]
      rw [framed, List.map_cons, run, List.foldl_cons, hstep, Framing.encs_cons,
        ← List.append_assoc]
      refine ih (h.append m.bytes) ?_ (soFar_append h hp m.bytes)
      rw [(append_same p m.bytes).2, hl]
      exact fun h => (by cases h)

/-- The pool shows what the connection has: the same queries in the same slots with the same bytes.
Where nothing is framed any more, the connection is lost and has no whole message left. -/
structure Shows (p : FramePool) (c : PgConn) : Prop where
  inv : p.Inv
  limit : p.limit = c.inflightLimit
  ring : p.frameRing = c.frameRing
  queue : p.soFar = connSoFar c
  quiet : p.lost = true → c.state ≠ .ready ∧ framing.next c.recv.rest = none

/-- What does not touch the queue. -/
theorem Shows.congr (h : Shows p c) (hq : SameQueue c c')
    (hquiet : p.lost = true → c'.state ≠ .ready ∧ framing.next c'.recv.rest = none) :
    Shows p c' :=
  ⟨h.inv, by rw [h.limit, inflightLimit, inflightLimit, hq.cap], h.ring.trans hq.next.symm,
    by simp only [h.queue, connSoFar, hq.inflight, hq.framesOf], hquiet⟩

/-- A submission. -/
theorem Shows.push (h : Shows p c) (hs : Slots c) (hp : Pushed c c')
    (hfree : c.inflight.length < c.inflightLimit) (hready : c.state = .ready) :
    Shows (p.step grow .submit) c' := by
  have hlen : p.inflight.length = c.inflight.length := by
    simpa [soFar, connSoFar] using congrArg List.length h.queue
  rw [← hlen, ← h.limit] at hfree
  have hcap : c'.inflightCap = c.inflightCap := (congrArg inflightCap hp.same :)
  obtain ⟨b, -, heq⟩ := push_spec h.inv
  obtain ⟨hl, -, -, -, hheap, hlost⟩ := p.fill_same
  rw [step, if_pos hfree]
  refine ⟨h.inv.push hfree, ?_, ?_, ?_, ?_⟩ <;> rw [heq]
  · rw [inflightLimit, hcap]
    exact hl.trans h.limit
  · rw [hp.next, ← h.ring, ← h.limit]
  · rw [soFar, connSoFar, hp.inflight, List.map_append, List.map_append, hheap]
    congr 1
    · refine h.queue.trans (List.map_congr_left fun q hq => ?_)
      rw [hp.framesOf_old hs (by rwa [← hlen, ← h.limit]) hq]
    · rw [List.map_singleton, List.map_singleton, hp.framesOf_new _ rfl, h.ring]
      rfl
  · exact fun hl => absurd hready (h.quiet (hlost ▸ hl)).1

/-- The front query takes messages. -/
theorem Shows.took {q q' : PendingQuery} {qs : List PendingQuery} {ms : List Msg} (h : Shows p c)
    (hs : Slots c) (hlost : p.lost = true → ms = []) (hc : c.inflight = q :: qs)
    (ht : PgConn.Took c q qs ms q' c') : Shows (p.run grow (framed ms)) c' := by
  have hcap : c'.inflightCap = c.inflightCap := (congrArg inflightCap ht.same :)
  have hnext : c'.frameRing = c.frameRing := (congrArg PgConn.frameRing ht.same :)
  have hqueue := h.queue
  rw [connSoFar, hc, List.map_cons] at hqueue
  refine ⟨run_inv h.inv _, ?_, (run_framed_same ms).2.trans (h.ring.trans hnext.symm), ?_,
    fun hl => ?_⟩
  · rw [run_limit, h.limit, inflightLimit, inflightLimit, hcap]
  · rw [soFar_framed h.inv hlost hqueue, connSoFar, ht.inflight, List.map_cons, ht.slot,
      ht.frames (hs.slot_lt (hc ▸ List.mem_cons_self))]
    congr 1
    refine List.map_congr_left fun x hx => ?_
    rw [framesOf, framesOf, List.getD, List.getD, ht.others _ (hs.slot_ne hc hx)]
  · -- nothing was framed, so there is still no whole message
    rw [(run_framed_same ms).1] at hl
    obtain ⟨hstate, hmore⟩ := h.quiet hl
    have hrest := ht.rest
    rw [hlost hl, Framing.encs_nil, List.nil_append] at hrest
    exact ⟨fun hr => hstate (ht.state.mp hr).1, hrest ▸ hmore⟩

/-- The front query leaves. -/
theorem Shows.pop {q : PendingQuery} {qs : List PendingQuery} (h : Shows p c)
    (hc : c.inflight = q :: qs) : Shows p.popFront c.popFront := by
  have hqueue := h.queue
  rw [connSoFar, hc, List.map_cons] at hqueue
  obtain ⟨r, rs, hr, -, hrs⟩ := List.map_eq_cons_iff.mp hqueue
  have hinv := h.inv.pop
  rw [popFront_eq hr] at hinv ⊢
  refine ⟨hinv, h.limit, h.ring, ?_, h.quiet⟩
  rw [connSoFar, PgConn.popFront, hc]
  exact hrs

/-- A re-dial, at what `redial_start` resets. -/
theorem Shows.redial (h : Shows p c) : Shows p.redialStart c.resetSession :=
  ⟨@step_inv (fun n _ => n) p h.inv .redial, h.limit, rfl, rfl, fun hl => (by cases hl)⟩

/-- **A call of `async_on_readable` is a run of the pool**: it frames messages for the front query,
and may complete or fail it. -/
theorem Shows.onReadable (h : Shows p c) (hs : Slots c) (script : List Recv) :
    ∃ es, Shows (p.run grow es) (c.asyncOnReadable script).2 := by
  have hspec := asyncOnReadable_spec c script
  generalize c.asyncOnReadable script = r at hspec
  -- the transport is read first: a lost connection reads nothing more
  have hfilled : ∀ {c₁}, Filled c script c₁ → Shows p c₁ := by
    intro c₁ hf
    refine h.congr hf.queue fun hl => ?_
    obtain ⟨hstate, hmore⟩ := h.quiet hl
    rw [hf.rest, if_neg hstate, List.append_nil]
    exact ⟨fun hr => hstate (hf.state.mp hr).1, hmore⟩
  have hquiet : p.lost = true → framing.first isReady (c.unread script) =
      ([], .more c.recv.rest) := by
    intro hl
    obtain ⟨hstate, hmore⟩ := h.quiet hl
    rw [unread, if_neg hstate, List.append_nil]
    exact Framing.first_more hmore
  have htook : ∀ {c₁ c' : PgConn} {q q' qs ms st}, Filled c script c₁ → c.inflight = q :: qs →
      framing.first isReady (c.unread script) = (ms, st) → PgConn.Took c₁ q qs ms q' c' →
      Shows (p.run grow (framed ms)) c' := by
    intro c₁ c' q q' qs ms st hf hq hfirst ht
    refine (hfilled hf).took (hs.congr hf.queue) (fun hl => ?_) (hf.queue.inflight.trans hq) ht
    rw [hquiet hl] at hfirst
    exact (Prod.mk.inj hfirst).1.symm
  have hreads : Framing.Reads framing isReady (c.unread script) _ _ :=
    Framing.first_reads (c.unread script)
  cases hspec with
  | idle hf _ _ => exact ⟨[], hfilled hf⟩
  | gone hf _ _ => exact ⟨[], hfilled hf⟩
  | ready hf hq hfirst ht =>
      have hlost : p.lost = false := by
        refine Bool.eq_false_iff.mpr fun hl => ?_
        rw [hquiet hl] at hfirst
        cases hfirst
      have hpop := (htook hf hq hfirst ht).pop ht.inflight
      rw [hfirst] at hreads
      generalize c.unread script = u at hreads
      cases hreads with
      | done hcomplete =>
          obtain ⟨init, m, rfl, -, -⟩ := hcomplete
          exact ⟨framed init ++ [.message m.bytes true], by rwa [run_framed_ready hlost]⟩
  | waiting hf hq hfirst ht => exact ⟨_, htook hf hq hfirst ht⟩
  | @fails c₁ c' q q' qs ms hf hq hfirst ht hstate =>
      have hpop := (htook hf hq hfirst ht).pop ht.inflight
      have hmore : framing.next c'.recv.rest = none := by
        rw [hfirst] at hreads
        generalize c.unread script = u at hreads
        cases hreads with
        | more _ hmore => exact hmore
      refine ⟨framed ms ++ [.loss], ?_⟩
      rw [run_snoc, step]
      exact { hpop with
        inv := { hpop.inv with }
        quiet := fun _ => ⟨hstate, hmore⟩ }

/-- An operation is a run of the pool. -/
theorem Shows.step {H : History} (h : Shows p H.conn) (hs : Slots H.conn) (op : Op) :
    ∃ es, Shows (p.run grow es) (H.step op).conn := by
  cases op with
  | readable script =>
      rw [History.step]
      exact h.onReadable hs script
  | flush recvs sends =>
      rw [History.step]
      have hf := H.conn.asyncFlush_spec recvs sends
      refine ⟨[], h.congr hf.queue fun hl => ?_⟩
      obtain ⟨hstate, hmore⟩ := h.quiet hl
      exact ⟨fun hr => hstate (hf.ready hr), by rw [hf.rest]; simpa [hstate] using hmore⟩
  | submit sub =>
      rw [History.step]
      have hon := sub.on_cases H.conn
      generalize sub.on H.conn = r at hon
      cases hon with
      | refused => exact ⟨[], h⟩
      | accepted ht =>
          have hp : Shows (p.step grow .submit) _ := h.push hs (queued_pushed ht) ht.slot ht.ready
          exact ⟨[.submit], hp⟩

/-- **The pool follows the connection.**  Every run of a connection is matched by a run of its pool:
the same queries in the same slots, and their headers show the bytes the connection has framed for
them; and it stays so when the connection is then dialed again. -/
theorem pool_follows_connection (grow : Nat → Nat → Nat) (hc : Opened c) (h : Shows p c)
    (ops : List Op) :
    ∃ es, Shows (p.run grow es) (PgAsync.run c ops).conn ∧
      Shows (p.run grow (es ++ [.redial])) (PgAsync.run c ops).conn.resetSession := by
  suffices hrun : ∃ es, Shows (p.run grow es) (PgAsync.run c ops).conn by
    obtain ⟨es, hes⟩ := hrun
    exact ⟨es, hes, by rw [run_snoc]; exact hes.redial⟩
  induction ops using List.reverseRecOn with
  | nil => exact ⟨[], h⟩
  | append_singleton ops op ih =>
      obtain ⟨es, hes⟩ := ih
      rw [run_concat]
      obtain ⟨_, _, _, ha⟩ := run_aligned hc ops
      obtain ⟨es', hes'⟩ : ∃ es', Shows ((p.run grow es).run grow es') _ := hes.step ha.slots op
      exact ⟨es ++ es', by rwa [run, List.foldl_append]⟩

theorem pool_follows_connection_fresh :
    ∃ es, Shows (FramePool.run (fun _ n => n) { limit := maxInflight } es)
      (PgAsync.run freshConn [selectOne]).conn :=
  have hshow : Shows { limit := maxInflight } freshConn :=
    ⟨start_inv (by decide), rfl, rfl, rfl, fun hl => (by cases hl)⟩
  (pool_follows_connection (fun _ n => n) freshConn_opened hshow [selectOne]).imp fun _ h => h.1

end Connection

end FramePool

end Vanilla.PgAsync

import Vanilla.Support.Counters

/-!
# IoUring — the two rings

The submission and completion rings of `io_uring/io_uring_linux.c.v`: `get_sqe`, `flush_sq`,
`submit`, `submit_and_wait`, `peek_batch_cqe`, `cq_advance`, as the loop of
`server/server_io_uring_linux.c.v` calls them.  The counters are `u32`s and wrap.  The kernel takes
entries only inside an `io_uring_enter`, as many as it likes of those published; it posts
completions whenever the completion ring has room.

* `SqInv`, `CqInv`: what holds between any two steps, by numbering entries and completions.
* `entries_exact`: over every run of the loop nothing is lost, repeated or overwritten too early.
-/

namespace Vanilla.IoUring
open Counters

universe u v

variable {σ : Type u} {κ : Type v}

/-! ### The rings -/

/-- The submission half of a `Ring`: the counters shared with the kernel, the worker's own, and
the cells. -/
structure Sq (σ : Type u) where
  khead : UInt32
  ktail : UInt32
  sqes : UInt32 → σ
  mask : UInt32
  entries : UInt32
  /-- Those from here to `sqeTail` are filled and not published. -/
  sqeHead : UInt32
  sqeTail : UInt32

/-- The completion half. -/
structure Cq (κ : Type v) where
  khead : UInt32
  ktail : UInt32
  cqes : UInt32 → κ
  mask : UInt32

/-- `get_sqe`: the cell of the next free entry, `none` for nil. -/
def getSqe (r : Sq σ) : Option (UInt32 × Sq σ) :=
  let tail := r.sqeTail
  if tail - r.khead ≥ r.entries then none
  else some (tail &&& r.mask, { r with sqeTail := tail + 1 })

/-- `flush_sq`. -/
def flushSq (r : Sq σ) : UInt32 × Sq σ :=
  let tail := r.sqeTail
  let r := if r.sqeHead ≠ tail then { r with sqeHead := tail, ktail := tail } else r
  (tail - r.khead, r)

/-- `io_uring_enter` on the submission ring: the kernel takes the next entries, at most `m`, at most
as many as it is asked to and as are published. -/
def enter (m : Nat) (r : Sq σ) (toSubmit : UInt32) : List σ × Sq σ :=
  let n := min m (min toSubmit.toNat (r.ktail - r.khead).toNat)
  ((List.range n).map fun i => r.sqes ((r.khead + i.toUInt32) &&& r.mask),
    { r with khead := r.khead + n.toUInt32 })

/-- `submit`, `flushCq` being what `cq_needs_flush` reports. -/
def submit (m : Nat) (flushCq : Bool) (r : Sq σ) : List σ × Sq σ :=
  let (toSubmit, r) := flushSq r
  if toSubmit == 0 && !flushCq then ([], r) else enter m r toSubmit

/-- `submit_and_wait`. -/
def submitAndWait (m : Nat) (r : Sq σ) : List σ × Sq σ :=
  let (toSubmit, r) := flushSq r
  enter m r toSubmit

/-- A pass of `peek_batch_cqe`: the cells of up to `count` completions, `none` when there is none
ready. -/
def peek (r : Cq κ) (count : UInt32) : Option (UInt32 × List UInt32) :=
  let head := r.khead
  let ready := r.ktail - head
  if ready > 0 then
    let n := if ready < count then ready else count
    some (n, (List.range n.toNat).map fun i => (head + i.toUInt32) &&& r.mask)
  else none

/-- `cq_advance`. -/
def cqAdvance (r : Cq κ) (nr : UInt32) : Cq κ :=
  if nr > 0 then { r with khead := r.khead + nr } else r

/-! ### The loop -/

/-- `drain_batch`. -/
def drainBatch : UInt32 := 256

/-- `batch`. -/
def batch (ringEntries : UInt32) : UInt32 :=
  if ringEntries / 4 < drainBatch then if ringEntries < 4 then 1 else ringEntries / 4
  else drainBatch

/-- Where the worker is in its loop. -/
inductive Phase where
  /-- At the top. -/
  | wait
  /-- In `peek_batch_cqe`. -/
  | peek (flushed : Bool)
  /-- In a batch of `n`; these cells are left to dispatch. -/
  | batch (cqes : List UInt32) (n : UInt32)
  /-- A full batch is handed back. -/
  | full
  /-- The drain is over. -/
  | drained

/-- The rings, the worker, and what has happened to the entries and the completions. -/
structure World (σ : Type u) (κ : Type v) where
  sq : Sq σ
  cq : Cq κ
  /-- The kernel's own size of the completion ring. -/
  cqEntries : UInt32
  phase : Phase
  /-- Entries in the order they were filled, and their cells. -/
  filled : List σ
  sqSlots : List UInt32
  /-- Entries the kernel has seen. -/
  seen : List σ
  /-- Completions in the order they were posted, and their cells. -/
  posted : List κ
  cqSlots : List UInt32
  dispatched : List κ
  /-- How many were posted when the worker last looked. -/
  looked : Nat

/-- What an `io_uring_enter` does. -/
def World.entered (w : World σ κ) (ret : List σ × Sq σ) : World σ κ :=
  { w with sq := ret.2, seen := w.seen ++ ret.1 }

/-- A step of the worker or of the kernel. -/
inductive Step (ringEntries : UInt32) : World σ κ → World σ κ → Prop
  /-- `prepare_*`: at the start, from a dispatch, from what follows the drain, from the wait. -/
  | prepare {w : World σ κ} (x : σ) {slot : UInt32} {r : Sq σ} (h : getSqe w.sq = some (slot, r)) :
      Step ringEntries w { w with
        sq := { r with sqes := Function.update r.sqes slot x }
        filled := w.filled ++ [x], sqSlots := w.sqSlots ++ [slot] }
  /-- `submit`, also where a full ring stops a `prepare_*`. -/
  | submit {w : World σ κ} (m : Nat) (flushCq : Bool) :
      Step ringEntries w (w.entered (submit m flushCq w.sq))
  | wait {w : World σ κ} (m : Nat) (h : w.phase = .wait) :
      Step ringEntries w { w.entered (submitAndWait m w.sq) with phase := .peek false }
  /-- `submit_and_wait_timeout` on an old kernel finds no entry for its timeout. -/
  | noWait {w : World σ κ} (h : w.phase = .wait) :
      Step ringEntries w { w with phase := .peek false }
  | ready {w : World σ κ} {flushed : Bool} {n : UInt32} {cqes : List UInt32}
      (h : w.phase = .peek flushed) (hpeek : peek w.cq (batch ringEntries) = some (n, cqes)) :
      Step ringEntries w { w with
        phase := if n = 0 then .drained else .batch cqes n
        looked := w.posted.length }
  /-- Nothing is ready, and `cq_needs_flush` is false or was heeded. -/
  | empty {w : World σ κ} {flushed : Bool} (h : w.phase = .peek flushed)
      (hpeek : peek w.cq (batch ringEntries) = none) :
      Step ringEntries w { w with phase := .drained, looked := w.posted.length }
  /-- Nothing is ready, and `cq_needs_flush` is true. -/
  | flush {w : World σ κ} (m : Nat) (h : w.phase = .peek false)
      (hpeek : peek w.cq (batch ringEntries) = none) :
      Step ringEntries w { w.entered (enter m w.sq 0) with phase := .peek true }
  | dispatch {w : World σ κ} {c : UInt32} {cqes : List UInt32} {n : UInt32}
      (h : w.phase = .batch (c :: cqes) n) :
      Step ringEntries w { w with
        phase := .batch cqes n, dispatched := w.dispatched ++ [w.cq.cqes c] }
  | advance {w : World σ κ} {n : UInt32} (h : w.phase = .batch [] n) :
      Step ringEntries w { w with
        cq := cqAdvance w.cq n
        phase := if n < batch ringEntries then .drained else .full }
  | resume {w : World σ κ} (m : Nat) (flushCq : Bool) (h : w.phase = .full) :
      Step ringEntries w { w.entered (IoUring.submit m flushCq w.sq) with phase := .peek false }
  | again {w : World σ κ} (h : w.phase = .drained) : Step ringEntries w { w with phase := .wait }
  /-- The kernel posts a completion. -/
  | post {w : World σ κ} (y : κ) (h : w.cq.ktail - w.cq.khead < w.cqEntries) :
      Step ringEntries w { w with
        cq := { w.cq with
          cqes := Function.update w.cq.cqes (w.cq.ktail &&& w.cq.mask) y
          ktail := w.cq.ktail + 1 }
        posted := w.posted ++ [y], cqSlots := w.cqSlots ++ [w.cq.ktail &&& w.cq.mask] }

/-- Rings of powers of two, empty, their counters anywhere. -/
structure Start (w : World σ κ) : Prop where
  sq_sized : Sized w.sq.mask w.sq.entries.toNat
  sq_published : w.sq.sqeHead = w.sq.ktail
  sq_empty : w.sq.sqeTail = w.sq.ktail
  sq_taken : w.sq.khead = w.sq.ktail
  cq_sized : Sized w.cq.mask w.cqEntries.toNat
  cq_empty : w.cq.khead = w.cq.ktail
  phase : w.phase = .wait
  filled : w.filled = []
  sqSlots : w.sqSlots = []
  seen : w.seen = []
  posted : w.posted = []
  cqSlots : w.cqSlots = []
  dispatched : w.dispatched = []
  looked : w.looked = 0

/-! ### The submission ring -/

/-- The submission ring between two steps: `published` of the entries filled are published. -/
structure SqInv (r : Sq σ) (filled : List σ) (slots : List UInt32) (seen : List σ)
    (start : UInt32) (published : Nat) : Prop where
  held : Held r.mask start r.entries.toNat r.sqes filled seen.length
  tail : r.sqeTail = turn start filled.length
  head : r.sqeHead = turn start published
  ktail : r.ktail = turn start published
  khead : r.khead = turn start seen.length
  seen_le : seen.length ≤ published
  published_le : published ≤ filled.length
  seen_eq : seen = filled.take seen.length
  slots_eq : slots = (List.range filled.length).map (cell r.mask start)

section

variable {r : Sq σ} {filled seen : List σ} {slots : List UInt32} {start : UInt32} {published : Nat}
  (h : SqInv r filled slots seen start published)
include h

theorem SqInv.count : (r.sqeTail - r.khead).toNat = filled.length - seen.length := by
  rw [h.tail, h.khead, h.held.count]

/-- `get_sqe` gives nil exactly when the ring is full. -/
theorem SqInv.getSqe_none : getSqe r = none ↔ filled.length - seen.length = r.entries.toNat := by
  have hcount := h.count
  have hroom := h.held.room
  unfold getSqe
  dsimp only
  rw [ite_eq_left_iff]
  simp only [reduceCtorEq, imp_false, not_not]
  rw [ge_iff_le, UInt32.le_iff_toNat_le, hcount]
  omega

theorem SqInv.prepare {slot : UInt32} {r' : Sq σ} (hget : getSqe r = some (slot, r')) (x : σ) :
    SqInv { r' with sqes := Function.update r'.sqes slot x } (filled ++ [x]) (slots ++ [slot]) seen
      start published := by
  have hcount := h.count
  have hle := h.held.head_le
  unfold getSqe at hget
  dsimp only at hget
  split at hget
  · cases hget
  · rename_i hfree
    obtain ⟨rfl, rfl⟩ := Prod.mk.inj (Option.some.inj hget)
    rw [ge_iff_le, UInt32.le_iff_toNat_le, hcount] at hfree
    have hlen : (filled ++ [x]).length = filled.length + 1 := List.length_append
    have hpub := h.published_le
    dsimp only
    rw [h.tail]
    refine ⟨h.held.push (by omega) x, ?_, h.head, h.ktail, h.khead, h.seen_le, by omega, ?_, ?_⟩
    · rw [turn_succ, hlen]
    · rw [List.take_append_of_le_length hle]
      exact h.seen_eq
    · rw [hlen, List.range_succ, List.map_append, ← h.slots_eq]
      rfl

/-- `flush_sq` publishes what is filled, and counts what the kernel has not taken. -/
theorem SqInv.flushSq : SqInv (flushSq r).2 filled slots seen start filled.length ∧
      (IoUring.flushSq r).1.toNat = filled.length - seen.length := by
  have hle := h.held.head_le
  unfold IoUring.flushSq
  dsimp only
  split
  · exact ⟨⟨h.held, h.tail, h.tail, h.tail, h.khead, hle, Nat.le_refl _, h.seen_eq, h.slots_eq⟩,
      h.count⟩
  · rename_i hsame
    have hsame : r.sqeHead = r.sqeTail := not_not.mp hsame
    have hktail : r.ktail = r.sqeTail := by rw [h.ktail, ← h.head, hsame]
    exact ⟨⟨h.held, h.tail, hsame.trans h.tail, hktail.trans h.tail, h.khead, hle, Nat.le_refl _,
      h.seen_eq, h.slots_eq⟩, h.count⟩

/-- The kernel takes the next entries, in the order they were filled. -/
theorem SqInv.enter (m : Nat) (toSubmit : UInt32) :
    SqInv (enter m r toSubmit).2 filled slots (seen ++ (enter m r toSubmit).1) start published ∧
      (IoUring.enter m r toSubmit).1 =
        (filled.drop seen.length).take (min m (min toSubmit.toNat (published - seen.length))) := by
  have hpub : (r.ktail - r.khead).toNat = published - seen.length := by
    have hlt := h.held.sized.lt
    have hroom := h.held.room
    have hle := h.published_le
    rw [h.ktail, h.khead, turn_sub h.seen_le (by omega)]
  have hseen := h.seen_le
  have hle := h.published_le
  unfold IoUring.enter
  dsimp only
  rw [hpub]
  have hn : min m (min toSubmit.toNat (published - seen.length)) ≤ published - seen.length :=
    Nat.le_trans (Nat.min_le_right _ _) (Nat.min_le_right _ _)
  generalize min m (min toSubmit.toNat (published - seen.length)) = n at hn ⊢
  have htaken : ((List.range n).map fun i => r.sqes ((r.khead + i.toUInt32) &&& r.mask)) =
      (filled.drop seen.length).take n := by
    rw [← h.held.read (show seen.length + n ≤ filled.length by omega), h.khead]
    simp only [turn_add]
    rfl
  rw [htaken]
  have hlen : (seen ++ (filled.drop seen.length).take n).length = seen.length + n := by
    rw [List.length_append, List.length_take, List.length_drop, Nat.min_eq_left (by omega)]
  refine ⟨⟨?_, h.tail, h.head, h.ktail, ?_, ?_, hle, ?_, h.slots_eq⟩, rfl⟩
  · rw [hlen]
    exact h.held.advance (Nat.le_add_right _ _) (by omega)
  · rw [hlen, h.khead, turn_add]
  · rw [hlen]
    omega
  · rw [hlen, List.take_add, ← h.seen_eq]

/-- A submit hands over the next of the entries the kernel has not seen. -/
theorem SqInv.submitAndWait (m : Nat) :
    SqInv (submitAndWait m r).2 filled slots (seen ++ (submitAndWait m r).1) start filled.length ∧
      (IoUring.submitAndWait m r).1 = (filled.drop seen.length).take m := by
  obtain ⟨hflush, hcount⟩ := h.flushSq
  obtain ⟨hinv, htaken⟩ := hflush.enter m (IoUring.flushSq r).1
  refine ⟨hinv, ?_⟩
  rw [hcount, Nat.min_self, ← List.length_drop, ← List.take_take, List.take_length] at htaken
  exact htaken

theorem SqInv.submit (m : Nat) (flushCq : Bool) :
    SqInv (submit m flushCq r).2 filled slots (seen ++ (submit m flushCq r).1) start
        filled.length ∧
      (IoUring.submit m flushCq r).1 = (filled.drop seen.length).take m := by
  obtain ⟨hflush, hcount⟩ := h.flushSq
  unfold IoUring.submit
  dsimp only
  split
  · rename_i hnone
    have hzero : (IoUring.flushSq r).1 = 0 := by
      simp only [Bool.and_eq_true, beq_iff_eq] at hnone
      exact hnone.1
    have hall : filled.length - seen.length = 0 := by
      rw [← hcount, hzero]
      rfl
    rw [List.append_nil]
    refine ⟨hflush, ?_⟩
    rw [List.drop_eq_nil_of_le (by omega), List.take_nil]
  · exact h.submitAndWait m

end

/-! ### The completion ring -/

theorem batch_pos (ringEntries : UInt32) : 0 < (batch ringEntries).toNat := by
  unfold batch
  split
  · split
    · decide
    · rename_i hfour
      rw [UInt32.not_lt, UInt32.le_iff_toNat_le] at hfour
      rw [UInt32.toNat_div]
      exact Nat.div_pos hfour (by decide)
  · decide

/-- What the worker knows at a phase: `done` completions dispatched, those from `head` on not handed
back, `looked` posted when it last looked. -/
def Phase.Fits (cap mask start : UInt32) (head done looked : Nat) : Phase → Prop
  | .batch cqes n =>
      done + cqes.length = head + n.toNat ∧ head + n.toNat ≤ looked ∧
        (n < cap → head + n.toNat = looked) ∧
        cqes = (List.range cqes.length).map fun i => cell mask start (done + i)
  | .drained => done = head ∧ done = looked
  | _ => done = head

/-- The completion ring between two steps. -/
structure CqInv (cap : UInt32) (r : Cq κ) (size : Nat) (posted : List κ) (slots : List UInt32)
    (dispatched : List κ) (looked : Nat) (phase : Phase) (start : UInt32) (head : Nat) : Prop where
  held : Held r.mask start size r.cqes posted head
  ktail : r.ktail = turn start posted.length
  khead : r.khead = turn start head
  head_le : head ≤ dispatched.length
  dispatched_le : dispatched.length ≤ posted.length
  looked_le : looked ≤ posted.length
  dispatched_eq : dispatched = posted.take dispatched.length
  slots_eq : slots = (List.range posted.length).map (cell r.mask start)
  fits : phase.Fits cap r.mask start head dispatched.length looked

section

variable {cap : UInt32} {r : Cq κ} {size : Nat} {posted dispatched : List κ}
  {slots : List UInt32} {looked : Nat} {phase : Phase} {start : UInt32} {head : Nat}

section

variable (h : CqInv cap r size posted slots dispatched looked phase start head)
include h

theorem CqInv.count : (r.ktail - r.khead).toNat = posted.length - head := by
  rw [h.ktail, h.khead, h.held.count]

theorem CqInv.at_phase {phase' : Phase} {looked' : Nat} (hle : looked' ≤ posted.length)
    (hfits : phase'.Fits cap r.mask start head dispatched.length looked') :
    CqInv cap r size posted slots dispatched looked' phase' start head :=
  { h with looked_le := hle, fits := hfits }

theorem CqInv.post (hroom : (r.ktail - r.khead).toNat < size) (y : κ) :
    CqInv cap
      { r with
        cqes := Function.update r.cqes (r.ktail &&& r.mask) y
        ktail := r.ktail + 1 }
      size (posted ++ [y]) (slots ++ [r.ktail &&& r.mask]) dispatched looked phase start head := by
  have hlen : (posted ++ [y]).length = posted.length + 1 := List.length_append
  have hle := h.held.head_le
  have hdone := h.dispatched_le
  have hlook := h.looked_le
  rw [h.count] at hroom
  rw [h.ktail]
  refine ⟨h.held.push (by omega) y, ?_, h.khead, h.head_le, by omega, by omega, ?_, ?_, h.fits⟩
  · rw [turn_succ, hlen]
  · rw [List.take_append_of_le_length hdone]
    exact h.dispatched_eq
  · rw [hlen, List.range_succ, List.map_append, ← h.slots_eq]
    rfl

/-- A look that finds completions: the batch begins with the first not yet dispatched. -/
theorem CqInv.ready (hdone : dispatched.length = head) (hcap : 0 < cap.toNat) {n : UInt32}
    {cqes : List UInt32} (hpeek : peek r cap = some (n, cqes)) :
    n ≠ 0 ∧
      (Phase.batch cqes n).Fits cap r.mask start head dispatched.length posted.length := by
  have hready := h.count
  have hle := h.held.head_le
  unfold peek at hpeek
  dsimp only at hpeek
  split at hpeek
  · rename_i hsome
    rw [gt_iff_lt, UInt32.lt_iff_toNat_lt, hready, UInt32.toNat_zero] at hsome
    obtain ⟨hn, rfl⟩ := Prod.mk.inj (Option.some.inj hpeek)
    have hmin : n.toNat = min (posted.length - head) cap.toNat := by
      rw [← hn, ← hready]
      split
      · rename_i hlt
        rw [UInt32.lt_iff_toNat_lt] at hlt
        exact (Nat.min_eq_left (Nat.le_of_lt hlt)).symm
      · rename_i hnlt
        rw [UInt32.not_lt, UInt32.le_iff_toNat_le] at hnlt
        exact (Nat.min_eq_right hnlt).symm
    rw [hn]
    have hcells : ((List.range n.toNat).map fun i => (r.khead + i.toUInt32) &&& r.mask) =
        (List.range n.toNat).map fun i => cell r.mask start (dispatched.length + i) := by
      rw [hdone, h.khead]
      simp only [turn_add]
      rfl
    rw [hcells]
    refine ⟨?_, ?_, by omega, ?_, ?_⟩
    · rintro rfl
      rw [UInt32.toNat_zero] at hmin
      omega
    · rw [List.length_map, List.length_range, hdone]
    · intro hlt
      rw [UInt32.lt_iff_toNat_lt] at hlt
      omega
    · rw [List.length_map, List.length_range]
  · cases hpeek

/-- A look that finds none: all that were posted are dispatched. -/
theorem CqInv.empty (hdone : dispatched.length = head) (hpeek : peek r cap = none) :
    dispatched.length = posted.length := by
  have hready := h.count
  have hle := h.held.head_le
  unfold peek at hpeek
  dsimp only at hpeek
  split at hpeek
  · cases hpeek
  · rename_i hnone
    rw [gt_iff_lt, UInt32.lt_iff_toNat_lt, hready, UInt32.toNat_zero] at hnone
    omega

end

/-- The worker dispatches the next completion. -/
theorem CqInv.dispatch {c : UInt32} {cqes : List UInt32} {n : UInt32}
    (h : CqInv cap r size posted slots dispatched looked (.batch (c :: cqes) n) start head) :
    CqInv cap r size posted slots (dispatched ++ [r.cqes c]) looked (.batch cqes n) start
      head := by
  obtain ⟨hsum, hlook, hlast, hcells⟩ := h.fits
  have hlooked := h.looked_le
  have hhead := h.head_le
  rw [List.length_cons] at hsum hcells
  rw [List.range_succ_eq_map, List.map_cons, List.map_map, List.cons.injEq] at hcells
  obtain ⟨hc, hrest⟩ := hcells
  have hlt : dispatched.length < posted.length := by omega
  have hnext : r.cqes c = posted[dispatched.length] := by
    rw [hc]
    exact h.held.cells_eq _ _ hhead (List.getElem?_eq_getElem hlt)
  have hlen : (dispatched ++ [r.cqes c]).length = dispatched.length + 1 := List.length_append
  refine ⟨h.held, h.ktail, h.khead, by omega, by omega, hlooked, ?_, h.slots_eq, by omega, hlook,
    hlast, ?_⟩
  · rw [hlen, List.take_succ_eq_append_getElem hlt, ← h.dispatched_eq, hnext]
  · rw [hlen]
    refine hrest.trans (List.map_congr_left fun i _ => ?_)
    rw [Function.comp_apply, Nat.succ_eq_add_one, Nat.add_right_comm, Nat.add_assoc]

/-- A batch that is dispatched is handed back. -/
theorem CqInv.advance {n : UInt32}
    (h : CqInv cap r size posted slots dispatched looked (.batch [] n) start head) :
    CqInv cap (cqAdvance r n) size posted slots dispatched looked
      (if n < cap then .drained else .full) start dispatched.length := by
  obtain ⟨hsum, hlook, hlast, -⟩ := h.fits
  rw [List.length_nil, Nat.add_zero] at hsum
  have hkhead : r.khead + n = turn start dispatched.length := by
    rw [hsum, ← turn_add, h.khead, Nat.toUInt32_eq, UInt32.ofNat_toNat]
  have hcq : cqAdvance r n = { r with khead := turn start dispatched.length } := by
    unfold cqAdvance
    split
    · rw [hkhead]
    · rename_i hzero
      rw [gt_iff_lt, UInt32.lt_iff_toNat_lt, UInt32.toNat_zero] at hzero
      have hsame : dispatched.length = head := by omega
      rw [hsame, ← h.khead]
  rw [hcq]
  refine ⟨h.held.advance h.head_le h.dispatched_le, h.ktail, rfl, Nat.le_refl _, h.dispatched_le,
    h.looked_le, h.dispatched_eq, h.slots_eq, ?_⟩
  split
  · rename_i hlt
    exact ⟨rfl, hsum.trans (hlast hlt)⟩
  · rfl

end

/-! ### The loop -/

/-- Both rings, between any two steps. -/
def Inv (ringEntries : UInt32) (w : World σ κ) : Prop :=
  (∃ start published, SqInv w.sq w.filled w.sqSlots w.seen start published) ∧
    ∃ start head, CqInv (batch ringEntries) w.cq w.cqEntries.toNat w.posted w.cqSlots w.dispatched
      w.looked w.phase start head

theorem Start.inv {w : World σ κ} (h : Start w) (ringEntries : UInt32) : Inv ringEntries w := by
  refine ⟨⟨w.sq.ktail, 0, ?_⟩, ⟨w.cq.ktail, 0, ?_⟩⟩
  · rw [h.filled, h.sqSlots, h.seen]
    exact ⟨Held.nil h.sq_sized w.sq.sqes, h.sq_empty.trans (turn_zero _).symm,
      h.sq_published.trans (turn_zero _).symm, (turn_zero _).symm,
      h.sq_taken.trans (turn_zero _).symm, Nat.le_refl 0, Nat.le_refl 0, rfl, rfl⟩
  · rw [h.posted, h.cqSlots, h.dispatched, h.phase, h.looked]
    exact ⟨Held.nil h.cq_sized w.cq.cqes, (turn_zero _).symm, h.cq_empty.trans (turn_zero _).symm,
      Nat.le_refl 0, Nat.le_refl 0, Nat.le_refl 0, rfl, rfl, rfl⟩

/-- A step keeps both rings. -/
theorem Step.inv {ringEntries : UInt32} {w w' : World σ κ} (h : Step ringEntries w w')
    (hw : Inv ringEntries w) : Inv ringEntries w' := by
  obtain ⟨⟨start, published, hsq⟩, ⟨cstart, head, hcq⟩⟩ := hw
  have hfits := hcq.fits
  cases h with
  | prepare x hget => exact ⟨⟨start, published, hsq.prepare hget x⟩, ⟨cstart, head, hcq⟩⟩
  | submit m flushCq => exact ⟨⟨start, _, (hsq.submit m flushCq).1⟩, ⟨cstart, head, hcq⟩⟩
  | wait m hphase =>
      rw [hphase] at hfits
      exact ⟨⟨start, _, (hsq.submitAndWait m).1⟩, ⟨cstart, head, hcq.at_phase hcq.looked_le hfits⟩⟩
  | noWait hphase =>
      rw [hphase] at hfits
      exact ⟨⟨start, published, hsq⟩, ⟨cstart, head, hcq.at_phase hcq.looked_le hfits⟩⟩
  | ready hphase hpeek =>
      rw [hphase] at hfits
      obtain ⟨hn, hbatch⟩ := hcq.ready hfits (batch_pos ringEntries) hpeek
      refine ⟨⟨start, published, hsq⟩, ⟨cstart, head, hcq.at_phase (Nat.le_refl _) ?_⟩⟩
      rw [if_neg hn]
      exact hbatch
  | empty hphase hpeek =>
      rw [hphase] at hfits
      exact ⟨⟨start, published, hsq⟩,
        ⟨cstart, head, hcq.at_phase (Nat.le_refl _) ⟨hfits, hcq.empty hfits hpeek⟩⟩⟩
  | flush m hphase hpeek =>
      rw [hphase] at hfits
      exact ⟨⟨start, published, (hsq.enter m 0).1⟩,
        ⟨cstart, head, hcq.at_phase hcq.looked_le hfits⟩⟩
  | dispatch hphase =>
      rw [hphase] at hcq
      exact ⟨⟨start, published, hsq⟩, ⟨cstart, head, hcq.dispatch⟩⟩
  | advance hphase =>
      rw [hphase] at hcq
      exact ⟨⟨start, published, hsq⟩, ⟨cstart, _, hcq.advance⟩⟩
  | resume m flushCq hphase =>
      rw [hphase] at hfits
      exact ⟨⟨start, _, (hsq.submit m flushCq).1⟩,
        ⟨cstart, head, hcq.at_phase hcq.looked_le hfits⟩⟩
  | again hphase =>
      rw [hphase] at hfits
      exact ⟨⟨start, published, hsq⟩, ⟨cstart, head, hcq.at_phase hcq.looked_le hfits.1⟩⟩
  | post y hroom =>
      rw [UInt32.lt_iff_toNat_lt] at hroom
      exact ⟨⟨start, published, hsq⟩, ⟨cstart, head, hcq.post hroom y⟩⟩

theorem run_inv {ringEntries : UInt32} {w₀ w : World σ κ} (h₀ : Start w₀)
    (hrun : Relation.ReflTransGen (Step ringEntries) w₀ w) : Inv ringEntries w := by
  induction hrun with
  | refl => exact h₀.inv ringEntries
  | tail _ hstep ih => exact hstep.inv ih

/-- The cells of the entries filled and not seen. -/
def World.pending (w : World σ κ) : List UInt32 := w.sqSlots.drop w.seen.length

/-- The cells of the completions posted and not dispatched. -/
def World.waiting (w : World σ κ) : List UInt32 := w.cqSlots.drop w.dispatched.length

/-- **Nothing is lost or repeated**, over every run of the loop.  Entries: those the kernel has not
seen lie in different cells, at most as many as the ring has, and `get_sqe` gives nil exactly then;
what it has seen and what lies in those cells is what was filled, in order, and the next submit
hands over the next of them.  Completions: what is dispatched and what lies in the cells of the
others is what was posted, in order; these cells are different, so none was written again; and when
the drain is over all those posted when the worker last looked are dispatched. -/
theorem entries_exact (ringEntries : UInt32) {w₀ w : World σ κ} (h₀ : Start w₀)
    (hrun : Relation.ReflTransGen (Step ringEntries) w₀ w) :
    (w.pending.Nodup ∧ w.pending.length ≤ w.sq.entries.toNat ∧
      (getSqe w.sq = none ↔ w.pending.length = w.sq.entries.toNat) ∧
      w.filled = w.seen ++ w.pending.map w.sq.sqes ∧
      ∀ m flushCq, (submit m flushCq w.sq).1 = (w.pending.map w.sq.sqes).take m ∧
        (submitAndWait m w.sq).1 = (w.pending.map w.sq.sqes).take m) ∧
    (w.posted = w.dispatched ++ w.waiting.map w.cq.cqes ∧ w.waiting.Nodup ∧
      (w.phase = .drained → w.dispatched.length = w.looked)) := by
  obtain ⟨⟨start, published, hsq⟩, ⟨cstart, head, hcq⟩⟩ := run_inv h₀ hrun
  have hcells : w.pending.map w.sq.sqes = w.filled.drop w.seen.length := by
    rw [World.pending, hsq.slots_eq, hsq.held.rest]
  have hlen : w.pending.length = w.filled.length - w.seen.length := by
    rw [← List.length_map w.sq.sqes, hcells, List.length_drop]
  have hroom := hsq.held.room
  have hwaiting := hcq.held.advance hcq.head_le hcq.dispatched_le
  refine ⟨⟨?_, by omega, ?_, ?_, ?_⟩, ?_, ?_, ?_⟩
  · rw [World.pending, hsq.slots_eq]
    exact hsq.held.nodup
  · rw [hlen]
    exact hsq.getSqe_none
  · have hsplit := List.take_append_drop w.seen.length w.filled
    rw [← hsq.seen_eq] at hsplit
    rw [hcells, hsplit]
  · intro m flushCq
    rw [hcells]
    exact ⟨(hsq.submit m flushCq).2, (hsq.submitAndWait m).2⟩
  · have hsplit := List.take_append_drop w.dispatched.length w.posted
    rw [← hcq.dispatched_eq] at hsplit
    rw [World.waiting, hcq.slots_eq, hwaiting.rest, hsplit]
  · rw [World.waiting, hcq.slots_eq]
    exact hwaiting.nodup
  · intro hphase
    have hfits := hcq.fits
    rw [hphase] at hfits
    exact hfits.2

/-- Rings of two cells whose counters are about to wrap. -/
def wrapping : World Nat Nat where
  sq := ⟨0xffffffff, 0xffffffff, fun _ => 0, 1, 2, 0xffffffff, 0xffffffff⟩
  cq := ⟨0xffffffff, 0xffffffff, fun _ => 0, 1⟩
  cqEntries := 2
  phase := .wait
  filled := []
  sqSlots := []
  seen := []
  posted := []
  cqSlots := []
  dispatched := []
  looked := 0

/-- Two entries, of which the kernel takes one, and another in its cell; two completions, dispatched
together, and another in the cell of the first: all the counters have wrapped. -/
theorem entries_exact_wrapping :
    Start wrapping ∧ ∃ w, Relation.ReflTransGen (Step 1024) wrapping w ∧
      (w.sq.khead = 0 ∧ w.sq.sqeTail = 2 ∧ w.cq.khead = 1 ∧ w.cq.ktail = 2) ∧
      (w.filled = [7, 8, 9] ∧ w.seen = [7] ∧ w.filled = w.seen ++ w.pending.map w.sq.sqes) ∧
      (w.posted = [70, 71, 72] ∧ w.dispatched = [70, 71] ∧
        w.posted = w.dispatched ++ w.waiting.map w.cq.cqes) ∧
      w.phase = .drained ∧ w.looked = 2 := by
  have h₀ : Start wrapping :=
    ⟨⟨1, by decide, rfl, rfl⟩, rfl, rfl, rfl, ⟨1, by decide, rfl, rfl⟩, rfl, rfl, rfl, rfl, rfl,
      rfl, rfl, rfl, rfl⟩
  have hprepared := (Relation.ReflTransGen.single (r := Step 1024) (a := wrapping)
    (.prepare 7 rfl)).tail (.prepare 8 rfl)
  have hposted := ((hprepared.tail (.wait 1 rfl)).tail (.post 70 (by decide))).tail
    (.post 71 (by decide))
  have hready := hposted.tail (.ready rfl (show peek _ _ = some (2, [1, 0]) from rfl))
  have hdrained := ((hready.tail (.dispatch rfl)).tail (.dispatch rfl)).tail (.advance rfl)
  have hrun := (hdrained.tail (.post 72 (by decide))).tail (.prepare 9 rfl)
  have hexact := entries_exact 1024 h₀ hrun
  exact ⟨h₀, _, hrun, ⟨rfl, rfl, rfl, rfl⟩, ⟨rfl, rfl, hexact.1.2.2.2.1⟩,
    ⟨rfl, rfl, hexact.2.1⟩, rfl, rfl⟩

end Vanilla.IoUring

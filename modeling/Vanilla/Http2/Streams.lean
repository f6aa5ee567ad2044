import Vanilla.Http2.Hpack
import Vanilla.Http2.StreamTable

/-!
# HTTP/2 — the streams of a connection

The `StreamState` objects of a connection, with an identity each: the table holds the identities of
the open streams' states, `free_streams` those of the retired ones, and the heap what each of them
has in its fields.

`Streams` carries its own well-formedness, so that it cannot be in doubt which state an id leads to:
no state belongs to two streams, none is both in the table and free, and the table has a slot left.
What the connection does with its streams is then said in terms of `get`, the state of an open
stream: `get_update`, `get_openStream`, `get_release`, `get_addToSendWindows`, `mem_ids`.
-/

namespace Vanilla.Http2
open StreamTable

/-! ### Stream states -/

/-- `StreamState`, without the storage behind `headers`. -/
structure StreamState where
  headers : List HeaderField := []
  body : List UInt8 := []
  remoteDone : Bool := false
  rejected : Bool := false
  declaredLen : Option Nat := none
  recvWindow : Int := 0
  sendWindow : Int := 0
  pending : List UInt8 := []
  pendingOff : Nat := 0
  pendingEnd : Bool := false
  trailers : List UInt8 := []
  trailersPending : Bool := false
  deriving DecidableEq

/-- The response bytes that wait for the peer's window. -/
def StreamState.parked (s : StreamState) : List UInt8 := s.pending.drop s.pendingOff

/-- The state `release_stream` leaves. -/
def StreamState.cleared (s : StreamState) : StreamState :=
  { s with headers := [], body := [], pending := [], trailers := [] }

/-! ### The store -/

/-- The open streams, the pool of retired states, and what the states hold.  A state is known by
its number; those from `next` on are not allocated yet. -/
structure Streams where
  table : StreamTable Nat
  heap : Nat → StreamState
  free : List Nat
  next : Nat
  wf : table.Wf
  room : table.live.card < streamSlots
  distinct : ∀ i j r, table.get i = some r → table.get j = some r → i = j
  alloc : ∀ i r, table.get i = some r → r < next
  freeAlloc : ∀ r ∈ free, r < next
  freeNodup : free.Nodup
  disjoint : ∀ i r, table.get i = some r → r ∉ free

namespace Streams

/-- `new_stream_table`, and no states yet. -/
def new : Streams where
  table := newStreamTable
  heap _ := {}
  free := []
  next := 0
  wf := wf_new
  room := by
    rw [← wf_new.len]
    decide
  distinct i j r h := by
    rw [get_new] at h
    cases h
  alloc i r h := by
    rw [get_new] at h
    cases h
  freeAlloc r h := by cases h
  freeNodup := List.nodup_nil
  disjoint i r h := by
    rw [get_new] at h
    cases h

/-- The state of an open stream. -/
def get (s : Streams) (id : Nat) : Option StreamState := (s.table.get id).map s.heap

/-- Which state an open stream has. -/
def ref (s : Streams) (id : Nat) : Nat := (s.table.get id).getD 0

/-- `streams.len`. -/
def len (s : Streams) : Nat := s.table.len

/-- The ids `ids_into` lists. -/
def ids (s : Streams) : List Nat := s.table.idsInto

/-- What an assignment to fields of an open stream's state does. -/
def update (s : Streams) (id : Nat) (f : StreamState → StreamState) : Streams :=
  match s.table.get id with
  | none => s
  | some r => { s with heap := Function.update s.heap r (f (s.heap r)) }

/-- Put a state that no stream has under a new id.  The table of the source is full with 256
streams; this one takes no more than 255, and neither ever has to. -/
def put (s : Streams) (id r : Nat) (hr : r < s.next) (hfree : r ∉ s.free)
    (hnew : ∀ i, s.table.get i ≠ some r) : Streams :=
  if h : id ≠ 0 ∧ s.table.len + 1 < streamSlots then
    have hlive : s.table.live.card + 1 < streamSlots := by
      rw [← s.wf.len]
      exact h.2
    have hroom : s.table.live.card < streamSlots := Nat.lt_of_succ_lt hlive
    have hget := get_put s.wf h.1 hroom r
    { s with
      table := s.table.put id r
      wf := s.wf.put h.1 hroom r
      room := by
        rw [live_put s.wf h.1 hroom]
        exact Nat.lt_of_le_of_lt (Finset.card_insert_le _ _) hlive
      distinct := by
        intro i j q hi hj
        rw [hget] at hi hj
        split at hi <;> split at hj
        · rename_i h₁ h₂
          rw [h₁, h₂]
        · cases hi
          exact absurd hj (hnew j)
        · cases hj
          exact absurd hi (hnew i)
        · exact s.distinct i j q hi hj
      alloc := by
        intro i q hi
        rw [hget] at hi
        split at hi
        · cases hi
          exact hr
        · exact s.alloc i q hi
      disjoint := by
        intro i q hi
        rw [hget] at hi
        split at hi
        · cases hi
          exact hfree
        · exact s.disjoint i q hi }
  else s

/-- `new_stream`: a state from the pool, or a new one, with the fields of a fresh stream. -/
def openStream (s : Streams) (id : Nat) (fresh : StreamState) : Streams :=
  match h : s.free with
  | r :: free =>
    put { s with
          heap := Function.update s.heap r fresh
          free := free
          freeAlloc := fun q hq => s.freeAlloc q (h ▸ List.mem_cons_of_mem r hq)
          freeNodup := (List.nodup_cons.mp (h ▸ s.freeNodup)).2
          disjoint := fun i q hi hq => s.disjoint i q hi (h ▸ List.mem_cons_of_mem r hq) }
      id r (s.freeAlloc r (h ▸ List.mem_cons_self)) (List.nodup_cons.mp (h ▸ s.freeNodup)).1
      (fun i hi => s.disjoint i r hi (h ▸ List.mem_cons_self))
  | [] =>
    put { s with
          heap := Function.update s.heap s.next fresh
          next := s.next + 1
          alloc := fun i q hi => Nat.lt_succ_of_lt (s.alloc i q hi)
          freeAlloc := fun q hq => Nat.lt_succ_of_lt (s.freeAlloc q hq) }
      id s.next (Nat.lt_succ_self _) (h ▸ List.not_mem_nil)
      (fun i hi => Nat.lt_irrefl _ (s.alloc i s.next hi))

/-- `release_stream`. -/
def release (s : Streams) (id : Nat) : Streams :=
  match h : s.table.get id with
  | none => s
  | some r =>
    have hget := @StreamTable.get_remove _ _ id s.wf s.room
    { s with
      table := s.table.remove id
      heap := Function.update s.heap r (s.heap r).cleared
      free := r :: s.free
      wf := s.wf.remove s.room
      room := by
        rw [live_remove s.wf s.room]
        exact Nat.lt_of_le_of_lt (Finset.card_erase_le) s.room
      distinct := by
        intro i j q hi hj
        rw [hget] at hi hj
        split at hi <;> split at hj
        · cases hi
        · cases hi
        · cases hj
        · exact s.distinct i j q hi hj
      alloc := by
        intro i q hi
        rw [hget] at hi
        split at hi
        · cases hi
        · exact s.alloc i q hi
      freeAlloc := by
        intro q hq
        rcases List.mem_cons.mp hq with rfl | hq
        · exact s.alloc id q h
        · exact s.freeAlloc q hq
      freeNodup := List.nodup_cons.mpr ⟨s.disjoint id r h, s.freeNodup⟩
      disjoint := by
        intro i q hi hq
        rw [hget] at hi
        split at hi
        · cases hi
        · rename_i hne
          rcases List.mem_cons.mp hq with rfl | hq
          · exact hne (s.distinct i id q hi h)
          · exact s.disjoint i q hi hq }

/-- A state with its send window moved. -/
def shifted (delta : Int) (st : StreamState) : StreamState :=
  { st with sendWindow := st.sendWindow + delta }

/-- One slot of the walk of `on_settings` over the table. -/
def shiftSlot (s : Streams) (delta : Int) (heap : Nat → StreamState) (i : Fin streamSlots) :
    Nat → StreamState :=
  match s.table.slots.vals i with
  | none => heap
  | some r =>
    if s.table.slots.keys i ≠ 0 then Function.update heap r (shifted delta (heap r)) else heap

/-- The walk of `on_settings` over the slots, which moves the send window of every state in
them. -/
def addToSendWindows (s : Streams) (delta : Int) : Streams :=
  { s with heap := (List.finRange streamSlots).foldl (s.shiftSlot delta) s.heap }

/-! ### The states of the open streams -/

section Get

variable (s : Streams) (id : Nat)

@[simp] theorem get_new : new.get id = none := by
  rw [get, new, StreamTable.get_new, Option.map_none]

theorem get_heap {s : Streams} {i r : Nat} (h : s.table.get i = some r) :
    s.get i = some (s.heap r) := by
  rw [get, h, Option.map_some]

/-- A state that is not a stream's can change and no stream notices. -/
theorem get_other {s : Streams} {i r : Nat} {x : StreamState} (hr : s.table.get i ≠ some r) :
    (s.table.get i).map (Function.update s.heap r x) = s.get i := by
  unfold get
  cases h : s.table.get i with
  | none => rfl
  | some q =>
      have : q ≠ r := fun e => hr (e ▸ h)
      rw [Option.map_some, Option.map_some, Function.update_of_ne this]

@[simp] theorem get_update (f : StreamState → StreamState) (i : Nat) :
    (s.update id f).get i = if i = id then (s.get i).map f else s.get i := by
  unfold update
  split
  · rename_i h
    split
    · rename_i hi
      rw [hi, get, h]
      rfl
    · rfl
  · rename_i r h
    show (s.table.get i).map (Function.update s.heap r _) = _
    split
    · rename_i hi
      rw [hi, h, get_heap h, Option.map_some, Option.map_some, Function.update_self]
    · rename_i hi
      exact get_other fun hg => hi (s.distinct i id r hg h)

theorem update_update (f g : StreamState → StreamState) :
    (s.update id f).update id g = s.update id fun st => g (f st) := by
  unfold update
  cases h : s.table.get id with
  | none => simp only [h]
  | some r => simp only [h, Function.update_self, Function.update_idem]

/-- Only what becomes of the stream's own state matters. -/
theorem update_congr {s : Streams} {id : Nat} {st : StreamState} {f g : StreamState → StreamState}
    (h : s.get id = some st) (hfg : f st = g st) : s.update id f = s.update id g := by
  unfold update
  split
  · rfl
  · rename_i r hr
    rw [get_heap hr, Option.some.injEq] at h
    rw [h, hfg]

@[simp] theorem get_release (i : Nat) :
    (s.release id).get i = if i = id then none else s.get i := by
  unfold release
  split
  · rename_i h
    split
    · rename_i hi
      rw [hi, get, h]
      rfl
    · rfl
  · rename_i r h
    show ((s.table.remove id).get i).map (Function.update s.heap r _) = _
    rw [StreamTable.get_remove s.wf s.room]
    split
    · rfl
    · rename_i hi
      exact get_other fun hg => hi (s.distinct i id r hg h)

/-- What an id leads to after `put`. -/
theorem get_put {s : Streams} {id r : Nat} {hr : r < s.next} {hfree : r ∉ s.free}
    {hnew : ∀ i, s.table.get i ≠ some r} (h0 : id ≠ 0) (hlen : s.len + 1 < streamSlots) (i : Nat) :
    (s.put id r hr hfree hnew).get i = if i = id then some (s.heap r) else s.get i := by
  have hroom : s.table.live.card < streamSlots := s.room
  unfold put
  rw [dif_pos ⟨h0, hlen⟩]
  show ((s.table.put id r).get i).map s.heap = _
  rw [StreamTable.get_put s.wf h0 hroom]
  split <;> rfl

theorem get_openStream {s : Streams} {id : Nat} (fresh : StreamState) (h0 : id ≠ 0)
    (hlen : s.len + 1 < streamSlots) (i : Nat) :
    (s.openStream id fresh).get i = if i = id then some fresh else s.get i := by
  unfold openStream
  split
  · rename_i r free h
    refine (get_put h0 (by exact hlen) i).trans ?_
    dsimp only
    rw [Function.update_self]
    congr 1
    exact get_other fun hi => s.disjoint i r hi (h ▸ List.mem_cons_self)
  · rename_i h
    refine (get_put h0 (by exact hlen) i).trans ?_
    dsimp only
    rw [Function.update_self]
    congr 1
    exact get_other fun hi => Nat.lt_irrefl _ (s.alloc i s.next hi)

end Get

/-! ### Counting and listing -/

section Ids

variable (s : Streams)

theorem get_isSome {id : Nat} : (s.get id).isSome = true ↔ id ∈ s.table.live := by
  rw [get, Option.isSome_map, StreamTable.get_isSome s.wf]

theorem mem_ids {id : Nat} : id ∈ s.ids ↔ (s.get id).isSome = true := by
  rw [ids, StreamTable.mem_idsInto s.wf, get_isSome]

end Ids

/-! ### Moving every send window -/

section Shift

variable (s : Streams) (delta : Int)

/-- A slot holds the state `r` of a stream. -/
def Holds (i : Fin streamSlots) (r : Nat) : Prop :=
  s.table.slots.keys i ≠ 0 ∧ s.table.slots.vals i = some r

theorem holds_get {i : Fin streamSlots} {r : Nat} (h : s.Holds i r) :
    s.table.get (s.table.slots.keys i) = some r :=
  (get_iff s.wf).mpr ⟨h.1, i, rfl, h.2⟩

theorem holds_inj {i j : Fin streamSlots} {r : Nat} (hi : s.Holds i r) (hj : s.Holds j r) : i = j :=
  s.wf.valid.inj i j hi.1 (s.distinct _ _ r (s.holds_get hi) (s.holds_get hj))

theorem shiftSlot_holds {i : Fin streamSlots} {r : Nat} (h : s.Holds i r)
    (heap : Nat → StreamState) : s.shiftSlot delta heap i r = shifted delta (heap r) := by
  rw [shiftSlot, h.2]
  dsimp only
  rw [if_pos h.1, Function.update_self]

theorem shiftSlot_other {i : Fin streamSlots} {r : Nat} (h : ¬ s.Holds i r)
    (heap : Nat → StreamState) : s.shiftSlot delta heap i r = heap r := by
  rw [shiftSlot]
  cases hv : s.table.slots.vals i with
  | none => rfl
  | some q =>
      dsimp only
      split
      · rename_i hk
        have hne : r ≠ q := fun e => h ⟨hk, e ▸ hv⟩
        exact Function.update_of_ne hne ..
      · rfl

/-- A walk does not touch the states of slots it does not visit. -/
theorem foldl_shiftSlot_other {l : List (Fin streamSlots)} {r : Nat}
    (h : ∀ i ∈ l, ¬ s.Holds i r) (heap : Nat → StreamState) :
    l.foldl (s.shiftSlot delta) heap r = heap r := by
  induction l generalizing heap with
  | nil => rfl
  | cons i l ih =>
      rw [List.foldl_cons, ih fun j hj => h j (List.mem_cons_of_mem _ hj)]
      exact shiftSlot_other s delta (h i List.mem_cons_self) heap

/-- A walk over some slots moves a state one of them holds, once. -/
theorem foldl_shiftSlot {l : List (Fin streamSlots)} (hl : l.Nodup) {i : Fin streamSlots} {r : Nat}
    (hi : i ∈ l) (h : s.Holds i r) (heap : Nat → StreamState) :
    l.foldl (s.shiftSlot delta) heap r = shifted delta (heap r) := by
  induction l generalizing heap with
  | nil => cases hi
  | cons j l ih =>
      obtain ⟨hj, hl⟩ := List.nodup_cons.mp hl
      rw [List.foldl_cons]
      rcases List.mem_cons.mp hi with rfl | hi
      · rw [foldl_shiftSlot_other s delta fun k hk hh => hj (s.holds_inj h hh ▸ hk)]
        exact shiftSlot_holds s delta h heap
      · have hne : ¬ s.Holds j r := fun hh => hj (s.holds_inj h hh ▸ hi)
        rw [ih hl hi, shiftSlot_other s delta hne]

@[simp] theorem get_addToSendWindows (i : Nat) :
    (s.addToSendWindows delta).get i = (s.get i).map (shifted delta) := by
  show (s.table.get i).map _ = _
  unfold get
  cases h : s.table.get i with
  | none => rfl
  | some r =>
      obtain ⟨h0, k, hk, hv⟩ := (get_iff s.wf).mp h
      have hh : s.Holds k r := ⟨by rw [hk]; exact h0, hv⟩
      rw [Option.map_some, Option.map_some, Option.map_some, addToSendWindows]
      dsimp only
      rw [foldl_shiftSlot s delta (List.nodup_finRange _) (List.mem_finRange k) hh]

end Shift

/-! ### Streams that are kept -/

/-- Every stream of `s'` is one of `s`, under the same number, its states related by `R`. -/
def Kept (R : StreamState → StreamState → Prop) (s s' : Streams) : Prop :=
  ∀ id st', s'.get id = some st' →
    ∃ st, s.get id = some st ∧ R st st' ∧ s'.table.get id = s.table.get id

section Kept

variable {R : StreamState → StreamState → Prop} {s s' s'' : Streams} {id : Nat}

theorem Kept.refl [Std.Refl R] (s : Streams) : Kept R s s :=
  fun _ st' h => ⟨st', h, Std.Refl.refl st', rfl⟩

theorem Kept.trans [Trans R R R] (h : Kept R s s') (h' : Kept R s' s'') : Kept R s s'' := by
  intro id st'' hg
  obtain ⟨st', hg', hr', ht'⟩ := h' id st'' hg
  obtain ⟨st, hg, hr, ht⟩ := h id st' hg'
  exact ⟨st, hg, Trans.trans hr hr', ht'.trans ht⟩

theorem table_update (s : Streams) (id : Nat) (f : StreamState → StreamState) :
    (s.update id f).table = s.table := by
  unfold update
  split <;> rfl

theorem table_release_ne {i : Nat} (s : Streams) (h : i ≠ id) :
    (s.release id).table.get i = s.table.get i := by
  unfold release
  split
  · rfl
  · show (s.table.remove id).get i = _
    rw [get_remove s.wf s.room, if_neg h]

theorem table_openStream_ne {i : Nat} (s : Streams) (fresh : StreamState) (h : i ≠ id) :
    (s.openStream id fresh).table.get i = s.table.get i := by
  have hput : ∀ (s : Streams) {r : Nat} (hr : r < s.next) (hfree : r ∉ s.free)
      (hnew : ∀ i, s.table.get i ≠ some r),
      (s.put id r hr hfree hnew).table.get i = s.table.get i := fun s r hr hfree hnew => by
    unfold put
    split
    · rename_i hid
      show (s.table.put id r).get i = _
      rw [StreamTable.get_put s.wf hid.1 s.room, if_neg h]
    · rfl
  unfold openStream
  split
  · exact hput _ _ _ _
  · exact hput _ _ _ _

theorem Kept.update [Std.Refl R] {f : StreamState → StreamState} (hf : ∀ st, R st (f st))
    (s : Streams) (id : Nat) : Kept R s (s.update id f) := by
  intro i st' h
  rw [table_update]
  rw [get_update] at h
  split at h
  · obtain ⟨st, hg, rfl⟩ := Option.map_eq_some_iff.mp h
    exact ⟨st, hg, hf st, rfl⟩
  · exact ⟨st', h, Std.Refl.refl st', rfl⟩

theorem Kept.release [Std.Refl R] (s : Streams) (id : Nat) : Kept R s (s.release id) := by
  intro i st' h
  rw [get_release] at h
  split at h
  · cases h
  · rename_i hi
    exact ⟨st', h, Std.Refl.refl st', table_release_ne s hi⟩

theorem Kept.addToSendWindows {delta : Int} (hf : ∀ st, R st (shifted delta st)) (s : Streams) :
    Kept R s (s.addToSendWindows delta) := by
  intro i st' h
  rw [get_addToSendWindows] at h
  obtain ⟨st, hg, rfl⟩ := Option.map_eq_some_iff.mp h
  exact ⟨st, hg, hf st, rfl⟩

theorem Kept.isSome (h : Kept R s s') (hs : (s'.get id).isSome = true) :
    (s.get id).isSome = true := by
  obtain ⟨st', hg⟩ := Option.isSome_iff_exists.mp hs
  obtain ⟨st, hg, -⟩ := h id st' hg
  rw [hg]
  rfl

/-- One stream more at most. -/
theorem len_le_succ (h : ∀ i, (s'.get i).isSome = true → i = id ∨ (s.get i).isSome = true) :
    s'.len ≤ s.len + 1 := by
  rw [len, len, s'.wf.len, s.wf.len]
  refine (Finset.card_le_card fun i hi => ?_).trans (Finset.card_insert_le id _)
  rw [Finset.mem_insert, ← get_isSome]
  exact h i ((get_isSome s').mpr hi)

/-- No stream more. -/
theorem len_le (h : ∀ i, (s'.get i).isSome = true → (s.get i).isSome = true) : s'.len ≤ s.len := by
  rw [len, len, s'.wf.len, s.wf.len]
  refine Finset.card_le_card fun i hi => ?_
  rw [← get_isSome]
  exact h i ((get_isSome s').mpr hi)

theorem Kept.len (h : Kept R s s') : s'.len ≤ s.len := len_le fun _ => h.isSome

end Kept

/-! ### Streams that only have other windows -/

/-- A state without its windows. -/
def windowless (st : StreamState) : StreamState := { st with recvWindow := 0, sendWindow := 0 }

/-- The same streams, the same pool and the same states, but for the windows. -/
structure SameStore (s s' : Streams) : Prop where
  table : s'.table = s.table
  free : s'.free = s.free
  heap : ∀ r, windowless (s'.heap r) = windowless (s.heap r)

namespace SameStore

variable {s s' s'' : Streams}

theorem refl (s : Streams) : SameStore s s := ⟨rfl, rfl, fun _ => rfl⟩

theorem trans (h : SameStore s s') (h' : SameStore s' s'') : SameStore s s'' :=
  ⟨h'.table.trans h.table, h'.free.trans h.free, fun r => (h'.heap r).trans (h.heap r)⟩

theorem update (s : Streams) (id : Nat) {f : StreamState → StreamState}
    (hf : ∀ st, windowless (f st) = windowless st) : SameStore s (s.update id f) := by
  unfold Streams.update
  split
  · exact refl s
  · rename_i q _
    refine ⟨rfl, rfl, fun r => ?_⟩
    dsimp only
    by_cases hr : r = q
    · rw [hr, Function.update_self, hf]
    · rw [Function.update_of_ne hr]

theorem addToSendWindows (s : Streams) (delta : Int) : SameStore s (s.addToSendWindows delta) := by
  refine ⟨rfl, rfl, fun r => ?_⟩
  unfold Streams.addToSendWindows
  dsimp only
  generalize s.heap = heap
  induction List.finRange streamSlots generalizing heap with
  | nil => rfl
  | cons i l ih =>
      rw [List.foldl_cons, ih]
      by_cases h : s.Holds i r
      · rw [shiftSlot_holds s delta h]
        rfl
      · rw [shiftSlot_other s delta h]

theorem get (h : SameStore s s') (id : Nat) :
    (s'.get id).map windowless = (s.get id).map windowless := by
  unfold Streams.get
  rw [h.table]
  cases s.table.get id with
  | none => rfl
  | some r => exact congrArg some (h.heap r)

end SameStore

end Streams

end Vanilla.Http2

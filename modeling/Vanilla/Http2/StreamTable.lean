import Mathlib.Data.Fintype.Card
import Vanilla.Support.Probing

/-!
# HTTP/2 — the table of open streams

`StreamTable` of `http2/streams.v`: 256 slots, probed from `id >> 1` on, with backward-shift
deletion.  A stream id is a `u32`, and 0 is the id of a free slot.

* `get_put`, `get_remove`, `mem_idsInto`: the table as a map from ids.
* `stream_table_is_map`: over any sequence of calls that keeps at most 255 ids live, the table is
  the finite map of its calls.
-/

namespace Vanilla.Http2
open Scan Probing

universe u

/-! ### The table -/

/-- `stream_slots`. -/
def streamSlots : Nat := 256

/-- `StreamTable`: `ids` and `vals` are the keys and the values of `slots`, a `nil` value is
`none`. -/
structure StreamTable (α : Type u) where
  slots : Slots streamSlots Nat (Option α)
  len : Nat

/-- `new_stream_table`. -/
def newStreamTable {α : Type u} : StreamTable α := ⟨⟨fun _ => 0, fun _ => none⟩, 0⟩

/-- `stream_home`. -/
def streamHome (id : Nat) : Fin streamSlots := ⟨id / 2 % streamSlots, Nat.mod_lt _ (by decide)⟩

namespace StreamTable

variable {α : Type u}

/-- The probe of `find` and `put`, which looks at each slot once at most. -/
def slotFor (t : StreamTable α) (id : Nat) : Option (Fin streamSlots) :=
  probe 0 t.slots.keys id streamSlots (streamHome id)

/-- `find`. -/
def find (t : StreamTable α) (id : Nat) : Option (Fin streamSlots) :=
  if id = 0 then none
  else
    match t.slotFor id with
    | some i => if t.slots.keys i = id then some i else none
    | none => none

/-- `get`. -/
def get (t : StreamTable α) (id : Nat) : Option α := (t.find id).bind t.slots.vals

/-- `has`. -/
def has (t : StreamTable α) (id : Nat) : Bool := (t.find id).isSome

/-- `put`. -/
def put (t : StreamTable α) (id : Nat) (s : α) : StreamTable α :=
  match t.slotFor id with
  | none => t
  | some i =>
    if t.slots.keys i = id then { t with slots := t.slots.set i id (some s) }
    else ⟨t.slots.set i id (some s), t.len + 1⟩

/-- `remove`.  Its loop has no bound of its own; it gets as many passes as there are slots, and
`removeEnds` says that it ends within them. -/
def remove (t : StreamTable α) (id : Nat) : StreamTable α :=
  match t.find id with
  | none => t
  | some hole =>
    let start : Shift streamSlots Nat (Option α) := ⟨t.slots, hole, hole⟩
    let s := iter (shiftStep 0 streamHome) start streamSlots start
    ⟨s.slots.set s.hole 0 none, t.len - 1⟩

/-- The loop of `remove` ends. -/
def RemoveEnds (t : StreamTable α) (id : Nat) : Prop :=
  ∀ hole, t.find id = some hole → ∃ s, Exits (shiftStep 0 streamHome) ⟨t.slots, hole, hole⟩ s

/-- `ids_into`: what it fills the buffer with. -/
def idsInto (t : StreamTable α) : List Nat :=
  if t.len = 0 then []
  else ((List.finRange streamSlots).map t.slots.keys).filter (· ≠ 0)

/-! ### The table as a map -/

/-- The ids in the table. -/
def live (t : StreamTable α) : Finset Nat := (Finset.univ.image t.slots.keys).erase 0

/-- What every call keeps: the slots can be probed, a taken one has a value, and `len` counts
them. -/
structure Wf (t : StreamTable α) : Prop where
  valid : Valid 0 streamHome t.slots.keys
  value : ∀ i, t.slots.keys i ≠ 0 → (t.slots.vals i).isSome = true
  len : t.len = t.live.card

theorem mem_live {t : StreamTable α} {id : Nat} :
    id ∈ t.live ↔ id ≠ 0 ∧ ∃ i, t.slots.keys i = id := by
  simp [live]

section Get

variable {t : StreamTable α} {id : Nat}

theorem find_some {i : Fin streamSlots} (h : t.find id = some i) :
    id ≠ 0 ∧ t.slots.keys i = id := by
  unfold find at h
  split at h
  · cases h
  · rename_i h0
    split at h
    · split at h
      · rename_i hk
        cases h
        exact ⟨h0, hk⟩
      · cases h
    · cases h

theorem find_iff (ht : t.Wf) {i : Fin streamSlots} :
    t.find id = some i ↔ id ≠ 0 ∧ t.slots.keys i = id := by
  refine ⟨find_some, fun ⟨h0, hk⟩ => ?_⟩
  unfold find slotFor
  rw [if_neg h0, probe_key ht.valid h0 hk]
  exact if_pos hk

/-- `get` finds what the table holds. -/
theorem get_iff (ht : t.Wf) {v : α} : t.get id = some v ↔ Holds 0 t.slots id (some v) := by
  unfold get Holds
  rw [Option.bind_eq_some_iff]
  constructor
  · rintro ⟨i, hf, hv⟩
    obtain ⟨h0, hk⟩ := find_some hf
    exact ⟨h0, i, hk, hv⟩
  · rintro ⟨h0, i, hk, hv⟩
    exact ⟨i, (find_iff ht).mpr ⟨h0, hk⟩, hv⟩

theorem get_isSome (ht : t.Wf) : (t.get id).isSome = true ↔ id ∈ t.live := by
  rw [mem_live, Option.isSome_iff_exists]
  constructor
  · rintro ⟨v, hv⟩
    obtain ⟨h0, i, hk, -⟩ := (get_iff ht).mp hv
    exact ⟨h0, i, hk⟩
  · rintro ⟨h0, i, rfl⟩
    obtain ⟨v, hv⟩ := Option.isSome_iff_exists.mp (ht.value i h0)
    exact ⟨v, (get_iff ht).mpr ⟨h0, i, rfl, hv⟩⟩

theorem has_eq (ht : t.Wf) : t.has id = (t.get id).isSome := by
  unfold has get
  cases h : t.find id with
  | none => rfl
  | some i =>
      obtain ⟨h0, hk⟩ := find_some h
      exact (ht.value i (by rw [hk]; exact h0)).symm

/-- With fewer ids than slots there is a free slot. -/
theorem exists_free (h : t.live.card < streamSlots) (ht : t.Wf) : ∃ z, t.slots.keys z = 0 := by
  by_contra hno
  push Not at hno
  have := Finset.card_le_card_of_injOn (s := Finset.univ) (t := t.live) t.slots.keys
    (fun i _ => by simpa [mem_live] using hno i)
    (fun i _ j _ hij => ht.valid.inj i j (hno i) hij)
  rw [Finset.card_univ, Fintype.card_fin] at this
  omega

/-- `get` of a table that holds what another holds, but for one id. -/
theorem get_ext {t' : StreamTable α} (ht' : t'.Wf) {o : Option α}
    (h : ∀ v, Holds 0 t'.slots id (some v) ↔ o = some v) : t'.get id = o :=
  Option.ext fun v => (get_iff ht').trans (h v)

end Get

theorem wf_new : (newStreamTable : StreamTable α).Wf where
  valid := ⟨fun i hi => absurd rfl hi, fun i j hi => absurd rfl hi⟩
  value i hi := absurd rfl hi
  len := by
    have : (newStreamTable : StreamTable α).live = ∅ := by
      ext id
      simp only [mem_live, newStreamTable, exists_const_iff, Finset.notMem_empty, iff_false]
      rintro ⟨h, -, h'⟩
      exact h h'.symm
    rw [this]
    rfl

theorem get_new (id : Nat) : (newStreamTable : StreamTable α).get id = none :=
  get_ext wf_new fun v => ⟨fun ⟨h, _, e, _⟩ => absurd e.symm h, fun h => by cases h⟩

section Put

variable {t : StreamTable α} {id : Nat}

/-- The slot written holds the id or nothing, so that no other id is lost. -/
theorem set_keys {i : Fin streamSlots} (hk : t.slots.keys i = id ∨ t.slots.keys i = 0)
    {j : Fin streamSlots} {id' : Nat} (h0 : id' ≠ 0) (hne : id' ≠ id) :
    Function.update t.slots.keys i id j = id' ↔ t.slots.keys j = id' := by
  by_cases hj : j = i
  · subst hj
    rw [Function.update_self]
    rcases hk with hk | hk <;> rw [hk]
    exact iff_of_false (fun h => hne h.symm) (fun h => h0 h.symm)
  · rw [Function.update_of_ne hj]

variable (ht : t.Wf) (h0 : id ≠ 0) (hroom : t.live.card < streamSlots)
include ht h0 hroom

/-- Where `put` writes: the slot of the id, or the free slot its probe ends at. -/
theorem put_slot :
    ∃ i, t.slotFor id = some i ∧ Valid 0 streamHome (Function.update t.slots.keys i id) ∧
      (t.slots.keys i = id ∧ id ∈ t.live ∨ t.slots.keys i = 0 ∧ id ∉ t.live) := by
  by_cases hl : id ∈ t.live
  · obtain ⟨-, i, hk⟩ := mem_live.mp hl
    refine ⟨i, probe_key ht.valid h0 hk, ?_, .inl ⟨hk, hl⟩⟩
    rw [← hk, Function.update_eq_self]
    exact ht.valid
  · have habs : ∀ i, t.slots.keys i ≠ id := fun i hi => hl (mem_live.mpr ⟨h0, i, hi⟩)
    obtain ⟨z, hz⟩ := exists_free hroom ht
    obtain ⟨i, hp, hi, hb⟩ := @probe_free _ _ _ streamHome _ _ _ _ hz habs
    exact ⟨i, hp, ht.valid.put h0 habs hb, .inr ⟨hi, hl⟩⟩

/-- What `put` leaves. -/
theorem put_eq (s : α) :
    ∃ i, t.put id s = ⟨t.slots.set i id (some s), t.len + if id ∈ t.live then 0 else 1⟩ ∧
      Valid 0 streamHome (Function.update t.slots.keys i id) ∧
      (t.slots.keys i = id ∨ t.slots.keys i = 0) := by
  obtain ⟨i, hp, hv, ⟨hk, hl⟩ | ⟨hk, hl⟩⟩ := put_slot ht h0 hroom
  · refine ⟨i, ?_, hv, .inl hk⟩
    simp only [put, hp, if_pos hk, if_pos hl, Nat.add_zero]
  · refine ⟨i, ?_, hv, .inr hk⟩
    have hne : t.slots.keys i ≠ id := fun h => h0 (h.symm.trans hk)
    simp only [put, hp, if_neg hne, if_neg hl]

theorem live_put (s : α) : (t.put id s).live = insert id t.live := by
  obtain ⟨i, he, -, hk⟩ := put_eq ht h0 hroom s
  ext id'
  rw [Finset.mem_insert, mem_live, mem_live, he]
  dsimp only [Slots.set]
  by_cases hne : id' = id
  · subst hne
    exact iff_of_true ⟨h0, i, Function.update_self ..⟩ (.inl rfl)
  · simp only [hne, false_or]
    exact and_congr_right fun h0' => exists_congr fun j => set_keys hk h0' hne

theorem Wf.put (s : α) : (t.put id s).Wf := by
  have hlive := live_put ht h0 hroom s
  obtain ⟨i, he, hv, -⟩ := put_eq ht h0 hroom s
  refine ⟨by rw [he]; exact hv, fun j hj => ?_, ?_⟩
  · rw [he] at hj ⊢
    dsimp only [Slots.set] at hj ⊢
    by_cases h : j = i
    · rw [h, Function.update_self]; rfl
    · rw [Function.update_of_ne h] at hj ⊢
      exact ht.value j hj
  · rw [hlive, Finset.card_insert_eq_ite, he, ht.len]
    dsimp only
    split <;> simp only [Nat.add_zero]

theorem get_put (s : α) (id' : Nat) :
    (t.put id s).get id' = if id' = id then some s else t.get id' := by
  refine get_ext (ht.put h0 hroom s) fun v => ?_
  obtain ⟨i, he, hval, hk⟩ := put_eq ht h0 hroom s
  rw [he]
  dsimp only [Holds, Slots.set]
  split
  · rename_i hid
    subst hid
    constructor
    · rintro ⟨-, j, hj, hv⟩
      -- the id stands in one slot only
      obtain rfl := hval.inj i j (by rwa [Function.update_self])
        ((Function.update_self ..).trans hj.symm)
      rwa [Function.update_self] at hv
    · rintro h
      exact ⟨h0, i, Function.update_self .., by rw [Function.update_self, h]⟩
  · rename_i hne
    rw [get_iff ht]
    refine and_congr_right fun h0' => exists_congr fun j => ?_
    rw [set_keys hk h0' hne]
    refine and_congr_right fun hj => ?_
    have hji : j ≠ i := by
      rintro rfl
      rcases hk with hk | hk
      · exact hne (hj.symm.trans hk)
      · exact h0' (hj.symm.trans hk)
    rw [Function.update_of_ne hji]

end Put

section Remove

variable {t : StreamTable α} {id : Nat}

theorem remove_absent (h : t.find id = none) : t.remove id = t := by
  unfold remove
  rw [h]

/-- What `remove` leaves of a table with a free slot, and that its loop ends. -/
theorem remove_spec (ht : t.Wf) {hole : Fin streamSlots} (hf : t.find id = some hole)
    (hroom : t.live.card < streamSlots) :
    (∃ s, Exits (shiftStep 0 streamHome) ⟨t.slots, hole, hole⟩ s) ∧
      Valid 0 streamHome (t.remove id).slots.keys ∧
      (∀ k v, Holds 0 (t.remove id).slots k v ↔ Holds 0 t.slots k v ∧ k ≠ id) ∧
      (t.remove id).len = t.len - 1 := by
  obtain ⟨h0, hk⟩ := find_some hf
  obtain ⟨z, hz⟩ := exists_free hroom ht
  obtain ⟨s, hexit, hiter, hvalid, hholds⟩ :=
    shift_spec ht.valid (h := hole) (by rwa [hk]) hz ⟨t.slots, hole, hole⟩ none
  have he : t.remove id = ⟨s.slots.set s.hole 0 none, t.len - 1⟩ := by
    unfold remove
    rw [hf]
    dsimp only
    rw [hiter]
  rw [he]
  refine ⟨⟨s, hexit⟩, hvalid, ?_, rfl⟩
  rwa [hk] at hholds

theorem holds_live {k : Nat} : (∃ v, Holds 0 t.slots k v) ↔ k ∈ t.live := by
  rw [mem_live]
  constructor
  · rintro ⟨v, h0, i, hk, -⟩
    exact ⟨h0, i, hk⟩
  · rintro ⟨h0, i, hk⟩
    exact ⟨_, h0, i, hk, rfl⟩

theorem find_none (ht : t.Wf) (h : t.find id = none) : id ∉ t.live := by
  intro hl
  obtain ⟨h0, i, hk⟩ := mem_live.mp hl
  rw [(find_iff ht).mpr ⟨h0, hk⟩] at h
  cases h

theorem live_remove (ht : t.Wf) (hroom : t.live.card < streamSlots) :
    (t.remove id).live = t.live.erase id := by
  cases hf : t.find id with
  | none => rw [remove_absent hf, Finset.erase_eq_of_notMem (find_none ht hf)]
  | some hole =>
      obtain ⟨-, -, hholds, -⟩ := remove_spec ht hf hroom
      ext k
      rw [Finset.mem_erase, ← holds_live, ← holds_live]
      simp only [hholds, exists_and_right]
      exact and_comm

theorem Wf.remove (ht : t.Wf) (hroom : t.live.card < streamSlots) : (t.remove id).Wf := by
  have hlive := @live_remove _ _ id ht hroom
  cases hf : t.find id with
  | none => rwa [remove_absent hf]
  | some hole =>
      obtain ⟨-, hvalid, hholds, hlen⟩ := remove_spec ht hf hroom
      obtain ⟨h0, hk⟩ := find_some hf
      refine ⟨hvalid, fun i hi => ?_, ?_⟩
      · obtain ⟨⟨hi0, j, hj, hv⟩, -⟩ := (hholds _ _).mp ⟨hi, i, rfl, rfl⟩
        rw [← hv]
        exact ht.value j (by rwa [hj])
      · rw [hlive, hlen, ht.len, Finset.card_erase_of_mem (mem_live.mpr ⟨h0, hole, hk⟩)]

theorem get_remove (ht : t.Wf) (hroom : t.live.card < streamSlots) (id' : Nat) :
    (t.remove id).get id' = if id' = id then none else t.get id' := by
  have ht' : (t.remove id).Wf := ht.remove hroom
  cases hf : t.find id with
  | none =>
      rw [remove_absent hf]
      split
      · rename_i h
        rw [h, get, hf]
        rfl
      · rfl
  | some hole =>
      obtain ⟨-, -, hholds, -⟩ := remove_spec ht hf hroom
      refine get_ext ht' fun v => ?_
      rw [hholds]
      split
      · rename_i h
        exact iff_of_false (fun hh => hh.2 h) (by simp)
      · rename_i h
        rw [get_iff ht]
        exact and_iff_left h

theorem removeEnds (ht : t.Wf) (hroom : t.live.card < streamSlots) : t.RemoveEnds id :=
  fun _ hf => (remove_spec ht hf hroom).1

end Remove

section Ids

variable {t : StreamTable α}

theorem mem_idsInto (ht : t.Wf) {id : Nat} : id ∈ t.idsInto ↔ id ∈ t.live := by
  unfold idsInto
  split
  · rename_i h
    rw [ht.len, Finset.card_eq_zero] at h
    simp [h]
  · rw [mem_live]
    simp [and_comm]

theorem nodup_idsInto (ht : t.Wf) : t.idsInto.Nodup := by
  unfold idsInto
  split
  · exact List.nodup_nil
  · rw [List.filter_map]
    refine List.Nodup.map_on ?_ ((List.nodup_finRange _).filter _)
    intro i hi j _ hij
    have h0 : t.slots.keys i ≠ 0 := by simpa using hi
    exact ht.valid.inj i j h0 hij

end Ids

end StreamTable

/-! ### Sequences of calls -/

/-- A call that changes the table. -/
inductive TableOp (α : Type u) where
  | put (id : Nat) (s : α)
  | remove (id : Nat)

namespace TableOp

variable {α : Type u}

def id : TableOp α → Nat
  | put id _ => id
  | remove id => id

def apply (t : StreamTable α) : TableOp α → StreamTable α
  | put id s => t.put id s
  | remove id => t.remove id

/-- What a history, last call first, has last put under an id and not removed since. -/
def lastPut (k : Nat) : List (TableOp α) → Option α
  | [] => none
  | put id s :: past => if k = id then some s else lastPut k past
  | remove id :: past => if k = id then none else lastPut k past

/-- The ids a history, last call first, has put and not removed since. -/
def liveIds (past : List (TableOp α)) : Finset Nat :=
  (past.map id).toFinset.filter fun k => (lastPut k past).isSome

end TableOp

/-- The table after some calls. -/
def runTable {α : Type u} (ops : List (TableOp α)) : StreamTable α :=
  ops.foldl TableOp.apply newStreamTable

namespace TableOp

variable {α : Type u}

theorem lastPut_called {k : Nat} {past : List (TableOp α)} (h : (lastPut k past).isSome = true) :
    k ∈ past.map id := by
  induction past with
  | nil => cases h
  | cons op past ih =>
      cases op with
      | put id' s =>
          simp only [lastPut] at h
          split at h
          · rename_i hk
            exact List.mem_cons.mpr (.inl hk)
          · exact List.mem_cons_of_mem _ (ih h)
      | remove id' =>
          simp only [lastPut] at h
          split at h
          · cases h
          · exact List.mem_cons_of_mem _ (ih h)

theorem mem_liveIds {k : Nat} {past : List (TableOp α)} :
    k ∈ liveIds past ↔ (lastPut k past).isSome = true := by
  rw [liveIds, Finset.mem_filter, List.mem_toFinset]
  exact and_iff_right_of_imp lastPut_called

/-- The table a history leaves is well formed and holds what was last put. -/
structure Leaves (past : List (TableOp α)) (t : StreamTable α) : Prop where
  wf : t.Wf
  get : ∀ k, t.get k = lastPut k past

variable {past : List (TableOp α)} {t : StreamTable α}

theorem Leaves.live (h : Leaves past t) : t.live = liveIds past := by
  ext k
  rw [mem_liveIds, ← h.get, StreamTable.get_isSome h.wf]

theorem Leaves.step (h : Leaves past t) (op : TableOp α) (h0 : op.id ≠ 0)
    (hroom : (liveIds past).card < streamSlots) : Leaves (op :: past) (op.apply t) := by
  rw [← h.live] at hroom
  cases op with
  | put id s =>
      have h0 : id ≠ 0 := h0
      refine ⟨h.wf.put h0 hroom s, fun k => ?_⟩
      rw [apply, StreamTable.get_put h.wf h0 hroom, h.get]
      rfl
  | remove id =>
      refine ⟨h.wf.remove hroom, fun k => ?_⟩
      rw [apply, StreamTable.get_remove h.wf hroom, h.get]
      rfl

end TableOp

open TableOp in
theorem runTable_leaves {α : Type u} (ops : List (TableOp α)) (hid : ∀ op ∈ ops, op.id ≠ 0)
    (hlive : ∀ before, before <+: ops → (liveIds before.reverse).card ≤ 255) :
    Leaves ops.reverse (runTable ops) := by
  induction ops using List.reverseRecOn with
  | nil => exact ⟨StreamTable.wf_new, StreamTable.get_new⟩
  | append_singleton ops op ih =>
      have hops := ih (fun o ho => hid o (List.mem_append_left _ ho))
        (fun before hb => hlive before (hb.trans (List.prefix_append ..)))
      have hroom := hlive ops (List.prefix_append ..)
      rw [runTable, List.foldl_append, List.reverse_append]
      exact hops.step op (hid op (by simp)) (Nat.lt_succ_of_le hroom)

open TableOp in
/-- **The stream table is a finite map.**  Over calls with ids other than 0 that keep at most 255
of them live at a time, `get` is what was last put and not removed since, `len` counts the live
ids, `ids_into` lists each of them once, and `remove` ends. -/
theorem stream_table_is_map {α : Type u} (ops : List (TableOp α)) (hid : ∀ op ∈ ops, op.id ≠ 0)
    (hlive : ∀ before, before <+: ops → (liveIds before.reverse).card ≤ 255) :
    (∀ k, (runTable ops).get k = lastPut k ops.reverse) ∧
      (∀ k, (runTable ops).has k = (lastPut k ops.reverse).isSome) ∧
      (runTable ops).len = (liveIds ops.reverse).card ∧
      (runTable ops).idsInto.Nodup ∧
      (∀ k, k ∈ (runTable ops).idsInto ↔ k ∈ liveIds ops.reverse) ∧
      ∀ k, (runTable ops).RemoveEnds k := by
  have h := runTable_leaves ops hid hlive
  have hroom : (runTable ops).live.card < streamSlots := by
    rw [h.live]
    exact Nat.lt_succ_of_le (hlive ops (List.prefix_refl _))
  refine ⟨h.get, fun k => ?_, ?_, StreamTable.nodup_idsInto h.wf, fun k => ?_, fun k =>
    StreamTable.removeEnds h.wf hroom⟩
  · rw [StreamTable.has_eq h.wf, h.get]
  · rw [h.wf.len, h.live]
  · rw [StreamTable.mem_idsInto h.wf, h.live]

/-- Streams 1, 511 and 513: the last goes into the slots of the first, which is taken away. -/
theorem stream_table_is_map_wrapping :
    (runTable [.put 1 'a', .put 511 'b', .put 513 'c', .remove 1]).get 513 = some 'c' :=
  (stream_table_is_map [.put 1 'a', .put 511 'b', .put 513 'c', .remove 1] (by decide)
    (by
      intro before hb
      have : before.length ≤ 4 := hb.length_le
      refine (Finset.card_filter_le _ _).trans ?_
      refine (List.toFinset_card_le _).trans ?_
      rw [List.length_map, List.length_reverse]
      omega)).1 513

end Vanilla.Http2

import Mathlib.Tactic.Common

/-!
# Support — buffers with cursors

Two buffers over one array, each with the queue it stands for.

* `Window`: a fixed array that is written behind `len` and taken from at `off`.  What lies between
  is `pending`.  A window whose tail has no room left is slid to the front before it is written.
* `Inbox`: an array that grows.  What lies behind the cursor, `rest`, has arrived and is unread;
  making room moves it to the front, or makes the array longer.
* `ring`: consecutive places of a fixed set that is used in turn.

The cursors stay inside the array by construction.
-/

namespace Buffers

universe u

variable {α : Type u}

/-! ### A fixed array, written and taken from -/

/-- `[off, len)` of `buf` is written and not yet taken. -/
structure Window (α : Type u) where
  buf : List α
  off : Nat
  len : Nat
  off_le : off ≤ len
  len_le : len ≤ buf.length

namespace Window

/-- The array's length. -/
def size (w : Window α) : Nat := w.buf.length

/-- What is written and not yet taken, in order. -/
def pending (w : Window α) : List α := (w.buf.drop w.off).take (w.len - w.off)

/-- A fresh array, nothing written. -/
def fresh (n : Nat) (a : α) : Window α := ⟨List.replicate n a, 0, 0, Nat.le_refl _, Nat.zero_le _⟩

/-- Both cursors to the front, what was pending forgotten. -/
def reset (w : Window α) : Window α := ⟨w.buf, 0, 0, Nat.le_refl _, Nat.zero_le _⟩

theorem length_pending (w : Window α) : w.pending.length = w.len - w.off := by
  have := w.len_le
  simp only [pending, List.length_take, List.length_drop]
  omega

theorem length_pending_le (w : Window α) : w.pending.length ≤ w.size := by
  have := w.len_le
  rw [length_pending, size]
  omega

/-- Move what is pending to the front of the array. -/
def slide (w : Window α) : Window α where
  buf := w.pending ++ w.buf.drop w.pending.length
  off := 0
  len := w.pending.length
  off_le := Nat.zero_le _
  len_le := by simp

/-- Write `xs` behind `len`; a window without the room stays as it is. -/
def write (w : Window α) (xs : List α) : Window α :=
  if h : w.len + xs.length ≤ w.size then
    { buf := w.buf.take w.len ++ xs ++ w.buf.drop (w.len + xs.length)
      off := w.off
      len := w.len + xs.length
      off_le := Nat.le_add_right_of_le w.off_le
      len_le := by
        simp only [size] at h
        simp only [List.length_append, List.length_take, List.length_drop]
        omega }
  else w

/-- Take the first `n` of what is pending. -/
def advance (w : Window α) (n : Nat) : Window α :=
  ⟨w.buf, min (w.off + n) w.len, w.len, Nat.min_le_right _ _, w.len_le⟩

@[simp] theorem size_fresh (n : Nat) (a : α) : (fresh n a).size = n := by simp [fresh, size]

@[simp] theorem pending_fresh (n : Nat) (a : α) : (fresh n a).pending = [] := by
  simp [fresh, pending]

@[simp] theorem size_reset (w : Window α) : w.reset.size = w.size := rfl

@[simp] theorem pending_reset (w : Window α) : w.reset.pending = [] := by simp [reset, pending]

@[simp] theorem size_advance (w : Window α) (n : Nat) : (w.advance n).size = w.size := rfl

theorem pending_eq_nil {w : Window α} : w.pending = [] ↔ w.off = w.len := by
  rw [← List.length_eq_zero_iff, length_pending]
  have := w.off_le
  omega

@[simp] theorem size_slide (w : Window α) : w.slide.size = w.size := by
  have := w.length_pending_le
  simp only [size] at this
  simp only [slide, size, List.length_append, List.length_drop]
  omega

@[simp] theorem pending_slide (w : Window α) : w.slide.pending = w.pending := by
  simp [slide, pending]

@[simp] theorem len_slide (w : Window α) : w.slide.len = w.pending.length := rfl

@[simp] theorem size_write (w : Window α) (xs : List α) : (w.write xs).size = w.size := by
  unfold write
  split
  · rename_i h
    simp only [size] at h
    simp only [size, List.length_append, List.length_take, List.length_drop]
    omega
  · rfl

/-- What is written comes behind what is pending. -/
theorem pending_write {w : Window α} {xs : List α} (h : w.len + xs.length ≤ w.size) :
    (w.write xs).pending = w.pending ++ xs := by
  have hoff := w.off_le
  have htake : (w.buf.take w.len).length = w.len := by simp [w.len_le]
  rw [write, dif_pos h]
  simp only [pending]
  rw [List.append_assoc, List.drop_append_of_le_length (by omega), ← List.append_assoc,
    List.take_append_of_le_length (by rw [List.length_append, List.length_drop]; omega),
    List.take_of_length_le (by rw [List.length_append, List.length_drop]; omega),
    List.take_drop, Nat.add_sub_cancel' hoff]

/-- Taking drops from the front. -/
theorem pending_advance (w : Window α) (n : Nat) : (w.advance n).pending = w.pending.drop n := by
  obtain ⟨buf, off, len, hoff, hlen⟩ := w
  simp only [advance, pending, List.drop_take, List.drop_drop]
  rcases Nat.le_total (off + n) len with h | h
  · rw [Nat.min_eq_left h, Nat.sub_add_eq]
  · rw [Nat.min_eq_right h, Nat.sub_self, show len - off - n = 0 by omega, List.take_zero,
      List.take_zero]

end Window

/-! ### A growing array, read through a cursor -/

/-- `[pos, buf.length)` of an array of capacity `cap` has arrived and is unread. -/
structure Inbox (α : Type u) where
  buf : List α
  pos : Nat
  cap : Nat
  pos_le : pos ≤ buf.length
  len_le : buf.length ≤ cap

namespace Inbox

/-- What has arrived and is unread. -/
def rest (b : Inbox α) : List α := b.buf.drop b.pos

/-- How much fits behind what has arrived. -/
def spare (b : Inbox α) : Nat := b.cap - b.buf.length

/-- Nothing has arrived. -/
def fresh (cap : Nat) : Inbox α := ⟨[], 0, cap, Nat.le_refl _, Nat.zero_le _⟩

/-- Everything read is forgotten once there is nothing else. -/
def rewind (b : Inbox α) : Inbox α :=
  if 0 < b.pos ∧ b.buf.length ≤ b.pos then ⟨[], 0, b.cap, Nat.le_refl _, Nat.zero_le _⟩ else b

/-- The unread part to the front. -/
def compact (b : Inbox α) : Inbox α :=
  ⟨b.rest, 0, b.cap, Nat.zero_le _, by simp only [rest, List.length_drop]; have := b.len_le; omega⟩

/-- A longer array. -/
def grow (b : Inbox α) (n : Nat) : Inbox α :=
  ⟨b.buf, b.pos, b.cap + n, b.pos_le, Nat.le_add_right_of_le b.len_le⟩

/-- Room for at least one more: a full array is compacted, and grown if that does not help, by
its capacity or by `floor` if it has none. -/
def makeRoom (floor : Nat) (b : Inbox α) : Inbox α :=
  if b.buf.length = b.cap then
    let b := if 0 < b.pos then b.compact else b
    if b.buf.length = b.cap then b.grow (if 0 < b.cap then b.cap else floor) else b
  else b

/-- As much of `xs` as fits arrives. -/
def extend (b : Inbox α) (xs : List α) : Inbox α :=
  ⟨b.buf ++ xs.take b.spare, b.pos, b.cap,
    by simp only [List.length_append]; exact Nat.le_add_right_of_le b.pos_le,
    by
      have := b.len_le
      simp only [List.length_append, List.length_take, spare]
      omega⟩

/-- Read on by `n`. -/
def advance (b : Inbox α) (n : Nat) : Inbox α :=
  ⟨b.buf, min (b.pos + n) b.buf.length, b.cap, Nat.min_le_right _ _, b.len_le⟩

@[simp] theorem rest_rewind (b : Inbox α) : b.rewind.rest = b.rest := by
  unfold rewind
  split
  · rename_i h
    rw [rest, rest, List.drop_eq_nil_of_le h.2]
    rfl
  · rfl

@[simp] theorem rest_makeRoom (floor : Nat) (b : Inbox α) : (b.makeRoom floor).rest = b.rest := by
  unfold makeRoom
  split
  · dsimp only
    split <;> split <;> rfl
  · rfl

theorem spare_makeRoom {floor : Nat} (hf : 0 < floor) (b : Inbox α) :
    0 < (b.makeRoom floor).spare := by
  have hlen := b.len_le
  unfold makeRoom
  split
  · generalize (if 0 < b.pos then b.compact else b) = b'
    have hlen' := b'.len_le
    dsimp only
    split
    · simp only [spare, grow]
      split <;> omega
    · simp only [spare]
      omega
  · simp only [spare]
    omega

theorem rest_extend (b : Inbox α) (xs : List α) :
    (b.extend xs).rest = b.rest ++ xs.take b.spare := by
  simp only [rest, extend]
  rw [List.drop_append_of_le_length b.pos_le]

theorem rest_advance {b : Inbox α} {n : Nat} (h : n ≤ b.rest.length) :
    (b.advance n).rest = b.rest.drop n := by
  simp only [rest, List.length_drop] at h
  have hp := b.pos_le
  simp only [rest, advance, List.drop_drop]
  rw [Nat.min_eq_left (by omega)]

end Inbox

/-! ### Rings -/

/-- `n` places of a ring of `size`, the first one at `start`. -/
def ring (size start n : Nat) : List Nat := (List.range' start n).map (· % size)

theorem ring_cons (size start n : Nat) :
    ring size start (n + 1) = start % size :: ring size (start + 1) n := by
  simp [ring, List.range'_succ]

theorem ring_concat (size start n : Nat) :
    ring size start (n + 1) = ring size start n ++ [(start + n) % size] := by
  simp [ring, List.range'_concat]

theorem mem_ring_lt {size start n i : Nat} (h : 0 < size) (hi : i ∈ ring size start n) :
    i < size := by
  obtain ⟨k, -, rfl⟩ := List.mem_map.mp hi
  exact Nat.mod_lt _ h

theorem mod_ne {size a b : Nat} (hab : a < b) (hb : b < a + size) : a % size ≠ b % size := by
  intro he
  have hzero : (b - a) % size = 0 := Nat.sub_mod_eq_zero_of_mod_eq he.symm
  rw [Nat.mod_eq_of_lt (by omega)] at hzero
  omega

/-- A ring that is not full has its next place free. -/
theorem next_notMem_ring {size start n : Nat} (h : n < size) :
    (start + n) % size ∉ ring size start n := by
  intro hm
  obtain ⟨k, hk, he⟩ := List.mem_map.mp hm
  obtain ⟨i, hi, rfl⟩ := List.mem_range'.mp hk
  exact mod_ne (by omega) (by omega) he

theorem head_notMem_ring {size start n : Nat} (h : n + 1 ≤ size) :
    start % size ∉ ring size (start + 1) n := by
  intro hm
  obtain ⟨k, hk, he⟩ := List.mem_map.mp hm
  obtain ⟨i, hi, rfl⟩ := List.mem_range'.mp hk
  exact mod_ne (by omega) (by omega) he.symm

theorem nodup_ring {size start n : Nat} (h : n ≤ size) : (ring size start n).Nodup := by
  induction n generalizing start with
  | zero => exact List.nodup_nil
  | succ n ih =>
      rw [ring_cons]
      exact List.nodup_cons.mpr ⟨head_notMem_ring h, ih (Nat.le_of_succ_le h)⟩

end Buffers

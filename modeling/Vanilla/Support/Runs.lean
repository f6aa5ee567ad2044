import Mathlib.Data.List.DropRight

/-!
# Support — runs

The longest run of letters with a property at the front of a list, and trimming a list at both
ends.  `NotAt p r` says that a run of `p` stops before `r`.
-/

namespace Scan

universe u

variable {α : Type u} {p : α → Bool}

/-- `r` is empty or starts with a letter without `p`. -/
def NotAt (p : α → Bool) (r : List α) : Prop := ∀ c ∈ r.head?, p c = false

@[simp] theorem notAt_nil : NotAt p [] := by simp [NotAt]

@[simp] theorem notAt_cons {c : α} {r : List α} : NotAt p (c :: r) ↔ p c = false := by
  simp [NotAt]

theorem notAt_dropWhile (r : List α) : NotAt p (r.dropWhile p) := by
  intro c hc
  have h := List.head?_dropWhile_not p r
  rw [Option.mem_def.mp hc] at h
  simpa using h

theorem takeWhile_run {a r : List α} (ha : ∀ c ∈ a, p c = true) (hr : NotAt p r) :
    (a ++ r).takeWhile p = a := by
  rw [List.takeWhile_append_of_pos ha]
  cases r with
  | nil => simp
  | cons c r => rw [List.takeWhile_cons, notAt_cons.mp hr]; simp

theorem dropWhile_run {a r : List α} (ha : ∀ c ∈ a, p c = true) (hr : NotAt p r) :
    (a ++ r).dropWhile p = r := by
  rw [List.dropWhile_append_of_pos ha]
  cases r with
  | nil => simp
  | cons c r => rw [List.dropWhile_cons, notAt_cons.mp hr]; simp

theorem dropWhile_eq_self {r : List α} (h : NotAt p r) : r.dropWhile p = r :=
  dropWhile_run (a := []) (by simp) h

/-- A list is its run and what follows it. -/
theorem run_append (p : α → Bool) (r : List α) :
    r = r.takeWhile p ++ r.dropWhile p ∧ ∀ c ∈ r.takeWhile p, p c = true :=
  ⟨List.takeWhile_append_dropWhile.symm, fun _ h => List.mem_takeWhile_imp h⟩

/-- What is not of the run comes behind it. -/
theorem length_takeWhile_le {r : List α} {j : Nat} {c : α} (h : r[j]? = some c)
    (hc : p c = false) : (r.takeWhile p).length ≤ j := by
  by_contra hlt
  obtain ⟨hsplit, hrun⟩ := run_append p r
  rw [hsplit, List.getElem?_append_left (by omega)] at h
  rw [hrun c (List.mem_of_getElem? h)] at hc
  cases hc

theorem length_dropWhile_le (r : List α) : (r.dropWhile p).length ≤ r.length :=
  (List.dropWhile_sublist p).length_le

theorem rdropWhile_run {v b : List α} (hv : NotAt p v.reverse) (hb : ∀ c ∈ b, p c = true) :
    (v ++ b).rdropWhile p = v := by
  rw [List.rdropWhile, List.reverse_append, dropWhile_run (by simpa using hb) hv,
    List.reverse_reverse]

/-- The list without its runs of `p` at either end. -/
def trim (p : α → Bool) (r : List α) : List α := (r.dropWhile p).rdropWhile p

/-- No run of `p` at either end. -/
def Trimmed (p : α → Bool) (r : List α) : Prop := NotAt p r ∧ NotAt p r.reverse

theorem trim_append {a v b : List α} (ha : ∀ c ∈ a, p c = true) (hv : Trimmed p v)
    (hb : ∀ c ∈ b, p c = true) : trim p (a ++ v ++ b) = v := by
  unfold trim
  by_cases h : v = []
  · subst h
    have h₀ : (a ++ [] ++ b).dropWhile p = [] := by
      rw [List.dropWhile_eq_nil_iff]
      intro c hc
      simp only [List.append_nil, List.mem_append] at hc
      exact hc.elim (ha c) (hb c)
    rw [h₀, List.rdropWhile_nil]
  · have h₁ : NotAt p (v ++ b) := by
      intro c hc
      rw [List.head?_append_of_ne_nil _ h] at hc
      exact hv.1 c hc
    rw [List.append_assoc, dropWhile_run ha h₁, rdropWhile_run hv.2 hb]

theorem trimmed_trim (r : List α) : Trimmed p (trim p r) := by
  unfold trim
  set d := r.dropWhile p with hd
  have hrev : NotAt p (d.rdropWhile p).reverse := by
    rw [List.rdropWhile, List.reverse_reverse]
    exact notAt_dropWhile _
  refine ⟨?_, hrev⟩
  -- what is left, if anything, still starts as `d` does
  cases e : d.rdropWhile p with
  | nil => simp
  | cons c t =>
      obtain ⟨b, hb⟩ := List.rdropWhile_prefix p d
      rw [e] at hb
      have h := notAt_dropWhile (p := p) r
      rw [← hd, ← hb] at h
      simpa using h

/-- A trimmed list is a window of the list: from behind its leading run, of its own length. -/
theorem trim_window (p : α → Bool) (r : List α) :
    (r.drop (r.takeWhile p).length).take (trim p r).length = trim p r := by
  have e : r.drop (r.takeWhile p).length = r.dropWhile p := by
    have h : (r.takeWhile p ++ r.dropWhile p).drop (r.takeWhile p).length = r.dropWhile p :=
      List.drop_left
    rwa [List.takeWhile_append_dropWhile] at h
  rw [e]
  exact List.prefix_iff_eq_take.mp (List.rdropWhile_prefix p _) |>.symm

theorem trim_split (p : α → Bool) (r : List α) :
    ∃ a b, r = a ++ trim p r ++ b ∧ (∀ c ∈ a, p c = true) ∧ ∀ c ∈ b, p c = true := by
  obtain ⟨h₁, h₂⟩ := run_append p r
  obtain ⟨h₃, h₄⟩ := run_append p (r.dropWhile p).reverse
  refine ⟨r.takeWhile p, ((r.dropWhile p).reverse.takeWhile p).reverse, ?_, h₂,
    fun c hc => h₄ c (List.mem_reverse.mp hc)⟩
  have e : r.dropWhile p = trim p r ++ ((r.dropWhile p).reverse.takeWhile p).reverse := by
    rw [trim, List.rdropWhile, ← List.reverse_append, ← h₃, List.reverse_reverse]
  rw [List.append_assoc, ← e]
  exact h₁

end Scan

import Vanilla.Support.Loop
import Vanilla.Support.Runs

/-!
# Support — lists with separators

A text that lists elements: pieces between separators, each of them blank or an element with blanks
around it.  `Elem e x` says that the text `e` is an element and stands for `x`; an element may have
separators inside.

* `Listing.skip`: behind the blanks and separators at its front a listing stands at its first
  element, or at its end.
* `loop_search`: a loop that deals with one element in a pass, or with none, and returns at the
  first it looks for, answers whether there is one.
-/

namespace Scan

universe u v

section

variable {α : Type u} {β : Type v} (sep : α) (ws : α → Bool) (Elem : List α → β → Prop)

/-- A piece between separators, and the element it holds, if it does. -/
inductive Piece : List α → List β → Prop where
  | blank {w : List α} (hw : ∀ c ∈ w, ws c = true) : Piece w []
  | elem {a e b : List α} {x : β} (ha : ∀ c ∈ a, ws c = true) (he : Elem e x)
      (hb : ∀ c ∈ b, ws c = true) : Piece (a ++ (e ++ b)) [x]

/-- Pieces with a separator between each two. -/
inductive Listing : List α → List β → Prop where
  | last {p : List α} {xs : List β} (h : Piece ws Elem p xs) : Listing p xs
  | cons {p v : List α} {xs ys : List β} (h : Piece ws Elem p xs) (t : Listing v ys) :
      Listing (p ++ sep :: v) (xs ++ ys)

/-- What follows an element of a listing. -/
inductive Behind : List α → List β → Prop where
  | last {b : List α} (hb : ∀ c ∈ b, ws c = true) : Behind b []
  | more {b v : List α} {ys : List β} (hb : ∀ c ∈ b, ws c = true)
      (t : Listing sep ws Elem v ys) : Behind (b ++ sep :: v) ys

variable {sep ws Elem}

theorem listing_nil : Listing sep ws Elem [] [] := .last (.blank (List.forall_mem_nil _))

/-- A separator at the front lists nothing. -/
theorem Listing.afterSep {v : List α} {xs : List β} (h : Listing sep ws Elem v xs) :
    Listing sep ws Elem (sep :: v) xs :=
  .cons (.blank (List.forall_mem_nil _)) h

/-- Up to the separator, what follows an element is blank. -/
theorem Behind.split {r : List α} {ys : List β} (h : Behind sep ws Elem r ys) :
    ∃ b t, r = b ++ t ∧ (∀ c ∈ b, ws c = true) ∧ Listing sep ws Elem t ys ∧
      (t = [] ∨ ∃ v, t = sep :: v ∧ Listing sep ws Elem v ys) := by
  cases h with
  | last hb => exact ⟨r, [], (List.append_nil r).symm, hb, listing_nil, .inl rfl⟩
  | more hb t => exact ⟨_, _, rfl, hb, t.afterSep, .inr ⟨_, rfl, t⟩⟩

variable [BEq α] [LawfulBEq α]

/-- **A listing stands at its first element**, or at its end, once the blanks and separators at its
front are passed. -/
theorem Listing.skip {v : List α} {xs : List β} (h : Listing sep ws Elem v xs)
    (hstart : ∀ e x, Elem e x → ∃ c t, e = c :: t ∧ ws c = false ∧ c ≠ sep) :
    (v.dropWhile (fun c => ws c || c == sep) = [] ∧ xs = []) ∨
      ∃ e x r ys, v.dropWhile (fun c => ws c || c == sep) = e ++ r ∧ Elem e x ∧ xs = x :: ys ∧
        Behind sep ws Elem r ys := by
  have hpass : ∀ w : List α, (∀ c ∈ w, ws c = true) →
      ∀ c ∈ w, (ws c || c == sep) = true := by
    intro w hw c hc
    rw [hw c hc, Bool.true_or]
  have hstop : ∀ e x r, Elem e x → NotAt (fun c => ws c || c == sep) (e ++ r) := by
    intro e x r he
    obtain ⟨c, t, rfl, hws, hne⟩ := hstart e x he
    rw [List.cons_append, notAt_cons, hws, Bool.false_or, beq_eq_false_iff_ne]
    exact hne
  induction h with
  | last h =>
      cases h with
      | blank hw => exact .inl ⟨List.dropWhile_eq_nil_iff.mpr (hpass _ hw), rfl⟩
      | elem ha he hb =>
          exact .inr ⟨_, _, _, [], dropWhile_run (hpass _ ha) (hstop _ _ _ he), he, rfl, .last hb⟩
  | @cons p v xs ys h t ih =>
      cases h with
      | blank hw =>
          have hdrop : (p ++ sep :: v).dropWhile (fun c => ws c || c == sep) =
              v.dropWhile (fun c => ws c || c == sep) := by
            rw [List.dropWhile_append_of_pos (hpass _ hw), List.dropWhile_cons_of_pos]
            simp
          rw [hdrop]
          exact ih
      | elem ha he hb =>
          rw [List.append_assoc, List.append_assoc]
          exact .inr ⟨_, _, _, ys, dropWhile_run (hpass _ ha) (hstop _ _ _ he), he, rfl,
            .more hb t⟩

end

/-! ### Looking through a list -/

variable {σ : Type u} {β : Type v} (step : σ → Turn σ Bool) (μ : σ → Nat)
  (Rem : σ → List β → Prop) (ok : β → Bool)

/-- What a pass does with the elements that remain. -/
inductive Looks : σ → List β → Prop where
  | done {s : σ} (e : step s = .exit false) : Looks s []
  | pass {s s' : σ} {xs : List β} (e : step s = .next s') (h : Rem s' xs) (hlt : μ s' < μ s) :
      Looks s xs
  | look {s s' : σ} {x : β} {xs : List β}
      (e : step s = if ok x = true then .exit true else .next s') (h : Rem s' xs)
      (hlt : μ s' < μ s) : Looks s (x :: xs)

variable {step μ Rem ok}

/-- **A search**: the loop answers whether an element that is `ok` remains. -/
theorem loop_search (h : ∀ s xs, Rem s xs → Looks step μ Rem ok s xs) {s : σ} {xs : List β}
    (hs : Rem s xs) (out : Bool) : loop step μ out s = xs.any ok := by
  have hd : Descends step μ fun s => ∃ xs, Rem s xs := by
    rintro s s' ⟨xs, hs⟩ e
    cases h s xs hs with
    | done e' => cases e'.symm.trans e
    | pass e' hr hlt =>
        cases e'.symm.trans e
        exact ⟨⟨_, hr⟩, hlt⟩
    | look e' hr hlt =>
        rw [e] at e'
        split at e'
        · cases e'
        · cases e'
          exact ⟨⟨_, hr⟩, hlt⟩
  refine loop_rule hd (P := fun s r => ∀ xs, Rem s xs → r = xs.any ok) (fun s r _ e xs hs => ?_)
    (fun s s' r _ e ih xs hs => ?_) ⟨xs, hs⟩ xs hs
  · cases h s xs hs with
    | done e' =>
        cases e'.symm.trans e
        rfl
    | pass e' => cases e'.symm.trans e
    | look e' =>
        rw [e] at e'
        split at e'
        · rename_i hok
          cases e'
          rw [List.any_cons, hok, Bool.true_or]
        · cases e'
  · cases h s xs hs with
    | done e' => cases e'.symm.trans e
    | pass e' hr =>
        cases e'.symm.trans e
        exact ih _ hr
    | look e' hr =>
        rw [e] at e'
        split at e'
        · cases e'
        · rename_i hok
          cases e'
          rw [ih _ hr, List.any_cons, Bool.eq_false_iff.mpr hok, Bool.false_or]

end Scan

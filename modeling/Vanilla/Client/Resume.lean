import Vanilla.Client.Chunked
import Vanilla.Support.Resume

/-!
# Client — the resumable framer

`Framer.feed` is a resumable scanner.  Between two feeds it keeps its place: the line or chunk it
stands at (`pos`), and for a line how far it has been searched for an LF (`scan`), which saves work
and changes nothing else.

* `feedStep_resumable`: the passes of `feed` are those of a resumable scanner.
* `feed_segmentation`: what `feed` comes to does not depend on how the response arrives.
-/

namespace Vanilla.Client.Framer
open Scan Vanilla.Chunk

/-! ### The framer's place -/

/-- What `feed` relies on between its passes. -/
def Placed (buf : List UInt8) (f : Framer) : Prop :=
  match f.stage with
  | .head => f.Searched buf
  | .chunkData => f.pos ≤ f.need
  | _ => True

/-- The framer without its note on the search. -/
def view (f : Framer) : Framer := { f with scan := 0 }

section Pass

variable {buf : List UInt8} {f g : Framer}

theorem placed_reset (headRequest : Bool) : Placed [] (reset headRequest) :=
  ⟨Nat.le_refl 0, Nat.le_refl 0, by simp⟩

theorem Placed.grow (x : List UInt8) (h : Placed buf f) : Placed (buf ++ x) f := by
  unfold Placed at h ⊢
  split at h
  · have hpos : f.pos ≤ buf.length := Nat.le_trans h.le h.bound
    have hlen : f.scan - f.pos ≤ (buf.drop f.pos).length := by
      rw [List.length_drop]
      have := h.bound
      omega
    refine ⟨h.le, ?_, ?_⟩
    · rw [List.length_append]; exact Nat.le_add_right_of_le h.bound
    · rw [List.drop_append_of_le_length hpos, List.take_append_of_le_length hlen]
      exact h.none
  · exact h
  · trivial

/-- A line is searched from its start on. -/
theorem searched_start (h : f.pos ≤ buf.length) (e : f.scan = f.pos) : f.Searched buf :=
  ⟨Nat.le_of_eq e.symm, e ▸ h, by simp [e]⟩

/-- A line with no LF yet has been searched to its end. -/
theorem searched_end (h : f.Searched buf) (hcut : cutLine cr lf (buf.drop f.pos) = .more) :
    Searched buf { f with scan := buf.length } := by
  refine ⟨Nat.le_trans h.le h.bound, Nat.le_refl _, fun hm => ?_⟩
  have hnone : (buf.drop f.pos).idxOf? lf = none := by
    unfold cutLine at hcut
    split at hcut
    · assumption
    · cases hcut
    · split at hcut <;> cases hcut
  exact List.idxOf?_eq_none_iff.mp hnone (List.mem_of_mem_take hm)

end Pass

/-! ### Lines -/

section Line

variable {f g : Framer} {l : List UInt8}

theorem statusOf_stage (f : Framer) (l : List UInt8) : (f.statusOf l).stage = f.stage := by
  unfold statusOf statusLine
  simp only
  split <;> rfl

theorem connectionField_stage (f : Framer) (buf : List UInt8) (n : Nat) :
    (f.connectionField buf n).stage = f.stage := by
  unfold connectionField
  split <;> rfl

theorem fieldOf_stage (h : f.fieldOf l = some g) : g.stage = f.stage := by
  obtain ⟨g, hg, rfl⟩ := Option.map_eq_some_iff.mp h
  unfold fieldLine at hg
  split at hg
  · cases hg; exact connectionField_stage ..
  split at hg
  · split at hg
    · cases hg
    · split at hg <;> cases hg
      rfl
  · split at hg
    · split at hg <;> cases hg
      rfl
    · cases hg; exact connectionField_stage ..

/-- Behind the blank line: at the next status line, or at the body. -/
theorem headDone_place (f : Framer) (n : Nat) :
    (f.headDone n).pos = n ∧ ((f.headDone n).stage = f.stage ∧ (f.headDone n).scan = n ∨
      (f.headDone n).stage = .bodyLen ∨ (f.headDone n).stage = .chunkSize ∨
      (f.headDone n).stage = .untilClose ∨ (f.headDone n).stage = .done) := by
  unfold headDone
  split
  · exact ⟨rfl, .inl ⟨rfl, rfl⟩⟩
  · unfold headFinal
    simp only
    split
    · exact ⟨rfl, by simp⟩
    split
    · exact ⟨rfl, by simp⟩
    · cases f.contentLength <;> exact ⟨rfl, by simp⟩

/-- Where a line leads. -/
theorem lineStep_place (h : f.lineStep l = .next g) :
    g.pos = f.pos + (l.length + 2) ∧ (g.stage = f.stage ∧ g.scan = g.pos ∨
      g.stage = .bodyLen ∨ g.stage = .chunkSize ∨ g.stage = .untilClose ∨ g.stage = .done) := by
  unfold lineStep at h
  split at h
  · simp only at h
    split at h
    · cases h
    · cases h
      simp only [advance, statusOf_pos, statusOf_stage]
      exact ⟨trivial, .inl ⟨trivial, trivial⟩⟩
  split at h
  · rename_i hl
    cases h
    subst hl
    have := headDone_place f (f.pos + 2)
    simpa [this.1] using this
  split at h
  · cases h
  · rename_i hf
    cases h
    simp only [advance, fieldOf_pos hf, fieldOf_stage hf]
    exact ⟨trivial, .inl ⟨trivial, trivial⟩⟩

end Line

/-! ### Passes -/

section Passes

variable {buf : List UInt8} {eof : Bool} {f g : Framer}

theorem passes_lt (h : f.pos < g.pos) (hg : g.pos ≤ buf.length) :
    passes buf g < passes buf f := by
  unfold passes
  split <;> split <;> omega

theorem passes_done (hf : f.stage ≠ .done) (hf' : f.stage ≠ .failed) (hg : g.stage = .done)
    (e : g.pos = f.pos) : passes buf g < passes buf f := by
  simp [passes, hf, hf', hg, e]

theorem feedStep_head (h : f.stage = .head) : feedStep buf eof f = headStep buf eof f := by
  simp only [feedStep, h]

theorem placed_head (hf : f.stage = .head) : Placed buf f ↔ f.Searched buf := by
  simp only [Placed, hf]

/-- A pass that goes round again keeps the framer in its place and moves on. -/
theorem feedStep_next (h : Placed buf f) (e : feedStep buf eof f = .next g) :
    Placed buf g ∧ passes buf g < passes buf f := by
  cases hf : f.stage with
  | head =>
      rw [feedStep_head hf, headStep_eq ((placed_head hf).mp h)] at e
      cases hcut : cutLine cr lf (buf.drop f.pos) with
      | more => rw [hcut] at e; cases e
      | bare => rw [hcut] at e; cases e
      | line l =>
          rw [hcut] at e
          obtain ⟨hpos, hplace⟩ := lineStep_place e
          have hlen := cutLine_line_length hcut
          rw [List.length_drop] at hlen
          have hg : g.pos ≤ buf.length := by omega
          refine ⟨?_, passes_lt (by omega) hg⟩
          unfold Placed
          rcases hplace with ⟨hs, hscan⟩ | hs | hs | hs | hs
          · rw [hs, hf]
            exact searched_start hg hscan
          all_goals rw [hs]; trivial
  | bodyLen =>
      simp only [feedStep, hf] at e
      split at e
      · cases e
      · cases e
        exact ⟨trivial, passes_done (by simp [hf]) (by simp [hf]) rfl rfl⟩
  | chunkSize =>
      simp only [feedStep, hf] at e
      split at e
      · cases e
      · cases e
      · rename_i data size hs
        obtain ⟨hlt, hle⟩ := chunkSizeLine_bounds hs
        split at e
        · cases e
          exact ⟨trivial, passes_lt hlt hle⟩
        · cases e
          exact ⟨Nat.le_add_right data size, passes_lt hlt hle⟩
  | chunkData =>
      have hneed : f.pos ≤ f.need := by simpa only [Placed, hf] using h
      simp only [feedStep, hf] at e
      split at e
      · cases e
      split at e
      · cases e
      · cases e
        exact ⟨trivial, passes_lt (by simp only; omega) (by simp only; omega)⟩
  | trailers =>
      simp only [feedStep, hf] at e
      split at e
      · cases e
      · cases e
      · rename_i next last hl
        obtain ⟨hlt, hle⟩ := trailerLine_bounds hl
        split at e
        · cases e
          exact ⟨trivial, passes_lt hlt hle⟩
        · cases e
          refine ⟨?_, passes_lt hlt hle⟩
          simp only [Placed]
  | untilClose =>
      simp only [feedStep, hf] at e
      split at e
      · cases e
      · cases e
        exact ⟨trivial, passes_done (by simp [hf]) (by simp [hf]) rfl rfl⟩
  | done => simp only [feedStep, hf] at e; cases e
  | failed => simp only [feedStep, hf] at e; cases e

/-- A pass without the flag, beside the same pass on a longer buffer: it goes round again there
too, it is over there too, or it waits where it stands. -/
inductive Pass (buf x : List UInt8) (eof : Bool) (f : Framer) : Turn Framer (Framer × Int) → Prop
    where
  | next {g : Framer} (h : feedStep (buf ++ x) eof f = .next g) : Pass buf x eof f (.next g)
  | final {g : Framer} (h : feedStep (buf ++ x) eof f = .exit (g, g.endAt))
      (hs : g.stage = .done ∨ g.stage = .failed) (hne : g.endAt ≠ incomplete) :
      Pass buf x eof f (.exit (g, g.endAt))
  | wait {g : Framer} (hv : g.view = f.view) (hp : Placed buf g) :
      Pass buf x eof f (.exit (g, incomplete))

theorem code_ne_incomplete (e : ClientErr) : e.code ≠ incomplete := by
  cases e <;> decide

theorem pass_fail {x : List UInt8} {code : Int} (hc : code ≠ incomplete)
    (h : feedStep (buf ++ x) eof f = .exit (g.fail code)) :
    Pass buf x eof f (.exit (g.fail code)) :=
  .final h (.inr rfl) hc

/-- A framer that is done, or has failed, keeps its answer. -/
theorem pass_over {x : List UInt8} (hs : f.stage = .done ∨ f.stage = .failed) :
    Pass buf x eof f (.exit (f, f.endAt)) := by
  have hp : Placed buf f := by rcases hs with e | e <;> simp only [Placed, e]
  by_cases he : f.endAt = incomplete
  · rw [he]
    exact .wait rfl hp
  · refine .final ?_ hs he
    rcases hs with e | e <;> simp only [feedStep, e]

theorem pass_short {x : List UInt8} (h : Placed buf f) :
    Pass buf x eof f (.exit (f.short false)) :=
  .wait rfl h

theorem chunkSizeLine_stable (pos : Nat) : Stable fun b => chunkSizeLine b pos := by
  intro b x h
  simp only [chunkSizeLine, ne_eq, Verdict.mapErr_eq_more] at h ⊢
  exact congrArg _ (sizeLine_stable sizeBound pos b x h)

theorem trailerLine_stable (pos : Nat) : Stable fun b => trailerLine b pos := by
  intro b x h
  simp only [trailerLine_eq] at h ⊢
  have hcut : cutLine cr lf (b.drop pos) ≠ .more := fun e => h (by rw [e])
  have hpos : pos ≤ b.length := by
    by_contra hlt
    exact hcut (by rw [List.drop_eq_nil_of_le (by omega)]; rfl)
  rw [List.drop_append_of_le_length hpos, cutLine_append hcut x]

/-- What `feed` does with a line depends on the line only. -/
theorem lineStep_pass {x l : List UInt8} (h : feedStep (buf ++ x) eof f = f.lineStep l) :
    Pass buf x eof f (f.lineStep l) := by
  unfold lineStep at h ⊢
  split
  · rename_i hpos
    simp only [if_pos hpos] at h ⊢
    split
    · rename_i hst
      rw [if_pos hst] at h
      exact pass_fail (by decide) h
    · rename_i hst
      rw [if_neg hst] at h
      exact .next h
  · rename_i hpos
    rw [if_neg hpos] at h
    split
    · rename_i hl
      rw [if_pos hl] at h
      exact .next h
    · rename_i hl
      rw [if_neg hl] at h
      cases hf : f.fieldOf l with
      | none => rw [hf] at h; exact pass_fail (by decide) h
      | some g => rw [hf] at h; exact .next h

theorem feedStep_pass (x : List UInt8) (eof : Bool) (h : Placed buf f) :
    Pass buf x eof f (feedStep buf false f) := by
  cases hf : f.stage with
  | head =>
      have hs := (placed_head hf).mp h
      have hpos : f.pos ≤ buf.length := Nat.le_trans hs.le hs.bound
      have hx : feedStep (buf ++ x) eof f = _ :=
        (feedStep_head hf).trans (headStep_eq ((placed_head hf).mp (h.grow x)))
      rw [feedStep_head hf, headStep_eq hs]
      rw [List.drop_append_of_le_length hpos] at hx
      cases hcut : cutLine cr lf (buf.drop f.pos) with
      | more =>
          exact .wait rfl
            ((placed_head (f := { f with scan := buf.length }) hf).mpr (searched_end hs hcut))
      | bare =>
          rw [cutLine_append (by simp [hcut]) x, hcut] at hx
          exact pass_fail (by decide) hx
      | line l =>
          rw [cutLine_append (by simp [hcut]) x, hcut] at hx
          exact lineStep_pass hx
  | bodyLen =>
      simp only [feedStep, hf]
      split
      · exact pass_short h
      · rename_i hlen
        refine .next ?_
        simp only [feedStep, hf]
        rw [if_neg (by rw [List.length_append]; omega)]
  | chunkSize =>
      simp only [feedStep, hf]
      split
      · exact pass_short h
      · rename_i e hs
        have hx := chunkSizeLine_stable f.pos buf x (by simp [hs])
        exact pass_fail (code_ne_incomplete e) (by simp only [feedStep, hf, hx, hs])
      · rename_i data size hs
        have hx := chunkSizeLine_stable f.pos buf x (by simp [hs])
        split
        · rename_i h0
          exact .next (by simp only [feedStep, hf, hx, hs, if_pos h0])
        · rename_i h0
          exact .next (by simp only [feedStep, hf, hx, hs, if_neg h0])
  | chunkData =>
      simp only [feedStep, hf]
      split
      · exact pass_short h
      rename_i hlen
      have hlen' : ¬ (buf ++ x).length ≤ f.need + 1 := by rw [List.length_append]; omega
      have h₁ : (buf ++ x)[f.need]? = buf[f.need]? := List.getElem?_append_left (by omega)
      have h₂ : (buf ++ x)[f.need + 1]? = buf[f.need + 1]? := List.getElem?_append_left (by omega)
      split
      · rename_i hc
        refine pass_fail (by decide) ?_
        simp only [feedStep, hf, if_neg hlen', h₁, h₂, if_pos hc]
      · rename_i hc
        refine .next ?_
        simp only [feedStep, hf, if_neg hlen', h₁, h₂, if_neg hc]
  | trailers =>
      simp only [feedStep, hf]
      split
      · exact pass_short h
      · rename_i e hl
        have hx := trailerLine_stable f.pos buf x (by simp [hl])
        exact pass_fail (code_ne_incomplete e) (by simp only [feedStep, hf, hx, hl])
      · rename_i next last hl
        have hx := trailerLine_stable f.pos buf x (by simp [hl])
        split
        · rename_i h0
          exact .next (by simp only [feedStep, hf, hx, hl, if_pos h0])
        · rename_i h0
          exact .next (by simp only [feedStep, hf, hx, hl, if_neg h0])
  | untilClose =>
      simp only [feedStep, hf]
      exact .wait rfl h
  | done => simp only [feedStep, hf]; exact pass_over (.inl hf)
  | failed => simp only [feedStep, hf]; exact pass_over (.inr hf)

end Passes

/-! ### What the search's note changes -/

section View

variable {buf l : List UInt8} {eof : Bool} {f g : Framer}

/-- The framer with another note on the search. -/
def withScan (f : Framer) (k : Nat) : Framer := { f with scan := k }

theorem view_eq (h : f.view = g.view) : g = f.withScan g.scan := by
  cases f
  cases g
  simp only [view, withScan, mk.injEq, true_and] at h ⊢
  tauto

/-- What a feed tells its caller: the return value, and the response it is about. -/
def outputs (p : Framer × Int) : Int × Int × Bool × Nat × Nat :=
  (p.2, p.1.status, p.1.keepAlive, p.1.start, p.1.headLen)

/-- The outputs are in view. -/
theorem view_outputs {p q : Framer × Int} (h : p.1.view = q.1.view) (hr : p.2 = q.2) :
    outputs p = outputs q := by
  unfold outputs
  rw [hr, view_eq h]
  rfl

theorem statusOf_scan (f : Framer) (k : Nat) (l : List UInt8) :
    (f.withScan k).statusOf l = (f.statusOf l).withScan k := by
  unfold statusOf statusLine withScan
  simp only
  split <;> rfl

theorem fieldOf_scan (f : Framer) (k : Nat) (l : List UInt8) :
    (f.withScan k).fieldOf l = (f.fieldOf l).map (·.withScan k) := by
  unfold fieldOf fieldLine connectionField withScan
  simp only
  split
  · split <;> rfl
  split
  · split
    · rfl
    · split <;> rfl
  · split
    · split <;> rfl
    · split <;> rfl

theorem headDone_scan (f : Framer) (k n : Nat) :
    (f.headDone n).view = ((f.withScan k).headDone n).view := by
  unfold headDone headFinal withScan
  simp only
  split
  · rfl
  split
  · rfl
  split
  · rfl
  · cases f.contentLength <;> rfl

theorem lineStep_alike (f : Framer) (k : Nat) (l : List UInt8) :
    Turn.Rel (fun s t => view s = view t) (SameOutcome view) (f.lineStep l)
      ((f.withScan k).lineStep l) := by
  unfold lineStep
  rw [statusOf_scan, fieldOf_scan]
  refine .ite (fun _ => .ite (fun _ => .exit ⟨rfl, rfl⟩) fun _ => .next rfl)
    fun _ => .ite (fun _ => .next (headDone_scan f k _)) fun _ => ?_
  cases f.fieldOf l with
  | none => exact .exit ⟨rfl, rfl⟩
  | some g => exact .next rfl

theorem short_alike (f : Framer) (k : Nat) (eof : Bool) :
    SameOutcome view (f.short eof) ((f.withScan k).short eof) := by
  cases eof <;> exact ⟨rfl, rfl⟩

/-- The note on the search changes nothing else. -/
theorem feedStep_alike (eof : Bool) (hf : Placed buf f) (hg : Placed buf g)
    (e : f.view = g.view) :
    Turn.Rel (fun s t => view s = view t) (SameOutcome view) (feedStep buf eof f)
      (feedStep buf eof g) := by
  obtain ⟨k, rfl⟩ : ∃ k, g = f.withScan k := ⟨_, view_eq e⟩
  have hstage : (f.withScan k).stage = f.stage := rfl
  cases hst : f.stage with
  | head =>
      rw [hst] at hstage
      rw [feedStep_head hst, feedStep_head hstage, headStep_eq ((placed_head hst).mp hf),
        headStep_eq ((placed_head hstage).mp hg)]
      simp only [show (f.withScan k).pos = f.pos from rfl]
      cases cutLine cr lf (buf.drop f.pos) with
      | more => exact .exit (short_alike (f.withScan buf.length) buf.length eof)
      | bare => exact .exit ⟨rfl, rfl⟩
      | line l => exact lineStep_alike f k l
  | bodyLen =>
      simp only [feedStep, hst, hstage]
      exact .ite (fun _ => .exit (short_alike f k eof)) fun _ => .next rfl
  | chunkSize =>
      simp only [feedStep, hst, hstage, show (f.withScan k).pos = f.pos from rfl]
      cases chunkSizeLine buf f.pos with
      | more => exact .exit (short_alike f k eof)
      | refuse e => exact .exit ⟨rfl, rfl⟩
      | accept p => exact .ite (fun _ => .next rfl) fun _ => .next rfl
  | chunkData =>
      simp only [feedStep, hst, hstage]
      exact .ite (fun _ => .exit (short_alike f k eof)) fun _ =>
        .ite (fun _ => .exit ⟨rfl, rfl⟩) fun _ => .next rfl
  | trailers =>
      simp only [feedStep, hst, hstage, show (f.withScan k).pos = f.pos from rfl]
      cases trailerLine buf f.pos with
      | more => exact .exit (short_alike f k eof)
      | refuse e => exact .exit ⟨rfl, rfl⟩
      | accept p => exact .ite (fun _ => .next rfl) fun _ => .next rfl
  | untilClose =>
      simp only [feedStep, hst, hstage]
      exact .ite (fun _ => .exit ⟨rfl, rfl⟩) fun _ => .next rfl
  | done => simp only [feedStep, hst, hstage]; exact .exit ⟨rfl, rfl⟩
  | failed => simp only [feedStep, hst, hstage]; exact .exit ⟨rfl, rfl⟩

end View

/-! ### Runs -/

/-- **The passes of `feed` are those of a resumable scanner.** -/
theorem feedStep_resumable : Resumable view incomplete feedStep passes Placed where
  descends _ _ _ _ h e := feedStep_next h e
  grow x h := h.grow x
  kept {b s s' a} h e := by
    have hp := feedStep_pass [] false h
    rw [e] at hp
    cases hp with
    | final _ hs _ => rcases hs with hs | hs <;> simp only [Placed, hs]
    | wait _ hp => exact hp
  alike eof hs ht e := feedStep_alike eof hs ht e
  next x eof h e := by
    have hp := feedStep_pass x eof h
    rw [e] at hp
    cases hp with
    | next h => exact h
  final x eof h e ha := by
    have hp := feedStep_pass x eof h
    rw [e] at hp
    cases hp with
    | final h hs _ =>
        refine ⟨h, ?_⟩
        rcases hs with hs | hs <;> simp only [feedStep, hs]
    | wait => exact absurd rfl ha
  resume {b s s'} h e := by
    have hp := feedStep_pass [] false h
    generalize ha : incomplete = a at e
    rw [e] at hp
    cases hp with
    | final _ _ hne => exact absurd ha.symm hne
    | wait hv _ => exact hv

/-- **Framing does not depend on how the response arrives.**  Feeding prefixes of `r` one after the
other ends as one feed of `r` does; and what `feed` has settled on a prefix it settles alike on
every longer one. -/
theorem feed_segmentation (headRequest eof : Bool) (r : List UInt8) (ps : List (List UInt8))
    (h : (ps ++ [r]).Pairwise (· <+: ·)) :
    outputs (feedAll feed eof (reset headRequest) ps r) =
      outputs ((reset headRequest).feed r eof) ∧
    ∀ p q, p <+: q → ((reset headRequest).feed p false).2 ≠ incomplete →
      (reset headRequest).feed q false = (reset headRequest).feed p false := by
  have hs := placed_reset headRequest
  refine ⟨?_, ?_⟩
  · obtain ⟨hview, hret⟩ := feedStep_resumable.feedAll_eq hs h eof
    exact view_outputs hview hret
  · rintro p _ ⟨x, rfl⟩ ha
    exact feedStep_resumable.feed_final (hs.grow p) ha x false

/-- Three reads that cut an interim response and a final one inside their status lines. -/
theorem feed_segmentation_interim :
    ([ascii "HTTP/1.1 10", ascii "HTTP/1.1 100 Continue\r\n\r\nHTTP/1.1 204 No"] ++
      [ascii "HTTP/1.1 100 Continue\r\n\r\nHTTP/1.1 204 No Content\r\n\r\n"]).Pairwise
        (· <+: ·) ∧
    outputs (feedAll feed false (reset false)
        [ascii "HTTP/1.1 10", ascii "HTTP/1.1 100 Continue\r\n\r\nHTTP/1.1 204 No"]
        (ascii "HTTP/1.1 100 Continue\r\n\r\nHTTP/1.1 204 No Content\r\n\r\n")) =
      outputs ((reset false).feed
        (ascii "HTTP/1.1 100 Continue\r\n\r\nHTTP/1.1 204 No Content\r\n\r\n") false) := by
  have h : ([ascii "HTTP/1.1 10", ascii "HTTP/1.1 100 Continue\r\n\r\nHTTP/1.1 204 No"] ++
      [ascii "HTTP/1.1 100 Continue\r\n\r\nHTTP/1.1 204 No Content\r\n\r\n"]).Pairwise
        (· <+: ·) := by
    decide +kernel
  exact ⟨h, (feed_segmentation false false _ _ h).1⟩

end Vanilla.Client.Framer

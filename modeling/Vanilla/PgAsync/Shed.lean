import Vanilla.PgAsync.Slots

/-!
# PostgreSQL — the shortest pipeline

`acquire_pipelined` and `acquire_pipelined_for` pass over the pool once and return the connection
with the fewest queries in flight among those that can take one more.  The pass is not a look: it
finishes ROLLBACKs and advances re-dials as it goes, and leaves at a connection with nothing in
flight.  What it returns is right for the pool as the pass leaves it.

* `acquirePipelined_spec`, `acquirePipelinedFor_spec`: the two passes.
* `acquire_pipelined_for_exact`: an index it returns takes the frame and has the shortest pipeline;
  a refusal says why.
-/

namespace Vanilla.PgAsync

open Scan (Swept Least sweep_rule)

/-- A slot whose connection serves: idle, live, and its session not in a transaction. -/
structure Slot.Serves (s : Slot) : Prop where
  idle : s.idle = true
  ready : s.conn.state = .ready
  status : s.conn.readyStatus = txIdle

namespace Slot

/-- The queries in flight. -/
def depth (s : Slot) : Nat := s.conn.inflight.length

/-- A slot that can take one more pipelined query. -/
structure Open (s : Slot) : Prop extends s.Serves where
  slot : s.depth < s.conn.inflightLimit

/-- A slot that can take a frame of `n` bytes now. -/
structure Eligible (n : Nat) (s : Slot) : Prop extends s.Open where
  room : n ≤ s.conn.sendRoom

theorem Eligible.takes {n : Nat} {s : Slot} (h : s.Eligible n) : s.conn.Takes n where
  ready := h.ready
  slot := h.slot
  room := Nat.le_of_not_lt fun hlt => absurd (PgConn.sendRoom_lt.mpr hlt) (Nat.not_lt.mpr h.room)

theorem Eligible.fits {n : Nat} {s : Slot} (h : s.Eligible n) : n ≤ s.conn.maxFrameLen := by
  have := h.takes.room
  omega

theorem Looked.serves {s s' : Slot} {b : Bool} (h : Looked s b s') : b = true ↔ s'.Serves :=
  h.ok.trans ⟨fun ⟨h₁, h₂, h₃⟩ => ⟨h₁, h₂, h₃⟩, fun h => ⟨h.idle, h.ready, h.status⟩⟩

end Slot

open Slot

section

variable {K : Crypto} {cfg : ConnConfig} {p p' : PgPool} {env : Nat → SlotEnv}

/-! ### `acquire_pipelined` -/

/-- **What `acquire_pipelined` returns.** -/
theorem acquirePipelined_spec {res : Option Nat}
    (h : p.acquirePipelined K cfg env = (res, p')) :
    p'.recycling = p.recycling ∧ Swept (fun _ => Passed) p.slots p'.slots ∧
      ∀ i, res = some i → ∃ s, p'.slots[i]? = some s ∧ s.Serves := by
  cases h
  refine ⟨rfl, ?_⟩
  refine sweep_rule
    (I := fun best l l' => Swept (fun _ => Passed) l l' ∧ Least Open depth best l')
    (P := fun res l l' => Swept (fun _ => Passed) l l' ∧
      ∀ i, res = some i → ∃ s : Slot, l'[i]? = some s ∧ s.Serves)
    ?_ ?_ ?_ ⟨.nil, .nil⟩
  · rintro best best' s s' l l' ⟨hsw, hbest⟩ hv
    unfold acquirePipelinedAt at hv
    split at hv
    · rename_i hp
      have hl := pipelinable_spec hp
      cases hv
      refine ⟨hsw.concat hl.passed, hbest.pass fun ho => ?_⟩
      exact absurd (hl.serves.mpr ho.toServes) Bool.false_ne_true
    · rename_i hp
      have hl := pipelinable_spec hp
      dsimp only at hv
      split at hv
      · cases hv
      split at hv
      · rename_i hd
        cases hv
        rw [← hsw.length]
        exact ⟨hsw.concat hl.passed, hbest.take ⟨hl.serves.mp rfl, hd.1⟩ hd.2⟩
      · rename_i hd
        cases hv
        refine ⟨hsw.concat hl.passed, ?_⟩
        by_cases hall : best.all (s'.depth < ·.2) = true
        · exact hbest.pass fun ho => absurd ⟨ho.slot, hall⟩ hd
        · exact hbest.keep (Bool.eq_false_iff.mpr hall)
  · rintro best r s s' l l' rest ⟨hsw, hbest⟩ hv
    unfold acquirePipelinedAt at hv
    split at hv
    · cases hv
    · rename_i hp
      have hl := pipelinable_spec hp
      dsimp only at hv
      split at hv
      · cases hv
        refine ⟨hsw.cons_rest hl.passed fun _ b _ _ => .refl b, fun i hi => ?_⟩
        cases hi
        exact ⟨s', by rw [← hsw.length]; simp, hl.serves.mp rfl⟩
      split at hv <;> cases hv
  · rintro best l l' ⟨hsw, hbest⟩
    refine ⟨hsw, fun i hi => ?_⟩
    obtain ⟨⟨k, m⟩, rfl, hk⟩ := Option.map_eq_some_iff.mp hi
    obtain ⟨⟨s, hs, ho, -⟩, -⟩ := hbest
    exact ⟨s, hk ▸ hs, ho.toServes⟩

/-! ### `acquire_pipelined_for` -/

/-- What the locals of `acquire_pipelined_for` say of the slots it has passed, as they were and as
they are. -/
structure Search.Knows (n : Nat) (q : Search) (l l' : List Slot) : Prop where
  swept : Swept (fun _ => Passed) l l'
  least : Least (Eligible n) depth q.best l'
  fits : q.fits = true ↔ ∃ s ∈ l, n ≤ s.conn.maxFrameLen
  widest : q.widest = none ↔ ∀ s ∈ l, n ≤ s.conn.maxFrameLen
  found : q.best ≠ none → q.fits = true

/-- What `acquire_pipelined_for` says of the pool. -/
structure Found (n : Nat) (res : Except Refusal Nat) (l l' : List Slot) : Prop where
  swept : Swept (fun _ => Passed) l l'
  ok : ∀ i, res = .ok i → ∃ s, l'[i]? = some s ∧ s.Eligible n ∧
    ∀ t ∈ l', t.Eligible n → s.depth ≤ t.depth
  error : ∀ e, res = .error e → ∀ t ∈ l', ¬ t.Eligible n
  tooLarge : (∃ cap, res = .error (.frameTooLarge cap)) ↔
    l ≠ [] ∧ ∀ s ∈ l, s.conn.maxFrameLen < n

namespace Search.Knows

variable {n : Nat} {q : Search} {l l' : List Slot} {s s' : Slot}

theorem nil : Knows n {} [] [] := ⟨.nil, .nil, by simp, by simp, fun h => absurd rfl h⟩

/-- A slot whose connection can never take the frame. -/
theorem tooSmall (h : q.Knows n l l') (hs : s.conn.maxFrameLen < n) :
    (q.tooSmall s.conn).Knows n (l ++ [s]) (l' ++ [s]) := by
  have hbest : (q.tooSmall s.conn).best = q.best := by unfold Search.tooSmall; split <;> rfl
  have hfits : (q.tooSmall s.conn).fits = q.fits := by unfold Search.tooSmall; split <;> rfl
  have hwidest : (q.tooSmall s.conn).widest ≠ none := by
    unfold Search.tooSmall
    split
    · simp
    · rename_i hw
      intro hnone
      rw [hnone] at hw
      exact hw rfl
  have hlt : ¬ n ≤ s.conn.maxFrameLen := Nat.not_le.mpr hs
  refine ⟨h.swept.concat (.refl s), ?_, ?_, ?_, ?_⟩
  · rw [hbest]
    exact h.least.pass fun he => absurd he.fits hlt
  · rw [hfits, h.fits]
    simp [hlt]
  · exact iff_of_false hwidest fun hall => hlt (hall s (by simp))
  · rw [hbest, hfits]
    exact h.found

/-- A slot whose send buffer is large enough. -/
theorem fit {q' : Search} (h : q.Knows n l l') (hs : n ≤ s.conn.maxFrameLen) (hp : Passed s s')
    (hfits : q'.fits = true) (hwidest : q'.widest = q.widest)
    (hleast : Least (Eligible n) depth q'.best (l' ++ [s'])) :
    q'.Knows n (l ++ [s]) (l' ++ [s']) := by
  refine ⟨h.swept.concat hp, hleast, iff_of_true hfits ⟨s, by simp, hs⟩, ?_, fun _ => hfits⟩
  rw [hwidest, h.widest]
  simp only [List.mem_append, List.mem_singleton]
  exact ⟨fun hall t ht => ht.elim (hall t) fun ht => ht ▸ hs, fun hall t ht => hall t (.inl ht)⟩

/-- The answer after the last slot. -/
theorem found_answer (h : q.Knows n l l') : Found n q.answer l l' := by
  have hall : (l ≠ [] ∧ ∀ s ∈ l, s.conn.maxFrameLen < n) ↔ q.fits = false ∧ q.widest ≠ none := by
    rw [← Bool.not_eq_true, h.fits, ne_eq, ne_eq, h.widest]
    simp only [not_exists, not_and, Nat.not_le, not_forall]
    constructor
    · rintro ⟨hne, hlt⟩
      obtain ⟨s, hs⟩ := List.exists_mem_of_ne_nil l hne
      exact ⟨hlt, s, hs, hlt s hs⟩
    · rintro ⟨hlt, s, hs, -⟩
      exact ⟨List.ne_nil_of_mem hs, hlt⟩
  have hleast := h.least
  unfold Search.answer
  split
  · rename_i i m hb
    rw [hb] at hleast
    obtain ⟨⟨s, hs, he, hm⟩, hle⟩ := hleast
    refine ⟨h.swept, fun i' hi => ?_, fun e he => (nomatch he), ?_⟩
    · cases hi
      exact ⟨s, hs, he, fun t ht het => hm ▸ hle t ht het⟩
    · refine iff_of_false (fun ⟨cap, hcap⟩ => nomatch hcap) fun hsmall => ?_
      have hfits := h.found (by simp [hb])
      rw [(hall.mp hsmall).1] at hfits
      cases hfits
  · rename_i hb
    rw [hb] at hleast
    split
    · rename_i cap hf hw
      refine ⟨h.swept, fun i hi => (nomatch hi), fun _ _ => hleast, iff_of_true ⟨_, rfl⟩ ?_⟩
      exact hall.mpr ⟨hf, by simp [hw]⟩
    · rename_i hne
      have hlarge : ¬ (l ≠ [] ∧ ∀ s ∈ l, s.conn.maxFrameLen < n) := by
        rw [hall]
        rintro ⟨hf, hw⟩
        obtain ⟨w, hw⟩ := Option.ne_none_iff_exists'.mp hw
        exact hne w.1 w.2 hf hw
      have hshed : ∀ r : ShedReason, Found n (.error (.shed r)) l l' := fun r =>
        ⟨h.swept, fun i hi => (nomatch hi), fun _ _ => hleast,
          iff_of_false (fun ⟨cap, hcap⟩ => nomatch hcap) hlarge⟩
      split
      · exact hshed _
      split <;> exact hshed _

end Search.Knows

theorem acquirePipelinedFor_spec {n : Nat} {res : Except Refusal Nat}
    (h : p.acquirePipelinedFor K cfg n env = (res, p')) :
    p'.recycling = p.recycling ∧ Found n res p.slots p'.slots := by
  cases h
  refine ⟨rfl, sweep_rule (I := Search.Knows n) (P := Found n) ?_ ?_ ?_ .nil⟩
  · intro q q' s s' l l' hq hv
    unfold acquirePipelinedForAt at hv
    split at hv
    · rename_i hs
      cases hv
      exact hq.tooSmall hs
    rename_i hs
    have hs := Nat.le_of_not_lt hs
    dsimp only at hv
    split at hv
    · rename_i hp
      have hl := pipelinable_spec hp
      cases hv
      refine hq.fit hs hl.passed rfl rfl (hq.least.pass fun he => ?_)
      exact absurd (hl.serves.mpr he.toServes) Bool.false_ne_true
    · rename_i s₁ hp
      have hl := pipelinable_spec hp
      have hcand := congrArg Prod.fst hv
      have hs₁ : s₁ = s' := congrArg Prod.snd hv
      subst hs₁
      dsimp only [Search.candidate] at hcand
      split at hcand
      · rename_i hfull
        cases hcand
        exact hq.fit hs hl.passed rfl rfl
          (hq.least.pass fun he => absurd he.slot (Nat.not_lt.mpr hfull))
      split at hcand
      · rename_i hroom
        cases hcand
        exact hq.fit hs hl.passed rfl rfl
          (hq.least.pass fun he => absurd hroom (Nat.not_lt.mpr he.room))
      rename_i hfull hroom
      split at hcand
      · cases hcand
      split at hcand
      · rename_i hall
        cases hcand
        rw [← hq.swept.length]
        exact hq.fit hs hl.passed rfl rfl (hq.least.take
          ⟨⟨hl.serves.mp rfl, Nat.lt_of_not_le hfull⟩, Nat.le_of_not_lt hroom⟩ hall)
      · rename_i hall
        cases hcand
        exact hq.fit hs hl.passed rfl rfl (hq.least.keep (Bool.eq_false_iff.mpr hall))
  · intro q r s s' l l' rest hq hv
    unfold acquirePipelinedForAt at hv
    split at hv
    · cases hv
    rename_i hs
    have hs := Nat.le_of_not_lt hs
    dsimp only at hv
    split at hv
    · cases hv
    rename_i s₁ hp
    have hl := pipelinable_spec hp
    have hcand := congrArg Prod.fst hv
    have hs₁ : s₁ = s' := congrArg Prod.snd hv
    subst hs₁
    dsimp only [Search.candidate] at hcand
    split at hcand
    · cases hcand
    split at hcand
    · cases hcand
    rename_i hfull hroom
    split at hcand
    · rename_i hd
      cases hcand
      refine ⟨hq.swept.cons_rest hl.passed fun _ b _ _ => .refl b, fun i hi => ?_,
        fun e he => (nomatch he), ?_⟩
      · cases hi
        refine ⟨s₁, by rw [← hq.swept.length]; simp, ?_, fun t _ _ => ?_⟩
        · exact ⟨⟨hl.serves.mp rfl, Nat.lt_of_not_le hfull⟩, Nat.le_of_not_lt hroom⟩
        · exact Nat.le_trans (Nat.le_of_eq hd) (Nat.zero_le _)
      · refine iff_of_false (fun ⟨cap, hcap⟩ => nomatch hcap) fun ⟨_, hsmall⟩ => ?_
        exact absurd (hsmall s (by simp)) (Nat.not_lt.mpr hs)
    split at hcand <;> cases hcand
  · intro q l l' hq
    exact hq.found_answer

end

/-! ### A submission that fits -/

/-- A frame that can be queued is, whichever way it is submitted. -/
theorem Submission.on_takes {c : PgConn} {sub : Submission} (hne : sub.stmts ≠ [])
    (h : c.Takes (frameOf sub.stmts).length) : (sub.on c).1 = true := by
  cases sub with
  | asyncSubmit s =>
      have hc := PgConn.cannotTake_eq_false.mpr h
      simp only [on, PgConn.asyncSubmit, queryFrameLen_eq]
      rw [stmts] at h hc
      rw [hc, if_neg (by decide), PgConn.enqueue_eq h]
  | asyncSubmitBatch ss =>
      rw [stmts] at h hne
      have hc := PgConn.cannotTake_eq_false.mpr h
      have hroom := h.room
      have h0 : ss.length ≠ 0 := fun h0 => hne (List.length_eq_zero_iff.mp h0)
      simp only [on, PgConn.asyncSubmitBatch, batchFrameLen_eq]
      rw [if_neg h0, if_neg (by omega), hc, if_neg (by decide), PgConn.enqueue_eq h]
  | submit s =>
      rw [stmts] at h
      simp only [on, PgConn.submit, queryFrameLen_eq, PgConn.checkSubmit_ok.mpr h,
        PgConn.queueScratch, PgConn.enqueue_eq h]
  | submitBatch ss =>
      rw [stmts] at h hne
      have h0 : ss.length ≠ 0 := fun h0 => hne (List.length_eq_zero_iff.mp h0)
      simp only [on, PgConn.submitBatch, batchFrameLen_eq, PgConn.checkSubmit_ok.mpr h,
        PgConn.queueScratch, PgConn.enqueue_eq h]
      rw [if_neg h0]

/-- **What `acquire_pipelined_for` answers is exact.**  An index it returns takes a frame of `n`
bytes at once, however it is submitted, and its pipeline is as short as that of any connection that
could take the frame.  It refuses the frame as too large just when no send buffer of the pool is
large enough, and otherwise refuses only when no connection can take the frame. -/
theorem acquire_pipelined_for_exact (K : Crypto) (cfg : ConnConfig) (p p' : PgPool) (n : Nat)
    (env : Nat → SlotEnv) (res : Except Refusal Nat)
    (h : p.acquirePipelinedFor K cfg n env = (res, p')) :
    (∀ i, res = .ok i → ∃ s, p'.slots[i]? = some s ∧ s.Eligible n ∧
      (∀ sub : Submission, sub.stmts ≠ [] → (frameOf sub.stmts).length = n →
        (sub.on s.conn).1 = true) ∧
      ∀ t ∈ p'.slots, t.Eligible n → s.depth ≤ t.depth) ∧
    ((∃ cap, res = .error (.frameTooLarge cap)) ↔
      p.slots ≠ [] ∧ ∀ s ∈ p.slots, s.conn.maxFrameLen < n) ∧
    ∀ e, res = .error e → ∀ t ∈ p'.slots, ¬ t.Eligible n := by
  have hf := (acquirePipelinedFor_spec h).2
  refine ⟨fun i hi => ?_, hf.tooLarge, hf.error⟩
  obtain ⟨s, hs, he, hle⟩ := hf.ok i hi
  refine ⟨s, hs, he, fun sub hne hlen => ?_, hle⟩
  exact sub.on_takes hne (hlen ▸ he.takes)

/-- A pass that finds nothing. -/
def quietEnv : SlotEnv where
  finish := ⟨[], [], [], 0⟩
  start := ⟨[], [], [], 0⟩
  probe := .nothing
  redial := ⟨0, 0, 0, 0, none, none, none, none, none, false, none, none, [], none, []⟩

/-- Queries in flight, in the first places of the frame pool. -/
def inFlight (n : Nat) : List PendingQuery := (List.range n).map fun i => ⟨[], [], [], 0, 0, i, i⟩

/-- A pool of four connections: one held, one with a full pipeline, one with two queries in flight
and one with one. -/
def busyPool : PgPool :=
  ⟨[⟨{}, false⟩, ⟨{ inflight := inFlight 8 }, true⟩, ⟨{ inflight := inFlight 2 }, true⟩,
    ⟨{ inflight := inFlight 1 }, true⟩], 0, none⟩

/-- The shorter of the two pipelines that can take one more, and a frame that fits no buffer. -/
theorem acquire_pipelined_for_exact_busy :
    (∃ s, busyPool.slots[3]? = some s ∧ s.Eligible 54 ∧
      (∀ sub : Submission, sub.stmts ≠ [] → (frameOf sub.stmts).length = 54 →
        (sub.on s.conn).1 = true) ∧
      ∀ t ∈ busyPool.slots, t.Eligible 54 → s.depth ≤ t.depth) ∧
    ∀ s ∈ busyPool.slots, s.conn.maxFrameLen < sendBufCap + 1 :=
  ⟨(acquire_pipelined_for_exact plainCrypto saslConfig busyPool busyPool 54 (fun _ => quietEnv)
      (.ok 3) rfl).1 3 rfl,
    ((acquire_pipelined_for_exact plainCrypto saslConfig busyPool busyPool (sendBufCap + 1)
      (fun _ => quietEnv) (.error (.frameTooLarge sendBufCap)) rfl).2.1.mp ⟨_, rfl⟩).2⟩

end Vanilla.PgAsync

import Vanilla.PgAsync.Shed

/-!
# PostgreSQL — who has a connection

The runs of a pool: borrowers acquire and release, requests share connections, replies arrive with
whatever they report, connections are lost and re-dialed, `maintain` ticks.  A slot is in one of
four hands: idle, a borrower's, rolling back, being recycled.  The pool keeps this in three places,
`idle`, `rollback_deadline` and `recycling`, and keeps no list of its borrowers; the run does
(`PoolRun.held`), and what the pool hands out is on record (`Grant`).

A borrower releases what it acquired, once.  A request that shares a connection submits to it at
once, and after that only reads; nobody but the pool calls a connection that is rolling back.

* `PoolRun.Ok`: the invariant; `step_ok`, `run_ok`.
* `pool_isolation`: nothing is handed out that another has.
* `no_slot_leaked`: a slot that is not idle is somebody's.
-/

namespace Vanilla.PgAsync
open PgConn

open Scan (Swept sweep_rule)
open Slot (Passed Out)

/-- What happens to a pool. -/
inductive PoolEvent where
  | acquire (env : Nat → SlotEnv)
  | release (i : Nat) (env : RollbackEnv)
  | acquirePipelined (env : Nat → SlotEnv) (subs : List Submission) (recvs : List Recv)
      (sends : List Sent)
  | acquirePipelinedFor (n : Nat) (env : Nat → SlotEnv) (subs : List Submission)
      (recvs : List Recv) (sends : List Sent)
  | submit (i : Nat) (sub : Submission)
  | flush (i : Nat) (recvs : List Recv) (sends : List Sent)
  | readable (i : Nat) (recvs : List Recv)
  | maintain (now : Nat) (env : Nat → SlotEnv) (recycle : RedialEnv)

/-- What the pool has handed out: the slot as the caller finds it, who held what before, and which
slot was being recycled. -/
structure Grant where
  exclusive : Bool
  index : Nat
  slot : Option Slot
  held : List Nat
  recycling : Option Nat

/-- A pool, what is borrowed from it, and what it has handed out. -/
structure PoolRun where
  pool : PgPool
  held : List Nat := []
  grants : List Grant := []

/-- A call on the connection `i`. -/
def PgPool.onConn (p : PgPool) (i : Nat) (f : PgConn → PgConn) : PgPool :=
  match p.slots[i]? with
  | none => p
  | some s => { p with slots := p.slots.set i { s with conn := f s.conn } }

/-- The submissions of a request that shares a connection, and its flush. -/
def PgConn.share (subs : List Submission) (recvs : List Recv) (sends : List Sent) (c : PgConn) :
    PgConn :=
  ((subs.foldl (fun c sub => (sub.on c).2) c).asyncFlush recvs sends).2.1

namespace PoolRun

/-- The slot `i` is handed out by a call that leaves the pool `p`. -/
def grant (r : PoolRun) (exclusive : Bool) (i : Nat) (p : PgPool) : PoolRun :=
  { r with pool := p, grants := r.grants ++ [⟨exclusive, i, p.slots[i]?, r.held, p.recycling⟩] }

/-- Whether the slot `i` is rolling back. -/
def rolling (r : PoolRun) (i : Nat) : Bool := r.pool.slots[i]?.any (·.conn.rollbackDeadline ≠ 0)

section

variable (K : Crypto) (cfg : ConnConfig)

/-- One event. -/
def step (r : PoolRun) : PoolEvent → PoolRun
  | .acquire env =>
    match r.pool.acquire K cfg env with
    | (none, p) => { r with pool := p }
    | (some i, p) => { r.grant true i p with held := i :: r.held }
  | .release i env =>
    if i ∈ r.held then { r with pool := r.pool.release i env, held := r.held.erase i } else r
  | .acquirePipelined env subs recvs sends =>
    match r.pool.acquirePipelined K cfg env with
    | (none, p) => { r with pool := p }
    | (some i, p) => { r.grant false i p with pool := p.onConn i (share subs recvs sends) }
  | .acquirePipelinedFor n env subs recvs sends =>
    match r.pool.acquirePipelinedFor K cfg n env with
    | (.error _, p) => { r with pool := p }
    | (.ok i, p) => { r.grant false i p with pool := p.onConn i (share subs recvs sends) }
  | .submit i sub =>
    if i ∈ r.held then { r with pool := r.pool.onConn i fun c => (sub.on c).2 } else r
  | .flush i recvs sends =>
    if r.rolling i then r
    else { r with pool := r.pool.onConn i fun c => (c.asyncFlush recvs sends).2.1 }
  | .readable i recvs =>
    if r.rolling i then r
    else { r with pool := r.pool.onConn i fun c => (c.asyncOnReadable recvs).2 }
  | .maintain now env recycle => { r with pool := (r.pool.maintain K cfg now env recycle).2 }

/-- A run of a pool. -/
def run (p : PgPool) (es : List PoolEvent) : PoolRun := es.foldl (step K cfg) { pool := p }

end

end PoolRun

/-! ### The invariant -/

/-- The last ReadyForQuery of the session, that of its bring-up or of a query, reported a
transaction. -/
def PgConn.InTransaction (c : PgConn) : Prop :=
  ∃ payload b, c.lastReady = some payload ∧ b ∈ payload.head? ∧ b ≠ txIdle

theorem PgConn.Told.not_inTransaction {c : PgConn} (h : c.Told) (hs : c.readyStatus = txIdle) :
    ¬ c.InTransaction := by
  rintro ⟨payload, b, hp, hb, hne⟩
  rw [Told, hp] at h
  exact hne ((h b hb).symm.trans hs)

/-- The session of what is handed out was idle when it was new. -/
def Grant.GreetedIdle (g : Grant) : Prop := ∀ s ∈ g.slot, s.conn.GreetedIdle

/-- **A new session reports idle**, as PostgreSQL has it: so did every session that was handed
out. -/
def PoolRun.SessionsIdle (r : PoolRun) : Prop := ∀ g ∈ r.grants, g.GreetedIdle

/-- What is handed out is nobody's, and serves. -/
structure Grant.Clean (g : Grant) : Prop where
  index : g.index ∉ g.held
  recycling : g.recycling ≠ some g.index
  slot : ∃ s, g.slot = some s ∧ s.conn.state = .ready ∧ ¬ s.conn.InTransaction ∧
    s.conn.rollbackDeadline = 0 ∧ (g.exclusive = true → s.conn.inflight = [])

/-- In every state: each slot keeps its own invariant, those out of the pool's hands are the
borrowed ones and the one being recycled, and no index is borrowed twice. -/
structure PoolRun.Ok (r : PoolRun) : Prop where
  wf : ∀ (i : Nat) (s : Slot), r.pool.slots[i]? = some s → s.Wf
  out : ∀ (i : Nat) (s : Slot), r.pool.slots[i]? = some s →
    (s.Out ↔ i ∈ r.held ∨ r.pool.recycling = some i)
  nodup : r.held.Nodup
  apart : ∀ i ∈ r.held, r.pool.recycling ≠ some i
  inRange : ∀ i, r.pool.recycling = some i → i < r.pool.slots.length
  grants : ∀ g ∈ r.grants, g.GreetedIdle → g.Clean

namespace PoolRun.Ok

variable {r : PoolRun} {p : PgPool}

/-- A pass over the slots. -/
theorem swept (h : r.Ok) {R : Nat → Slot → Slot → Prop} (hsw : Swept R r.pool.slots p.slots)
    {held : List Nat} {grants : List Grant}
    (hR : ∀ i s s', R i s s' → s.Wf → (s.Out ↔ i ∈ r.held ∨ r.pool.recycling = some i) →
      s'.Wf ∧ (s'.Out ↔ i ∈ held ∨ p.recycling = some i))
    (hnodup : held.Nodup) (hapart : ∀ i ∈ held, p.recycling ≠ some i)
    (hrange : ∀ i, p.recycling = some i → i < r.pool.slots.length)
    (hgrants : ∀ g ∈ grants, g.GreetedIdle → g.Clean) : (PoolRun.mk p held grants).Ok where
  wf i s' hs' := by
    obtain ⟨s, hs, hr⟩ := hsw.at_index i s' hs'
    exact (hR i s s' hr (h.wf i s hs) (h.out i s hs)).1
  out i s' hs' := by
    obtain ⟨s, hs, hr⟩ := hsw.at_index i s' hs'
    exact (hR i s s' hr (h.wf i s hs) (h.out i s hs)).2
  nodup := hnodup
  apart := hapart
  inRange i hi := by
    rw [hsw.length]
    exact hrange i hi
  grants := hgrants

/-- A pass that takes no slot and gives none back. -/
theorem passed (h : r.Ok) (hrec : p.recycling = r.pool.recycling)
    (hsw : Swept (fun _ => Passed) r.pool.slots p.slots) : { r with pool := p }.Ok := by
  refine h.swept hsw (fun i s s' hp hw ho => ?_) h.nodup ?_ ?_ h.grants
  · rw [hrec]
    exact ⟨(hp hw).1, (hp hw).2.trans ho⟩
  · rw [hrec]
    exact h.apart
  · rw [hrec]
    exact h.inRange

/-- A call on a connection. -/
theorem onConn (h : r.Ok) (i : Nat) (f : PgConn → PgConn)
    (hf : ∀ s, r.pool.slots[i]? = some s → Passed s { s with conn := f s.conn }) :
    { r with pool := r.pool.onConn i f }.Ok := by
  unfold PgPool.onConn
  split
  · exact h
  · rename_i s hs
    have hsw : Swept (fun _ => Passed) r.pool.slots
        (r.pool.slots.set i { s with conn := f s.conn }) :=
      .set hs (hf s hs) fun _ b _ => .refl b
    exact h.passed (p := ⟨_, r.pool.clock, r.pool.recycling⟩) rfl hsw

/-- A slot that serves is in nobody's hands. -/
theorem free (h : r.Ok) {i : Nat} {s : Slot} (hs : r.pool.slots[i]? = some s) (hi : s.idle = true) :
    i ∉ r.held ∧ r.pool.recycling ≠ some i := by
  have hno := (not_congr (h.out i s hs)).mp (Slot.not_out_of_idle hi)
  exact not_or.mp hno

/-- What is on record after one more slot is handed out. -/
theorem clean_concat (h : r.Ok) {i : Nat} {s : Slot} {e : Bool}
    (hrec : p.recycling = r.pool.recycling) (hheld : i ∉ r.held)
    (hr : r.pool.recycling ≠ some i) (hs : p.slots[i]? = some s) (hw : s.Wf)
    (hd : s.conn.rollbackDeadline = 0) (hready : s.conn.state = .ready)
    (hstatus : s.conn.readyStatus = txIdle)
    (hin : e = true → s.conn.inflight = []) :
    ∀ g ∈ (r.grant e i p).grants, g.GreetedIdle → g.Clean := by
  intro g hg hidle
  rcases List.mem_append.mp hg with hg | hg
  · exact h.grants g hg hidle
  · rw [List.mem_singleton.mp hg] at hidle ⊢
    have htold := hw.sound.reports (hidle s hs)
    exact ⟨hheld, hrec ▸ hr, s, hs, hready, htold.not_inTransaction hstatus, hd, hin⟩

end PoolRun.Ok

/-! ### Acquiring -/

section

variable {K : Crypto} {cfg : ConnConfig} {p p' : PgPool}

/-- A slot that `acquire` takes. -/
def Slot.Taken (s s' : Slot) : Prop :=
  ∃ s₁, Passed s s₁ ∧ s₁.Serves ∧ s₁.conn.inflight = [] ∧ s' = { s₁ with idle := false }

/-- A taken slot was nobody's, and is out of the pool's hands. -/
theorem Slot.Taken.out {s s' : Slot} (h : s.Taken s') (hw : s.Wf) :
    s'.Wf ∧ s'.Out ∧ ¬ s.Out ∧ s'.conn.state = .ready ∧ s'.conn.readyStatus = txIdle ∧
      s'.conn.rollbackDeadline = 0 ∧ s'.conn.inflight = [] := by
  obtain ⟨s₁, hp, hserves, hin, rfl⟩ := h
  obtain ⟨hw₁, hout⟩ := hp hw
  have hd := hw₁.idle hserves.idle
  exact ⟨.of_idle hw₁.sound hd, ⟨rfl, hd⟩,
    fun ho => Slot.not_out_of_idle hserves.idle (hout.mpr ho), hserves.ready, hserves.status,
    hd, hin⟩

/-- **What `acquire` does.** -/
theorem acquire_spec {env : Nat → SlotEnv} {res : Option Nat}
    (h : p.acquire K cfg env = (res, p')) :
    p'.recycling = p.recycling ∧
      Swept (fun i s s' => if res = some i then s.Taken s' else Passed s s') p.slots p'.slots ∧
      ∀ i, res = some i → i < p'.slots.length := by
  cases h
  refine ⟨rfl, ?_⟩
  refine sweep_rule (I := fun _ l l' => Swept (fun _ => Passed) l l')
    (P := fun res l l' =>
      Swept (fun i (s s' : Slot) => if res = some i then s.Taken s' else Passed s s') l l' ∧
        ∀ i, res = some i → i < l'.length) ?_ ?_ ?_ .nil
  · intro u u' s s' l l' hsw hv
    unfold acquireAt at hv
    split at hv
    · rename_i ha
      cases hv
      exact hsw.concat (Slot.acquirable_spec ha).1
    · cases hv
  · intro u res s s' l l' rest hsw hv
    unfold acquireAt at hv
    split at hv
    · cases hv
    · rename_i s₁ ha
      cases hv
      obtain ⟨hp, hok⟩ := Slot.acquirable_spec ha
      obtain ⟨hi, hready, hstatus, hin⟩ := hok rfl
      have hseen : Swept (fun i (s s' : Slot) =>
          if some l.length = some i then s.Taken s' else Passed s s') l l' :=
        hsw.mono fun i a a' hi hp => by
          rw [if_neg fun he => absurd (Option.some.inj he) (Nat.ne_of_gt hi)]
          exact hp
      refine ⟨hseen.cons_rest ?_ fun i b hi _ => ?_, fun i hi => ?_⟩
      · rw [if_pos rfl]
        exact ⟨s₁, hp, ⟨hi, hready, hstatus⟩, hin, rfl⟩
      · rw [if_neg fun he => absurd (Option.some.inj he) (Nat.ne_of_lt hi)]
        exact .refl b
      · cases hi
        simp [hsw.length]
  · intro u l l' hsw
    refine ⟨hsw.mono fun i a a' _ hp => ?_, fun i hi => (nomatch hi)⟩
    rw [if_neg fun he => nomatch he]
    exact hp

theorem PoolRun.Ok.acquired {r : PoolRun} (h : r.Ok) {env : Nat → SlotEnv} {i : Nat}
    (hr : r.pool.acquire K cfg env = (some i, p')) :
    { r.grant true i p' with held := i :: r.held }.Ok := by
  obtain ⟨hrec, hsw, hlt⟩ := acquire_spec hr
  obtain ⟨s', hs'⟩ : ∃ s', p'.slots[i]? = some s' := ⟨_, List.getElem?_eq_getElem (hlt i rfl)⟩
  obtain ⟨s, hs, ht⟩ := hsw.at_index i s' hs'
  rw [if_pos rfl] at ht
  obtain ⟨hw', -, hout, hready, hstatus, hd, hin⟩ := ht.out (h.wf i s hs)
  obtain ⟨hheld, hrecyc⟩ := not_or.mp ((not_congr (h.out i s hs)).mp hout)
  refine h.swept hsw (fun j t t' hR hw ho => ?_) (List.nodup_cons.mpr ⟨hheld, h.nodup⟩) ?_
    (hrec ▸ h.inRange) (h.clean_concat hrec hheld hrecyc hs' hw' hd hready hstatus fun _ => hin)
  · by_cases hj : i = j
    · subst hj
      rw [if_pos rfl] at hR
      obtain ⟨hwt, hot, -⟩ := hR.out hw
      exact ⟨hwt, iff_of_true hot (.inl List.mem_cons_self)⟩
    · rw [if_neg fun he => hj (Option.some.inj he)] at hR
      refine ⟨(hR hw).1, ((hR hw).2.trans ho).trans ?_⟩
      rw [hrec, List.mem_cons, or_iff_right (Ne.symm hj)]
  · intro j hj
    rw [hrec]
    rcases List.mem_cons.mp hj with rfl | hj
    · exact hrecyc
    · exact h.apart j hj

/-- A request shares a connection: it submits, and flushes. -/
theorem share_passed {s : Slot} (hs : s.idle = true) (subs : List Submission) (recvs : List Recv)
    (sends : List Sent) : Passed s { s with conn := s.conn.share subs recvs sends } := by
  refine .of_idle hs hs ?_ ?_
  · intro hc
    refine (asyncFlush_moves _ _ _).sound ?_
    induction subs generalizing s with
    | nil => exact hc
    | cons sub subs ih => exact ih (s := ⟨_, true⟩) rfl ((sub.on_submitted s.conn).sound hc)
  · intro hr
    refine (asyncFlush_moves _ _ _).rollback.trans ?_
    induction subs generalizing s with
    | nil => exact hr
    | cons sub subs ih =>
        exact ih (s := ⟨_, true⟩) rfl ((sub.on_submitted s.conn).rollback.trans hr)

theorem PoolRun.Ok.shared {r : PoolRun} (h : r.Ok) {i : Nat} {s : Slot}
    (hrec : p'.recycling = r.pool.recycling)
    (hsw : Swept (fun _ => Passed) r.pool.slots p'.slots) (hs : p'.slots[i]? = some s)
    (hserves : s.Serves) (subs : List Submission) (recvs : List Recv) (sends : List Sent) :
    { r.grant false i p' with pool := p'.onConn i (share subs recvs sends) }.Ok := by
  have hok := h.passed hrec hsw
  obtain ⟨hheld, hrecyc⟩ := hok.free hs hserves.idle
  have hw := hok.wf i s hs
  have hclean := h.clean_concat (e := false) hrec hheld (hrec ▸ hrecyc) hs hw
    (hw.idle hserves.idle) hserves.ready hserves.status fun hx => (Bool.false_ne_true hx).elim
  have hgrant : (r.grant false i p').Ok :=
    ⟨hok.wf, hok.out, hok.nodup, hok.apart, hok.inRange, hclean⟩
  refine hgrant.onConn i _ fun t ht => ?_
  cases hs.symm.trans ht
  exact share_passed hserves.idle subs recvs sends

/-! ### Releasing -/

/-- A slot that leaves its borrower. -/
structure Released (p : PgPool) (i : Nat) (p' : PgPool) (s' : Slot) : Prop where
  slots : p'.slots = p.slots.set i s'
  wf : s'.Wf
  recycling : p'.recycling = p.recycling ∧ ¬ s'.Out ∨
    p.recycling = none ∧ p'.recycling = some i ∧ s'.Out

/-- **What `release` does** to a slot that is out of the pool's hands. -/
theorem release_spec {i : Nat} {s : Slot} (env : RollbackEnv) (hs : p.slots[i]? = some s)
    (hw : s.Wf) (ho : s.Out) : ∃ s', Released p i (p.release i env) s' := by
  simp only [PgPool.release, hs]
  split
  · rename_i hc
    obtain ⟨hw', hout⟩ := Slot.startRollback_spec env hc.1 hw.sound ho.2
    exact ⟨_, rfl, hw', .inl ⟨rfl, hout⟩⟩
  -- what is left of a borrower's queries is dropped
  obtain ⟨hw₁, ho₁⟩ : s.retire.Wf ∧ s.retire.Out := by
    unfold Slot.retire
    split
    · have hm := (lose_moves s.conn "released with a query in flight").sound hw.sound
      exact ⟨.of_idle ⟨⟨fun hd => ⟨rfl, (hm.settled.dialing hd).2⟩, hm.settled.dials⟩,
        hm.reports⟩ rfl, ho.1, rfl⟩
    · exact ⟨hw, ho⟩
  split
  · rename_i hc
    exact ⟨_, rfl, hw₁, .inr ⟨hc.2, rfl, ho₁⟩⟩
  · exact ⟨_, rfl, .of_idle hw₁.sound ho₁.2, .inl ⟨rfl, Slot.not_out_of_idle rfl⟩⟩

theorem PoolRun.Ok.released {r : PoolRun} (h : r.Ok) {i : Nat} (hi : i ∈ r.held)
    (env : RollbackEnv) :
    { r with pool := r.pool.release i env, held := r.held.erase i }.Ok := by
  have herase : ∀ j, j ∈ r.held.erase i ↔ j ≠ i ∧ j ∈ r.held := fun j => h.nodup.mem_erase_iff
  cases hs : r.pool.slots[i]? with
  | none =>
      have hp : r.pool.release i env = r.pool := by simp only [PgPool.release, hs]
      rw [hp]
      refine ⟨h.wf, fun j s hj => (h.out j s hj).trans ?_, h.nodup.erase i, fun j hj => ?_,
        h.inRange, h.grants⟩
      · have hne : j ≠ i := fun he => by
          rw [he, hs] at hj
          cases hj
        rw [herase, and_iff_right hne]
      · exact h.apart j ((herase j).mp hj).2
  | some s =>
      have ho := (h.out i s hs).mpr (.inl hi)
      obtain ⟨s', hslots, hw', hrec⟩ := release_spec env hs (h.wf i s hs) ho
      generalize r.pool.release i env = p' at hslots hrec
      have hsw : Swept (fun j t t' => if i = j then t' = s' else t' = t) r.pool.slots p'.slots := by
        rw [hslots]
        exact .set hs (by rw [if_pos rfl]) fun j b hj => by rw [if_neg (Ne.symm hj)]
      refine h.swept hsw (fun j t t' hR hw hout => ?_) (h.nodup.erase i) ?_ (fun j hj => ?_)
        h.grants
      · by_cases hj : i = j
        · subst hj
          rw [if_pos rfl] at hR
          subst hR
          refine ⟨hw', ?_⟩
          rcases hrec with ⟨he, hno⟩ | ⟨-, he, hyes⟩
          · refine iff_of_false hno ?_
            rw [he, herase]
            rintro (⟨hne, -⟩ | hr)
            · exact hne rfl
            · exact h.apart i hi hr
          · exact iff_of_true hyes (.inr he)
        · rw [if_neg hj] at hR
          subst hR
          refine ⟨hw, hout.trans ?_⟩
          rw [herase, and_iff_right (Ne.symm hj)]
          rcases hrec with ⟨he, -⟩ | ⟨hnone, he, -⟩
          · rw [he]
          · rw [he, hnone]
            simp [hj]
      · intro j hj
        obtain ⟨hne, hj⟩ := (herase j).mp hj
        rcases hrec with ⟨he, -⟩ | ⟨-, he, -⟩
        · rw [he]
          exact h.apart j hj
        · rw [he]
          exact fun heq => hne (Option.some.inj heq).symm
      · rcases hrec with ⟨he, -⟩ | ⟨-, he, -⟩
        · exact h.inRange j (he ▸ hj)
        · rw [he] at hj
          exact Option.some.inj hj ▸ (List.getElem?_eq_some_iff.mp hs).1

/-! ### Maintenance -/

/-- A slot that `maintain` comes to, `rec` being the slot recycled before and `rec'` after. -/
def Slot.Maintained (rec rec' : Option Nat) (i : Nat) (s s' : Slot) : Prop :=
  s.Wf → s'.Wf ∧ (s'.Out ↔ s.Out ∨ rec = none ∧ rec' = some i) ∧
    (rec = none → rec' = some i → ¬ s.Out)

theorem Slot.Passed.maintained {rec rec' : Option Nat} {i : Nat} {s s' : Slot} (h : Passed s s')
    (hrec : ¬ (rec = none ∧ rec' = some i)) : s.Maintained rec rec' i s' := fun hw =>
  ⟨(h hw).1, (h hw).2.trans (or_iff_left hrec).symm, fun h₁ h₂ => absurd ⟨h₁, h₂⟩ hrec⟩

/-- What a pass of the loop of `maintain` does. -/
theorem maintainAt_spec {now : Nat} {env : Nat → SlotEnv} {i : Nat} {t : Option Nat × Nat}
    {s s' : Slot} {turn : Scan.Turn (Option Nat × Nat) (Option Nat × Nat)}
    (h : maintainAt K cfg now env i t s = (turn, s')) :
    ∃ next, turn = .next (t.1, next) ∧ Passed s s' ∨
      turn = .next (some i, next) ∧ t.1 = none ∧ s.idle = true ∧
        (s.Wf → s' = { s with idle := false }) := by
  unfold maintainAt at h
  split at h
  · rename_i hdue
    split at h
    · rename_i hnone
      cases h
      exact ⟨_, .inr ⟨rfl, hnone, hdue.1, fun hw => Slot.maintainSlot_due hdue.1 hw rfl⟩⟩
    · cases h
      exact ⟨_, .inl ⟨rfl, Slot.maintainSlot_spec rfl⟩⟩
  · cases h
    exact ⟨_, .inl ⟨rfl, Slot.maintainSlot_spec rfl⟩⟩

/-- The loop of `maintain`. -/
theorem maintain_swept {now : Nat} {env : Nat → SlotEnv} {rec : Option Nat} {next : Nat}
    {l l' : List Slot} {res : Option Nat × Nat}
    (h : Scan.sweep (maintainAt K cfg now env) id 0 (rec, next) l = (res, l')) :
    Swept (Slot.Maintained rec res.1) l l' ∧
      (res.1 = rec ∨ rec = none ∧ ∃ k < l'.length, res.1 = some k) := by
  have hres := congrArg Prod.fst h
  have hl' := congrArg Prod.snd h
  subst hres hl'
  refine sweep_rule
    (I := fun (t : Option Nat × Nat) l l' => Swept (Slot.Maintained rec t.1) l l' ∧
      (t.1 = rec ∨ rec = none ∧ ∃ k < l'.length, t.1 = some k))
    (P := fun (t : Option Nat × Nat) l l' => Swept (Slot.Maintained rec t.1) l l' ∧
      (t.1 = rec ∨ rec = none ∧ ∃ k < l'.length, t.1 = some k)) ?_ ?_ ?_ ⟨.nil, .inl rfl⟩
  · rintro t t' s s' l l' ⟨hsw, hrec⟩ hv
    obtain ⟨next, ⟨ht, hp⟩ | ⟨ht, hnone, hi, hs'⟩⟩ := maintainAt_spec hv
    · cases ht
      refine ⟨hsw.concat (hp.maintained ?_), hrec.imp_right ?_⟩
      · rintro ⟨hrn, hk⟩
        rcases hrec with he | ⟨-, k, hlt, he⟩
        · rw [hk, hrn] at he
          cases he
        · rw [hk] at he
          cases he
          exact absurd hlt (by rw [hsw.length]; exact Nat.lt_irrefl _)
      · rintro ⟨hrn, k, hlt, he⟩
        exact ⟨hrn, k, by rw [List.length_append]; omega, he⟩
    · cases ht
      have hrn : rec = none := by
        rcases hrec with he | ⟨hrn, -⟩
        · exact he.symm.trans hnone
        · exact hrn
      refine ⟨Swept.concat (hsw.mono fun j a a' hj hm hw => ?_) fun hw => ?_,
        .inr ⟨hrn, l.length, by simp [hsw.length], rfl⟩⟩
      · obtain ⟨hw', hout, -⟩ := hm hw
        rw [hnone] at hout
        have hne : ¬ some l.length = some j := fun he =>
          absurd (Option.some.inj he) (Nat.ne_of_gt hj)
        refine ⟨hw', ?_, fun _ he => absurd he hne⟩
        rw [hout]
        simp [hne]
      · have hd := hw.idle hi
        rw [hs' hw]
        have hno := Slot.not_out_of_idle hi
        exact ⟨.of_idle hw.sound hd, iff_of_true ⟨rfl, hd⟩ (.inr ⟨hrn, rfl⟩), fun _ _ => hno⟩
  · rintro t res s s' l l' rest - hv
    obtain ⟨next, ⟨ht, -⟩ | ⟨ht, -⟩⟩ := maintainAt_spec hv <;> cases ht
  · intro t l l' h
    exact h

/-- The pool behind the loop of `maintain`. -/
theorem PoolRun.Ok.maintained {r : PoolRun} (h : r.Ok) {rec : Option Nat} {slots : List Slot}
    (now : Nat) (hsw : Swept (Slot.Maintained r.pool.recycling rec) r.pool.slots slots)
    (hrec : rec = r.pool.recycling ∨
      r.pool.recycling = none ∧ ∃ k < slots.length, rec = some k) :
    { r with pool := ⟨slots, now, rec⟩ }.Ok := by
  have hcases : ∀ i, (i ∈ r.held ∨ r.pool.recycling = some i) ∨
      r.pool.recycling = none ∧ rec = some i ↔ i ∈ r.held ∨ rec = some i := by
    intro i
    rcases hrec with he | ⟨hn, k, -, he⟩
    · rw [he]
      refine or_iff_left fun hc => ?_
      rw [hc.1] at hc
      cases hc.2
    · rw [he, hn]
      simp
  refine h.swept hsw (fun i s s' hR hw ho => ?_) h.nodup (fun i hi hri => ?_) (fun i hi => ?_)
    h.grants
  · obtain ⟨hw', hout, -⟩ := hR hw
    refine ⟨hw', hout.trans ?_⟩
    rw [ho]
    exact hcases i
  · rcases hrec with he | ⟨hn, k, hlt, he⟩
    · exact h.apart i hi (he ▸ hri)
    · have hk : k = i := Option.some.inj (he.symm.trans hri)
      subst hk
      obtain ⟨s, hs, hR⟩ := hsw.at_index k _ (List.getElem?_eq_getElem hlt)
      exact (hR (h.wf k s hs)).2.2 hn he ((h.out k s hs).mpr (.inl hi))
  · rcases hrec with he | ⟨-, k, hlt, he⟩
    · exact h.inRange i (he ▸ hi)
    · rw [← hsw.length, ← Option.some.inj (he.symm.trans hi)]
      exact hlt

/-- A step of a recycle. -/
theorem PoolRun.Ok.recycled {r : PoolRun} (h : r.Ok) {i : Nat} {s : Slot} {now wait : Nat}
    {back : Bool} {c : PgConn} {env : RedialEnv} (hrec : r.pool.recycling = some i)
    (hs : r.pool.slots[i]? = some s)
    (hstep : recycleStep K cfg now s.conn env = (wait, back, c)) :
    { r with
      pool := ⟨r.pool.slots.set i ⟨c, if back then true else s.idle⟩, r.pool.clock,
        if back then none else some i⟩ }.Ok := by
  have ho := (h.out i s hs).mpr (.inr hrec)
  obtain ⟨hsound, hd⟩ := Slot.recycleStep_spec hstep (h.wf i s hs).sound ho.2
  have hsw : Swept (fun j t t' => if i = j then t' = ⟨c, if back then true else s.idle⟩ else t' = t)
      r.pool.slots (r.pool.slots.set i ⟨c, if back then true else s.idle⟩) :=
    .set hs (by rw [if_pos rfl]) fun j b hj => by rw [if_neg (Ne.symm hj)]
  refine h.swept (p := ⟨_, _, _⟩) hsw (fun j t t' hR hw hout => ?_) h.nodup (fun j hj => ?_)
    (fun j hj => ?_) h.grants
  · by_cases hj : i = j
    · subst hj
      rw [if_pos rfl] at hR
      subst hR
      refine ⟨.of_idle hsound hd, ?_⟩
      have hheld : i ∉ r.held := fun hm => h.apart i hm hrec
      cases back with
      | true => exact iff_of_false (Slot.not_out_of_idle rfl) (by simp [hheld])
      | false => exact iff_of_true ⟨ho.1, hd⟩ (.inr rfl)
    · rw [if_neg hj] at hR
      subst hR
      refine ⟨hw, hout.trans ?_⟩
      rw [hrec]
      cases back <;> simp [hj]
  · have hne := h.apart j hj
    rw [hrec] at hne
    cases back with
    | true => exact fun he => nomatch he
    | false => exact hne
  · cases back with
    | true => cases hj
    | false =>
        cases hj
        exact (List.getElem?_eq_some_iff.mp hs).1

/-- **What `maintain` does.** -/
theorem PoolRun.Ok.ticked {r : PoolRun} (h : r.Ok) (now : Nat) (env : Nat → SlotEnv)
    (recycle : RedialEnv) : { r with pool := (r.pool.maintain K cfg now env recycle).2 }.Ok := by
  unfold PgPool.maintain
  generalize hsweep : Scan.sweep (maintainAt K cfg now env) id 0
    (r.pool.recycling, maintenanceIdleMs) r.pool.slots = t
  obtain ⟨⟨rec, next⟩, slots⟩ := t
  obtain ⟨hsw, hrec⟩ := maintain_swept hsweep
  have hok : { r with pool := ⟨slots, now, rec⟩ }.Ok := h.maintained now hsw hrec
  dsimp only
  split
  · exact hok
  · split
    · exact hok
    · rename_i s hs
      exact hok.recycled rfl hs rfl

/-! ### Runs -/

/-- A call on a connection that is not rolling back. -/
theorem moves_passed {r : PoolRun} {i : Nat} {s : Slot} {c : PgConn}
    (hs : r.pool.slots[i]? = some s) (hroll : ¬ r.rolling i = true) (hm : s.conn.Moves c) :
    Passed s { s with conn := c } := by
  have hd : s.conn.rollbackDeadline = 0 := by
    simpa [PoolRun.rolling, hs] using hroll
  intro hw
  have hd' := hm.rollback.trans hd
  refine ⟨.of_idle (hm.sound hw.sound) hd', ?_⟩
  simp only [Out, hd, hd']

theorem PoolRun.Ok.step {r : PoolRun} (h : r.Ok) (e : PoolEvent) : (r.step K cfg e).Ok := by
  unfold PoolRun.step
  cases e with
  | acquire env =>
      dsimp only
      split
      · rename_i p' hr
        obtain ⟨hrec, hsw, -⟩ := acquire_spec hr
        refine h.passed hrec (hsw.mono fun i s s' _ hR => ?_)
        rwa [if_neg fun he => nomatch he] at hR
      · rename_i i p' hr
        exact h.acquired hr
  | release i env =>
      dsimp only
      split
      · rename_i hi
        exact h.released hi env
      · exact h
  | acquirePipelined env subs recvs sends =>
      dsimp only
      split
      · rename_i p' hr
        obtain ⟨hrec, hsw, -⟩ := acquirePipelined_spec hr
        exact h.passed hrec hsw
      · rename_i i p' hr
        obtain ⟨hrec, hsw, hres⟩ := acquirePipelined_spec hr
        obtain ⟨s, hs, hserves⟩ := hres i rfl
        exact h.shared hrec hsw hs hserves subs recvs sends
  | acquirePipelinedFor n env subs recvs sends =>
      dsimp only
      split
      · rename_i p' hr
        obtain ⟨hrec, hf⟩ := acquirePipelinedFor_spec hr
        exact h.passed hrec hf.swept
      · rename_i i p' hr
        obtain ⟨hrec, hf⟩ := acquirePipelinedFor_spec hr
        obtain ⟨s, hs, he, -⟩ := hf.ok i rfl
        exact h.shared hrec hf.swept hs he.toServes subs recvs sends
  | submit i sub =>
      dsimp only
      split
      · rename_i hi
        refine h.onConn i _ fun s hs hw => ?_
        have ho := (h.out i s hs).mpr (.inl hi)
        have hsub := sub.on_submitted s.conn
        have hd := hsub.rollback.trans ho.2
        exact ⟨.of_idle (hsub.sound hw.sound) hd, iff_of_true ⟨ho.1, hd⟩ ho⟩
      · exact h
  | flush i recvs sends =>
      dsimp only
      split
      · exact h
      · rename_i hroll
        exact h.onConn i _ fun s hs => moves_passed hs hroll (s.conn.asyncFlush_moves recvs sends)
  | readable i recvs =>
      dsimp only
      split
      · exact h
      · rename_i hroll
        exact h.onConn i _ fun s hs => moves_passed hs hroll (s.conn.asyncOnReadable_moves recvs)
  | maintain now env recycle => exact h.ticked now env recycle

/-- A connection that `connect` has brought up: its session reports idle. -/
structure PgConn.Fresh (c : PgConn) : Prop where
  ready : c.state = .ready
  inflight : c.inflight = []
  rollback : c.rollbackDeadline = 0
  status : c.readyStatus = txIdle
  idle : ¬ c.InTransaction
  dials : c.dials = []

theorem PgConn.Fresh.told {c : PgConn} (h : c.Fresh) : c.Told := by
  unfold Told
  split
  · exact h.status
  · rename_i payload hp
    intro b hb
    by_contra hne
    exact h.idle ⟨payload, b, hp, hb, fun he => hne (h.status.trans he.symm)⟩

/-- `PgPool.connect`, once its connections are up. -/
def PgPool.connected (conns : List PgConn) : PgPool := { slots := conns.map (⟨·, true⟩) }

theorem PoolRun.ok_connected {conns : List PgConn} (h : ∀ c ∈ conns, c.Fresh) :
    (PoolRun.mk (.connected conns) [] []).Ok := by
  have hslot : ∀ (i : Nat) (s : Slot), (PgPool.connected conns).slots[i]? = some s →
      s.idle = true ∧ s.conn.Fresh := by
    intro i s hs
    obtain ⟨c, hc, rfl⟩ := List.mem_map.mp (List.mem_of_getElem? hs)
    exact ⟨rfl, h c hc⟩
  refine ⟨fun i s hs => ?_, fun i s hs => ?_, List.nodup_nil, by simp,
    fun i hi => (nomatch hi), by simp⟩
  · obtain ⟨-, hf⟩ := hslot i s hs
    exact .of_idle ⟨⟨fun hd => absurd hf.ready hd.1, by simp [hf.dials]⟩, fun _ => hf.told⟩
      hf.rollback
  · exact iff_of_false (Slot.not_out_of_idle (hslot i s hs).1) (by simp [PgPool.connected])

/-- **The invariant holds along every run.** -/
theorem PoolRun.run_ok {conns : List PgConn} (h : ∀ c ∈ conns, c.Fresh) (es : List PoolEvent) :
    (PoolRun.run K cfg (.connected conns) es).Ok := by
  -- on the events, from the last one back
  induction es using List.reverseRecOn with
  | nil => exact PoolRun.ok_connected h
  | append_singleton es e ih =>
      rw [PoolRun.run, List.foldl_append]
      exact ih.step e

end

/-- **Isolation.**  Over every run in which new sessions report idle, no index is held by two
borrowers at once, and what is handed out is live, not in a transaction, not rolling back, not being
recycled and nobody else's; `acquire` hands out only connections with nothing in flight. -/
theorem pool_isolation (K : Crypto) (cfg : ConnConfig) (conns : List PgConn)
    (h : ∀ c ∈ conns, c.Fresh) (es : List PoolEvent)
    (hidle : (PoolRun.run K cfg (.connected conns) es).SessionsIdle) :
    (PoolRun.run K cfg (.connected conns) es).held.Nodup ∧
      ∀ g ∈ (PoolRun.run K cfg (.connected conns) es).grants, g.Clean :=
  ⟨(PoolRun.run_ok h es).nodup, fun g hg => (PoolRun.run_ok h es).grants g hg (hidle g hg)⟩

/-- A connection with a small send buffer, just brought up. -/
def upConn : PgConn := { send := .fresh 128 (by decide), lastReady := some [txIdle] }

theorem upConn_fresh : upConn.Fresh :=
  ⟨rfl, rfl, rfl, rfl, fun ⟨_, _, hp, hb, hne⟩ => by cases hp; cases hb; exact hne rfl, rfl⟩

/-- A ReadyForQuery, which is also how a server without authentication ends a bring-up. -/
def readyWith (status : UInt8) : List Recv := [.data 90 [0, 0, 0, 5, status]]

/-- A pass that finds the ROLLBACK answered, and a server that takes a new connection. -/
def answeredEnv : SlotEnv where
  finish := ⟨[], [], readyWith txIdle, 10⟩
  start := ⟨[], [], [], 10⟩
  probe := .nothing
  redial := ⟨10, 10, 10, 0, some (ascii "secret"), some (ascii "nonce"), some 7, none, none, false,
    none, some true, readyWith txIdle, none, []⟩

/-- A borrower of the first connection begins a transaction and releases it so; a request shares the
second connection, which is lost. -/
def twoBorrow : List PoolEvent :=
  [.acquire fun _ => quietEnv, .submit 0 (.submit ⟨ascii "begin", []⟩), .readable 0 (readyWith 84),
    .acquirePipelinedFor 54 (fun _ => quietEnv) [.submit ⟨ascii "select 1", []⟩] [] [],
    .release 0 ⟨[], [], [], 1⟩, .acquire fun _ => quietEnv, .readable 1 [.eof]]

/-- A tick finishes the ROLLBACK and re-dials the second connection; then both are handed out. -/
def tickAndBorrow : List PoolEvent :=
  [.maintain 10 (fun _ => answeredEnv) answeredEnv.redial, .acquire fun _ => quietEnv,
    .acquirePipelined (fun _ => quietEnv) [.submit ⟨ascii "select 1", []⟩] [] []]

def twoRun (es : List PoolEvent) : PoolRun :=
  PoolRun.run plainCrypto saslConfig (.connected [upConn, upConn]) es

theorem twoConns_fresh : ∀ c ∈ [upConn, upConn], c.Fresh := by
  simp [upConn_fresh]

theorem pool_isolation_two :
    (twoRun (twoBorrow ++ tickAndBorrow)).grants.map (fun g => (g.exclusive, g.index)) =
        [(true, 0), (false, 1), (true, 0), (false, 1)] ∧
      (twoRun (twoBorrow ++ tickAndBorrow)).held.Nodup ∧
      ∀ g ∈ (twoRun (twoBorrow ++ tickAndBorrow)).grants, g.Clean := by
  refine ⟨by decide +kernel, pool_isolation plainCrypto saslConfig _ twoConns_fresh _ ?_⟩
  have hheard : ∀ hs ∈ (twoRun (twoBorrow ++ tickAndBorrow)).grants.filterMap
      (fun g => g.slot.map (·.conn.heard)), ∀ x ∈ hs, x.msg.payload = [txIdle] := by
    decide +kernel
  intro g hg s hs x hx _ b hb
  rw [hheard _ (List.mem_filterMap.mpr ⟨g, hg, by rw [hs]; rfl⟩) x hx] at hb
  exact (Option.some.inj hb).symm

/-- **No slot is leaked.**  Over every run, a slot that is not idle is held, rolling back or being
recycled, and only one of these; one that rolls back has its ROLLBACK in flight and nothing else;
and no re-dial closes a socket with queries in flight. -/
theorem no_slot_leaked (K : Crypto) (cfg : ConnConfig) (conns : List PgConn)
    (h : ∀ c ∈ conns, c.Fresh) (es : List PoolEvent) (i : Nat) (s : Slot)
    (hs : (PoolRun.run K cfg (.connected conns) es).pool.slots[i]? = some s) :
    (s.idle = false → i ∈ (PoolRun.run K cfg (.connected conns) es).held ∨
      s.conn.rollbackDeadline ≠ 0 ∨
      (PoolRun.run K cfg (.connected conns) es).pool.recycling = some i) ∧
    (i ∈ (PoolRun.run K cfg (.connected conns) es).held →
      s.idle = false ∧ s.conn.rollbackDeadline = 0 ∧
        (PoolRun.run K cfg (.connected conns) es).pool.recycling ≠ some i) ∧
    (s.conn.rollbackDeadline ≠ 0 → s.idle = false ∧ s.conn.inflight.length = 1) ∧
    ((PoolRun.run K cfg (.connected conns) es).pool.recycling = some i →
      s.idle = false ∧ s.conn.rollbackDeadline = 0) ∧
    ∀ n ∈ s.conn.dials, n = 0 := by
  have hok : (PoolRun.run K cfg (.connected conns) es).Ok := PoolRun.run_ok h es
  have hw := hok.wf i s hs
  have hout := hok.out i s hs
  refine ⟨fun hi => ?_, fun hi => ?_, fun hd => ⟨?_, hw.rolling hd⟩, fun hr => hout.mpr (.inr hr),
    hw.sound.settled.dials⟩
  · by_cases hd : s.conn.rollbackDeadline = 0
    · exact (hout.mp ⟨hi, hd⟩).imp_right .inr
    · exact .inr (.inl hd)
  · obtain ⟨hidle, hd⟩ := hout.mpr (.inl hi)
    exact ⟨hidle, hd, hok.apart i hi⟩
  · exact Bool.eq_false_iff.mpr fun hi => hd (hw.idle hi)

/-- After the release the first slot rolls back; after the tick it is idle, and the re-dial of the
second one found nothing in flight. -/
theorem no_slot_leaked_two :
    (∃ s, (twoRun twoBorrow).pool.slots[0]? = some s ∧ s.idle = false ∧
      0 ∉ (twoRun twoBorrow).held ∧ s.conn.rollbackDeadline ≠ 0 ∧ s.conn.inflight.length = 1) ∧
    ∃ s, (twoRun (twoBorrow ++ tickAndBorrow)).pool.slots[1]? = some s ∧
      s.conn.dials = [0] ∧ ∀ n ∈ s.conn.dials, n = 0 := by
  constructor
  · obtain ⟨s, hs⟩ : ∃ s, (twoRun twoBorrow).pool.slots[0]? = some s :=
      Option.isSome_iff_exists.mp (by decide +kernel)
    have hd : (twoRun twoBorrow).pool.slots[0]?.all (·.conn.rollbackDeadline ≠ 0) = true := by
      decide +kernel
    rw [hs] at hd
    have hd : s.conn.rollbackDeadline ≠ 0 := by simpa using hd
    have h := no_slot_leaked plainCrypto saslConfig _ twoConns_fresh twoBorrow 0 s
    rw [← twoRun] at h
    replace h := h hs
    exact ⟨s, hs, (h.2.2.1 hd).1, fun hi => hd (h.2.1 hi).2.1, hd, (h.2.2.1 hd).2⟩
  · obtain ⟨s, hs⟩ : ∃ s, (twoRun (twoBorrow ++ tickAndBorrow)).pool.slots[1]? = some s :=
      Option.isSome_iff_exists.mp (by decide +kernel)
    have hd : (twoRun (twoBorrow ++ tickAndBorrow)).pool.slots[1]?.map (·.conn.dials) =
        some [0] := by
      decide +kernel
    rw [hs] at hd
    have h := no_slot_leaked plainCrypto saslConfig _ twoConns_fresh
      (twoBorrow ++ tickAndBorrow) 1 s
    rw [← twoRun] at h
    exact ⟨s, hs, Option.some.inj hd, (h hs).2.2.2.2⟩

end Vanilla.PgAsync

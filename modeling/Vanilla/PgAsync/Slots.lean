import Vanilla.PgAsync.Pool

/-!
# PostgreSQL — a slot of a pool

What a pass over the pool does to one slot.  A slot is idle, or its ROLLBACK is outstanding, or it
is out of the pool's hands (`Slot.Out`); a pass takes it from the second to the first, and from the
first to the second (`maintain`), and never into or out of the third.

* `Slot.Wf`: what holds of a slot in every state.
* `finishRollback_spec`, `free_spec`, `pipelinable_spec`, `acquirable_spec`, `maintainSlot_spec`: a
  pass.
-/

namespace Vanilla.PgAsync
open PgConn

/-! ### A call on a connection -/

namespace PgConn

/-- What a call that submits nothing leaves of a connection. -/
structure Moves (c c' : PgConn) : Prop where
  link : Keeps c c'
  empty : c.inflight = [] → c'.inflight = [] ∧ c'.readyStatus = c.readyStatus
  told : c.Told → c'.Told
  heard : c'.heard = c.heard
  rollback : c'.rollbackDeadline = c.rollbackDeadline
  dials : c'.dials = c.dials

namespace Moves

variable {c c' c'' : PgConn}

theorem refl (c : PgConn) : Moves c c := ⟨.refl c, fun h => ⟨h, rfl⟩, id, rfl, rfl, rfl⟩

theorem trans (h : Moves c c') (h' : Moves c' c'') : Moves c c'' where
  link := h.link.trans h'.link
  empty hin := ⟨(h'.empty (h.empty hin).1).1, (h'.empty (h.empty hin).1).2.trans (h.empty hin).2⟩
  told ht := h'.told (h.told ht)
  heard := h'.heard.trans h.heard
  rollback := h'.rollback.trans h.rollback
  dials := h'.dials.trans h.dials

theorem settled (h : Moves c c') (hc : c.Settled) : c'.Settled where
  dialing hd := by
    rcases h.link with hs | ⟨-, hb⟩
    · obtain ⟨hin, hst⟩ := hc.dialing (by rwa [Dialing, ← hs])
      exact ⟨(h.empty hin).1, (h.empty hin).2.trans hst⟩
    · exact absurd hb hd.2
  dials := by
    rw [h.dials]
    exact hc.dials

theorem reports (h : Moves c c') (hc : c.Reports) : c'.Reports := fun hg =>
  h.told (hc (by rwa [GreetedIdle, ← h.heard]))

end Moves

/-- What holds of every connection of a pool. -/
structure Sound (c : PgConn) : Prop where
  settled : c.Settled
  reports : c.Reports

theorem Moves.sound {c c' : PgConn} (h : Moves c c') (hc : c.Sound) : c'.Sound :=
  ⟨h.settled hc.settled, h.reports hc.reports⟩

theorem Redialed.sound {c c' : PgConn} {b : Bool} (h : Redialed c b c') (hc : c.Sound) : c'.Sound :=
  ⟨h.settled hc.settled, h.reports hc.settled hc.reports⟩

theorem lose_moves (c : PgConn) (reason : String) : Moves c (c.lose reason) := by
  refine ⟨c.keeps_lose reason, ?_, ?_, ?_, ?_, ?_⟩ <;> unfold lose <;> split
  · exact fun h => ⟨h, rfl⟩
  · exact fun h => ⟨h, rfl⟩
  · exact id
  · exact id
  all_goals rfl

theorem Filled.moves {c c' : PgConn} {script : List Recv} (h : Filled c script c') :
    Moves c c' where
  link := h.link
  empty hin := ⟨(congrArg inflight h.same :).trans hin, (congrArg readyStatus h.same :)⟩
  told ht :=
    ht.congr (congrArg lastReady h.same :) (congrArg readyStatus h.same :)
  heard := (congrArg PgConn.heard h.same :)
  rollback := (congrArg rollbackDeadline h.same :)
  dials := (congrArg dials h.same :)

theorem asyncFlush_moves (c : PgConn) (recvs : List Recv) (sends : List Sent) :
    Moves c (c.asyncFlush recvs sends).2.1 := by
  have h := c.asyncFlush_spec recvs sends
  exact ⟨h.link,
    fun hin => ⟨(congrArg inflight h.same :).trans hin, (congrArg readyStatus h.same :)⟩,
    fun ht => ht.congr (congrArg lastReady h.same :) (congrArg readyStatus h.same :),
    (congrArg heard h.same :), (congrArg rollbackDeadline h.same :), (congrArg dials h.same :)⟩

theorem asyncFlush_inflight (c : PgConn) (recvs : List Recv) (sends : List Sent) :
    (c.asyncFlush recvs sends).2.1.inflight = c.inflight :=
  (congrArg inflight (c.asyncFlush_spec recvs sends).same :)

theorem Took.moves {c c₁ c' : PgConn} {script : List Recv} {q q' : PendingQuery}
    {qs : List PendingQuery} {ms : List Msg} (hf : Filled c script c₁)
    (hq : c.inflight = q :: qs) (ht : Took c₁ q qs ms q' c') : Moves c c' where
  link := hf.link.trans ht.link
  empty hin := by
    rw [hq] at hin
    cases hin
  told h := ht.told (hf.moves.told h)
  heard := (congrArg PgConn.heard ht.same :).trans hf.moves.heard
  rollback := (congrArg rollbackDeadline ht.same :).trans hf.moves.rollback
  dials := (congrArg dials ht.same :).trans hf.moves.dials

theorem Answers.moves {c : PgConn} {script : List Recv} {r : Call × PgConn}
    (h : Answers c script r) : Moves c r.2 := by
  cases h with
  | idle hf _ _ | gone hf _ _ => exact hf.moves
  | waiting hf hq _ ht _ => exact ht.moves hf hq
  | ready hf hq _ ht | fails hf hq _ ht _ =>
      have hm := ht.moves hf hq
      refine ⟨hm.link, fun hin => ?_, hm.told, hm.heard, hm.rollback, hm.dials⟩
      rw [hq] at hin
      cases hin

theorem asyncOnReadable_moves (c : PgConn) (script : List Recv) :
    Moves c (c.asyncOnReadable script).2 :=
  (c.asyncOnReadable_spec script).moves

/-- A call that is not ready leaves as many queries in flight. -/
theorem asyncOnReadable_inflight {c : PgConn} {script : List Recv}
    (h : (c.asyncOnReadable script).1.poll = .ok none) :
    (c.asyncOnReadable script).2.inflight.length = c.inflight.length := by
  have ha := c.asyncOnReadable_spec script
  generalize c.asyncOnReadable script = r at h ha
  cases ha with
  | idle hf _ _ => exact congrArg List.length (congrArg inflight hf.same :)
  | waiting hf hq _ ht _ => rw [ht.inflight, hq, List.length_cons, List.length_cons]
  | gone _ _ _ | fails _ _ _ _ _ => cases h
  | ready _ _ _ _ =>
      simp only [Call.poll] at h
      split at h <;> cases h

end PgConn

/-- What a submission leaves of a connection. -/
structure Submitted (c : PgConn) (r : Bool × PgConn) : Prop where
  sound : c.Sound → r.2.Sound
  rollback : r.2.rollbackDeadline = c.rollbackDeadline
  length : r.2.inflight.length = c.inflight.length + r.1.toNat

theorem Submission.on_submitted (c : PgConn) (sub : Submission) : Submitted c (sub.on c) := by
  have ho := sub.on_cases c
  generalize sub.on c = r at ho
  cases ho with
  | refused => exact ⟨id, rfl, rfl⟩
  | accepted ht =>
      obtain ⟨s, hs, -, -⟩ := appendSend_spec ht.room
      have hq : c.queued (frameOf sub.stmts) = { c with send := s }.pushInflight := by
        simp only [queued, hs]
      rw [hq]
      exact ⟨fun hc => ⟨⟨fun hd => absurd ht.ready hd.1, hc.settled.dials⟩, hc.reports⟩, rfl,
        by simp [pushInflight]⟩

/-! ### Slots -/

namespace Slot

/-- Neither idle nor rolling back: a borrower has it, or it is being recycled. -/
def Out (s : Slot) : Prop := s.idle = false ∧ s.conn.rollbackDeadline = 0

/-- What holds of every slot. -/
structure Wf (s : Slot) : Prop where
  sound : s.conn.Sound
  idle : s.idle = true → s.conn.rollbackDeadline = 0
  rolling : s.conn.rollbackDeadline ≠ 0 → s.conn.inflight.length = 1

/-- A slot the pool passes over. -/
def Passed (s s' : Slot) : Prop := s.Wf → s'.Wf ∧ (s'.Out ↔ s.Out)

theorem not_out_of_idle {s : Slot} (h : s.idle = true) : ¬ s.Out := fun ho => by
  rw [ho.1] at h
  cases h

theorem Passed.refl (s : Slot) : Passed s s := fun h => ⟨h, .rfl⟩

theorem Passed.trans {s s' s'' : Slot} (h : Passed s s') (h' : Passed s' s'') : Passed s s'' :=
  fun hw => ⟨(h' (h hw).1).1, (h' (h hw).1).2.trans (h hw).2⟩

/-- A connection with nothing outstanding, idle. -/
theorem Wf.of_idle {s : Slot} (hc : s.conn.Sound) (hr : s.conn.rollbackDeadline = 0) : s.Wf :=
  ⟨hc, fun _ => hr, fun h => absurd hr h⟩

/-- A call on the connection of an idle slot. -/
theorem Passed.of_idle {s s' : Slot} (hi : s.idle = true) (hi' : s'.idle = true)
    (hc : s.conn.Sound → s'.conn.Sound)
    (hr : s.conn.rollbackDeadline = 0 → s'.conn.rollbackDeadline = 0) : Passed s s' := fun hw =>
  ⟨.of_idle (hc hw.sound) (hr (hw.idle hi)),
    iff_of_false (not_out_of_idle hi') (not_out_of_idle hi)⟩

/-! ### Rolling back -/

/-- The ROLLBACK of a connection with nothing in flight is outstanding, or the connection is
idle. -/
theorem startRollback_spec {s : Slot} (env : RollbackEnv) (hin : s.conn.inflight = [])
    (hs : s.conn.Sound) (hr : s.conn.rollbackDeadline = 0) :
    (s.startRollback env).Wf ∧ ¬ (s.startRollback env).Out := by
  have hsub : Submitted s.conn (s.conn.asyncSubmit ⟨ascii "rollback", []⟩) :=
    Submission.on_submitted s.conn (.asyncSubmit _)
  unfold startRollback
  generalize s.conn.asyncSubmit _ = r at hsub
  obtain ⟨ok, c⟩ := r
  cases ok with
  | false =>
      have hm := c.lose_moves "could not queue a ROLLBACK at release"
      exact ⟨.of_idle (hm.sound (hsub.sound hs)) (hm.rollback.trans (hsub.rollback.trans hr)),
        not_out_of_idle rfl⟩
  | true =>
      have hm := c.asyncFlush_moves env.flushRecvs env.sends
      have hlen : c.inflight.length = 1 := by
        have := hsub.length
        rwa [hin] at this
      have hpos : env.now + rollbackTimeout ≠ 0 := by
        have : 0 < rollbackTimeout := by decide
        omega
      have hsound := hm.sound (hsub.sound hs)
      refine ⟨⟨⟨⟨hsound.settled.dialing, hsound.settled.dials⟩, hsound.reports⟩,
        fun h => (Bool.false_ne_true h).elim, fun _ => ?_⟩, fun h => hpos h.2⟩
      exact (congrArg List.length (c.asyncFlush_inflight env.flushRecvs env.sends)).trans hlen

/-- What `finish_rollback` does. -/
structure Rolled (s : Slot) (b : Bool) (s' : Slot) : Prop where
  sound : s.conn.Sound → s'.conn.Sound
  back : b = true → s'.idle = true ∧ s'.conn.rollbackDeadline = 0
  waits : b = false → s'.idle = s.idle ∧
    s'.conn.rollbackDeadline = s.conn.rollbackDeadline ∧
    s'.conn.inflight.length = s.conn.inflight.length

theorem Rolled.of_moves {s : Slot} {c : PgConn} (hm : s.conn.Moves c) :
    Rolled s true (rolledBack c) :=
  ⟨fun hs => ⟨⟨fun hd => ⟨rfl, ((hm.sound hs).settled.dialing hd).2⟩, (hm.sound hs).settled.dials⟩,
    (hm.sound hs).reports⟩, fun _ => ⟨rfl, rfl⟩, fun h => (Bool.false_ne_true h.symm).elim⟩

theorem finishRollback_spec {s s' : Slot} {b : Bool} {env : RollbackEnv}
    (h : s.finishRollback env = (b, s')) : Rolled s b s' := by
  obtain ⟨c, hc, hm, hin⟩ : ∃ c, (if s.conn.asyncWantsWrite
      then (s.conn.asyncFlush env.flushRecvs env.sends).2.1 else s.conn) = c ∧
        s.conn.Moves c ∧ c.inflight = s.conn.inflight := by
    refine ⟨_, rfl, ?_⟩
    split
    · exact ⟨s.conn.asyncFlush_moves _ _, s.conn.asyncFlush_inflight _ _⟩
    · exact ⟨.refl _, rfl⟩
  unfold finishRollback at h
  simp only [hc] at h
  have hm' := hm.trans (c.asyncOnReadable_moves env.recvs)
  split at h
  · rename_i hpoll
    split at h
    · cases h
      refine ⟨hm'.sound, fun h => (Bool.false_ne_true h).elim, fun _ => ⟨rfl, hm'.rollback, ?_⟩⟩
      rw [asyncOnReadable_inflight hpoll, hin]
    · cases h
      exact .of_moves (hm'.trans (lose_moves _ _))
  · cases h
    split
    · exact .of_moves (hm'.trans (lose_moves _ _))
    · exact .of_moves hm'
  · cases h
    exact .of_moves (hm'.trans (lose_moves _ _))

theorem Rolled.passed {s s' : Slot} {b : Bool} (h : Rolled s b s') (hi : s.idle = false)
    (hr : s.conn.rollbackDeadline ≠ 0) : s'.idle = b ∧ Passed s s' := by
  have hout : ¬ s.Out := fun ho => hr ho.2
  cases b with
  | true =>
      obtain ⟨hi', hr'⟩ := h.back rfl
      exact ⟨hi', fun hw => ⟨.of_idle (h.sound hw.sound) hr',
        iff_of_false (not_out_of_idle hi') hout⟩⟩
  | false =>
      obtain ⟨hi', hr', hlen⟩ := h.waits rfl
      rw [hi] at hi'
      refine ⟨hi', fun hw => ⟨⟨h.sound hw.sound, fun h => ?_, fun _ => ?_⟩, ?_⟩⟩
      · rw [hi'] at h
        cases h
      · rw [hlen, hw.rolling hr]
      · exact iff_of_false (fun ho => hr (hr'.symm.trans ho.2)) hout

/-! ### A pass -/

theorem free_spec {s s' : Slot} {b : Bool} {env : SlotEnv} (h : s.free env = (b, s')) :
    s'.idle = b ∧ Passed s s' := by
  unfold free at h
  split at h
  · rename_i hi
    cases h
    exact ⟨hi, .refl s⟩
  rename_i hi
  split at h
  · cases h
    exact ⟨Bool.eq_false_iff.mpr hi, .refl s⟩
  · rename_i hr
    exact (finishRollback_spec h).passed (Bool.eq_false_iff.mpr hi) hr

section

variable {K : Crypto} {cfg : ConnConfig} {s s' : Slot} {b : Bool} {env : SlotEnv}

/-- A live connection, or a re-dial of one that is not. -/
theorem live_spec (h : s.live K cfg env = (b, s')) (hi : s.idle = true) :
    s'.idle = true ∧ (b = true ↔ s'.conn.state = .ready) ∧ Passed s s' ∧
      (s.conn.inflight = [] → s'.conn.inflight = []) := by
  unfold live at h
  split at h
  · rename_i hs
    cases h
    exact ⟨hi, by simpa using hs, .refl s, id⟩
  · cases h
    have hd : Redialed s.conn _ (s.conn.redial K cfg env.redial).2 := redial_spec rfl
    exact ⟨hi, hd.ready, .of_idle hi hi hd.sound hd.rollback, hd.empty⟩

/-- A slot an acquire looks at: whether it may be handed out, and the slot. -/
structure Looked (s : Slot) (b : Bool) (s' : Slot) : Prop where
  passed : Passed s s'
  ok : b = true ↔ s'.idle = true ∧ s'.conn.state = .ready ∧ s'.conn.readyStatus = txIdle

/-- The last two tests of `acquire` and of `pipelinable`, on an idle slot. -/
theorem serving_spec (h : s.serving K cfg env = (b, s')) (hi : s.idle = true) :
    Looked s b s' ∧ (s.conn.inflight = [] → s'.conn.inflight = []) := by
  unfold serving at h
  generalize hr : s.live K cfg env = r at h
  obtain ⟨b', s''⟩ := r
  cases h
  obtain ⟨hi', hready, hp, hin⟩ := live_spec hr hi
  exact ⟨⟨hp, by simp [hi', hready]⟩, hin⟩

/-- **What `pipelinable` asks.** -/
theorem pipelinable_spec (h : s.pipelinable K cfg env = (b, s')) : Looked s b s' := by
  unfold pipelinable at h
  split at h
  · rename_i s₁ hf
    obtain ⟨hi, hp⟩ := free_spec hf
    cases h
    exact ⟨hp, by simp [hi]⟩
  · rename_i s₁ hf
    obtain ⟨hi, hp⟩ := free_spec hf
    have hl := (serving_spec h hi).1
    exact ⟨hp.trans hl.passed, hl.ok⟩

/-- **What `acquire` asks.** -/
theorem acquirable_spec (h : s.acquirable K cfg env = (b, s')) :
    Passed s s' ∧ (b = true → s'.idle = true ∧ s'.conn.state = .ready ∧
      s'.conn.readyStatus = txIdle ∧ s'.conn.inflight = []) := by
  unfold acquirable at h
  split at h
  · rename_i s₁ hf
    cases h
    exact ⟨(free_spec hf).2, fun h => (Bool.false_ne_true h).elim⟩
  rename_i s₁ hf
  obtain ⟨hi, hp⟩ := free_spec hf
  split at h
  · cases h
    exact ⟨hp, fun h => (Bool.false_ne_true h).elim⟩
  · rename_i hin
    obtain ⟨hl, hin'⟩ := serving_spec h hi
    refine ⟨hp.trans hl.passed, fun hb => ?_⟩
    obtain ⟨h₁, h₂, h₃⟩ := hl.ok.mp hb
    exact ⟨h₁, h₂, h₃, hin' (not_not.mp hin)⟩

/-! ### Maintenance -/

theorem probeIdle_moves (c : PgConn) (probe : Probe) : c.Moves (c.probeIdle probe) := by
  unfold probeIdle
  split
  · exact .refl c
  split
  · exact .refl c
  · exact c.lose_moves _
  · exact c.lose_moves _
  · rename_i recvs
    have hf := (c.fillRecvBuf_spec recvs).moves
    dsimp only
    split
    · exact hf
    · rename_i e _
      have hfatal : (c.fillRecvBuf recvs).Moves { c.fillRecvBuf recvs with fatal := e } :=
        ⟨.inl rfl, fun h => ⟨h, rfl⟩, id, rfl, rfl, rfl⟩
      exact hf.trans (hfatal.trans (lose_moves _ _))

/-- `maintain` on an idle slot: it stays so, or is rolled back. -/
theorem maintainFree_spec {now next next' : Nat}
    (h : maintainFree K cfg now next s env = (next', s')) (hi : s.idle = true) :
    Passed s s' := by
  unfold maintainFree at h
  split at h
  · cases h
    exact .refl s
  rename_i hin
  have hin : s.conn.inflight = [] := List.length_eq_zero_iff.mp (by omega)
  have hm := probeIdle_moves s.conn env.probe
  dsimp only at h
  split at h
  · cases h
    intro hw
    obtain ⟨hw', hout⟩ := startRollback_spec (s := ⟨s.conn.probeIdle env.probe, s.idle⟩) env.start
      (hm.empty hin).1 (hm.sound hw.sound) (hm.rollback.trans (hw.idle hi))
    exact ⟨hw', iff_of_false hout (not_out_of_idle hi)⟩
  · have hpass : Passed s ⟨s.conn.probeIdle env.probe, s.idle⟩ :=
      .of_idle hi hi hm.sound fun hr => hm.rollback.trans hr
    split at h
    all_goals
      rename_i hl
      cases h
      exact hpass.trans (live_spec hl hi).2.2.1

/-- **`maintain` at a slot.** -/
theorem maintainSlot_spec {now next next' : Nat}
    (h : maintainSlot K cfg now next s env = (next', s')) : Passed s s' := by
  unfold maintainSlot at h
  split at h
  · rename_i hi
    exact maintainFree_spec h hi
  rename_i hi
  split at h
  · cases h
    exact .refl s
  rename_i hr
  split at h
  · rename_i hf
    obtain ⟨hi₁, hp⟩ := (finishRollback_spec hf).passed (Bool.eq_false_iff.mpr hi) hr
    exact hp.trans (maintainFree_spec h hi₁)
  · rename_i hf
    cases h
    exact ((finishRollback_spec hf).passed (Bool.eq_false_iff.mpr hi) hr).2

/-- A slot that is due leaves the idle set as it is. -/
theorem maintainSlot_due {now next next' : Nat} (hi : s.idle = true) (hw : s.Wf)
    (h : maintainSlot K cfg now next { s with idle := false } env = (next', s')) :
    s' = { s with idle := false } := by
  unfold maintainSlot at h
  rw [if_neg (by simp), if_pos (hw.idle hi)] at h
  cases h
  rfl

/-- **A step of a recycle**: the connection stays out, or comes back. -/
theorem recycleStep_spec {now wait : Nat} {c c' : PgConn} {back : Bool} {renv : RedialEnv}
    (h : recycleStep K cfg now c renv = (wait, back, c')) (hc : c.Sound)
    (hr : c.rollbackDeadline = 0) : c'.Sound ∧ c'.rollbackDeadline = 0 := by
  unfold recycleStep at h
  split at h
  · cases h
    exact ⟨hc, hr⟩
  obtain ⟨c₁, hc₁, hs₁, hr₁⟩ : ∃ c₁, (if c.state = .ready
      then { c.lose "recycled: max_lifetime_ms reached" with retryAt := 0 } else c) = c₁ ∧
        c₁.Sound ∧ c₁.rollbackDeadline = 0 := by
    refine ⟨_, rfl, ?_⟩
    split
    · have hm := c.lose_moves "recycled: max_lifetime_ms reached"
      have hs := hm.sound hc
      exact ⟨⟨⟨hs.settled.dialing, hs.settled.dials⟩, hs.reports⟩, hm.rollback.trans hr⟩
    · exact ⟨hc, hr⟩
  rw [hc₁] at h
  dsimp only at h
  have hred : Redialed c₁ _ (c₁.redial K cfg renv).2 := redial_spec rfl
  have hc' : (c₁.redial K cfg renv).2 = c' := by
    generalize c₁.redial K cfg renv = r at h
    obtain ⟨b, c₂⟩ := r
    cases b with
    | true => exact congrArg (·.2.2) h
    | false =>
        dsimp only at h
        split at h <;> exact congrArg (·.2.2) h
  exact ⟨hc' ▸ hred.sound hs₁, hc' ▸ hred.rollback hr₁⟩

end

end Slot

end Vanilla.PgAsync

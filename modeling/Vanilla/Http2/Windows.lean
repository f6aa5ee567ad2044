import Vanilla.Http2.Effects

/-!
# HTTP/2 — parked responses and the ceiling of the windows

A response is parked only while a window is closed: wherever the connection gives or changes credit,
it flushes the streams that may profit.

* `Waits`: a stream has bytes parked only with a closed window, and an ending parked only with
  bytes.  Every connection without error keeps this of every stream (`Trace.parked`).
* `ceiling_iff`: no window gets above 2^31 - 1, but by a SETTINGS frame that takes an open stream
  there.
-/

namespace Vanilla.Http2

open StreamState Streams ServerConn

/-! ### Waiting for credit -/

/-- What is parked on a stream waits for a window to open, the connection's being `win`; an ending
waits only for parked bytes. -/
structure Waits (win : Int) (st : StreamState) : Prop where
  off : st.pendingOff ≤ st.pending.length
  blocked : st.parked ≠ [] → win ≤ 0 ∨ st.sendWindow ≤ 0
  unended : st.parked = [] → st.pendingEnd = false ∧ st.trailersPending = false

/-- Every open stream waits. -/
def Parked (c : ServerConn) : Prop :=
  ∀ id st, c.streams.get id = some st → Waits c.connSendWindow st

namespace Waits

variable {win win' : Int} {st st' : StreamState}

theorem mono (h : Waits win st) (hle : win' ≤ win) : Waits win' st :=
  ⟨h.off, fun hp => (h.blocked hp).imp_left hle.trans, h.unended⟩

theorem same (h : Waits win st) (hs : SameResponse st st') : Waits win st' := by
  have hparked : st'.parked = st.parked := (congrArg StreamState.parked hs :)
  have hsend : st'.sendWindow = st.sendWindow := (congrArg StreamState.sendWindow hs :)
  have hend : st'.pendingEnd = st.pendingEnd := (congrArg StreamState.pendingEnd hs :)
  have htr : st'.trailersPending = st.trailersPending :=
    (congrArg StreamState.trailersPending hs :)
  have hoff : st'.pendingOff = st.pendingOff := (congrArg StreamState.pendingOff hs :)
  have hpend : st'.pending = st.pending := (congrArg StreamState.pending hs :)
  refine ⟨by rw [hoff, hpend]; exact h.off, fun hp => ?_, fun hp => ?_⟩
  · rw [hsend]
    exact h.blocked (hparked ▸ hp)
  · rw [hend, htr]
    exact h.unended (hparked ▸ hp)

theorem fresh (win init : Int) : Waits win { sendWindow := init } :=
  ⟨Nat.le_refl _, fun hp => absurd rfl hp, fun _ => ⟨rfl, rfl⟩⟩

end Waits

/-- What is not sent finds a window closed. -/
theorem closed_of_sendable_lt {b : List UInt8} {conn send : Int}
    (h : sendable b conn send < b.length) :
    conn - sendable b conn send ≤ 0 ∨ send - sendable b conn send ≤ 0 := by
  unfold sendable at h ⊢
  omega

section Get

variable {c : ServerConn} {id i n : Nat} {st : StreamState} {g : StreamState → StreamState}

theorem debit_get (hget : c.streams.get id = some st) :
    (c.debit id n g).streams.get id = some (g st) := by
  rw [debit, updateStream, get_update, if_pos rfl, hget]
  rfl

theorem debit_get_ne (hi : i ≠ id) : (c.debit id n g).streams.get i = c.streams.get i := by
  rw [debit, updateStream, get_update, if_neg hi]

theorem release_get : (c.releaseStream id).streams.get id = none := by
  rw [releaseStream, get_release, if_pos rfl]

theorem release_get_ne (hi : i ≠ id) : (c.releaseStream id).streams.get i = c.streams.get i := by
  rw [releaseStream, get_release, if_neg hi]

end Get

namespace Parked

variable {c : ServerConn}

/-- **Flushing a stream** leaves it waiting, whatever it was before. -/
theorem flushPending_self (hs : Sound c) {id : Nat} {st' : StreamState}
    (h : (c.flushPending id).conn.streams.get id = some st') :
    Waits (c.flushPending id).conn.connSendWindow st' := by
  cases hget : c.streams.get id with
  | none =>
      rw [flushPending_none c hget] at h
      rw [hget] at h
      cases h
  | some st =>
      obtain ⟨fs, n, rfl, -, hf⟩ := flushPending_flushed c hs.pos hget
      generalize c.flushPending id = r at *
      cases hf with
      | waits hlt =>
          rw [debit_get hget] at h
          cases h
          refine ⟨Nat.sub_le _ _, fun _ => closed_of_sendable_lt hlt, fun hnil => ?_⟩
          rw [sent_parked, List.drop_eq_nil_iff] at hnil
          exact absurd hlt (Nat.not_lt.mpr hnil)
      | ends =>
          rw [release_get] at h
          cases h
      | trailers =>
          rw [release_get] at h
          cases h
      | dry hle hend htr =>
          rw [debit_get hget] at h
          cases h
          refine ⟨Nat.sub_le _ _, fun hne => ?_, fun _ => ⟨hend, htr⟩⟩
          rw [sent_parked, ne_eq, List.drop_eq_nil_iff] at hne
          exact absurd hle hne

/-- What flushing one stream leaves of the others. -/
theorem flushPending_other (hs : Sound c) (id : Nat) :
    (c.flushPending id).conn.connSendWindow ≤ c.connSendWindow ∧
      ∀ i, i ≠ id → (c.flushPending id).conn.streams.get i = c.streams.get i := by
  cases hget : c.streams.get id with
  | none =>
      rw [flushPending_none c hget]
      exact ⟨Int.le_refl _, fun _ _ => rfl⟩
  | some st =>
      obtain ⟨b, tail, hsend, -⟩ := flushPending_sends hs.pos hget
      refine ⟨?_, hsend.other⟩
      rw [hsend.conn]
      omega

/-- **Flushing streams** leaves all of them waiting, if the others wait. -/
theorem flushAll (hs : Sound c) {ids : List Nat}
    (h : ∀ id st, c.streams.get id = some st → id ∈ ids ∨ Waits c.connSendWindow st) :
    Parked (c.flushAll ids).conn := by
  induction ids generalizing c with
  | nil => exact fun id st hget => (h id st hget).resolve_left List.not_mem_nil
  | cons id ids ih =>
      obtain ⟨hle, hother⟩ := flushPending_other hs id
      refine ih (hs.flushPending id) fun i st hget => ?_
      by_cases hi : i = id
      · subst hi
        exact .inr (flushPending_self hs hget)
      · rw [hother i hi] at hget
        rcases h i st hget with hmem | hw
        · exact .inl ((List.mem_cons.mp hmem).resolve_left hi)
        · exact .inr (hw.mono hle)

theorem of_same {c' : ServerConn} (hp : Parked c)
    (hk : Kept SameResponse c.streams c'.streams) (hle : c'.connSendWindow ≤ c.connSendWindow) :
    Parked c' := fun id st' h => by
  obtain ⟨st, hst, hsame, -⟩ := hk id st' h
  exact ((hp id st hst).same hsame).mono hle

theorem release (hp : Parked c) (id : Nat) : Parked (c.releaseStream id) :=
  hp.of_same (Kept.release _ id) (Int.le_refl _)

theorem writeResponseBody (hp : Parked c) (hs : Sound c) (id : Nat) (body : List UInt8)
    (endStream : Bool) : Parked (c.writeResponseBody id body endStream).conn := by
  cases hget : c.streams.get id with
  | none =>
      rw [writeResponseBody_none c hget]
      exact hp
  | some st =>
      by_cases hb : body = []
      · rw [hb, writeResponseBody_empty c hget]
        split
        · exact hp.release id
        · exact hp
      · obtain ⟨fs, n, rfl, -, hw⟩ := writeResponseBody_wrote c hs.pos hget hb endStream
        have hst := hp id st hget
        have hother : ∀ {i st' g}, i ≠ id → (c.debit id (sendable body c.connSendWindow
            st.sendWindow) g).streams.get i = some st' → Waits (c.connSendWindow -
            sendable body c.connSendWindow st.sendWindow) st' := fun hi h => by
          rw [debit_get_ne hi] at h
          exact (hp _ _ h).mono (by omega)
        generalize c.writeResponseBody id body endStream = r at *
        intro i st' h
        cases hw with
        | parks hlt =>
            by_cases hi : i = id
            · subst hi
              rw [debit_get hget] at h
              cases h
              refine ⟨?_, fun _ => closed_of_sendable_lt hlt, fun hnil => ?_⟩
              · exact (hst.off.trans (List.length_append ▸ Nat.le_add_right _ _))
              · rw [park_parked (s := st.spent _) hst.off, List.append_eq_nil_iff] at hnil
                exact absurd hlt (Nat.not_lt.mpr (List.drop_eq_nil_iff.mp hnil.2))
            · exact hother hi h
        | ends =>
            by_cases hi : i = id
            · subst hi
              rw [release_get] at h
              cases h
            · rw [release_get_ne hi] at h
              exact hother hi h
        | stays hle =>
            by_cases hi : i = id
            · subst hi
              rw [debit_get hget] at h
              cases h
              refine ⟨hst.off, fun hne => ?_, hst.unended⟩
              refine (hst.blocked hne).imp (fun h => ?_) (fun h => ?_)
              · show c.connSendWindow - _ ≤ 0
                omega
              · show st.sendWindow - _ ≤ 0
                omega
            · exact hother hi h

theorem writeResponseHeaders (hp : Parked c) (id : Nat) (block : List UInt8) (endStream : Bool) :
    Parked (c.writeResponseHeaders id block endStream).conn := by
  unfold ServerConn.writeResponseHeaders
  dsimp only
  split
  · exact hp.release id
  · exact hp

theorem writeResponseTrailers (hp : Parked c) (id : Nat) (block : List UInt8) :
    Parked (c.writeResponseTrailers id block).conn := by
  unfold ServerConn.writeResponseTrailers
  split
  · exact hp
  · rename_i st hget
    split
    · rename_i hlt
      intro i st' h
      simp only [updateStream, get_update] at h
      split at h
      · rename_i hi
        rw [hi, hget] at h
        cases h
        have hst := hp id st hget
        refine ⟨hst.off, hst.blocked, fun hnil => ?_⟩
        exact absurd (List.drop_eq_nil_iff.mp hnil) (Nat.not_le.mpr hlt)
      · exact hp i st' h
    · exact hp.writeResponseHeaders id block true

theorem write (hp : Parked c) (hs : Sound c) (w : Write) : Parked (w.exec c).conn := by
  cases w with
  | headers id block endStream => exact hp.writeResponseHeaders id block endStream
  | body id bytes endStream => exact hp.writeResponseBody hs id bytes endStream
  | data id bytes => exact hp.writeResponseBody hs id bytes true
  | trailers id block => exact hp.writeResponseTrailers id block
  | abort id code => exact hp.release id

theorem quiet (hp : Parked c) {r : Reply} (hq : Quiet c r) : Parked r.conn := by
  intro id st' h
  rw [hq.conn]
  rcases hq.streams id st' h with ⟨st, hst, hsame⟩ | ⟨-, hsame⟩
  · exact (hp id st hst).same hsame
  · exact (Waits.fresh _ _).same hsame

end Parked

/-! ### The initial window -/

/-- The initial window that settings leave. -/
def newInitial (init : Int) (sts : List Setting) : Int :=
  sts.foldl (fun w st => if st.id = settingInitialWindowSize then st.val else w) init

theorem shifted_shifted (a b : Int) (st : StreamState) :
    shifted b (shifted a st) = shifted (a + b) st := by
  simp only [shifted, Int.add_assoc]

theorem map_shifted_zero (o : Option StreamState) : o.map (shifted 0) = o := by
  rw [show (shifted 0 : StreamState → StreamState) = fun st => st from
    funext fun st => by simp only [shifted, Int.add_zero], Option.map_id']

theorem newInitial_of_any {init : Int} {sts : List Setting}
    (h : sts.any (·.id = settingInitialWindowSize) = false) : newInitial init sts = init := by
  unfold newInitial
  induction sts with
  | nil => rfl
  | cons st sts ih =>
      simp only [List.any_cons, Bool.or_eq_false_iff, decide_eq_false_iff_not] at h
      rw [List.foldl_cons, if_neg h.1]
      exact ih h.2

/-- What a setting does to the windows. -/
theorem onSetting_windows (c : ServerConn) {st : Setting} (hok : (c.onSetting st).2 = .noError) :
    (c.onSetting st).1.initSendWindow = newInitial c.initSendWindow [st] ∧
      (c.onSetting st).1.connSendWindow = c.connSendWindow ∧
      ∀ id, (c.onSetting st).1.streams.get id = (c.streams.get id).map
        (shifted (newInitial c.initSendWindow [st] - c.initSendWindow)) := by
  have hsame : ∀ id, c.streams.get id = (c.streams.get id).map (shifted 0) := fun id =>
    (map_shifted_zero _).symm
  unfold newInitial
  simp only [List.foldl_cons, List.foldl_nil]
  unfold onSetting at hok ⊢
  split
  · rename_i hid
    rw [if_pos hid] at hok
    split at hok
    · cases hok
    · rename_i hv
      rw [if_neg hv]
      exact ⟨rfl, rfl, fun id => get_addToSendWindows _ _ id⟩
  · rename_i hid
    rw [Int.sub_self]
    split
    · split <;> exact ⟨rfl, rfl, hsame⟩
    · split
      · split <;> exact ⟨rfl, rfl, hsame⟩
      · exact ⟨rfl, rfl, hsame⟩

/-- **What SETTINGS does to the windows**: every stream's moves with the initial one. -/
theorem onSettingList_windows {c c₁ : ServerConn} {sts : List Setting}
    (hlist : c.onSettingList sts = (c₁, .noError)) :
    c₁.initSendWindow = newInitial c.initSendWindow sts ∧
      c₁.connSendWindow = c.connSendWindow ∧
      ∀ id, c₁.streams.get id = (c.streams.get id).map
        (shifted (newInitial c.initSendWindow sts - c.initSendWindow)) := by
  induction sts generalizing c with
  | nil =>
      cases hlist
      refine ⟨rfl, rfl, fun id => ?_⟩
      rw [show newInitial c₁.initSendWindow [] = c₁.initSendWindow from rfl, Int.sub_self,
        map_shifted_zero]
  | cons st sts ih =>
      obtain ⟨hst, hrest⟩ := onSettingList_cons hlist
      obtain ⟨hinit, hconn, hget⟩ := onSetting_windows c hst
      obtain ⟨hinit', hconn', hget'⟩ := ih hrest
      have hcons : newInitial (c.onSetting st).1.initSendWindow sts =
          newInitial c.initSendWindow (st :: sts) := by
        rw [hinit]
        rfl
      refine ⟨hinit'.trans hcons, hconn'.trans hconn, fun id => ?_⟩
      rw [hget', hget, Option.map_map, hcons, hinit]
      congr 1
      funext st₀
      rw [Function.comp, shifted_shifted]
      congr 1
      omega

namespace Parked

variable {c : ServerConn}

theorem takeSettings (hp : Parked c) (hs : Sound c) {sts : List Setting} {c₁ : ServerConn}
    (hlist : c.onSettingList sts = (c₁, .noError)) : Parked (c₁.takeSettings sts).conn := by
  obtain ⟨-, hconn, hget⟩ := onSettingList_windows hlist
  unfold ServerConn.takeSettings
  split
  · refine flushAll (hs.onSettingList hlist) fun id st h => .inl ?_
    rw [mem_ids, h]
    rfl
  · rename_i hany
    rw [newInitial_of_any (by simpa using hany), Int.sub_self] at hget
    intro id st h
    rw [hget, map_shifted_zero] at h
    rw [hconn]
    exact hp id st h

/-- **One frame** leaves what is parked waiting. -/
theorem frame (hp : Parked c) (hs : Sound c) {f : Frame} (hok : (c.frame f).code = .noError) :
    Parked (c.frame f).conn := by
  have heff := hs.effect hok
  generalize c.frame f = r at *
  cases heff with
  | quiet hq => exact hp.quiet hq
  | settings _ _ _ hlist => exact hp.takeSettings hs hlist
  | connCredit =>
      refine flushAll (hs.withWindow _) fun id st h => .inl ?_
      rw [mem_ids, h]
      rfl
  | credit =>
      -- the other streams are as they were, and the connection's window is not larger
      have hs₁ := hs.shift f.streamId f.increment
      obtain ⟨hle, hother⟩ := flushPending_other hs₁ f.streamId
      intro i st h
      by_cases hi : i = f.streamId
      · subst hi
        exact flushPending_self hs₁ h
      · rw [hother i hi, updateStream, get_update, if_neg hi] at h
        exact (hp i st h).mono hle

end Parked

/-- **What is parked waits for credit**, in every connection without error. -/
theorem Trace.parked {h : List Done} {c : ServerConn} (t : Trace newServerConn h c)
    (hok : ∀ d ∈ h, d.Ok) : Parked c := by
  refine (t.rule (P := fun c => Sound c ∧ Parked c) ⟨sound_new, fun id st hget => ?_⟩
    (fun c hc => ⟨hc.1.preface, hc.2⟩) (fun c f hc hf => ⟨hc.1.frame hf, hc.2.frame hc.1 hf⟩)
    (fun c w hc => ⟨hc.1.write w, hc.2.write hc.1 w⟩) hok).2
  rw [show newServerConn.streams = .new from rfl, get_new] at hget
  cases hget

/-! ### The ceiling -/

/-- No send window is above 2^31 - 1. -/
structure Ceiling (c : ServerConn) : Prop where
  conn : c.connSendWindow ≤ maxWindow
  stream : ∀ id st, c.streams.get id = some st → st.sendWindow ≤ maxWindow

/-- The initial window is one a peer can ask for. -/
def InitialOk (c : ServerConn) : Prop := 0 ≤ c.initSendWindow ∧ c.initSendWindow ≤ maxWindow

/-- The SETTINGS frame takes no open stream above the ceiling. -/
def KeepsCeiling (c : ServerConn) (f : Frame) : Prop :=
  f.type = .settings → f.has flagAck = false → ∀ id st, c.streams.get id = some st →
    st.sendWindow + (newInitial c.initSendWindow ((parseSettings f.payload).getD []) -
      c.initSendWindow) ≤ maxWindow

theorem onSettingList_initialOk {c : ServerConn} (h : InitialOk c) (sts : List Setting) :
    InitialOk (c.onSettingList sts).1 := by
  refine onSettingList_rule (P := InitialOk) (fun c st h => ?_) h sts
  unfold onSetting
  split
  · split
    · exact h
    · rename_i hv
      exact ⟨Int.natCast_nonneg _, Int.ofNat_le.mpr (Nat.le_of_not_lt hv)⟩
  · split
    · split <;> exact h
    · split
      · split <;> exact h
      · exact h

theorem initialOk_of_limits {c c' : ServerConn} (h : InitialOk c) (he : c'.limits = c.limits) :
    InitialOk c' := by
  have hinit : c'.initSendWindow = c.initSendWindow := (congrArg Prod.snd he :)
  unfold InitialOk
  rw [hinit]
  exact h

theorem InitialOk.frame {c : ServerConn} (h : InitialOk c) (hs : Sound c) {f : Frame}
    (hok : (c.frame f).code = .noError) : InitialOk (c.frame f).conn := by
  by_cases ht : f.type = .settings
  · have heff := hs.effect hok
    generalize c.frame f = r at *
    cases heff with
    | quiet hq => exact initialOk_of_limits h hq.limits
    | @settings sts c₁ _ _ _ hlist =>
        have h₁ := onSettingList_initialOk h sts
        rw [hlist] at h₁
        exact initialOk_of_limits h₁
          (limits_of_base (takeSettings_base c₁ sts))
    | connCredit ht' => rw [ht] at ht'; cases ht'
    | credit ht' => rw [ht] at ht'; cases ht'
  · exact initialOk_of_limits h (frame_limits c ht)

namespace Ceiling

variable {c : ServerConn}

theorem sends (hc : Ceiling c) {id : Nat} {st : StreamState} (hget : c.streams.get id = some st)
    {b : List UInt8} {tail : List Frame} {r : Reply} (hsend : c.Sends id st b tail r) :
    Ceiling r.conn := by
  refine ⟨?_, fun i st' h => ?_⟩
  · have := hc.conn
    rw [hsend.conn]
    omega
  · by_cases hi : i = id
    · subst hi
      have := hc.stream i st hget
      rw [hsend.self st' h]
      omega
    · rw [hsend.other i hi] at h
      exact hc.stream i st' h

theorem flushPending (hc : Ceiling c) (hs : Sound c) (id : Nat) :
    Ceiling (c.flushPending id).conn := by
  cases hget : c.streams.get id with
  | none =>
      rw [flushPending_none c hget]
      exact hc
  | some st =>
      obtain ⟨b, tail, hsend, -⟩ := flushPending_sends hs.pos hget
      exact hc.sends hget hsend

theorem flushAll (hc : Ceiling c) (hs : Sound c) (ids : List Nat) :
    Ceiling (c.flushAll ids).conn := by
  induction ids generalizing c with
  | nil => exact hc
  | cons id ids ih => exact ih (hc.flushPending hs id) (hs.flushPending id)

/-- Windows that do not change. -/
theorem of_kept {c' : ServerConn} (hc : Ceiling c)
    (hk : Kept (fun st st' => st'.sendWindow = st.sendWindow) c.streams c'.streams)
    (hconn : c'.connSendWindow = c.connSendWindow) : Ceiling c' := by
  refine ⟨hconn ▸ hc.conn, fun id st' h => ?_⟩
  obtain ⟨st, hst, he, -⟩ := hk id st' h
  rw [he]
  exact hc.stream id st hst

theorem release (hc : Ceiling c) (id : Nat) : Ceiling (c.releaseStream id) :=
  hc.of_kept (Kept.release c.streams id) rfl

theorem writeResponseBody (hc : Ceiling c) (hs : Sound c) (id : Nat) (body : List UInt8)
    (endStream : Bool) : Ceiling (c.writeResponseBody id body endStream).conn := by
  cases hget : c.streams.get id with
  | none =>
      rw [writeResponseBody_none c hget]
      exact hc
  | some st =>
      obtain ⟨b, tail, hsend, -⟩ := writeResponseBody_sends hs.pos hget body endStream
      exact hc.sends hget hsend

theorem writeResponseHeaders (hc : Ceiling c) (id : Nat) (block : List UInt8) (endStream : Bool) :
    Ceiling (c.writeResponseHeaders id block endStream).conn := by
  unfold ServerConn.writeResponseHeaders
  dsimp only
  split
  · exact hc.release id
  · exact hc

theorem write (hc : Ceiling c) (hs : Sound c) (w : Write) : Ceiling (w.exec c).conn := by
  cases w with
  | headers id block endStream => exact hc.writeResponseHeaders id block endStream
  | body id bytes endStream => exact hc.writeResponseBody hs id bytes endStream
  | data id bytes => exact hc.writeResponseBody hs id bytes true
  | trailers id block =>
      show Ceiling (c.writeResponseTrailers id block).conn
      unfold writeResponseTrailers
      split
      · exact hc
      · split
        · refine hc.of_kept ?_ rfl
          exact Kept.update (fun _ => by rfl) c.streams id
        · exact hc.writeResponseHeaders id block true
  | abort id code => exact hc.release id

/-- **One frame** keeps the ceiling, unless it is a SETTINGS frame that takes a stream above it. -/
theorem frame (hc : Ceiling c) (hs : Sound c) (hi : InitialOk c) {f : Frame}
    (hok : (c.frame f).code = .noError) (hkeeps : KeepsCeiling c f) : Ceiling (c.frame f).conn := by
  have heff := hs.effect hok
  generalize c.frame f = r at *
  cases heff with
  | quiet hq =>
      refine ⟨hq.conn ▸ hc.conn, fun id st' h => ?_⟩
      rcases hq.streams id st' h with ⟨st, hst, he⟩ | ⟨-, he⟩
      · rw [show st'.sendWindow = st.sendWindow from (congrArg StreamState.sendWindow he :)]
        exact hc.stream id st hst
      · rw [show st'.sendWindow = c.initSendWindow from (congrArg StreamState.sendWindow he :)]
        exact hi.2
  | @settings sts c₁ ht hack hparse hlist =>
      obtain ⟨-, hconn, hget⟩ := onSettingList_windows hlist
      have hc₁ : Ceiling c₁ := by
        refine ⟨hconn ▸ hc.conn, fun id st' h => ?_⟩
        rw [hget] at h
        obtain ⟨st, hst, rfl⟩ := Option.map_eq_some_iff.mp h
        have hle := hkeeps ht hack id st hst
        rw [hparse] at hle
        exact hle
      unfold takeSettings
      split
      · exact hc₁.flushAll (hs.onSettingList hlist) _
      · exact hc₁
  | connCredit _ _ hle =>
      have hc₁ : Ceiling { c with connSendWindow := c.connSendWindow + f.increment } :=
        ⟨hle, hc.stream⟩
      exact hc₁.flushAll (hs.withWindow _) _
  | @credit st _ _ hget hroom =>
      have hc₁ : Ceiling (c.updateStream f.streamId (shifted f.increment)) := by
        refine ⟨hc.conn, fun i st' h => ?_⟩
        rw [updateStream, get_update] at h
        split at h
        · rename_i hi
          rw [hi, hget] at h
          cases h
          exact hroom
        · exact hc.stream i st' h
      exact hc₁.flushPending (hs.shift _ _) _

end Ceiling

/-! ### Above the ceiling -/

/-- Flushing does nothing to this stream: nothing is parked, or the connection's window is
closed. -/
def Idles (c : ServerConn) (st : StreamState) : Prop :=
  (st.parked = [] ∧ st.pendingEnd = false ∧ st.trailersPending = false) ∨
    (st.parked ≠ [] ∧ c.connSendWindow ≤ 0)

theorem flushPending_idles {c : ServerConn} (hs : Sound c) {i : Nat} {st : StreamState}
    (hget : c.streams.get i = some st) (hidle : Idles c st) (id : Nat) :
    ∃ st', (c.flushPending id).conn.streams.get i = some st' ∧ st'.sendWindow = st.sendWindow ∧
      Idles (c.flushPending id).conn st' := by
  by_cases hi : i = id
  · subst hi
    obtain ⟨fs, n, hn, -, hf⟩ := flushPending_flushed c hs.pos hget
    obtain rfl : n = 0 := by
      unfold sendable at hn
      rcases hidle with ⟨hnil, -⟩ | ⟨-, hwin⟩
      · rw [hnil] at hn
        simpa using hn
      · omega
    have hends : st.parked.length ≤ 0 → st.pendingEnd = false ∧ st.trailersPending = false :=
      fun hle => (hidle.resolve_right fun h => h.1 (List.length_eq_zero_iff.mp
        (Nat.le_zero.mp hle))).2
    have hsame : Idles (c.debit i 0 (·.sent 0)) (st.sent 0) := by
      unfold Idles
      rw [sent_parked, List.drop_zero]
      refine hidle.imp (fun h => h) fun h => ⟨h.1, ?_⟩
      exact (Int.sub_zero _).trans_le h.2
    generalize c.flushPending i = r at *
    cases hf with
    | waits => exact ⟨_, debit_get hget, Int.sub_zero _, hsame⟩
    | ends hle hend =>
        rw [(hends hle).1] at hend
        cases hend
    | trailers hle _ htr =>
        rw [(hends hle).2] at htr
        cases htr
    | dry => exact ⟨_, debit_get hget, Int.sub_zero _, hsame⟩
  · obtain ⟨hle, hother⟩ := Parked.flushPending_other hs id
    refine ⟨st, ?_, rfl, hidle.imp_right fun h => ⟨h.1, hle.trans h.2⟩⟩
    rw [hother i hi, hget]

theorem flushAll_idles {c : ServerConn} (hs : Sound c) {i : Nat} {st : StreamState}
    (hget : c.streams.get i = some st) (hidle : Idles c st) (ids : List Nat) :
    ∃ st', (c.flushAll ids).conn.streams.get i = some st' ∧ st'.sendWindow = st.sendWindow := by
  induction ids generalizing c st with
  | nil => exact ⟨st, hget, rfl⟩
  | cons id ids ih =>
      obtain ⟨st', hget', he, hidle'⟩ := flushPending_idles hs hget hidle id
      obtain ⟨st'', hget'', he'⟩ := ih (hs.flushPending id) hget' hidle'
      exact ⟨st'', hget'', he'.trans he⟩

/-- A stream that SETTINGS takes above the ceiling stays there: what it has parked, if anything,
waits for the connection. -/
theorem settings_above {c : ServerConn} (hs : Sound c) (hp : Parked c) (hi : InitialOk c)
    {f : Frame} (hok : (c.frame f).code = .noError) (hc : Ceiling (c.frame f).conn) :
    KeepsCeiling c f := by
  intro ht hack id st hst
  have heff := hs.effect hok
  generalize c.frame f = r at *
  cases heff with
  | quiet hq hset =>
      rw [hset ht] at hack
      cases hack
  | connCredit ht' =>
      rw [ht] at ht'
      cases ht'
  | credit ht' =>
      rw [ht] at ht'
      cases ht'
  | @settings sts c₁ _ _ hparse hlist =>
      rw [hparse]
      obtain ⟨hnew, hconn, hget⟩ := onSettingList_windows hlist
      have hinit := onSettingList_initialOk hi sts
      rw [hlist] at hinit
      have hget₁ : c₁.streams.get id = some
          (shifted (newInitial c.initSendWindow sts - c.initSendWindow) st) := by
        rw [hget, hst]
        rfl
      by_cases hidle : Idles c st
      · have hidle₁ : Idles c₁
            (shifted (newInitial c.initSendWindow sts - c.initSendWindow) st) := by
          unfold Idles
          rw [hconn]
          exact hidle
        unfold takeSettings at hc
        split at hc
        · obtain ⟨st', hget', he⟩ := flushAll_idles (hs.onSettingList hlist) hget₁ hidle₁ _
          have hle := hc.stream id st' hget'
          rw [he] at hle
          exact hle
        · exact hc.stream id _ hget₁
      · -- what is parked waits for the stream's own window, which was closed
        have hw := hp id st hst
        have hne : st.parked ≠ [] := fun hnil => hidle (.inl ⟨hnil, hw.unended hnil⟩)
        have hsend := (hw.blocked hne).resolve_left fun h => hidle (.inr ⟨hne, h⟩)
        have := hinit.2
        have := hi.1
        rw [hnew] at *
        show st.sendWindow + (newInitial c.initSendWindow sts - c.initSendWindow) ≤ _
        omega

/-! ### Runs -/

theorem Trace.initialOk {h : List Done} {c : ServerConn} (t : Trace newServerConn h c)
    (hok : ∀ d ∈ h, d.Ok) : InitialOk c := by
  refine (t.rule (P := fun c => Sound c ∧ InitialOk c) ⟨sound_new, by decide, by decide⟩
    (fun c hc => ⟨hc.1.preface, hc.2⟩) (fun c f hc hf => ⟨hc.1.frame hf, hc.2.frame hc.1 hf⟩)
    (fun c w hc => ⟨hc.1.write w, ?_⟩) hok).2
  exact initialOk_of_limits hc.2 (limits_of_base (write_base c w))

/-- Along a trace whose SETTINGS frames keep the ceiling, every window does. -/
theorem Trace.ceiling {h : List Done} {c : ServerConn} (t : Trace newServerConn h c)
    (hok : ∀ d ∈ h, d.Ok)
    (hkeeps : ∀ d ∈ h, ∀ f, d.event = .recv f → KeepsCeiling d.before f) : Ceiling c := by
  induction t with
  | nil =>
      refine ⟨by decide, fun id st hget => ?_⟩
      rw [show newServerConn.streams = .new from rfl, get_new] at hget
      cases hget
  | @snoc h c t hok' e ih =>
      have hc := ih hok' fun d hd => hkeeps d (List.mem_append_left _ hd)
      have hs := t.sound hok'
      have hlast : (⟨c, e⟩ : Done) ∈ h ++ [⟨c, e⟩] := by simp
      cases e with
      | preface => exact ⟨hc.conn, hc.stream⟩
      | write w => exact hc.write hs w
      | recv f =>
          exact hc.frame hs (t.initialOk hok') (hok _ hlast) (hkeeps _ hlast f rfl)

/-- The connection that a session without error is left with. -/
theorem session_ceiling {calls : List Call} (hlive : (session calls).closed = false)
    (hkeeps : ∀ d ∈ (session calls).history, ∀ f, d.event = .recv f → KeepsCeiling d.before f) :
    Ceiling (session calls).conn := by
  obtain ⟨t, hok⟩ := runCalls_trace newServerConn calls
  exact t.ceiling (hok hlive) hkeeps

/-- **The ceiling of the windows.**  After every frame and every write, no send window is above
2^31 - 1, exactly when no SETTINGS frame, at the windows it finds, takes an open stream above it:
the WINDOW_UPDATEs are checked, the change of the initial window is not. -/
theorem ceiling_iff (calls : List Call) :
    (∀ d ∈ (session calls).history, d.Ok → Ceiling d.reply.conn) ↔
      ∀ d ∈ (session calls).history, d.Ok → ∀ f, d.event = .recv f → KeepsCeiling d.before f := by
  obtain ⟨t, -⟩ := runCalls_trace newServerConn calls
  refine ⟨fun hc d hd hok f hf => ?_, fun hkeeps d hd hok => ?_⟩
  · obtain ⟨h₁, h₂, -, t₁, hok₁⟩ := t.before hd
    have hreply : d.reply = d.before.frame f := by
      rw [Done.reply, hf]
      rfl
    have hceil := hc d hd hok
    rw [Done.Ok, hreply] at hok
    rw [hreply] at hceil
    exact settings_above (t₁.sound hok₁) (t₁.parked hok₁) (t₁.initialOk hok₁) hok hceil
  · obtain ⟨h₁, h₂, he, t₁, hok₁⟩ := t.before hd
    have hmem : ∀ d' ∈ h₁ ++ [d], d' ∈ (session calls).history ∧ d'.Ok := by
      intro d' hd'
      rw [session, he]
      rcases List.mem_append.mp hd' with hd' | hd'
      · exact ⟨by simp [hd'], hok₁ d' hd'⟩
      · rw [List.mem_singleton.mp hd']
        exact ⟨by simp, hok⟩
    exact (Trace.snoc t₁ hok₁ d.event).ceiling (fun d' hd' => (hmem d' hd').2)
      fun d' hd' => hkeeps d' (hmem d' hd').1 (hmem d' hd').2

/-- A stream filled to the ceiling by WINDOW_UPDATE, and then an initial window larger by one: the
call does not close, and the stream's window is 2^31. -/
theorem settings_over_ceiling :
    (session [.consume (prefaceTail ++ [0, 0, 3, 1, 5, 0, 0, 0, 1, 0x82, 0x86, 0x84] ++
        [0, 0, 4, 8, 0, 0, 0, 0, 1, 0x7f, 0xff, 0, 0] ++
        [0, 0, 6, 4, 0, 0, 0, 0, 0, 0, 4, 0, 1, 0, 0])]).closed = false ∧
      ¬ Ceiling (session [.consume (prefaceTail ++ [0, 0, 3, 1, 5, 0, 0, 0, 1, 0x82, 0x86, 0x84] ++
        [0, 0, 4, 8, 0, 0, 0, 0, 1, 0x7f, 0xff, 0, 0] ++
        [0, 0, 6, 4, 0, 0, 0, 0, 0, 0, 4, 0, 1, 0, 0])]).conn := by
  refine ⟨by decide +kernel, fun hc => ?_⟩
  have hwin : ((session [.consume (prefaceTail ++
      [0, 0, 3, 1, 5, 0, 0, 0, 1, 0x82, 0x86, 0x84] ++
      [0, 0, 4, 8, 0, 0, 0, 0, 1, 0x7f, 0xff, 0, 0] ++
      [0, 0, 6, 4, 0, 0, 0, 0, 0, 0, 4, 0, 1, 0, 0])]).conn.streams.get 1).map (·.sendWindow) =
      some (2 ^ 31) := by decide +kernel
  obtain ⟨st, hget, he⟩ := Option.map_eq_some_iff.mp hwin
  have hle := hc.stream 1 st hget
  rw [he] at hle
  exact absurd hle (by decide)

end Vanilla.Http2

import Vanilla.Http2.Response

/-!
# HTTP/2 — whose storage a surfaced request is

The headers and the body of a request are not copied when it is surfaced: they are the storage of
its stream's state, which goes back to the pool when the stream is released and from there to the
next stream.  The caller serves the request when `consume` has returned.

* `Owned`: the request's state is its stream's, and no other's.
* `LetsOut`, `Settled.closes_iff`: which credit ends a response that waits on a stream, and with it
  the stream.
* `Releases.gone`, `Owns.frame`: a frame that releases the stream gives the state away, and no
  other frame does.
* `request_owned_iff`: a request is the caller's when `consume` returns exactly when nothing behind
  it in the buffer releases its stream.
-/

namespace Vanilla.Http2

open Streams ServerConn

/-! ### Owning a state -/

/-- **The request has its storage**: its state is in the table under its own stream, not in the
pool and no other stream's, and holds the headers and the body it was surfaced with. -/
structure Owned (c : ServerConn) (q : Http2Request) : Prop where
  entry : c.streams.table.get q.streamId = some q.state
  kept : q.state ∉ c.streams.free
  alone : ∀ id, c.streams.table.get id = some q.state → id = q.streamId
  headers : (c.streams.heap q.state).headers = q.headers
  body : (c.streams.heap q.state).body = q.body

theorem owned_iff {c : ServerConn} {q : Http2Request} : Owned c q ↔ Owns c q :=
  ⟨fun h => ⟨h.entry, h.headers, h.body⟩, fun h =>
    ⟨h.entry, c.streams.disjoint _ _ h.entry, fun id hid => c.streams.distinct id _ _ hid h.entry,
      h.headers, h.body⟩⟩

/-! ### Credit -/

namespace ServerConn

variable (c : ServerConn)

/-- What the turn of a stream takes off the connection's window `win`, the stream's own window being
raised by `credit`. -/
def taken (credit win : Int) (id : Nat) : Nat :=
  match c.streams.get id with
  | none => 0
  | some st => sendable st.parked win (st.sendWindow + credit)

/-- What is left of the connection's window `win` when the streams `ids` have had their turns. -/
def leftOf (credit win : Int) (ids : List Nat) : Int :=
  ids.foldl (fun win id => win - c.taken credit win id) win

/-- The open streams whose turn comes before the one of `s`. -/
def earlier (s : Nat) : List Nat := c.streams.ids.takeWhile (· ≠ s)

/-- The end of a response waits on the stream `s`, and all that is parked fits into `win` and into
the stream's own window, raised by `credit`. -/
def Fits (s : Nat) (credit win : Int) : Prop :=
  ∃ st, c.streams.get s = some st ∧ (st.pendingEnd = true ∨ st.trailersPending = true) ∧
    (st.parked.length : Int) ≤ win ∧ (st.parked.length : Int) ≤ st.sendWindow + credit

/-- With nothing parked for the stream, no end of a response waits on it. -/
def Unended (s : Nat) : Prop :=
  ∀ st, c.streams.get s = some st → st.parked = [] →
    st.pendingEnd = false ∧ st.trailersPending = false

end ServerConn

/-- The credit of the frame lets out the end of the response that waits on `s`: it is for the
stream, or for the connection or for every stream, and then the open streams have their turns. -/
inductive LetsOut (c : ServerConn) (f : Frame) (s : Nat) : Prop where
  | stream (ht : f.type = .windowUpdate) (hid : f.streamId = s)
      (hfits : c.Fits s f.increment c.connSendWindow) : LetsOut c f s
  | conn (ht : f.type = .windowUpdate) (h0 : f.streamId = 0)
      (hfits : c.Fits s 0 (c.leftOf 0 (c.connSendWindow + f.increment) (c.earlier s))) :
      LetsOut c f s
  | settings {sts : List Setting} (ht : f.type = .settings) (hack : f.has flagAck = false)
      (hparse : parseSettings f.payload = some sts)
      (hany : sts.any (·.id = settingInitialWindowSize) = true)
      (hfits : c.Fits s (newInitial c.initSendWindow sts - c.initSendWindow)
        (c.leftOf (newInitial c.initSendWindow sts - c.initSendWindow) c.connSendWindow
          (c.earlier s))) :
      LetsOut c f s

/-- Only a response that waits is let out. -/
theorem LetsOut.waits {c : ServerConn} {f : Frame} {s : Nat} (h : LetsOut c f s) :
    ∃ st, c.streams.get s = some st ∧ (st.pendingEnd = true ∨ st.trailersPending = true) := by
  cases h with
  | stream _ _ hfits | conn _ _ hfits | settings _ _ _ _ hfits =>
      obtain ⟨st, hget, hend, -⟩ := hfits
      exact ⟨st, hget, hend⟩

theorem letsOut_stream {c : ServerConn} {f : Frame} {s : Nat} (ht : f.type = .windowUpdate)
    (h0 : f.streamId ≠ 0) :
    LetsOut c f s ↔ f.streamId = s ∧ c.Fits s f.increment c.connSendWindow := by
  refine ⟨fun h => ?_, fun h => .stream ht h.1 h.2⟩
  cases h with
  | stream _ hid hfits => exact ⟨hid, hfits⟩
  | conn _ h0' => exact absurd h0' h0
  | settings ht' => rw [ht] at ht'; cases ht'

theorem letsOut_conn {c : ServerConn} {f : Frame} {s : Nat} (ht : f.type = .windowUpdate)
    (h0 : f.streamId = 0) (hpos : s ≠ 0) :
    LetsOut c f s ↔ c.Fits s 0 (c.leftOf 0 (c.connSendWindow + f.increment) (c.earlier s)) := by
  refine ⟨fun h => ?_, .conn ht h0⟩
  cases h with
  | stream _ hid => exact absurd (hid.symm.trans h0) hpos
  | conn _ _ hfits => exact hfits
  | settings ht' => rw [ht] at ht'; cases ht'

theorem letsOut_settings {c : ServerConn} {f : Frame} {s : Nat} {sts : List Setting}
    (ht : f.type = .settings) (hack : f.has flagAck = false)
    (hparse : parseSettings f.payload = some sts) :
    LetsOut c f s ↔ sts.any (·.id = settingInitialWindowSize) = true ∧
      c.Fits s (newInitial c.initSendWindow sts - c.initSendWindow)
        (c.leftOf (newInitial c.initSendWindow sts - c.initSendWindow) c.connSendWindow
          (c.earlier s)) := by
  refine ⟨fun h => ?_, fun h => .settings ht hack hparse h.1 h.2⟩
  cases h with
  | stream ht' | conn ht' => rw [ht] at ht'; cases ht'
  | settings _ _ hparse' hany hfits =>
      obtain rfl := Option.some.inj (hparse.symm.trans hparse')
      exact ⟨hany, hfits⟩

section Credit

variable {c c₁ : ServerConn} {s : Nat}

theorem ServerConn.Unended.shifted {delta : Int} (h : c.Unended s)
    (hget : c₁.streams.get s = (c.streams.get s).map (Streams.shifted delta)) : c₁.Unended s := by
  intro st₁ hst₁
  rw [hget] at hst₁
  obtain ⟨st, hst, rfl⟩ := Option.map_eq_some_iff.mp hst₁
  exact h st hst

/-- Credit that a window has been raised by. -/
theorem fits_shifted {delta : Int}
    (hget : c₁.streams.get s = (c.streams.get s).map (shifted delta)) (win : Int) :
    c₁.Fits s 0 win ↔ c.Fits s delta win := by
  unfold Fits
  rw [hget]
  cases c.streams.get s with
  | none => simp
  | some st => simp [shifted, StreamState.parked]

theorem leftOf_shifted {delta : Int}
    (hget : ∀ id, c₁.streams.get id = (c.streams.get id).map (shifted delta)) (win : Int)
    (ids : List Nat) : c₁.leftOf 0 win ids = c.leftOf delta win ids := by
  have htaken : c₁.taken 0 = c.taken delta := by
    funext win id
    unfold taken
    rw [hget]
    cases c.streams.get id with
    | none => rfl
    | some st => simp [shifted, StreamState.parked]
  unfold leftOf
  rw [htaken]

/-- The turns of streams that are as they were. -/
theorem leftOf_congr {ids : List Nat}
    (hget : ∀ id ∈ ids, c₁.streams.get id = c.streams.get id) (credit win : Int) :
    c₁.leftOf credit win ids = c.leftOf credit win ids := by
  unfold leftOf
  induction ids generalizing win with
  | nil => rfl
  | cons id ids ih =>
      have htaken : c₁.taken credit win id = c.taken credit win id := by
        unfold taken
        rw [hget id List.mem_cons_self]
      rw [List.foldl_cons, List.foldl_cons, htaken]
      exact ih (fun j hj => hget j (List.mem_cons_of_mem _ hj)) _

theorem flushPending_connSendWindow (hs : Sound c) (id : Nat) :
    (c.flushPending id).conn.connSendWindow =
      c.connSendWindow - c.taken 0 c.connSendWindow id := by
  unfold taken
  cases hget : c.streams.get id with
  | none =>
      rw [flushPending_none c hget]
      exact (Int.sub_zero _).symm
  | some st =>
      obtain ⟨fs, n, hn, -, hf⟩ := flushPending_flushed c hs.pos hget
      simp only [Int.add_zero]
      rw [← hn]
      generalize c.flushPending id = r at hf
      cases hf <;> rfl

/-- **A flush ends the response** that waits on the stream exactly when it fits. -/
theorem flushPending_closes (hs : Sound c) (hun : c.Unended s) {st : StreamState}
    (hget : c.streams.get s = some st) :
    (c.flushPending s).conn.streams.get s = none ↔ c.Fits s 0 c.connSendWindow := by
  obtain ⟨fs, n, hn, -, hf⟩ := flushPending_flushed c hs.pos hget
  have hfits : c.Fits s 0 c.connSendWindow ↔
      (st.pendingEnd = true ∨ st.trailersPending = true) ∧ st.parked.length ≤ n := by
    -- an end that waits has bytes before it, so windows at zero or below let nothing out
    have hlen : (st.pendingEnd = true ∨ st.trailersPending = true) → 0 < st.parked.length := by
      intro hend
      refine List.length_pos_of_ne_nil fun hnil => ?_
      obtain ⟨h₁, h₂⟩ := hun st hget hnil
      rw [h₁, h₂] at hend
      simp at hend
    unfold Fits
    rw [hget]
    simp only [Option.some.injEq, exists_eq_left', Int.add_zero]
    refine and_congr_right fun hend => ?_
    have := hlen hend
    rw [hn]
    unfold sendable
    omega
  rw [hfits]
  generalize c.flushPending s = r at hf
  cases hf with
  | waits hlt =>
      rw [debit_get hget]
      simp only [reduceCtorEq, false_iff]
      omega
  | ends hle hend => simp [release_get, hle, hend]
  | trailers hle _ htr => simp [release_get, hle, htr]
  | dry hle hend htr =>
      rw [debit_get hget]
      simp [hend, htr]

theorem flushAll_other (hs : Sound c) {ids : List Nat} (hno : s ∉ ids) :
    (c.flushAll ids).conn.streams.get s = c.streams.get s := by
  induction ids generalizing c with
  | nil => rfl
  | cons id ids ih =>
      obtain ⟨hne, hno⟩ := not_or.mp fun h => hno (List.mem_cons.mpr h)
      exact (ih (hs.flushPending id) hno).trans ((Local.flushPending hs id).other s hne)

theorem flushAll_turn (hs : Sound c) (hun : c.Unended s) {st : StreamState}
    (hget : c.streams.get s = some st) {before behind : List Nat}
    (hnodup : (before ++ s :: behind).Nodup) :
    (c.flushAll (before ++ s :: behind)).conn.streams.get s = none ↔
      c.Fits s 0 (c.leftOf 0 c.connSendWindow before) := by
  -- on the turns before that of `s`: each of them leaves `s` and the later ones as they were
  induction before generalizing c with
  | nil =>
      have hno := (List.nodup_cons.mp hnodup).1
      change ((c.flushPending s).conn.flushAll behind).conn.streams.get s = none ↔ _
      rw [flushAll_other (hs.flushPending s) hno]
      exact flushPending_closes hs hun hget
  | cons id before ih =>
      rw [List.cons_append, List.nodup_cons] at hnodup
      have hother := (Local.flushPending hs id).other
      have hne : s ≠ id := fun h => hnodup.1 (by simp [h])
      have hget' := hother s hne
      have hturns : ∀ j ∈ before, (c.flushPending id).conn.streams.get j = c.streams.get j :=
        fun j hj => hother j fun h => hnodup.1 (by simp [← h, hj])
      have hun' : (c.flushPending id).conn.Unended s := fun st h => hun st (hget'.symm.trans h)
      have hrest := ih (hs.flushPending id) hun' (hget'.trans hget) hnodup.2
      rw [leftOf_congr hturns, flushPending_connSendWindow hs id] at hrest
      refine hrest.trans ?_
      unfold Fits
      rw [hget']
      rfl

/-- **The turns of the streams**, all windows raised by `delta`: the one of `s` comes when the
earlier ones have taken theirs. -/
theorem flushAll_closes (hs : Sound c₁) (hun : c.Unended s) {st : StreamState}
    (hget : c.streams.get s = some st) {delta : Int}
    (hshift : ∀ id, c₁.streams.get id = (c.streams.get id).map (shifted delta)) :
    (c₁.flushAll c.streams.ids).conn.streams.get s = none ↔
      c.Fits s delta (c.leftOf delta c₁.connSendWindow (c.earlier s)) := by
  have hmem : s ∈ c.streams.ids := by
    rw [mem_ids, hget]
    rfl
  obtain ⟨before, behind, hids, hno⟩ := List.eq_append_cons_of_mem hmem
  have hearlier : c.earlier s = before := by
    unfold earlier
    rw [hids, List.takeWhile_append_of_pos, List.takeWhile_cons_of_neg (by simp), List.append_nil]
    intro id hid
    simpa using fun h : id = s => hno (h ▸ hid)
  have hnodup : c.streams.ids.Nodup := StreamTable.nodup_idsInto c.streams.wf
  have hget₁ : c₁.streams.get s = some (shifted delta st) := by rw [hshift, hget]; rfl
  have hun₁ := hun.shifted (hshift s)
  rw [hids] at hnodup ⊢
  rw [hearlier, flushAll_turn hs hun₁ hget₁ hnodup, fits_shifted (hshift s), leftOf_shifted hshift]

end Credit

/-! ### One frame -/

/-- The frame takes the stream's state away: it resets the stream, or lets out the end of a response
that waits on it. -/
def Releases (c : ServerConn) (f : Frame) (s : Nat) : Prop := Resets c f s ∨ LetsOut c f s

section Frame

variable {c : ServerConn} {f : Frame} {q : Http2Request} {s : Nat}

/-- A frame that resets a stream closes it. -/
theorem Resets.gone (h0 : s ≠ 0) (hok : (c.frame f).code = .noError) (hr : Resets c f s) :
    (c.frame f).conn.streams.get s = none := by
  have ha := frame_accepted hok
  generalize c.frame f = r at *
  obtain ⟨rfl, hr⟩ := hr
  cases ha with
  | dependent => exact release_get
  | reset => exact release_get
  | zeroCredit => exact release_get
  | overflow => exact release_get
  | connCredit _ _ hz => exact absurd hz h0
  | staleCredit ht _ _ _ hinc hget =>
      rcases hr with h | ⟨h, -⟩ | ⟨-, h | ⟨st, hst, -⟩⟩
      · rw [ht] at h
        cases h
      · rw [ht] at h
        cases h
      · exact absurd h hinc
      · exact hget
  | credit ht _ _ _ hinc hget hroom =>
      rcases hr with h | ⟨h, -⟩ | ⟨-, h | ⟨st, hst, h⟩⟩
      · rw [ht] at h
        cases h
      · rw [ht] at h
        cases h
      · exact absurd h hinc
      · rw [hget, Option.some.injEq] at hst
        rw [hst] at hroom
        omega
  | ignored _ ht hp =>
      rcases hr with h | ⟨h, hself⟩ | ⟨h, -⟩
      · exact absurd h ht.2.2.2.1
      · exact absurd hself (hp h)
      · exact absurd h ht.2.2.2.2
  | fragment ha => cases ha <;> simp_all
  | block ha => cases ha <;> simp_all
  | data ht | settings ht | ping ht => simp_all

/-- A settled stream that is gone stays gone. -/
theorem Settled.gone (h : Settled c s) (hs : Sound c) (hok : (c.frame f).code = .noError)
    (hget : c.streams.get s = none) : (c.frame f).conn.streams.get s = none := by
  refine Option.eq_none_iff_forall_ne_some.mpr fun st' hst' => ?_
  obtain ⟨st, hst, -⟩ := h.same hs hok hst'
  rw [hget] at hst
  cases hst

theorem Owns.get (h : Owns c q) : c.streams.get q.streamId = some (c.streams.heap q.state) :=
  get_heap h.entry

/-- **Which frames close a settled stream** that they do not reset: those whose credit lets out the
end of its response. -/
theorem Settled.closes_iff (hset : Settled c s) (hs : Sound c) (hp : Parked c) {st : StreamState}
    (hget : c.streams.get s = some st) (hok : (c.frame f).code = .noError)
    (hno : ¬ Resets c f s) : (c.frame f).conn.streams.get s = none ↔ LetsOut c f s := by
  have hun : c.Unended s := fun st h => (hp s st h).unended
  have heff := hs.effect hok
  generalize c.frame f = r at *
  cases heff with
  | quiet _ hack hw hkeep =>
      -- a frame that flushes nothing
      obtain ⟨hsame, -⟩ := hkeep s hset hno
      have hopen : r.conn.streams.get s ≠ none := by simp [hsame, hget]
      refine ⟨fun h => absurd h hopen, fun h => ?_⟩
      cases h with
      | stream ht hid => exact absurd (hid ▸ (hw ht).2.2) hopen
      | conn ht h0 => exact absurd h0 (hw ht).1
      | settings ht hack' => rw [hack ht] at hack'; cases hack'
  | @settings sts c₁ ht hack hparse hlist =>
      -- the settings shift every window first; the turns are taken over the shifted ones
      obtain ⟨-, hconn, hshift⟩ := onSettingList_windows hlist
      have hids : c₁.streams.ids = c.streams.ids := by
        have hstore := onSettingList_store c sts
        rw [hlist] at hstore
        exact congrArg StreamTable.idsInto hstore.table
      rw [letsOut_settings ht hack hparse]
      unfold takeSettings
      split
      · rename_i hany
        have hcloses := flushAll_closes (hs.onSettingList hlist) hun hget hshift
        rw [← hids, hconn] at hcloses
        exact hcloses.trans (and_iff_right hany).symm
      · rename_i hany
        simp [hshift, hget, hany]
  | connCredit ht h0 =>
      have hcloses := flushAll_closes (hs.withWindow (c.connSendWindow + f.increment)) hun hget
        fun id => (map_shifted_zero (c.streams.get id)).symm
      exact hcloses.trans (letsOut_conn ht h0 hset.pos).symm
  | credit ht h0 =>
      have hs₁ := hs.shift f.streamId f.increment
      rw [letsOut_stream ht h0]
      by_cases hid : f.streamId = s
      · subst hid
        have hshift : (c.updateStream f.streamId (shifted f.increment)).streams.get f.streamId =
            (c.streams.get f.streamId).map (shifted f.increment) := by
          rw [updateStream, get_update, if_pos rfl]
        rw [flushPending_closes hs₁ (hun.shifted hshift) (by rw [hshift, hget]; rfl),
          fits_shifted hshift]
        exact (and_iff_right rfl).symm
      · -- credit for another stream
        have hsame : ((c.updateStream f.streamId
            (shifted f.increment)).flushPending f.streamId).conn.streams.get s = some st := by
          rw [(Local.flushPending hs₁ f.streamId).other s (Ne.symm hid), updateStream, get_update,
            if_neg (Ne.symm hid), hget]
        simp [hsame, hid]

/-- **A frame that does not release the stream** leaves the request its state. -/
theorem Owns.frame (h : Owns c q) (hs : Sound c) (hp : Parked c) (hset : Settled c q.streamId)
    (hok : (c.frame f).code = .noError) (hno : ¬ Releases c f q.streamId) :
    Owns (c.frame f).conn q := by
  obtain ⟨hno, hflush⟩ := not_or.mp hno
  have hopen : (c.frame f).conn.streams.get q.streamId ≠ none := fun hnone =>
    hflush ((hset.closes_iff hs hp h.get hok hno).mp hnone)
  obtain ⟨st', hget'⟩ := Option.ne_none_iff_exists'.mp hopen
  obtain ⟨st, hst, hsame, htab⟩ := hset.same hs hok hget'
  rw [h.get, Option.some.injEq] at hst
  have hheap : st' = (c.frame f).conn.streams.heap q.state := by
    rw [get_heap (htab.trans h.entry), Option.some.injEq] at hget'
    exact hget'.symm
  have hheaders : st'.headers = st.headers := (congrArg StreamState.headers hsame :)
  have hbody : st'.body = st.body := (congrArg StreamState.body hsame :)
  refine ⟨htab.trans h.entry, ?_, ?_⟩
  · rw [← hheap, hheaders, ← hst, h.headers]
  · rw [← hheap, hbody, ← hst, h.body]

/-- A frame that releases a stream closes it. -/
theorem Releases.gone (hset : Settled c s) (hs : Sound c) (hp : Parked c)
    (hok : (c.frame f).code = .noError) (hr : Releases c f s) :
    (c.frame f).conn.streams.get s = none := by
  by_cases hreset : Resets c f s
  · exact hreset.gone hset.pos hok
  · cases hget : c.streams.get s with
    | none => exact hset.gone hs hok hget
    | some st => exact (hset.closes_iff hs hp hget hok hreset).mpr (hr.resolve_left hreset)

/-- An error of the connection leaves every state where it is. -/
theorem Owns.halted {r : Reply} (hh : ServerConn.Halted c r) : Owns r.conn q ↔ Owns c q := by
  have hheaders : ∀ i, (r.conn.streams.heap i).headers = (c.streams.heap i).headers := fun i =>
    (congrArg StreamState.headers (hh.store.heap i) :)
  have hbody : ∀ i, (r.conn.streams.heap i).body = (c.streams.heap i).body := fun i =>
    (congrArg StreamState.body (hh.store.heap i) :)
  constructor
  · rintro ⟨he, hh', hb⟩
    exact ⟨hh.store.table ▸ he, hheaders _ ▸ hh', hbody _ ▸ hb⟩
  · rintro ⟨he, hh', hb⟩
    exact ⟨hh.store.table.symm ▸ he, (hheaders _).trans hh', (hbody _).trans hb⟩

end Frame

/-! ### Runs -/

/-- A call of `consume` writes no response. -/
theorem consumeEvents_not_write (c : ServerConn) (buf : List UInt8) :
    ∀ d ∈ consumeEvents c buf, ∀ w, d.event ≠ .write w := by
  have hevents : ∀ l, ∀ d ∈ events l, ∀ w, d.event ≠ .write w := fun l d hd w hw => by
    obtain ⟨x, -, rfl⟩ := List.mem_map.mp hd
    cases hw
  intro d hd w hw
  unfold consumeEvents at hd
  split at hd
  · exact hevents _ d hd w hw
  · split at hd
    · rcases List.mem_cons.mp hd with rfl | hd
      · cases hw
      · exact hevents _ d hd w hw
    · cases hd

/-- The replies a call has noted are those of its frames. -/
theorem ConsumeState.run_reply (c : ServerConn) (buf : List UInt8) :
    ∀ x ∈ (ConsumeState.run ⟨c, buf, []⟩).handled, x.reply = x.before.frame x.frame := by
  have hhandle : ∀ (s : ConsumeState) f rest, (∀ x ∈ s.handled, x.reply = x.before.frame x.frame) →
      ∀ x ∈ (s.handle f rest).handled, x.reply = x.before.frame x.frame := fun s f rest h x hx => by
    rcases List.mem_append.mp hx with hx | hx
    · exact h x hx
    · rw [List.mem_singleton.mp hx]
  refine run_rule (P := fun s r => (∀ x ∈ s.handled, x.reply = x.before.frame x.frame) →
      ∀ x ∈ r.handled, x.reply = x.before.frame x.frame)
    (fun s r e h => ?_) (fun s s' r e ih h => ?_) ⟨c, buf, []⟩ fun x hx => (by cases hx)
  · have hp := step_pass s
    rw [e] at hp
    cases hp with
    | wait => exact h
    | refuse => exact h
    | @fail f rest code => exact hhandle s f rest h
  · have hp := step_pass s
    rw [e] at hp
    cases hp with
    | skip => exact ih h
    | handle => exact ih (hhandle s _ _ h)

/-- The requests a call of `consume` appends are those of its events. -/
theorem consume_reqs (c : ServerConn) (buf : List UInt8) :
    (c.consume buf).reqs = surfaced (consumeEvents c buf) := by
  have hreqs : ∀ r : Consumed, (∀ x ∈ r.handled, x.reply = x.before.frame x.frame) →
      r.reqs = surfaced (events r.handled) := fun r hr => by
    unfold Consumed.reqs surfaced events
    rw [List.flatMap_map]
    refine congrArg List.flatten (List.map_congr_left fun x hx => ?_)
    rw [hr x hx]
    rfl
  unfold consumeEvents
  split
  · rename_i hp
    rw [(consume_seen hp buf).1]
    exact hreqs _ (ConsumeState.run_reply c buf)
  · rename_i hp
    have hp := eq_false_of_ne_true hp
    split
    · rename_i hb
      rw [(consume_preface hp hb).1]
      exact hreqs _ (ConsumeState.run_reply _ _)
    · rename_i hb
      rw [Consumed.reqs, (consume_no_preface hp hb).2.2.1]
      rfl

/-- The fate of a surfaced request: once a frame releases its stream the stream is gone, and until
then the request has its storage. -/
theorem Trace.owns {c₁ c : ServerConn} {h : List Done} {q : Http2Request} (t : Trace c₁ h c)
    (hok : ∀ d ∈ h, d.Ok) (hnw : ∀ d ∈ h, ∀ w, d.event ≠ .write w) (hs : Sound c₁) (hp : Parked c₁)
    (hset : Settled c₁ q.streamId) (howns : Owns c₁ q) :
    Sound c ∧ Parked c ∧ Settled c q.streamId ∧
      ((∀ d ∈ h, ∀ f, d.event = .recv f → ¬ Releases d.before f q.streamId) → Owns c q) ∧
      ((∃ d ∈ h, ∃ f, d.event = .recv f ∧ Releases d.before f q.streamId) →
        c.streams.get q.streamId = none) := by
  induction t with
  | nil => exact ⟨hs, hp, hset, fun _ => howns, fun ⟨d, hd, _⟩ => (by cases hd)⟩
  | @snoc h c t hok' e ih =>
      obtain ⟨hsc, hpc, hsetc, hkeep, hgone⟩ := ih hok' fun d hd => hnw d (by simp [hd])
      have he : Done.Ok ⟨c, e⟩ := hok _ (by simp)
      cases e with
      | write w => exact absurd rfl (hnw ⟨c, .write w⟩ (by simp) w)
      | preface =>
          refine ⟨hsc.preface, hpc, hsetc.of_kept (Kept.refl _) rfl,
            fun hno => ?_, fun ⟨d, hd, f, hf, hr⟩ => ?_⟩
          · have ho := hkeep fun d hd => hno d (by simp [hd])
            exact ⟨ho.entry, ho.headers, ho.body⟩
          · rcases List.mem_append.mp hd with hd | hd
            · exact hgone ⟨d, hd, f, hf, hr⟩
            · rw [List.mem_singleton.mp hd] at hf
              cases hf
      | recv f =>
          refine ⟨hsc.frame he, hpc.frame hsc he, hsetc.frame hsc he, fun hno => ?_,
            fun ⟨d, hd, g, hg, hr⟩ => ?_⟩
          · have ho := hkeep fun d hd => hno d (by simp [hd])
            exact ho.frame hsc hpc hsetc he (hno ⟨c, .recv f⟩ (by simp) f rfl)
          · rcases List.mem_append.mp hd with hd | hd
            · exact hsetc.gone hsc he (hgone ⟨d, hd, g, hg, hr⟩)
            · rw [List.mem_singleton.mp hd] at hg hr
              cases hg
              exact hr.gone hsetc hsc hpc he

/-- **Whose storage a surfaced request is when `consume` returns**: its own exactly when no frame
behind it in the buffer releases its stream. -/
theorem request_owned_iff (calls : List Call) (hlive : (session calls).closed = false)
    (buf : List UInt8) :
    ((session calls).conn.consume buf).reqs = surfaced (consumeEvents (session calls).conn buf) ∧
      ∀ h₁ d h₂, consumeEvents (session calls).conn buf = h₁ ++ d :: h₂ → ∀ q ∈ d.reply.reqs,
        (Owned ((session calls).conn.consume buf).conn q ↔
          ∀ d' ∈ h₂, d'.Ok → ∀ f, d'.event = .recv f → ¬ Releases d'.before f q.streamId) := by
  refine ⟨consume_reqs _ _, fun h₁ d h₂ he q hq => ?_⟩
  obtain ⟨t₁, hok₁⟩ := runCalls_trace newServerConn calls
  obtain ⟨t, -⟩ := consume_trace (session calls).conn buf
  have hnw := consumeEvents_not_write (session calls).conn buf
  rw [he] at t hnw
  -- the events before the request, and those behind it
  obtain ⟨tb, hokb, ta⟩ := t.cut
  have hS := (t₁.append (hok₁ hlive) tb).surfacing fun d' hd' =>
    (List.mem_append.mp hd').elim (hok₁ hlive d') (hokb d')
  have hp := (t₁.append (hok₁ hlive) tb).parked fun d' hd' =>
    (List.mem_append.mp hd').elim (hok₁ hlive d') (hokb d')
  have hok : d.Ok := by
    by_contra h
    rw [(d.halted h).reqs] at hq
    cases hq
  have hnw₂ : ∀ d' ∈ h₂, ∀ w, d'.event ≠ .write w := fun d' hd' => hnw d' (by simp [hd'])
  generalize ((session calls).conn.consume buf).conn = c at *
  obtain ⟨b, e⟩ := d
  cases e with
  | preface => cases hq
  | write w => exact absurd rfl (hnw ⟨b, .write w⟩ (by simp) w)
  | recv f =>
      obtain ⟨-, -, -, hset, howns⟩ := hS.reads.surfaces hS.sound hok hq
      have hs := hS.sound.frame hok
      have hpf := hp.frame hS.sound hok
      have hiff : ∀ {h c'}, Trace (b.frame f).conn h c' → (∀ d ∈ h, d.Ok) →
          (∀ d ∈ h, ∀ w, d.event ≠ .write w) →
          (Owns c' q ↔ ∀ d ∈ h, ∀ f, d.event = .recv f → ¬ Releases d.before f q.streamId) :=
        fun t hok hnw => by
          obtain ⟨-, -, -, hkeep, hgone⟩ := t.owns hok hnw hs hpf hset howns
          refine ⟨fun ho d hd g hg hr => ?_, hkeep⟩
          have hget := ho.get
          rw [hgone ⟨d, hd, g, hg, hr⟩] at hget
          cases hget
      rw [owned_iff]
      rcases ta.last with hok' | ⟨h, d', rfl, t', hok', hd', rfl⟩
      · rw [hiff ta hok' hnw₂]
        exact ⟨fun h d hd _ => h d hd, fun h d hd => h d hd (hok' d hd)⟩
      · rw [Owns.halted (d'.halted hd'), hiff t' hok' fun d hd => hnw₂ d (by simp [hd]),
          List.forall_mem_append, List.forall_mem_singleton]
        refine ⟨fun h => ⟨fun d hd _ => h d hd, fun h => absurd h hd'⟩, fun h d hd => ?_⟩
        exact h.1 d hd (hok' d hd)

/-- A request, and credit for the connection behind it in the buffer. -/
def creditBehind : List UInt8 :=
  prefaceTail ++ [0, 0, 3, 1, 5, 0, 0, 0, 1, 0x82, 0x86, 0x84] ++
    [0, 0, 4, 8, 0, 0, 0, 0, 0, 0, 0, 0, 1]

/-- No response waits on its stream, so the credit releases nothing. -/
theorem request_owned_get :
    Owned (newServerConn.consume creditBehind).conn
      ⟨1, 0, [⟨ascii ":method", ascii "GET"⟩, ⟨ascii ":scheme", ascii "http"⟩,
        ⟨ascii ":path", ascii "/"⟩], []⟩ := by
  have hevents : (consumeEvents newServerConn creditBehind).map (fun d => (d.reply.reqs,
        (received [d]).map fun f => (f.type, f.streamId),
        (d.before.streams.get 1).map fun st => (st.pendingEnd, st.trailersPending))) =
      [([], [], none),
        ([⟨1, 0, [⟨ascii ":method", ascii "GET"⟩, ⟨ascii ":scheme", ascii "http"⟩,
          ⟨ascii ":path", ascii "/"⟩], []⟩], [(.headers, 1)], none),
        ([], [(.windowUpdate, 0)], some (false, false))] := by decide +kernel
  obtain ⟨p, l, hev, -, hl⟩ := List.map_eq_cons_iff.mp hevents
  obtain ⟨d, l, rfl, hd, hl⟩ := List.map_eq_cons_iff.mp hl
  obtain ⟨d', l, rfl, hd', hl⟩ := List.map_eq_cons_iff.mp hl
  obtain rfl := List.map_eq_nil_iff.mp hl
  simp only [Prod.mk.injEq] at hd hd'
  refine ((request_owned_iff [] rfl _).2 [p] d [d'] hev _
    (by rw [hd.1]; exact List.mem_singleton_self _)).mpr fun e he _ f hf hr => ?_
  obtain rfl := List.mem_singleton.mp he
  obtain ⟨-, hframe, hwait⟩ := hd'
  rw [show received [e] = [f] by simp [received, hf]] at hframe
  rcases hr with ⟨hid, -⟩ | hr
  · rw [List.map_singleton, List.cons.injEq, Prod.mk.injEq, hid] at hframe
    cases hframe.1.2
  · obtain ⟨st, hget, hend⟩ := hr.waits
    rw [hget, Option.map_some, Option.some.injEq, Prod.mk.injEq] at hwait
    rw [hwait.1, hwait.2] at hend
    simp at hend

/-- A request, its stream's reset and another request in one buffer: both are surfaced, with one
state, which is the second one's. -/
theorem request_reset_in_buffer :
    (newServerConn.consume (prefaceTail ++ [0, 0, 3, 1, 5, 0, 0, 0, 1, 0x82, 0x86, 0x84] ++
        [0, 0, 4, 3, 0, 0, 0, 0, 1, 0, 0, 0, 8] ++
        [0, 0, 3, 1, 5, 0, 0, 0, 3, 0x82, 0x86, 0x84])).reqs.map (fun q => (q.streamId, q.state)) =
        [(1, 0), (3, 0)] ∧
      ∃ q ∈ (newServerConn.consume (prefaceTail ++ [0, 0, 3, 1, 5, 0, 0, 0, 1, 0x82, 0x86, 0x84] ++
        [0, 0, 4, 3, 0, 0, 0, 0, 1, 0, 0, 0, 8] ++
        [0, 0, 3, 1, 5, 0, 0, 0, 3, 0x82, 0x86, 0x84])).reqs,
      ¬ Owned (newServerConn.consume (prefaceTail ++
        [0, 0, 3, 1, 5, 0, 0, 0, 1, 0x82, 0x86, 0x84] ++ [0, 0, 4, 3, 0, 0, 0, 0, 1, 0, 0, 0, 8] ++
        [0, 0, 3, 1, 5, 0, 0, 0, 3, 0x82, 0x86, 0x84])).conn q := by
  have hreqs : (newServerConn.consume (prefaceTail ++
      [0, 0, 3, 1, 5, 0, 0, 0, 1, 0x82, 0x86, 0x84] ++ [0, 0, 4, 3, 0, 0, 0, 0, 1, 0, 0, 0, 8] ++
      [0, 0, 3, 1, 5, 0, 0, 0, 3, 0x82, 0x86, 0x84])).reqs.map (fun q => (q.streamId, q.state)) =
      [(1, 0), (3, 0)] := by decide +kernel
  obtain ⟨q, l, hev, hq, -⟩ := List.map_eq_cons_iff.mp hreqs
  refine ⟨hreqs, q, by rw [hev]; exact List.mem_cons_self, fun ho => ?_⟩
  have hentry := ho.entry
  rw [(Prod.mk.inj hq).1, (Prod.mk.inj hq).2] at hentry
  exact absurd hentry (by decide +kernel)

end Vanilla.Http2

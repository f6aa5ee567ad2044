import Vanilla.Http2.Effects

/-!
# HTTP/2 — the peer's credit

What the peer allows the server to send, as the frames of both sides say it: `Credit` is the peer's
account, kept by the frames received that were no error and the frames written, with no look at the
connection.

* `Credit.Covers`: every frame of a history is written within the credit of its moment.
* `Tally`: the connection's windows are the account.
* `sends_within_credit`: whatever is called, the server stays within its credit.
-/

namespace Vanilla.Http2

open Streams ServerConn

instance (d : Done) : Decidable d.Ok := inferInstanceAs (Decidable (_ = _))

/-! ### The account -/

/-- What the peer allows: on the connection, on a stream, and in one frame.  A stream's credit is
the initial window with all its changes, plus its WINDOW_UPDATEs, minus its DATA. -/
structure Credit where
  conn : Int := defaultWindowSize
  init : Int := defaultWindowSize
  maxFrame : Nat := defaultMaxFrameSize
  stream : Nat → Int := fun _ => defaultWindowSize

namespace Credit

/-- A WINDOW_UPDATE. -/
def grant (cr : Credit) (id inc : Nat) : Credit :=
  if id = 0 then { cr with conn := cr.conn + inc }
  else { cr with stream := Function.update cr.stream id (cr.stream id + inc) }

/-- A setting.  A changed initial window moves the credit of every stream. -/
def setting (cr : Credit) (st : Setting) : Credit :=
  if st.id = settingInitialWindowSize then
    { cr with init := st.val, stream := fun id => cr.stream id + (st.val - cr.init) }
  else if st.id = settingMaxFrameSize then { cr with maxFrame := st.val }
  else cr

/-- A frame from the peer. -/
def recv (cr : Credit) (f : Frame) : Credit :=
  match f.type with
  | .windowUpdate => cr.grant f.streamId f.increment
  | .settings =>
    if f.has flagAck then cr else ((parseSettings f.payload).getD []).foldl setting cr
  | _ => cr

/-- `n` bytes of DATA. -/
def spend (cr : Credit) (id n : Nat) : Credit :=
  { cr with
    conn := cr.conn - n
    stream := Function.update cr.stream id (cr.stream id - n) }

/-- A frame to the peer. -/
def sent (cr : Credit) (f : Frame) : Credit :=
  if f.type = .data then cr.spend f.streamId f.payload.length else cr

/-- The credit allows a frame: it is not above the peer's limit, and DATA that is not empty is not
above what is left on the connection and on the stream. -/
def Allows (cr : Credit) (f : Frame) : Prop :=
  f.payload.length ≤ cr.maxFrame ∧
    (f.type = .data → f.payload ≠ [] →
      f.payload.length ≤ cr.conn ∧ f.payload.length ≤ cr.stream f.streamId)

/-- The same of any DATA, an empty frame among them. -/
def AllowsEmpty (cr : Credit) (f : Frame) : Prop :=
  f.payload.length ≤ cr.maxFrame ∧ (f.type = .data → f.payload.length ≤ cr.stream f.streamId)

instance (cr : Credit) (f : Frame) : Decidable (cr.AllowsEmpty f) :=
  inferInstanceAs (Decidable (_ ∧ (_ → _)))

/-- Each of some frames is as `P` says, at the credit the ones before it leave. -/
def Each (P : Credit → Frame → Prop) : Credit → List Frame → Prop
  | _, [] => True
  | cr, f :: fs => P cr f ∧ Each P (cr.sent f) fs

/-- The credit allows some frames, one after the other. -/
abbrev AllowsAll (cr : Credit) (fs : List Frame) : Prop := Each Allows cr fs

/-- An event, before its frames are written. -/
def heard (cr : Credit) (d : Done) : Credit :=
  match d.event with
  | .recv f => if d.Ok then cr.recv f else cr
  | _ => cr

/-- An event and its frames. -/
def after (cr : Credit) (d : Done) : Credit := d.reply.out.foldl sent (cr.heard d)

/-- Every frame of a history is as `P` says, at the credit of its moment. -/
def Covers (P : Credit → Frame → Prop) : Credit → List Done → Prop
  | _, [] => True
  | cr, d :: h => Each P (cr.heard d) d.reply.out ∧ Covers P (cr.after d) h

instance decidableEach {P : Credit → Frame → Prop} [∀ cr f, Decidable (P cr f)] :
    ∀ (cr : Credit) (fs : List Frame), Decidable (Each P cr fs)
  | _, [] => inferInstanceAs (Decidable True)
  | cr, f :: fs =>
    have := decidableEach (P := P) (cr.sent f) fs
    inferInstanceAs (Decidable (P cr f ∧ Each P (cr.sent f) fs))

instance decidableCovers {P : Credit → Frame → Prop} [∀ cr f, Decidable (P cr f)] :
    ∀ (cr : Credit) (h : List Done), Decidable (Covers P cr h)
  | _, [] => inferInstanceAs (Decidable True)
  | cr, d :: h =>
    have := decidableCovers (P := P) (cr.after d) h
    inferInstanceAs (Decidable (Each P (cr.heard d) d.reply.out ∧ Covers P (cr.after d) h))

end Credit

/-- The credit after a history. -/
def creditAfter (h : List Done) : Credit := h.foldl Credit.after {}

/-- How much DATA some frames carry. -/
def dataLength (fs : List Frame) : Nat :=
  (fs.map fun f => if f.type = .data then f.payload.length else 0).sum

/-- How much DATA a history has sent. -/
def dataSent (h : List Done) : Nat := dataLength (h.flatMap (·.reply.out))

/-- The increment of an accepted WINDOW_UPDATE of the connection. -/
def connIncrement (d : Done) : Nat :=
  match d.event with
  | .recv f => if f.type = .windowUpdate ∧ f.streamId = 0 ∧ d.Ok then f.increment else 0
  | _ => 0

/-- How much the WINDOW_UPDATEs of the connection have added. -/
def connIncrements (h : List Done) : Nat := (h.map connIncrement).sum

namespace Credit

/-! ### Accounting -/

theorem sent_conn (cr : Credit) (f : Frame) :
    (cr.sent f).conn = cr.conn - dataLength [f] := by
  unfold sent dataLength
  split <;> simp [spend, *]

theorem foldl_sent_conn (fs : List Frame) (cr : Credit) :
    (fs.foldl sent cr).conn = cr.conn - dataLength fs := by
  induction fs generalizing cr with
  | nil => simp [dataLength]
  | cons f fs ih =>
      rw [List.foldl_cons, ih, sent_conn]
      simp only [dataLength, List.map_cons, List.map_nil, List.sum_cons, List.sum_nil]
      omega

theorem setting_conn (cr : Credit) (st : Setting) : (cr.setting st).conn = cr.conn := by
  unfold setting
  split
  · rfl
  · split <;> rfl

theorem foldl_setting_conn (sts : List Setting) (cr : Credit) :
    (sts.foldl setting cr).conn = cr.conn := by
  induction sts generalizing cr with
  | nil => rfl
  | cons st sts ih => rw [List.foldl_cons, ih, setting_conn]

theorem heard_conn (cr : Credit) (d : Done) : (cr.heard d).conn = cr.conn + connIncrement d := by
  unfold heard connIncrement
  split
  · rename_i f _
    split
    · rename_i hok
      unfold recv
      split
      · rename_i ht
        unfold grant
        split
        · rename_i h0
          rw [if_pos ⟨ht, h0, hok⟩]
        · rename_i h0
          rw [if_neg fun h => h0 h.2.1]
          exact (Int.add_zero _).symm
      · rename_i ht
        have hne : ¬ (f.type = .windowUpdate ∧ f.streamId = 0 ∧ d.Ok) := by simp [ht]
        rw [if_neg hne]
        split
        · exact (Int.add_zero _).symm
        · rw [foldl_setting_conn]
          exact (Int.add_zero _).symm
      · rename_i ht _
        rw [if_neg fun h => ht h.1]
        exact (Int.add_zero _).symm
    · rename_i hok
      rw [if_neg fun h => hok h.2.2]
      exact (Int.add_zero _).symm
  · exact (Int.add_zero _).symm

/-- The connection's credit is what the WINDOW_UPDATEs added, less the DATA. -/
theorem foldl_after_conn (h : List Done) (cr : Credit) :
    (h.foldl after cr).conn = cr.conn + connIncrements h - dataSent h := by
  induction h generalizing cr with
  | nil => simp [connIncrements, dataSent, dataLength]
  | cons d h ih =>
      rw [List.foldl_cons, ih, after, foldl_sent_conn, heard_conn]
      simp only [connIncrements, dataSent, dataLength, List.map_cons, List.sum_cons,
        List.flatMap_cons, List.map_append, List.sum_append]
      omega

theorem each_append {P : Credit → Frame → Prop} {fs gs : List Frame} {cr : Credit} :
    Each P cr (fs ++ gs) ↔ Each P cr fs ∧ Each P (fs.foldl sent cr) gs := by
  induction fs generalizing cr with
  | nil => simp [Each]
  | cons f fs ih => simp [Each, ih, and_assoc]

theorem covers_append {P : Credit → Frame → Prop} {h h' : List Done} {cr : Credit} :
    Covers P cr (h ++ h') ↔ Covers P cr h ∧ Covers P (h.foldl after cr) h' := by
  induction h generalizing cr with
  | nil => simp [Covers]
  | cons d h ih => simp [Covers, ih, and_assoc]

/-! ### Frames -/

/-- Frames that carry no DATA are a matter of their size. -/
theorem allowsAll_control {fs : List Frame} {cr : Credit}
    (h : ∀ g ∈ fs, g.type ≠ .data ∧ g.payload.length ≤ cr.maxFrame) :
    cr.AllowsAll fs ∧ fs.foldl sent cr = cr := by
  induction fs with
  | nil => exact ⟨trivial, rfl⟩
  | cons g fs ih =>
      obtain ⟨ht, hle⟩ := h g List.mem_cons_self
      have hs : cr.sent g = cr := if_neg ht
      obtain ⟨hall, hfold⟩ := ih fun g hg => h g (List.mem_cons_of_mem _ hg)
      refine ⟨⟨⟨hle, fun hd => absurd hd ht⟩, ?_⟩, ?_⟩
      · rw [hs]
        exact hall
      · rw [List.foldl_cons, hs]
        exact hfold

theorem spend_spend (cr : Credit) (id n m : Nat) :
    (cr.spend id n).spend id m = cr.spend id (n + m) := by
  unfold spend
  simp only [Function.update_self, Function.update_idem, Credit.mk.injEq, true_and]
  refine ⟨by omega, ?_⟩
  congr 1
  omega

/-- DATA that fits both windows is allowed, frame by frame, and spent. -/
theorem allowsAll_dataRun {id : Nat} {last : Bool} {b : List UInt8} {fs : List Frame} {cr : Credit}
    (h : DataRun id cr.maxFrame last b fs)
    (hwin : b ≠ [] → (b.length : Int) ≤ cr.conn ∧ b.length ≤ cr.stream id) :
    cr.AllowsAll fs ∧ fs.foldl sent cr = cr.spend id b.length := by
  generalize hm : cr.maxFrame = m at h
  induction h generalizing cr with
  | nil =>
      refine ⟨trivial, ?_⟩
      simp [spend]
  | last hb hle =>
      exact ⟨⟨⟨hm ▸ hle, fun _ _ => hwin hb⟩, trivial⟩, rfl⟩
  | @cons b rest fs hb hrest hle t ih =>
      obtain ⟨hc, hs⟩ := hwin (by simp [hb])
      rw [List.length_append] at hc hs
      obtain ⟨hall, hfold⟩ := @ih (cr.spend id b.length)
        (fun _ => by simp only [spend, Function.update_self]; omega) hm
      refine ⟨⟨⟨hm ▸ hle, fun _ _ => ⟨?_, ?_⟩⟩, hall⟩, ?_⟩
      · show (b.length : Int) ≤ cr.conn
        omega
      · show (b.length : Int) ≤ cr.stream id
        omega
      · rw [List.foldl_cons, show cr.sent (writeData id b false) = cr.spend id b.length from rfl,
          hfold, spend_spend, List.length_append]

end Credit

/-- What is behind the DATA of a response costs nothing. -/
theorem Credit.allowsAll_tail {cr : Credit} {id : Nat} {tail : List Frame}
    (h : ServerConn.Tail id cr.maxFrame tail) :
    cr.AllowsAll tail ∧ tail.foldl Credit.sent cr = cr := by
  cases h with
  | none => exact ⟨trivial, rfl⟩
  | trailers block =>
      refine Credit.allowsAll_control fun g hg => ?_
      obtain ⟨ht, -, hle⟩ := headerFrames_fit hg
      exact ⟨by rcases ht with ht | ht <;> simp [ht], hle⟩
  | empty =>
      refine ⟨⟨⟨Nat.zero_le _, fun _ hne => absurd rfl hne⟩, trivial⟩, ?_⟩
      show cr.spend id 0 = cr
      simp [Credit.spend]

/-! ### The windows are the account -/

/-- The connection's windows and limits are the peer's account of them; a stream that can still be
opened will have the initial window. -/
structure Tally (cr : Credit) (c : ServerConn) : Prop where
  conn : c.connSendWindow = cr.conn
  nonneg : 0 ≤ cr.conn
  init : c.initSendWindow = cr.init
  maxFrame : c.peerMaxFrame = cr.maxFrame
  stream : ∀ id st, c.streams.get id = some st → st.sendWindow = cr.stream id
  fresh : ∀ id, c.Pending id → cr.stream id = cr.init

theorem tally_new : Tally {} newServerConn where
  conn := rfl
  nonneg := by decide
  init := rfl
  maxFrame := rfl
  stream id st h := by
    rw [show newServerConn.streams = .new from rfl, get_new] at h
    cases h
  fresh _ _ := rfl

/-- No limit of the peer is below the size of a control frame. -/
theorem Frame.Control.fits {cr : Credit} {c : ServerConn} {g : Frame} (hg : g.Control)
    (ht : Tally cr c) (hs : Sound c) : g.type ≠ .data ∧ g.payload.length ≤ cr.maxFrame := by
  have h8 : 8 ≤ defaultMaxFrameSize := by decide
  exact ⟨hg.1, ht.maxFrame ▸ (hg.2.2.2.trans h8).trans hs.maxFrame⟩

/-- A reply whose frames the credit allows, and that leaves the windows in step with it. -/
def Pays (cr : Credit) (r : Reply) : Prop :=
  cr.AllowsAll r.out ∧ Tally (r.out.foldl Credit.sent cr) r.conn

namespace Pays

variable {cr : Credit} {r : Reply}

theorem of_control (ht : Tally cr r.conn)
    (hout : ∀ g ∈ r.out, g.type ≠ .data ∧ g.payload.length ≤ cr.maxFrame) : Pays cr r := by
  obtain ⟨hall, hfold⟩ := Credit.allowsAll_control hout
  exact ⟨hall, by rwa [hfold]⟩

/-- Frames that are paid for, and then others. -/
theorem after {out : List Frame} (hall : cr.AllowsAll out) (h : Pays (out.foldl Credit.sent cr) r) :
    Pays cr (r.after out) := by
  refine ⟨Credit.each_append.mpr ⟨hall, h.1⟩, ?_⟩
  show Tally ((out ++ r.out).foldl Credit.sent cr) r.conn
  rw [List.foldl_append]
  exact h.2

end Pays

namespace Tally

variable {cr : Credit} {c : ServerConn}

/-- **Sending on a stream** is paid for. -/
theorem sends (ht : Tally cr c) (hs : Sound c) {id : Nat} {st : StreamState}
    (hget : c.streams.get id = some st) {b : List UInt8} {tail : List Frame} {r : Reply}
    (hsend : c.Sends id st b tail r) (htail : ServerConn.Tail id c.peerMaxFrame tail)
    (hbase : r.conn.base = c.base) : Pays cr r := by
  obtain ⟨last, fs, hrun, hout⟩ := hsend.out
  rw [ht.maxFrame] at hrun htail
  have hwin := hsend.window
  rw [ht.conn, ht.stream id st hget] at hwin
  obtain ⟨hall, hfold⟩ := Credit.allowsAll_dataRun hrun hwin
  have htally : Tally (cr.spend id b.length) r.conn := by
    refine ⟨?_, ?_, ?_, ?_, fun i st' h' => ?_, fun i hp => ?_⟩
    · rw [hsend.conn, ht.conn]
      rfl
    · show 0 ≤ cr.conn - b.length
      by_cases hb : b = []
      · have := ht.nonneg
        simp only [hb, List.length_nil]
        omega
      · have := (hwin hb).1
        omega
    · exact (congrArg initSendWindow hbase :).trans ht.init
    · exact (congrArg peerMaxFrame hbase :).trans ht.maxFrame
    · by_cases hi : i = id
      · subst hi
        rw [hsend.self st' h', ht.stream i st hget]
        simp [Credit.spend]
      · rw [hsend.other i hi] at h'
        rw [ht.stream i st' h']
        simp [Credit.spend, hi]
    · have hp := (pending_of_headerPart (headerPart_of_base hbase)).mp hp
      have hi : i ≠ id := fun hi => by
        rw [← hi, hs.fresh i hp] at hget
        cases hget
      show Function.update cr.stream id _ i = cr.init
      rw [Function.update_of_ne hi]
      exact ht.fresh i hp
  obtain ⟨hall', hfold'⟩ := @Credit.allowsAll_tail (cr.spend id b.length) _ _ htail
  unfold Pays Credit.AllowsAll
  rw [hout, Credit.each_append, List.foldl_append, hfold, hfold']
  exact ⟨⟨hall, hall'⟩, htally⟩

/-- Nothing is sent. -/
theorem idle (ht : Tally cr c) : Pays cr { conn := c } := ⟨trivial, ht⟩

theorem flushPending (ht : Tally cr c) (hs : Sound c) (id : Nat) : Pays cr (c.flushPending id) := by
  cases hget : c.streams.get id with
  | none =>
      rw [flushPending_none c hget]
      exact ht.idle
  | some st =>
      obtain ⟨b, tail, hsend, htail⟩ := flushPending_sends hs.pos hget
      exact ht.sends hs hget hsend htail (flushPending_base c id)

theorem flushAll (ht : Tally cr c) (hs : Sound c) (ids : List Nat) : Pays cr (c.flushAll ids) := by
  induction ids generalizing cr c with
  | nil => exact ht.idle
  | cons id ids ih =>
      have h := ht.flushPending hs id
      exact Pays.after h.1 (ih h.2 (hs.flushPending id))

/-- No stream is opened and no window changes. -/
theorem of_kept {c' : ServerConn} (ht : Tally cr c)
    (hk : Kept (fun st st' => st'.sendWindow = st.sendWindow) c.streams c'.streams)
    (hrest : c'.rest = c.rest) : Tally cr c' where
  conn := (congrArg connSendWindow hrest :).trans ht.conn
  nonneg := ht.nonneg
  init := (congrArg initSendWindow hrest :).trans ht.init
  maxFrame := (congrArg peerMaxFrame hrest :).trans ht.maxFrame
  stream id st' h := by
    obtain ⟨st, hst, he, -⟩ := hk id st' h
    rw [he, ht.stream id st hst]
  fresh id hp := ht.fresh id ((pending_of_headerPart
    (headerPart_of_base (base_of_rest hrest))).mp hp)

theorem release (ht : Tally cr c) (id : Nat) : Tally cr (c.releaseStream id) :=
  ht.of_kept (Kept.release c.streams id) rfl

theorem writeResponseHeaders (ht : Tally cr c) (id : Nat) (block : List UInt8) (endStream : Bool) :
    Pays cr (c.writeResponseHeaders id block endStream) := by
  refine .of_control ?_ fun g hg => ?_
  · unfold ServerConn.writeResponseHeaders
    dsimp only
    split
    · exact ht.release id
    · exact ht
  · obtain ⟨hty, -, hle⟩ := headerFrames_fit hg
    rw [← ht.maxFrame]
    exact ⟨by rcases hty with h | h <;> simp [h], hle⟩

theorem writeResponseBody (ht : Tally cr c) (hs : Sound c) (id : Nat) (body : List UInt8)
    (endStream : Bool) : Pays cr (c.writeResponseBody id body endStream) := by
  cases hget : c.streams.get id with
  | none =>
      rw [writeResponseBody_none c hget]
      exact ht.idle
  | some st =>
      obtain ⟨b, tail, hsend, htail⟩ :=
        writeResponseBody_sends hs.pos hget body endStream
      exact ht.sends hs hget hsend htail (writeResponseBody_base c id body endStream)

theorem writeResponseTrailers (ht : Tally cr c) (id : Nat) (block : List UInt8) :
    Pays cr (c.writeResponseTrailers id block) := by
  unfold ServerConn.writeResponseTrailers
  split
  · exact ht.idle
  · split
    · refine Tally.idle (ht.of_kept ?_ rfl)
      exact Kept.update (fun _ => by rfl) c.streams id
    · exact ht.writeResponseHeaders id block true

/-- **Writing a response** is paid for. -/
theorem write (ht : Tally cr c) (hs : Sound c) (w : Write) : Pays cr (w.exec c) := by
  cases w with
  | headers id block endStream => exact ht.writeResponseHeaders id block endStream
  | body id bytes endStream => exact ht.writeResponseBody hs id bytes endStream
  | data id bytes => exact ht.writeResponseBody hs id bytes true
  | trailers id block => exact ht.writeResponseTrailers id block
  | abort id code =>
      refine .of_control (ht.release id) fun g hg => ?_
      rw [List.mem_singleton.mp hg]
      exact (control_rstStream id code).fits ht hs

/-- A frame that has no part in the responses. -/
theorem quiet (ht : Tally cr c) {r : Reply} (hq : Quiet c r) : Tally cr r.conn where
  conn := hq.conn.trans ht.conn
  nonneg := ht.nonneg
  init := (congrArg Prod.snd hq.limits :).trans ht.init
  maxFrame := (congrArg Prod.fst hq.limits :).trans ht.maxFrame
  stream id st' h := by
    rcases hq.streams id st' h with ⟨st, hst, he⟩ | ⟨hp, he⟩
    · rw [show st'.sendWindow = st.sendWindow from (congrArg StreamState.sendWindow he :)]
      exact ht.stream id st hst
    · rw [show st'.sendWindow = c.initSendWindow from (congrArg StreamState.sendWindow he :),
        ht.init, ht.fresh id hp]
  fresh id hp := ht.fresh id (hq.pending id hp)

/-- Credit for a stream that is gone. -/
theorem grant (ht : Tally cr c) {id : Nat} (h0 : id ≠ 0) (hget : c.streams.get id = none)
    (hp : ¬ c.Pending id) (inc : Nat) : Tally (cr.grant id inc) c := by
  have hne : ∀ i, (c.Pending i ∨ ∃ st, c.streams.get i = some st) → i ≠ id := by
    rintro i (hi | ⟨st, hi⟩) rfl
    · exact hp hi
    · rw [hget] at hi
      cases hi
  unfold Credit.grant
  rw [if_neg h0]
  refine ⟨ht.conn, ht.nonneg, ht.init, ht.maxFrame, fun i st h => ?_, fun i hi => ?_⟩
  · show _ = Function.update cr.stream id _ i
    rw [Function.update_of_ne (hne i (.inr ⟨st, h⟩))]
    exact ht.stream i st h
  · show Function.update cr.stream id _ i = _
    rw [Function.update_of_ne (hne i (.inl hi))]
    exact ht.fresh i hi

theorem onSetting (ht : Tally cr c) {st : Setting} (hok : (c.onSetting st).2 = .noError) :
    Tally (cr.setting st) (c.onSetting st).1 := by
  unfold ServerConn.onSetting at hok ⊢
  unfold Credit.setting
  split
  · rename_i hid
    rw [if_pos hid] at hok
    split at hok
    · cases hok
    · rename_i hv
      rw [if_neg hv]
      refine ⟨ht.conn, ht.nonneg, rfl, ht.maxFrame, fun id st' h => ?_, fun id hp => ?_⟩
      · simp only [get_addToSendWindows] at h
        obtain ⟨st₀, hst, rfl⟩ := Option.map_eq_some_iff.mp h
        show st₀.sendWindow + _ = cr.stream id + _
        rw [ht.stream id st₀ hst, ht.init]
      · show cr.stream id + (st.val - cr.init) = st.val
        rw [ht.fresh id hp]
        omega
  · rename_i hid
    rw [if_neg hid] at hok
    split
    · rename_i hid
      rw [if_pos hid] at hok
      split at hok
      · cases hok
      · rename_i hv
        rw [if_neg hv]
        exact ⟨ht.conn, ht.nonneg, ht.init, rfl, ht.stream, ht.fresh⟩
    · split <;> (try split) <;> exact ht

theorem onSettingList (ht : Tally cr c) {sts : List Setting} {c₁ : ServerConn}
    (hlist : c.onSettingList sts = (c₁, .noError)) : Tally (sts.foldl Credit.setting cr) c₁ := by
  induction sts generalizing cr c with
  | nil =>
      cases hlist
      exact ht
  | cons st sts ih =>
      obtain ⟨hst, hrest⟩ := onSettingList_cons hlist
      exact ih (ht.onSetting hst) hrest

theorem takeSettings (ht : Tally cr c) (hs : Sound c) (sts : List Setting) :
    Pays cr (c.takeSettings sts) := by
  have hack : ∀ g ∈ [writeSettingsAck], g.type ≠ .data ∧ g.payload.length ≤ cr.maxFrame :=
    fun g hg => by
      rw [List.mem_singleton.mp hg]
      exact ⟨by decide, Nat.zero_le _⟩
  unfold ServerConn.takeSettings
  split
  · obtain ⟨hall, hfold⟩ := Credit.allowsAll_control hack
    refine Pays.after hall ?_
    rw [hfold]
    exact ht.flushAll hs _
  · exact .of_control ht hack

/-- Credit for a stream that is open. -/
theorem credit (ht : Tally cr c) (hs : Sound c) {id : Nat} {st : StreamState} (h0 : id ≠ 0)
    (hget : c.streams.get id = some st) (inc : Nat) :
    Tally (cr.grant id inc) (c.updateStream id (shifted inc)) := by
  unfold Credit.grant updateStream
  rw [if_neg h0]
  refine ⟨ht.conn, ht.nonneg, ht.init, ht.maxFrame, fun i st' h => ?_, fun i hp => ?_⟩
  · rw [get_update] at h
    show _ = Function.update cr.stream id _ i
    by_cases hi : i = id
    · subst hi
      rw [if_pos rfl] at h
      obtain ⟨st₀, hst, rfl⟩ := Option.map_eq_some_iff.mp h
      rw [Function.update_self, ← ht.stream i st₀ hst]
      rfl
    · rw [if_neg hi] at h
      rw [Function.update_of_ne hi]
      exact ht.stream i st' h
  · show Function.update cr.stream id _ i = _
    rw [Function.update_of_ne fun hi => ?_]
    · exact ht.fresh i hp
    · rw [← hi, hs.fresh i hp] at hget
      cases hget

/-- **One frame** is paid for by the credit it leaves. -/
theorem frame (ht : Tally cr c) (hs : Sound c) {f : Frame} (hok : (c.frame f).code = .noError) :
    Pays (cr.recv f) (c.frame f) := by
  have heff := hs.effect hok
  have hs' := hs.frame hok
  generalize c.frame f = r at *
  cases heff with
  | quiet hq hset hw =>
      have ht' : Tally (cr.recv f) r.conn := by
        unfold Credit.recv
        split
        · rename_i hty
          obtain ⟨h0, hp, hget⟩ := hw hty
          exact (ht.quiet hq).grant h0 hget (fun h => hp (hq.pending _ h)) _
        · rename_i hty
          rw [if_pos (hset hty)]
          exact ht.quiet hq
        · exact ht.quiet hq
      exact .of_control ht' fun g hg => (hq.out g hg).fits ht' hs'
  | @settings settings c₁ hty hack hparse hlist =>
      have ht₁ := ht.onSettingList hlist
      have hrecv : cr.recv f = settings.foldl Credit.setting cr := by
        unfold Credit.recv
        rw [hty]
        dsimp only
        rw [if_neg (by simp [hack]), hparse]
        rfl
      rw [hrecv]
      exact ht₁.takeSettings (hs.onSettingList hlist) settings
  | connCredit hty h0 =>
      have hrecv : cr.recv f = { cr with conn := cr.conn + f.increment } := by
        unfold Credit.recv Credit.grant
        rw [hty, h0]
        rfl
      rw [hrecv]
      have ht₁ : Tally { cr with conn := cr.conn + f.increment }
          { c with connSendWindow := c.connSendWindow + f.increment } :=
        ⟨by rw [ht.conn], Int.add_nonneg ht.nonneg (Int.natCast_nonneg _), ht.init, ht.maxFrame,
          ht.stream, ht.fresh⟩
      exact ht₁.flushAll (hs.withWindow _) _
  | credit hty h0 hget =>
      have hrecv : cr.recv f = cr.grant f.streamId f.increment := by
        unfold Credit.recv
        rw [hty]
      rw [hrecv]
      exact (ht.credit hs h0 hget _).flushPending (hs.shift _ _) _

end Tally

/-! ### Runs -/

/-- **Along every trace** the frames written are within the credit, which is in step with the last
connection before an error. -/
theorem Trace.covers {h : List Done} {c : ServerConn} (t : Trace newServerConn h c) :
    Credit.Covers Credit.Allows {} h ∧
      ∃ c', Sound c' ∧ Tally (creditAfter h) c' ∧ ((∀ d ∈ h, d.Ok) → c' = c) := by
  induction t with
  | nil => exact ⟨trivial, newServerConn, sound_new, tally_new, fun _ => rfl⟩
  | @snoc h c t hok e ih =>
      obtain ⟨hcov, c', hs, ht, hc⟩ := ih
      obtain rfl := hc hok
      have hafter : creditAfter (h ++ [⟨c', e⟩]) = (creditAfter h).after ⟨c', e⟩ := by
        simp [creditAfter]
      rw [hafter, Credit.covers_append]
      by_cases he : Done.Ok ⟨c', e⟩
      · have hpays : Pays ((creditAfter h).heard ⟨c', e⟩) (Done.reply ⟨c', e⟩) := by
          cases e with
          | preface =>
              exact ⟨trivial, ht.conn, ht.nonneg, ht.init, ht.maxFrame, ht.stream, ht.fresh⟩
          | write w => exact ht.write hs w
          | recv f =>
              rw [show (creditAfter h).heard ⟨c', .recv f⟩ = (creditAfter h).recv f from if_pos he]
              exact ht.frame hs he
        refine ⟨⟨hcov, hpays.1, trivial⟩, _, ?_, hpays.2, fun _ => rfl⟩
        refine (Trace.snoc t hok e).sound fun d hd => ?_
        rcases List.mem_append.mp hd with hd | hd
        · exact hok d hd
        · rw [List.mem_singleton.mp hd]
          exact he
      · -- an error is no part of the account, and appends nothing
        cases e with
        | preface => exact absurd rfl he
        | write w => exact absurd (write_ok c' w) he
        | recv f =>
            have hout := (frame_bare c' f he).out
            have hheard : (creditAfter h).heard ⟨c', .recv f⟩ = creditAfter h := if_neg he
            have hsame : (creditAfter h).after ⟨c', .recv f⟩ = creditAfter h := by
              rw [Credit.after, hheard]
              exact congrArg (List.foldl Credit.sent (creditAfter h)) hout
            refine ⟨⟨hcov, ?_, trivial⟩, c', hs, hsame.symm ▸ ht, fun hall => ?_⟩
            · rw [show (Done.reply ⟨c', .recv f⟩).out = [] from hout]
              trivial
            · exact absurd (hall _ (by simp)) he

/-- The GOAWAY of a call that closes. -/
theorem consume_goaway (c : ServerConn) (buf : List UInt8) :
    ∀ g ∈ (c.consume buf).goaway, g.payload.length = 8 := by
  have hrun : ∀ s : ConsumeState, ∀ g ∈ s.run.goaway, g.payload.length = 8 :=
    ConsumeState.run_rule (P := fun _ r => ∀ g ∈ r.goaway, g.payload.length = 8)
      (fun s r e g hg => by
        have hp := s.step_pass
        rw [e] at hp
        cases hp with
        | wait => cases hg
        | refuse code =>
            cases hg
            rfl
        | fail code =>
            cases hg
            rfl)
      (fun _ _ _ _ ih => ih)
  unfold consume
  split
  · exact hrun _
  · split
    · intro g hg
      cases hg
    · split
      · intro g hg
        cases hg
        rfl
      · exact hrun _

theorem runCalls_goaway (c : ServerConn) (calls : List Call) :
    ∀ g ∈ (runCalls c calls).goaway, g.payload.length = 8 := by
  induction calls generalizing c with
  | nil =>
      intro g hg
      cases hg
  | cons call calls ih =>
      cases call with
      | write w => exact ih _
      | consume buf =>
          unfold runCalls
          dsimp only
          split
          · exact consume_goaway c buf
          · exact ih _

/-- **The server stays within the peer's credit.**  Whatever is called on a new connection, every
frame is written within the credit of its moment, the GOAWAY included, and the DATA written in all
is not above the first window and what the WINDOW_UPDATEs of the connection added.  As long as the
connection is not closed, its windows are what is left. -/
theorem sends_within_credit (calls : List Call) :
    Credit.Covers Credit.Allows {} (session calls).history ∧
      (∀ g ∈ (session calls).goaway,
        g.payload.length ≤ (creditAfter (session calls).history).maxFrame) ∧
      (dataSent (session calls).history : Int) ≤
        defaultWindowSize + connIncrements (session calls).history ∧
      ((session calls).closed = false →
        0 ≤ (session calls).conn.connSendWindow ∧
        (session calls).conn.connSendWindow = defaultWindowSize +
          connIncrements (session calls).history - dataSent (session calls).history ∧
        ∀ id st, (session calls).conn.streams.get id = some st →
          st.sendWindow = (creditAfter (session calls).history).stream id) := by
  obtain ⟨t, hok⟩ := runCalls_trace newServerConn calls
  obtain ⟨hcov, c', hs, ht, hc⟩ := t.covers
  have hconn : (creditAfter (session calls).history).conn = defaultWindowSize +
      connIncrements (session calls).history - dataSent (session calls).history :=
    Credit.foldl_after_conn _ {}
  refine ⟨hcov, fun g hg => ?_, ?_, fun hcl => ?_⟩
  · have h8 : 8 ≤ defaultMaxFrameSize := by decide
    rw [runCalls_goaway _ _ g hg]
    exact h8.trans (ht.maxFrame ▸ hs.maxFrame)
  · have hnonneg : 0 ≤ (creditAfter (session calls).history).conn := ht.nonneg
    rw [hconn] at hnonneg
    omega
  · obtain rfl : c' = (session calls).conn := hc (hok hcl)
    exact ⟨ht.conn ▸ ht.nonneg, ht.conn.trans hconn, ht.stream⟩

/-- A response of ten bytes, then an initial window of 0, then the end of the response: the empty
DATA frame with END_STREAM is written at a credit of -10. -/
theorem empty_data_over_credit :
    ¬ Credit.Covers Credit.AllowsEmpty {} (session
      [.consume (prefaceTail ++ [0, 0, 3, 1, 5, 0, 0, 0, 1, 0x82, 0x86, 0x84]),
        .write (.body 1 [0, 1, 2, 3, 4, 5, 6, 7, 8, 9] false),
        .consume [0, 0, 6, 4, 0, 0, 0, 0, 0, 0, 4, 0, 0, 0, 0],
        .write (.body 1 [] true)]).history := by
  decide +kernel

end Vanilla.Http2

import Vanilla.Http2.Windows
import Vanilla.Http2.Surfacing

/-!
# HTTP/2 — a response, from its writes to its frames

The body of a response is written in pieces, and leaves in DATA frames as the peer gives credit.
From the moment its request is surfaced, the frames of a stream and what it has parked are one line
of bytes (`Responding`), through every call and every frame that does not reset it.

* `IsResponse`: the writes of a response, with at most one that ends it, the last.
* `Intact`: no byte is lost, and END_STREAM is on the last frame, once everything is sent.
* `response_intact_iff`: a response is intact exactly when it is not ended by an empty write while
  bytes are parked.
-/

namespace Vanilla.Http2

open StreamState Streams ServerConn

/-! ### Writes and frames of a stream -/

namespace Write

/-- The bytes of a write. -/
def bytes : Write → List UInt8
  | body _ b _ => b
  | data _ b => b
  | _ => []

/-- A piece of the body, with more to come. -/
def continues : Write → Bool
  | body _ _ endStream => !endStream
  | _ => false

/-- The last piece of the body, or the trailers. -/
def ends : Write → Bool
  | body _ _ endStream => endStream
  | data _ _ => true
  | trailers _ _ => true
  | _ => false

end Write

/-- The writes of a response: pieces of its body, the last of which may end it, or trailers do. -/
def IsResponse (ws : List Write) : Prop :=
  (∀ w ∈ ws.dropLast, w.continues = true) ∧
    ∀ w ∈ ws.getLast?, w.continues = true ∨ w.ends = true

/-- The writes to a stream in a history. -/
def writesOn (s : Nat) (h : List Done) : List Write :=
  h.filterMap fun d => match d.event with
    | .write w => if w.streamId = s then some w else none
    | _ => none

/-- The frames of a stream. -/
def framesOn (s : Nat) (fs : List Frame) : List Frame := fs.filter (·.streamId = s)

/-- The frames of a stream that a history has written. -/
def sentOn (s : Nat) (h : List Done) : List Frame := framesOn s (h.flatMap (·.reply.out))

/-- The bytes of DATA frames. -/
def dataOf (fs : List Frame) : List UInt8 := (fs.filter (·.type = .data)).flatMap (·.payload)

/-- The frame ends its stream. -/
def Frame.ends (f : Frame) : Bool := decide (f.type = .data ∨ f.type = .headers) && f.endStream

/-- **The response is intact**: the DATA and what is parked are the bytes passed, in order; and
END_STREAM is sent once, when the response is ended and nothing is parked any more, on a frame that
has all the bytes before it and only the CONTINUATIONs of its block behind it. -/
structure Intact (s : Nat) (parked : List UInt8) (h : List Done) (c : ServerConn) : Prop where
  bytes : dataOf (sentOn s h) ++ c.parkedOn s = parked ++ (writesOn s h).flatMap Write.bytes
  once : ((sentOn s h).filter Frame.ends).length =
    if (writesOn s h).any Write.ends ∧ c.parkedOn s = [] then 1 else 0
  last : ∀ l₁ f l₂, sentOn s h = l₁ ++ f :: l₂ → f.ends = true →
    (∀ g ∈ l₂, g.type = .continuation) ∧
      dataOf (l₁ ++ [f]) = parked ++ (writesOn s h).flatMap Write.bytes

/-- An empty write that ends the response finds bytes parked. -/
def Done.CutsOff (s : Nat) (d : Done) : Prop :=
  (d.event = .write (.body s [] true) ∨ d.event = .write (.data s [])) ∧ d.before.parkedOn s ≠ []

/-! ### Lists of frames -/

theorem dataOf_append (fs gs : List Frame) : dataOf (fs ++ gs) = dataOf fs ++ dataOf gs := by
  simp [dataOf]

theorem dataOf_nil_of {fs : List Frame} (h : ∀ g ∈ fs, g.type ≠ .data) : dataOf fs = [] := by
  unfold dataOf
  rw [List.filter_eq_nil_iff.mpr fun g hg => by simp [h g hg]]
  rfl

theorem framesOn_append (s : Nat) (fs gs : List Frame) :
    framesOn s (fs ++ gs) = framesOn s fs ++ framesOn s gs := List.filter_append ..

theorem framesOn_self {s : Nat} {fs : List Frame} (h : ∀ g ∈ fs, g.streamId = s) :
    framesOn s fs = fs := List.filter_eq_self.mpr fun g hg => by simp [h g hg]

theorem framesOn_other {s : Nat} {fs : List Frame} (h : ∀ g ∈ fs, g.streamId ≠ s) :
    framesOn s fs = [] := List.filter_eq_nil_iff.mpr fun g hg => by simp [h g hg]

/-- The frames of a run of DATA are its stream's, and carry its bytes. -/
theorem DataRun.frames {id m : Nat} {last : Bool} {b : List UInt8} {fs : List Frame}
    (h : DataRun id m last b fs) : (∀ g ∈ fs, g.streamId = id) ∧ dataOf fs = b := by
  induction h with
  | nil => exact ⟨fun g hg => (by cases hg), rfl⟩
  | last =>
      refine ⟨fun g hg => ?_, ?_⟩
      · rw [List.mem_singleton.mp hg]
        rfl
      · simp [dataOf, writeData]
  | cons _ _ _ _ ih =>
      refine ⟨fun g hg => ?_, ?_⟩
      · rcases List.mem_cons.mp hg with rfl | hg
        · rfl
        · exact ih.1 g hg
      · rw [← List.singleton_append, dataOf_append, ih.2]
        simp [dataOf, writeData]

theorem writeData_ends (id : Nat) (b : List UInt8) (last : Bool) :
    (writeData id b last).ends = last := by
  cases last <;> simp [Frame.ends, Frame.has, writeData, flagEndStream]

/-- No frame of it ends the stream, or it is the last one that does. -/
theorem DataRun.ends {id m : Nat} {last : Bool} {b : List UInt8} {fs : List Frame}
    (h : DataRun id m last b fs) :
    (last = false → ∀ g ∈ fs, g.ends = false) ∧
      (last = true → b ≠ [] → ∃ l f, fs = l ++ [f] ∧ f.ends = true ∧ ∀ g ∈ l, g.ends = false) := by
  induction h with
  | nil => exact ⟨fun _ g hg => (by cases hg), fun _ hb => absurd rfl hb⟩
  | @last b hb =>
      refine ⟨fun hl g hg => ?_, fun hl _ => ⟨[], _, rfl, ?_, fun g hg => (by cases hg)⟩⟩
      · rw [List.mem_singleton.mp hg, writeData_ends]
        exact hl
      · rw [writeData_ends]
        exact hl
  | @cons b rest fs hb hrest hle t ih =>
      refine ⟨fun hl g hg => ?_, fun hl _ => ?_⟩
      · rcases List.mem_cons.mp hg with rfl | hg
        · exact writeData_ends id b false
        · exact ih.1 hl g hg
      · obtain ⟨l, f, rfl, hf, hl'⟩ := ih.2 hl hrest
        refine ⟨_ :: l, f, rfl, hf, fun g hg => ?_⟩
        rcases List.mem_cons.mp hg with rfl | hg
        · exact writeData_ends id b false
        · exact hl' g hg

/-- The frames of a block that ends its stream: HEADERS with END_STREAM, then CONTINUATIONs. -/
theorem headerFrames_ends (id m : Nat) (block : List UInt8) :
    ∃ f l, headerFrames id m block true = f :: l ∧ f.type = .headers ∧ f.ends = true ∧
      ∀ g ∈ l, g.type = .continuation := by
  unfold headerFrames
  dsimp only
  split
  · refine ⟨_, [], rfl, rfl, ?_, fun g hg => (by cases hg)⟩
    simp only [Frame.ends, Frame.has]
    decide
  · refine ⟨_, _, rfl, rfl, ?_, fun g hg => (continuationFrames_fit hg).1⟩
    simp only [Frame.ends, Frame.has]
    decide

/-! ### Replies about one stream -/

/-- The reply writes to one stream and leaves the others alone. -/
structure Local (c : ServerConn) (id : Nat) (r : Reply) : Prop where
  out : ∀ g ∈ r.out, g.streamId = id
  other : ∀ i, i ≠ id → r.conn.streams.get i = c.streams.get i

namespace Local

variable {c : ServerConn} {id : Nat}

theorem idle (c : ServerConn) (id : Nat) : Local c id { conn := c } :=
  ⟨fun g hg => (by cases hg), fun _ _ => rfl⟩

theorem of_sends {st : StreamState} {b : List UInt8} {tail : List Frame} {r : Reply}
    (h : c.Sends id st b tail r) (ht : ServerConn.Tail id c.peerMaxFrame tail) : Local c id r := by
  obtain ⟨last, fs, hrun, hout⟩ := h.out
  refine ⟨fun g hg => ?_, h.other⟩
  rw [hout] at hg
  rcases List.mem_append.mp hg with hg | hg
  · exact hrun.frames.1 g hg
  · cases ht with
    | none => cases hg
    | trailers block => exact (headerFrames_fit hg).2.1
    | empty =>
        rw [List.mem_singleton.mp hg]
        rfl

theorem flushPending (hs : Sound c) (id : Nat) : Local c id (c.flushPending id) := by
  cases hget : c.streams.get id with
  | none =>
      rw [flushPending_none c hget]
      exact idle c id
  | some st =>
      obtain ⟨b, tail, hsend, htail⟩ := flushPending_sends hs.pos hget
      exact of_sends hsend htail

theorem writeResponseBody (hs : Sound c) (id : Nat) (body : List UInt8) (endStream : Bool) :
    Local c id (c.writeResponseBody id body endStream) := by
  cases hget : c.streams.get id with
  | none =>
      rw [writeResponseBody_none c hget]
      exact idle c id
  | some st =>
      obtain ⟨b, tail, hsend, htail⟩ :=
        writeResponseBody_sends hs.pos hget body endStream
      exact of_sends hsend htail

theorem writeResponseHeaders (c : ServerConn) (id : Nat) (block : List UInt8) (endStream : Bool) :
    Local c id (c.writeResponseHeaders id block endStream) := by
  refine ⟨fun g hg => (headerFrames_fit hg).2.1, fun i hi => ?_⟩
  unfold ServerConn.writeResponseHeaders
  dsimp only
  split
  · exact release_get_ne hi
  · rfl

theorem writeResponseTrailers (c : ServerConn) (id : Nat) (block : List UInt8) :
    Local c id (c.writeResponseTrailers id block) := by
  unfold ServerConn.writeResponseTrailers
  split
  · exact idle c id
  · split
    · refine ⟨fun g hg => (by cases hg), fun i hi => ?_⟩
      simp only [updateStream, get_update, if_neg hi]
    · exact writeResponseHeaders c id block true

/-- **A write** is about its stream. -/
theorem write (hs : Sound c) (w : Write) : Local c w.streamId (w.exec c) := by
  cases w with
  | headers id block endStream => exact writeResponseHeaders c id block endStream
  | body id bytes endStream => exact writeResponseBody hs id bytes endStream
  | data id bytes => exact writeResponseBody hs id bytes true
  | trailers id block => exact writeResponseTrailers c id block
  | abort id code =>
      refine ⟨fun g hg => ?_, fun i hi => release_get_ne hi⟩
      rw [List.mem_singleton.mp hg]
      rfl

end Local

/-! ### A response under way -/

/-- The frames end with one that ends the stream, and its CONTINUATIONs. -/
structure EndsWith (l₁ : List Frame) (f : Frame) (l₂ : List Frame) : Prop where
  unended : ∀ g ∈ l₁, g.ends = false
  ends : f.ends = true
  block : ∀ g ∈ l₂, g.type = .continuation

/-- There is only one frame that ends the stream. -/
theorem EndsWith.unique {l₁ l₂ k₁ k₂ : List Frame} {f g : Frame} (h : EndsWith l₁ f l₂)
    (he : l₁ ++ f :: l₂ = k₁ ++ g :: k₂) (hg : g.ends = true) : k₁ = l₁ ∧ g = f ∧ k₂ = l₂ := by
  rcases List.append_eq_append_iff.mp he with ⟨l, rfl, hl⟩ | ⟨l, rfl, hl⟩
  · cases l with
    | nil =>
        obtain ⟨rfl, rfl⟩ := List.cons.inj hl
        exact ⟨List.append_nil _, rfl, rfl⟩
    | cons x l =>
        have hmem : g ∈ l₂ := by simp [(List.cons.inj hl).2]
        simp [Frame.ends, h.block g hmem] at hg
  · cases l with
    | nil =>
        obtain ⟨rfl, rfl⟩ := List.cons.inj hl
        exact ⟨(List.append_nil _).symm, rfl, rfl⟩
    | cons x l =>
        have hmem : g ∈ k₁ ++ x :: l := by simp [(List.cons.inj hl).1]
        rw [h.unended g hmem] at hg
        cases hg

/-- **Where a response stands** after the frames `sent` have gone out for it, `total` being the
bytes passed and `ended` whether its last write was made: some of the bytes are parked, or all of
them are sent and the stream has ended, or some of them were cut off. -/
inductive Responding (s : Nat) (total : List UInt8) (ended : Bool) (sent : List Frame)
    (c : ServerConn) : Bool → Prop where
  | going {st : StreamState} (hget : c.streams.get s = some st)
      (hbytes : dataOf sent ++ st.parked = total) (hopen : ∀ g ∈ sent, g.ends = false)
      (hended : ended = (st.pendingEnd || st.trailersPending))
      (hoff : st.pendingOff ≤ st.pending.length) (hun : st.parked = [] → ended = false) :
      Responding s total ended sent c false
  | finished {l₁ l₂ : List Frame} {f : Frame} (hget : c.streams.get s = none)
      (hended : ended = true) (hbytes : dataOf sent = total) (hsent : sent = l₁ ++ f :: l₂)
      (hlast : EndsWith l₁ f l₂) :
      Responding s total ended sent c false
  | cut (hget : c.streams.get s = none) (hended : ended = true)
      (hlt : (dataOf sent).length < total.length) : Responding s total ended sent c true

namespace Responding

variable {s : Nat} {total : List UInt8} {ended cut : Bool} {sent : List Frame} {c : ServerConn}

/-- Nothing happens to the stream. -/
theorem of_get (h : Responding s total ended sent c cut) {c' : ServerConn}
    (hget' : c'.streams.get s = c.streams.get s) : Responding s total ended sent c' cut := by
  cases h with
  | going hget hbytes hopen hended hoff hun =>
      exact .going (hget'.trans hget) hbytes hopen hended hoff hun
  | finished hget hended hbytes hsent hlast =>
      exact .finished (hget'.trans hget) hended hbytes hsent hlast
  | cut hget hended hlt => exact .cut (hget'.trans hget) hended hlt

/-- Nor is anything sent for it. -/
theorem silent (h : Responding s total ended sent c cut) {r : Reply}
    (hget : r.conn.streams.get s = c.streams.get s) (hout : ∀ g ∈ r.out, g.streamId ≠ s) :
    Responding s total ended (sent ++ framesOn s r.out) r.conn cut := by
  rw [framesOn_other hout, List.append_nil]
  exact h.of_get hget

/-- The stream's window moves. -/
theorem shift (h : Responding s total ended sent c cut) {c' : ServerConn} {delta : Int}
    (hget' : c'.streams.get s = (c.streams.get s).map (shifted delta)) :
    Responding s total ended sent c' cut := by
  cases h with
  | going hget hbytes hopen hended hoff hun =>
      rw [hget] at hget'
      exact .going hget' hbytes hopen hended hoff hun
  | finished hget hended hbytes hsent hlast =>
      rw [hget] at hget'
      exact .finished hget' hended hbytes hsent hlast
  | cut hget hended hlt =>
      rw [hget] at hget'
      exact .cut hget' hended hlt

/-- More is sent, the last frame of which ends the stream. -/
theorem finish {c' : ServerConn} {fs l₁ l₂ : List Frame} {f : Frame}
    (hopen : ∀ g ∈ sent, g.ends = false) (hget : c'.streams.get s = none)
    (hbytes : dataOf sent ++ dataOf fs = total) (hfs : fs = l₁ ++ f :: l₂)
    (hlast : EndsWith l₁ f l₂) : Responding s total true (sent ++ fs) c' false := by
  have hcut : sent ++ fs = (sent ++ l₁) ++ f :: l₂ := by rw [hfs, List.append_assoc]
  refine .finished hget rfl (by rw [dataOf_append]; exact hbytes) hcut
    ⟨fun g hg => ?_, hlast.ends, hlast.block⟩
  rcases List.mem_append.mp hg with hg | hg
  · exact hopen g hg
  · exact hlast.unended g hg

/-- Trailers are sent behind DATA that does not end the stream. -/
theorem endsWith_trailers {id m : Nat} {fs : List Frame} (hfs : ∀ g ∈ fs, g.ends = false)
    (block : List UInt8) : ∃ l₁ f l₂, fs ++ headerFrames id m block true = l₁ ++ f :: l₂ ∧
      EndsWith l₁ f l₂ ∧ dataOf (fs ++ headerFrames id m block true) = dataOf fs := by
  obtain ⟨f, l, hl, ht, hf, hcont⟩ := headerFrames_ends id m block
  refine ⟨fs, f, l, by rw [hl], ⟨hfs, hf, hcont⟩, ?_⟩
  have hnil : dataOf (headerFrames id m block true) = [] := dataOf_nil_of fun g hg => by
    obtain ⟨hty, -, -⟩ := headerFrames_fit hg
    rcases hty with h | h <;> simp [h]
  rw [dataOf_append, hnil, List.append_nil]

/-- **Flushing the stream.** -/
theorem flushPending_self (h : Responding s total ended sent c cut) (hs : Sound c) :
    Responding s total ended (sent ++ framesOn s (c.flushPending s).out) (c.flushPending s).conn
      cut := by
  rw [framesOn_self (Local.flushPending hs s).out]
  cases h with
  | finished hget hended hbytes hsent hlast =>
      rw [flushPending_none c hget]
      simpa using .finished hget hended hbytes hsent hlast
  | cut hget hended hlt =>
      rw [flushPending_none c hget]
      simpa using .cut hget hended hlt
  | @going st hget hbytes hopen hended hoff hun =>
      obtain ⟨fs, n, hn, hrun, hf⟩ := flushPending_flushed c hs.pos hget
      have hnle : n ≤ st.parked.length := hn ▸ sendable_le _ _ _
      obtain ⟨-, hdata⟩ := hrun.frames
      obtain ⟨hquiet, hlast⟩ := hrun.ends
      have hmore : (st.pendingEnd && decide (n = st.parked.length)) = false →
          ∀ g ∈ sent ++ fs, g.ends = false := fun hno g hg =>
        (List.mem_append.mp hg).elim (hopen g) (hquiet hno g)
      generalize c.flushPending s = r at *
      cases hf with
      | waits hlt =>
          refine .going (debit_get hget) ?_ (hmore (by simp [Nat.ne_of_lt hlt])) hended
            (Nat.sub_le _ _) fun hnil => ?_
          · rw [sent_parked, dataOf_append, hdata, List.append_assoc, List.take_append_drop, hbytes]
          · rw [sent_parked, List.drop_eq_nil_iff] at hnil
            exact absurd hlt (Nat.not_lt.mpr hnil)
      | ends hle hend =>
          have hall : n = st.parked.length := Nat.le_antisymm hnle hle
          rw [hall, List.take_length] at hdata
          have hne : st.parked ≠ [] := fun hnil => by
            rw [hun hnil, hend] at hended
            cases hended
          obtain ⟨l, f, hfs, hf, hl⟩ := hlast (by simp [hend, hall])
            (by rw [hall, List.take_length]; exact hne)
          rw [hended, hend]
          exact finish hopen release_get (hdata ▸ hbytes) hfs ⟨hl, hf, fun g hg => (by cases hg)⟩
      | trailers hle hend htr =>
          have hall : n = st.parked.length := Nat.le_antisymm hnle hle
          rw [hall, List.take_length] at hdata
          obtain ⟨l₁, f, l₂, hfs, hlast, hd⟩ := @endsWith_trailers s c.peerMaxFrame fs
            (hquiet (by simp [hend])) st.trailers
          rw [hended, hend, htr]
          exact finish hopen release_get (by rw [hd, hdata]; exact hbytes) hfs hlast
      | dry hle hend htr =>
          refine .going (debit_get hget) ?_ (hmore (by simp [hend])) hended (Nat.sub_le _ _)
            fun _ => by rw [hended, hend, htr]; rfl
          rw [sent_parked, dataOf_append, hdata, List.append_assoc, List.take_append_drop, hbytes]

/-- **Flushing any stream.** -/
theorem flushPending (h : Responding s total ended sent c cut) (hs : Sound c) (id : Nat) :
    Responding s total ended (sent ++ framesOn s (c.flushPending id).out) (c.flushPending id).conn
      cut := by
  by_cases hid : s = id
  · subst hid
    exact h.flushPending_self hs
  · have hl := Local.flushPending hs id
    exact h.silent (hl.other s hid) fun g hg hg' => hid (hg'.symm.trans (hl.out g hg))

theorem flushAll (h : Responding s total ended sent c cut) (hs : Sound c) (ids : List Nat) :
    Responding s total ended (sent ++ framesOn s (c.flushAll ids).out) (c.flushAll ids).conn
      cut := by
  induction ids generalizing c sent with
  | nil => exact h.silent rfl fun g hg => (by cases hg)
  | cons id ids ih =>
      have := ih (h.flushPending hs id) (hs.flushPending id)
      rwa [List.append_assoc, ← framesOn_append] at this

theorem takeSettings (h : Responding s total ended sent c cut) (hs : Sound c) (h0 : s ≠ 0)
    {sts : List Setting} {c₁ : ServerConn} (hlist : c.onSettingList sts = (c₁, .noError)) :
    Responding s total ended (sent ++ framesOn s (c₁.takeSettings sts).out)
      (c₁.takeSettings sts).conn cut := by
  have hwin := onSettingList_windows hlist
  have h₁ : Responding s total ended sent c₁ cut := h.shift (hwin.2.2 s)
  have hack : framesOn s [writeSettingsAck] = [] := framesOn_other fun g hg => by
    rw [List.mem_singleton.mp hg]
    exact fun he => h0 he.symm
  unfold ServerConn.takeSettings
  split
  · have := h₁.flushAll (hs.onSettingList hlist) c₁.streams.ids
    rwa [Reply.after, framesOn_append, hack, List.nil_append]
  · rwa [hack, List.append_nil]

/-- **One frame** that does not reset the stream. -/
theorem frame (h : Responding s total ended sent c cut) (hs : Sound c) (hset : Settled c s)
    {f : Frame} (hok : (c.frame f).code = .noError) (hno : ¬ Resets c f s) :
    Responding s total ended (sent ++ framesOn s (c.frame f).out) (c.frame f).conn cut := by
  have heff := hs.effect hok
  generalize c.frame f = r at *
  cases heff with
  | quiet _ _ _ hkeep =>
      obtain ⟨hget, hout⟩ := hkeep s hset hno
      exact h.silent hget hout
  | settings _ _ _ hlist => exact h.takeSettings hs hset.pos hlist
  | connCredit =>
      have h₁ : Responding s total ended sent
          { c with connSendWindow := c.connSendWindow + f.increment } cut := h.of_get rfl
      exact h₁.flushAll (hs.withWindow _) _
  | credit =>
      refine flushPending ?_ (hs.shift f.streamId f.increment) f.streamId
      by_cases hid : s = f.streamId
      · have hget : (c.updateStream f.streamId (shifted f.increment)).streams.get s =
            (c.streams.get s).map (shifted f.increment) := by
          rw [updateStream, get_update, if_pos hid, hid]
        exact h.shift hget
      · refine h.of_get ?_
        rw [updateStream, get_update, if_neg hid]

/-! ### Writes -/

/-- A piece of the body that is not empty. -/
theorem writeBytes (h : Responding s total false sent c cut) (hs : Sound c) (hp : Parked c)
    {body : List UInt8} (hb : body ≠ []) (endStream : Bool) :
    Responding s (total ++ body) endStream
      (sent ++ framesOn s (c.writeResponseBody s body endStream).out)
      (c.writeResponseBody s body endStream).conn cut := by
  rw [framesOn_self (Local.writeResponseBody hs s body endStream).out]
  cases h with
  | finished _ hended => cases hended
  | cut _ hended => cases hended
  | @going st hget hbytes hopen hended hoff hun =>
      obtain ⟨fs, n, hn, hrun, hw⟩ := writeResponseBody_wrote c hs.pos hget hb endStream
      -- with bytes parked a window is closed, and nothing overtakes them
      have hturn : st.parked = [] ∨ n = 0 := by
        by_cases hnil : st.parked = []
        · exact .inl hnil
        · refine .inr ?_
          have := (hp s st hget).blocked hnil
          rw [hn]
          unfold sendable
          omega
      obtain ⟨-, hdata⟩ := hrun.frames
      obtain ⟨hquiet, hlast⟩ := hrun.ends
      have hpos : 0 < body.length := List.length_pos_of_ne_nil hb
      have hnle : n ≤ body.length := hn ▸ sendable_le _ _ _
      have hmore : (endStream && decide (n = body.length)) = false →
          ∀ g ∈ sent ++ fs, g.ends = false := fun hno g hg =>
        (List.mem_append.mp hg).elim (hopen g) (hquiet hno g)
      simp only [Bool.or_eq_false_iff, Eq.comm (a := false)] at hended
      generalize c.writeResponseBody s body endStream = r at *
      cases hw with
      | parks hlt =>
          have hpark := @park_parked (st.spent n) hoff (body.drop n) endStream
          refine .going (debit_get hget) ?_ (hmore (by simp [Nat.ne_of_lt hlt])) ?_ ?_
            fun hnil => ?_
          · rw [hpark, dataOf_append, hdata, ← hbytes]
            rcases hturn with hnil | h0
            · simp [show (st.spent n).parked = st.parked from rfl, hnil]
            · simp [h0, show (st.spent 0).parked = st.parked from rfl]
          · show endStream = (endStream || st.trailersPending)
            rw [hended.2, Bool.or_false]
          · exact hoff.trans (List.length_append ▸ Nat.le_add_right _ _)
          · rw [hpark, List.append_eq_nil_iff, List.drop_eq_nil_iff] at hnil
            exact absurd hlt (Nat.not_lt.mpr hnil.2)
      | ends hle hend =>
          have hall : n = body.length := Nat.le_antisymm hnle hle
          have hnil := hturn.resolve_right (by omega)
          rw [hall, List.take_length] at hdata
          obtain ⟨l, f, hfs, hf, hl⟩ := hlast (by simp [hend, hall])
            (by rw [hall, List.take_length]; exact hb)
          rw [hnil, List.append_nil] at hbytes
          rw [hend]
          exact finish hopen release_get (by rw [hdata, hbytes]) hfs
            ⟨hl, hf, fun g hg => (by cases hg)⟩
      | stays hle hend =>
          have hall : n = body.length := Nat.le_antisymm hnle hle
          have hnil := hturn.resolve_right (by omega)
          rw [hall, List.take_length] at hdata
          rw [hnil, List.append_nil] at hbytes
          refine .going (debit_get hget) ?_ (hmore (by simp [hend])) ?_ hoff fun _ => hend
          · rw [show (st.spent n).parked = st.parked from rfl, hnil, dataOf_append, hdata, hbytes,
              List.append_nil]
          · show endStream = (st.pendingEnd || st.trailersPending)
            rw [hend, hended.1, hended.2]
            rfl

/-- An empty write that does not end the response, or ends it with nothing parked, or cuts it
off. -/
theorem writeEmpty (h : Responding s total false sent c cut) (hs : Sound c) (endStream : Bool) :
    Responding s total endStream (sent ++ framesOn s (c.writeResponseBody s [] endStream).out)
      (c.writeResponseBody s [] endStream).conn (endStream && decide (c.parkedOn s ≠ [])) := by
  rw [framesOn_self (Local.writeResponseBody hs s [] endStream).out]
  cases h with
  | finished _ hended => cases hended
  | cut _ hended => cases hended
  | @going st hget hbytes hopen hended hoff hun =>
      have hparked : c.parkedOn s = st.parked := by
        rw [parkedOn, hget]
        rfl
      rw [writeResponseBody_empty c hget, hparked]
      cases endStream with
      | false => simpa using Responding.going hget hbytes hopen hended hoff hun
      | true =>
          rw [if_pos rfl]
          have hdata : dataOf [writeData s [] true] = [] := rfl
          by_cases hnil : st.parked = []
          · rw [hnil, List.append_nil] at hbytes
            rw [show (true && decide (st.parked ≠ [])) = false by simp [hnil]]
            have hlast : EndsWith [] (writeData s [] true) [] :=
              ⟨fun g hg => (by cases hg), writeData_ends s [] true, fun g hg => (by cases hg)⟩
            exact finish hopen release_get (by rw [hdata, hbytes, List.append_nil]) rfl hlast
          · rw [show (true && decide (st.parked ≠ [])) = true by simp [hnil]]
            refine .cut release_get rfl ?_
            have := List.length_pos_of_ne_nil hnil
            rw [dataOf_append, hdata, ← hbytes, List.append_nil, List.length_append]
            omega

/-- The trailers. -/
theorem writeTrailers (h : Responding s total false sent c cut) (block : List UInt8) :
    Responding s total true (sent ++ framesOn s (c.writeResponseTrailers s block).out)
      (c.writeResponseTrailers s block).conn cut := by
  rw [framesOn_self (Local.writeResponseTrailers c s block).out]
  cases h with
  | finished _ hended => cases hended
  | cut _ hended => cases hended
  | @going st hget hbytes hopen hended hoff hun =>
      unfold writeResponseTrailers
      rw [hget]
      dsimp only
      split
      · rename_i hlt
        have hget' : (c.updateStream s fun s =>
            { s with trailers := block, trailersPending := true }).streams.get s =
            some { st with trailers := block, trailersPending := true } := by
          rw [updateStream, get_update, if_pos rfl, hget]
          rfl
        refine .going hget' ?_ ?_ ?_ hoff fun hnil => ?_
        · rw [List.append_nil]
          exact hbytes
        · rwa [List.append_nil]
        · exact (Bool.or_true _).symm
        · exact absurd (List.drop_eq_nil_iff.mp hnil) (Nat.not_le.mpr hlt)
      · rename_i hlt
        have hnil : st.parked = [] := List.drop_eq_nil_iff.mpr (Nat.not_lt.mp hlt)
        obtain ⟨l₁, f, l₂, hfs, hlast, hd⟩ := @endsWith_trailers s c.peerMaxFrame []
          (fun g hg => (by cases hg)) block
        rw [hnil] at hbytes
        exact finish hopen release_get (by rw [← hbytes]; exact congrArg _ hd) hfs hlast

/-- **One write of the response.** -/
theorem write_self (h : Responding s total false sent c cut) (hs : Sound c) (hp : Parked c)
    {w : Write} (hid : w.streamId = s) (hw : w.continues = true ∨ w.ends = true) :
    ∃ cut', Responding s (total ++ w.bytes) w.ends (sent ++ framesOn s (w.exec c).out)
      (w.exec c).conn cut' ∧ (cut' = true ↔ Done.CutsOff s ⟨c, .write w⟩) := by
  have hbody : ∀ b endStream, ∃ cut', Responding s (total ++ b) endStream
      (sent ++ framesOn s (c.writeResponseBody s b endStream).out)
      (c.writeResponseBody s b endStream).conn cut' ∧
      (cut' = true ↔ (b = [] ∧ endStream = true) ∧ c.parkedOn s ≠ []) := by
    intro b endStream
    by_cases hb : b = []
    · subst hb
      refine ⟨_, by rw [List.append_nil]; exact h.writeEmpty hs endStream, ?_⟩
      simp
    · cases h with
      | finished _ hended => cases hended
      | cut _ hended => cases hended
      | going hget hbytes hopen hended hoff hun =>
          have hgoing := Responding.going hget hbytes hopen hended hoff hun
          exact ⟨false, hgoing.writeBytes hs hp hb endStream, by simp [hb]⟩
  subst hid
  cases w with
  | headers => rcases hw with h | h <;> cases h
  | abort => rcases hw with h | h <;> cases h
  | body id b endStream =>
      obtain ⟨cut', hr, hiff⟩ := hbody b endStream
      refine ⟨cut', hr, hiff.trans ?_⟩
      simp [Done.CutsOff, Write.streamId]
  | data id b =>
      obtain ⟨cut', hr, hiff⟩ := hbody b true
      refine ⟨cut', hr, hiff.trans ?_⟩
      simp [Done.CutsOff, Write.streamId]
  | trailers id block =>
      cases h with
      | finished _ hended => cases hended
      | cut _ hended => cases hended
      | going hget hbytes hopen hended hoff hun =>
          refine ⟨false, ?_, by simp [Done.CutsOff]⟩
          rw [show (Write.trailers id block).bytes = [] from rfl, List.append_nil]
          exact writeTrailers (.going hget hbytes hopen hended hoff hun) block

/-- **An intact response** is one that was not cut off. -/
theorem intact_iff {parked : List UInt8} {h : List Done} (hr : Responding s
    (parked ++ (writesOn s h).flatMap Write.bytes) ((writesOn s h).any Write.ends) (sentOn s h) c
    cut) : Intact s parked h c ↔ cut = false := by
  cases hr with
  | @going st hget hbytes hopen hended hoff hun =>
      have hparked : c.parkedOn s = st.parked := by
        rw [parkedOn, hget]
        rfl
      refine ⟨fun _ => rfl, fun _ => ⟨hparked ▸ hbytes, ?_, fun l₁ f l₂ hl hf => ?_⟩⟩
      · rw [List.filter_eq_nil_iff.mpr fun g hg => by simp [hopen g hg], if_neg]
        · rfl
        · rintro ⟨he, hnil⟩
          rw [hun (hparked ▸ hnil)] at he
          cases he
      · rw [hopen f (by simp [hl])] at hf
        cases hf
  | @finished l₁ l₂ f hget hended hbytes hsent hlast =>
      have hparked : c.parkedOn s = [] := by
        rw [parkedOn, hget]
        rfl
      have hl₂ : ∀ g ∈ l₂, g.ends = false := fun g hg => by simp [Frame.ends, hlast.block g hg]
      refine ⟨fun _ => rfl, fun _ => ⟨by rw [hparked, List.append_nil, hbytes], ?_,
        fun k₁ g k₂ hk hg => ?_⟩⟩
      · rw [hsent, List.filter_append, List.filter_cons, if_pos hlast.ends,
          List.filter_eq_nil_iff.mpr fun g hg => by simp [hlast.unended g hg],
          List.filter_eq_nil_iff.mpr fun g hg => by simp [hl₂ g hg], if_pos ⟨hended, hparked⟩]
        rfl
      · obtain ⟨rfl, rfl, rfl⟩ := hlast.unique (hsent.symm.trans hk) hg
        have hnil : dataOf k₂ = [] := dataOf_nil_of fun g hg => by simp [hlast.block g hg]
        have hcut : sentOn s h = (k₁ ++ [g]) ++ k₂ := by rw [hsent, List.append_cons]
        exact ⟨hlast.block, by rw [← hbytes, hcut, dataOf_append _ k₂, hnil, List.append_nil]⟩
  | cut hget hended hlt =>
      refine ⟨fun hi => absurd hi.bytes fun he => ?_, fun h => (by cases h)⟩
      have hparked : c.parkedOn s = [] := by
        rw [parkedOn, hget]
        rfl
      rw [hparked, List.append_nil] at he
      rw [he] at hlt
      exact Nat.lt_irrefl _ hlt

end Responding

/-! ### Runs -/

theorem sentOn_snoc (s : Nat) (h : List Done) (d : Done) :
    sentOn s (h ++ [d]) = sentOn s h ++ framesOn s d.reply.out := by
  simp [sentOn, framesOn]

theorem writesOn_write {s : Nat} {w : Write} (h : List Done) (c : ServerConn)
    (hw : w.streamId = s) : writesOn s (h ++ [⟨c, .write w⟩]) = writesOn s h ++ [w] := by
  simp [writesOn, hw]

theorem writesOn_other {s : Nat} (h : List Done) {d : Done}
    (hd : ∀ w, d.event = .write w → w.streamId ≠ s) : writesOn s (h ++ [d]) = writesOn s h := by
  obtain ⟨c, e⟩ := d
  cases e with
  | preface => simp [writesOn]
  | recv f => simp [writesOn]
  | write w => simp [writesOn, hd w rfl]

/-- The last write of a response: none before it has ended it. -/
theorem IsResponse.last {ws : List Write} {w : Write} (h : IsResponse (ws ++ [w])) :
    IsResponse ws ∧ ws.any Write.ends = false ∧ (w.continues = true ∨ w.ends = true) := by
  obtain ⟨hall, hlast⟩ := h
  rw [List.dropLast_concat] at hall
  rw [List.getLast?_concat] at hlast
  have hends : ∀ v : Write, v.continues = true → v.ends = false := fun v hv => by
    cases v <;> simp_all [Write.continues, Write.ends]
  refine ⟨⟨fun v hv => hall v (List.mem_of_mem_dropLast hv), fun v hv => ?_⟩, ?_, hlast w rfl⟩
  · exact .inl (hall v (List.mem_of_mem_getLast? hv))
  · rw [List.any_eq_false]
    exact fun v hv => by simp [hends v (hall v hv)]

/-- Where a response stands after a history. -/
def RespondingAfter (s : Nat) (parked : List UInt8) (h : List Done) (c : ServerConn) : Prop :=
  ∃ cut, Responding s (parked ++ (writesOn s h).flatMap Write.bytes)
    ((writesOn s h).any Write.ends) (sentOn s h) c cut ∧ (cut = true ↔ ∃ d ∈ h, d.CutsOff s)

namespace RespondingAfter

variable {s : Nat} {parked : List UInt8} {h : List Done} {c : ServerConn}

/-- An event other than a write of the response. -/
theorem other (hr : RespondingAfter s parked h c) {e : Event}
    (he : ∀ w, e = .write w → w.streamId ≠ s)
    (hstep : ∀ {total ended cut}, Responding s total ended (sentOn s h) c cut →
      Responding s total ended (sentOn s h ++ framesOn s (e.exec c).out) (e.exec c).conn cut) :
    RespondingAfter s parked (h ++ [⟨c, e⟩]) (e.exec c).conn := by
  obtain ⟨cut, hr, hiff⟩ := hr
  refine ⟨cut, ?_, hiff.trans ?_⟩
  · rw [writesOn_other h he, sentOn_snoc]
    exact hstep hr
  · have hno : ¬ Done.CutsOff s ⟨c, e⟩ := fun hd => by
      rcases hd.1 with hw | hw
      · exact he _ hw rfl
      · exact he _ hw rfl
    simp [hno]

/-- A write of the response. -/
theorem write_self (hr : RespondingAfter s parked h c) (hs : Sound c) (hp : Parked c) {w : Write}
    (hw : w.streamId = s) (hresp : IsResponse (writesOn s (h ++ [⟨c, .write w⟩]))) :
    RespondingAfter s parked (h ++ [⟨c, .write w⟩]) (w.exec c).conn := by
  rw [writesOn_write h c hw] at hresp
  obtain ⟨-, hopen, hlast⟩ := hresp.last
  obtain ⟨cut, hr, hiff⟩ := hr
  rw [hopen] at hr
  have hcut : cut = false := by
    cases hr with
    | going => rfl
    | finished => rfl
    | cut _ hended => cases hended
  obtain ⟨cut', hr', hiff'⟩ := hr.write_self hs hp hw hlast
  refine ⟨cut', ?_, ?_⟩
  · rw [writesOn_write h c hw, sentOn_snoc, List.flatMap_append, ← List.append_assoc,
      List.any_append, hopen, Bool.false_or, List.flatMap_singleton, List.any_cons, List.any_nil,
      Bool.or_false]
    exact hr'
  · rw [hiff']
    rw [hcut] at hiff
    have hnone : ∀ d ∈ h, ¬ d.CutsOff s := fun d hd hcuts =>
      Bool.false_ne_true (hiff.mpr ⟨d, hd, hcuts⟩)
    constructor
    · exact fun hd => ⟨_, by simp, hd⟩
    · rintro ⟨d, hd, hcuts⟩
      rcases List.mem_append.mp hd with hd | hd
      · exact absurd hcuts (hnone d hd)
      · rwa [List.mem_singleton.mp hd] at hcuts

end RespondingAfter

/-- **A response along a trace** that does not reset its stream. -/
theorem Trace.responding {c₁ c : ServerConn} {h : List Done} {s : Nat} {st : StreamState}
    (t : Trace c₁ h c) (hok : ∀ d ∈ h, d.Ok) (hs : Sound c₁) (hp : Parked c₁) (hset : Settled c₁ s)
    (hget : c₁.streams.get s = some st)
    (hend : st.pendingEnd = false ∧ st.trailersPending = false)
    (hresp : IsResponse (writesOn s h))
    (hkept : ∀ d ∈ h, ∀ f, d.event = .recv f → ¬ Resets d.before f s) :
    RespondingAfter s st.parked h c ∧ Sound c ∧ Parked c ∧ Settled c s := by
  induction t with
  | nil =>
      refine ⟨⟨false, .going hget ?_ ?_ ?_ (hp s st hget).off fun _ => rfl, ?_⟩, hs, hp, hset⟩
      · simp [sentOn, framesOn, dataOf, writesOn]
      · exact fun g hg => (by cases hg)
      · rw [hend.1, hend.2]
        rfl
      · simp
  | @snoc h c t hok' e ih =>
      have he : Done.Ok ⟨c, e⟩ := hok _ (by simp)
      have hresp' : IsResponse (writesOn s h) := by
        by_cases hw : ∃ w, e = .write w ∧ w.streamId = s
        · obtain ⟨w, rfl, hw⟩ := hw
          rw [writesOn_write h c hw] at hresp
          exact hresp.last.1
        · rwa [writesOn_other h fun w hwe hws => hw ⟨w, hwe, hws⟩] at hresp
      obtain ⟨hr, hsc, hpc, hsetc⟩ := ih hok' hresp' fun d hd => hkept d (by simp [hd])
      cases e with
      | preface =>
          refine ⟨hr.other (fun w hw => (by cases hw)) fun hr' => ?_, hsc.preface, hpc, ?_⟩
          · exact hr'.silent rfl fun g hg => (by cases hg)
          · exact hsetc.of_kept (Kept.refl _) rfl
      | recv f =>
          have hno : ¬ Resets c f s := hkept ⟨c, .recv f⟩ (by simp) f rfl
          exact ⟨hr.other (fun w hw => (by cases hw)) fun hr' => hr'.frame hsc hsetc he hno,
            hsc.frame he, hpc.frame hsc he, hsetc.frame hsc he⟩
      | write w =>
          refine ⟨?_, hsc.write w, hpc.write hsc w, hsetc.write w⟩
          by_cases hw : w.streamId = s
          · exact hr.write_self hsc hpc hw hresp
          · have hl := Local.write hsc w
            refine hr.other (fun w' hw' => ?_) fun hr' => ?_
            · cases hw'
              exact hw
            · exact hr'.silent (hl.other s fun h => hw h.symm)
                fun g hg hg' => hw ((hl.out g hg).symm.trans hg')

/-- The calls `more` answer a request that `calls` have surfaced: its stream is open and the
response not ended, nothing that is received resets the stream, and what is written to it is a
response. -/
structure Answers (calls more : List Call) (s : Nat) (st : StreamState) : Prop where
  live : (session calls).closed = false
  request : s ∈ (surfaced (session calls).history).map (·.streamId)
  stream : (session calls).conn.streams.get s = some st
  unended : st.pendingEnd = false ∧ st.trailersPending = false
  writes : IsResponse (writesOn s (runCalls (session calls).conn more).history)
  kept : ∀ d ∈ (runCalls (session calls).conn more).history, ∀ f, d.event = .recv f →
    ¬ Resets d.before f s

/-- **A response is intact unless it is cut off.**  The bytes of a response leave in order, none
lost and none twice, with END_STREAM once and last, exactly when no empty write ends the response
while some of its bytes are parked. -/
theorem response_intact_iff (calls more : List Call) (s : Nat) (st : StreamState)
    (ha : Answers calls more s st) :
    Intact s st.parked (runCalls (session calls).conn more).history
        (runCalls (session calls).conn more).conn ↔
      ∀ d ∈ (runCalls (session calls).conn more).history, ¬ d.CutsOff s := by
  obtain ⟨t₁, hok₁⟩ := runCalls_trace newServerConn calls
  have hok₁ := hok₁ ha.live
  have hS := t₁.surfacing hok₁
  obtain ⟨q, hq, hqs⟩ := List.mem_map.mp ha.request
  have hset : Settled (session calls).conn s := hqs ▸ hS.settled q hq
  have hp : Parked (session calls).conn := t₁.parked hok₁
  have hwrites := ha.writes
  have hkept := ha.kept
  obtain ⟨t, -⟩ := runCalls_trace (session calls).conn more
  generalize runCalls (session calls).conn more = r at *
  have hiff : ∀ {h c}, RespondingAfter s st.parked h c →
      (Intact s st.parked h c ↔ ∀ d ∈ h, ¬ d.CutsOff s) := fun ⟨cut, hr, hcut⟩ => by
    rw [hr.intact_iff, ← Bool.not_eq_true, hcut]
    push Not
    rfl
  rcases t.last with hok | ⟨h, d, he, t', hok, hd, hc⟩
  · exact hiff (t.responding hok hS.sound hp hset ha.stream ha.unended hwrites hkept).1
  · -- the error at the end has no part in the response
    have hhalt := d.halted hd
    have hnw : ∀ w, d.event ≠ .write w := fun w hw => by
      obtain ⟨c, e⟩ := d
      subst hw
      exact hd (write_ok c w)
    have hw : writesOn s r.history = writesOn s h := by
      rw [he]
      exact writesOn_other h fun w hw => absurd hw (hnw w)
    have hsent : sentOn s r.history = sentOn s h := by
      rw [he, sentOn_snoc, hhalt.out]
      exact List.append_nil _
    have hparked : r.conn.parkedOn s = d.before.parkedOn s := hc ▸ hhalt.parked s
    rw [hw] at hwrites
    have hr := (t'.responding hok hS.sound hp hset ha.stream ha.unended hwrites
      fun d' hd' => hkept d' (by simp [he, hd'])).1
    have hsame : Intact s st.parked r.history r.conn ↔ Intact s st.parked h d.before := by
      constructor
      · rintro ⟨hb, ho, hl⟩
        rw [hw, hsent, hparked] at *
        exact ⟨hb, ho, hl⟩
      · rintro ⟨hb, ho, hl⟩
        rw [← hw, ← hsent, ← hparked] at *
        exact ⟨hb, ho, hl⟩
    have hno : ¬ d.CutsOff s := fun hcuts => hcuts.1.elim (hnw _) (hnw _)
    rw [hsame, hiff hr, he, List.forall_mem_append, List.forall_mem_singleton]
    exact (and_iff_left hno).symm

/-- An initial window of one byte, and a request. -/
def oneByteWindow : List Call :=
  [.consume (prefaceTail ++ [0, 0, 6, 4, 0, 0, 0, 0, 0, 0, 4, 0, 0, 0, 1] ++
    [0, 0, 3, 1, 5, 0, 0, 0, 1, 0x82, 0x86, 0x84])]

/-- What it leaves of the stream. -/
def oneByteStream : StreamState :=
  { headers := [⟨ascii ":method", ascii "GET"⟩, ⟨ascii ":scheme", ascii "http"⟩,
      ⟨ascii ":path", ascii "/"⟩]
    remoteDone := true
    recvWindow := defaultWindowSize
    sendWindow := 1 }

theorem runCalls_writes (c : ServerConn) (ws : List Write) :
    ∀ d ∈ (runCalls c (ws.map .write)).history, ∃ w ∈ ws, d.event = .write w := by
  induction ws generalizing c with
  | nil => exact fun d hd => (by cases hd)
  | cons w ws ih =>
      intro d hd
      rcases List.mem_cons.mp hd with rfl | hd
      · exact ⟨w, List.mem_cons_self, rfl⟩
      · obtain ⟨w', hw', he⟩ := ih _ d hd
        exact ⟨w', List.mem_cons_of_mem w hw', he⟩

/-- Writes answer the request. -/
theorem answers_oneByteWindow (ws : List Write) (hresp : IsResponse
    (writesOn 1 (runCalls (session oneByteWindow).conn (ws.map .write)).history)) :
    Answers oneByteWindow (ws.map .write) 1 oneByteStream := by
  refine ⟨by decide +kernel, by decide +kernel, by decide +kernel, ⟨rfl, rfl⟩, hresp,
    fun d hd f hf => ?_⟩
  obtain ⟨w, -, hw⟩ := runCalls_writes _ ws d hd
  rw [hw] at hf
  cases hf

/-- Two bytes, one of which is parked, and the end of the response with them. -/
theorem response_intact_one_byte :
    Intact 1 [] (runCalls (session oneByteWindow).conn [.write (.data 1 [7, 8])]).history
      (runCalls (session oneByteWindow).conn [.write (.data 1 [7, 8])]).conn := by
  have hresp : IsResponse [.data 1 [7, 8]] := by simp [IsResponse, Write.ends]
  refine (response_intact_iff oneByteWindow [.write (.data 1 [7, 8])] 1 oneByteStream
    (answers_oneByteWindow [.data 1 [7, 8]] hresp)).mpr fun d hd hcut => ?_
  obtain ⟨w, hw, he⟩ := runCalls_writes _ [.data 1 [7, 8]] d hd
  rw [List.mem_singleton.mp hw] at he
  simp [Done.CutsOff, he] at hcut

/-- The same bytes, and then the end of the response in an empty write: the second byte is not sent
and not parked, but lost. -/
theorem response_cut_off :
    Answers oneByteWindow [.write (.body 1 [7, 8] false), .write (.body 1 [] true)] 1
        oneByteStream ∧
      ¬ Intact 1 [] (runCalls (session oneByteWindow).conn
          [.write (.body 1 [7, 8] false), .write (.body 1 [] true)]).history
        (runCalls (session oneByteWindow).conn
          [.write (.body 1 [7, 8] false), .write (.body 1 [] true)]).conn := by
  have hresp : IsResponse [.body 1 [7, 8] false, .body 1 [] true] := by
    simp [IsResponse, Write.ends, Write.continues]
  refine ⟨answers_oneByteWindow [.body 1 [7, 8] false, .body 1 [] true] hresp,
    fun hi => absurd hi.bytes ?_⟩
  decide +kernel

end Vanilla.Http2

import Vanilla.Http2.Run

/-!
# HTTP/2 — what the server sends

The loops that send DATA, and the header block of a response, as relations between bytes and
frames.

* `DataRun`: bytes cut into DATA frames, none of them empty or above the peer's limit, END_STREAM on
  the last one or on none.
* `sendLoop_spec`: a loop sends as much as both windows allow, as a `DataRun`, and takes it off
  both.
* `flushPending_flushed`, `writeResponseBody_wrote`: what becomes of the stream, case by case.
* `Sends`: what all of them have in common, for the windows.
-/

namespace Vanilla.Http2
open Scan

/-! ### DATA -/

/-- Bytes as DATA frames of a stream; `last` is whether END_STREAM is on the last of them. -/
inductive DataRun (id maxFrame : Nat) (last : Bool) : List UInt8 → List Frame → Prop where
  | nil : DataRun id maxFrame last [] []
  | last {b : List UInt8} (hb : b ≠ []) (hle : b.length ≤ maxFrame) :
      DataRun id maxFrame last b [writeData id b last]
  | cons {b rest : List UInt8} {fs : List Frame} (hb : b ≠ []) (hrest : rest ≠ [])
      (hle : b.length ≤ maxFrame) (t : DataRun id maxFrame last rest fs) :
      DataRun id maxFrame last (b ++ rest) (writeData id b false :: fs)

theorem DataRun.type {id m : Nat} {last : Bool} {b : List UInt8} {fs : List Frame}
    (h : DataRun id m last b fs) : ∀ g ∈ fs, g.type = .data := by
  induction h with
  | nil => exact fun g hg => (by cases hg)
  | last =>
      intro g hg
      rw [List.mem_singleton.mp hg]
      rfl
  | cons _ _ _ _ ih =>
      intro g hg
      rcases List.mem_cons.mp hg with rfl | hg
      · rfl
      · exact ih g hg

theorem DataRun.of_nil {id maxFrame : Nat} {last : Bool} {b : List UInt8} {fs : List Frame}
    (h : DataRun id maxFrame last b fs) (hb : b = []) : fs = [] := by
  cases h with
  | nil => rfl
  | last h => exact absurd hb h
  | cons h => exact absurd (List.append_eq_nil_iff.mp hb).1 h

/-- How much both windows allow. -/
def sendable (b : List UInt8) (conn send : Int) : Nat := min b.length (min conn send).toNat

theorem sendable_le (b : List UInt8) (conn send : Int) : sendable b conn send ≤ b.length :=
  Nat.min_le_left _ _

section Loop

variable {id maxFrame : Nat} {endStream : Bool} {s s' : SendState}

/-- A pass sends as much of what both windows allow as a frame takes, and there is no pass when
they allow nothing. -/
theorem sendStep_eq (hm : 0 < maxFrame) (s : SendState) :
    sendStep id maxFrame endStream s =
      if sendable s.rest s.conn s.send = 0 then .exit s
      else .next (s.sent id endStream (min (sendable s.rest s.conn s.send) maxFrame)) := by
  have hlen : s.rest = [] ↔ s.rest.length = 0 := List.length_eq_zero_iff.symm
  unfold sendStep
  split
  · rename_i h
    rw [if_pos (by unfold sendable; rw [hlen.mp h]; exact Nat.zero_min _)]
  · rename_i hne
    rw [hlen] at hne
    dsimp only
    split
    · rename_i h
      rw [if_pos (by unfold sendable; unfold allowed at h; split at h <;> omega)]
    · rename_i h
      have hk : chunkLen maxFrame s.rest.length (allowed s.conn s.send) =
          min (sendable s.rest s.conn s.send) maxFrame := by
        unfold chunkLen sendable allowed
        dsimp only
        split <;> split <;> split <;> omega
      rw [if_neg (by unfold sendable; unfold allowed at h; split at h <;> omega), hk]

/-- What is allowed after a chunk of it is sent. -/
theorem sendable_sent {k : Nat} (hk : k ≤ sendable s.rest s.conn s.send) :
    sendable (s.sent id endStream k).rest (s.sent id endStream k).conn
      (s.sent id endStream k).send = sendable s.rest s.conn s.send - k := by
  unfold sendable at hk ⊢
  simp only [SendState.sent, List.length_drop]
  omega

theorem sendStep_descends (hm : 0 < maxFrame) :
    Descends (sendStep id maxFrame endStream) (·.rest.length) fun _ => True := by
  intro s s' _ e
  rw [sendStep_eq hm] at e
  split at e
  · cases e
  · rename_i h
    cases e
    refine ⟨trivial, ?_⟩
    have := sendable_le s.rest s.conn s.send
    simp only [SendState.sent, List.length_drop]
    omega

/-- The frames of a chunk, and of what is sent after it. -/
theorem DataRun.sent {k n : Nat} {b : List UInt8} {fs : List Frame} (hk : 0 < k) (hkn : k ≤ n)
    (hn : n ≤ b.length) (hle : k ≤ maxFrame)
    (t : DataRun id maxFrame (endStream && decide (n - k = (b.drop k).length))
      ((b.drop k).take (n - k)) fs) :
    DataRun id maxFrame (endStream && decide (n = b.length)) (b.take n)
      (writeData id (b.take k) (k == b.length && endStream) :: fs) := by
  have hlen : (b.take k).length = k := by
    rw [List.length_take]
    omega
  have hne : b.take k ≠ [] := by
    intro h
    rw [h] at hlen
    simp at hlen
    omega
  have hlast : decide (n - k = (b.drop k).length) = decide (n = b.length) := by
    rw [List.length_drop]
    congr 1
    exact propext (by omega)
  rw [hlast] at t
  by_cases hkn' : k = n
  · subst hkn'
    rw [Nat.sub_self, List.take_zero] at t
    have hflag : (k == b.length && endStream) = (endStream && decide (k = b.length)) := by
      rw [Bool.and_comm]
      rfl
    rw [hflag, t.of_nil rfl]
    exact .last hne (by omega)
  · have hrest : (b.drop k).take (n - k) ≠ [] := by
      intro h
      have := congrArg List.length h
      rw [List.length_take, List.length_drop, List.length_nil] at this
      omega
    have hflag : (k == b.length && endStream) = false := by
      rw [show (k == b.length) = false from beq_false_of_ne (by omega), Bool.false_and]
    have hsplit : b.take n = b.take k ++ (b.drop k).take (n - k) := by
      rw [← List.take_add]
      congr 1
      omega
    rw [hflag, hsplit]
    exact .cons hne hrest (by omega) t

/-- **The sending loop** sends what both windows allow and takes it off both. -/
theorem sendLoop_spec (hm : 0 < maxFrame) (id : Nat) (endStream : Bool) (rest : List UInt8)
    (conn send : Int) :
    ∃ fs, sendLoop id maxFrame endStream rest conn send =
        ⟨rest.drop (sendable rest conn send), conn - sendable rest conn send,
          send - sendable rest conn send, fs⟩ ∧
      DataRun id maxFrame (endStream && decide (sendable rest conn send = rest.length))
        (rest.take (sendable rest conn send)) fs := by
  have H := @loop_rule _ _ (sendStep id maxFrame endStream) (·.rest.length) (fun _ => True)
    ⟨rest, conn, send, []⟩ (sendStep_descends hm)
    (fun s r => ∃ fs, r = ⟨s.rest.drop (sendable s.rest s.conn s.send),
          s.conn - sendable s.rest s.conn s.send, s.send - sendable s.rest s.conn s.send,
          s.out ++ fs⟩ ∧
        DataRun id maxFrame (endStream && decide (sendable s.rest s.conn s.send = s.rest.length))
          (s.rest.take (sendable s.rest s.conn s.send)) fs)
    (fun s r _ e => ?_) (fun s s' r _ e ih => ?_) ⟨rest, conn, send, []⟩ trivial
  · exact H
  · rw [sendStep_eq hm] at e
    split at e <;> cases e
    rename_i h
    refine ⟨[], ?_, ?_⟩
    · simp [h]
    · rw [h, List.take_zero]
      exact .nil
  · rw [sendStep_eq hm] at e
    split at e <;> cases e
    rename_i h
    have hk : min (sendable s.rest s.conn s.send) maxFrame ≤ sendable s.rest s.conn s.send :=
      Nat.min_le_left _ _
    obtain ⟨fs, hr, hrun⟩ := ih
    rw [sendable_sent hk] at hr hrun
    refine ⟨_ :: fs, ?_, DataRun.sent (by omega) hk (sendable_le _ _ _) (Nat.min_le_right _ _) hrun⟩
    rw [hr]
    simp only [SendState.sent, List.drop_drop, List.append_assoc, List.singleton_append,
      SendState.mk.injEq, and_true]
    refine ⟨by congr 1; omega, by omega, by omega⟩

end Loop

/-! ### Header blocks -/

theorem continuationFrames_fit {id m n : Nat} {b : List UInt8} {g : Frame}
    (h : g ∈ continuationFrames id m n b) :
    g.type = .continuation ∧ g.streamId = id ∧ g.payload.length ≤ m := by
  induction n generalizing b with
  | zero => cases h
  | succ n ih =>
      unfold continuationFrames at h
      split at h
      · cases h
      · split at h
        · rcases List.mem_cons.mp h with rfl | h
          · exact ⟨rfl, rfl, List.length_take_le _ _⟩
          · exact ih h
        · rename_i hle
          rw [List.mem_singleton.mp h]
          exact ⟨rfl, rfl, Nat.le_of_not_lt hle⟩

/-- The frames of a header block are HEADERS and CONTINUATION of its stream, none above the
limit. -/
theorem headerFrames_fit {id m : Nat} {block : List UInt8} {es : Bool} {g : Frame}
    (h : g ∈ headerFrames id m block es) :
    (g.type = .headers ∨ g.type = .continuation) ∧ g.streamId = id ∧ g.payload.length ≤ m := by
  unfold headerFrames at h
  dsimp only at h
  split at h
  · rename_i hle
    rw [List.mem_singleton.mp h]
    exact ⟨.inl rfl, rfl, hle⟩
  · rcases List.mem_cons.mp h with rfl | h
    · exact ⟨.inl rfl, rfl, List.length_take_le _ _⟩
    · obtain ⟨ht, hid, hle⟩ := continuationFrames_fit h
      exact ⟨.inr ht, hid, hle⟩

/-! ### Streams -/

/-- A state after `n` of its parked bytes are sent. -/
def StreamState.sent (s : StreamState) (n : Nat) : StreamState :=
  { s with
    sendWindow := s.sendWindow - n
    pendingOff := s.pending.length - (s.parked.drop n).length }

@[simp] theorem StreamState.sent_parked (s : StreamState) (n : Nat) :
    (s.sent n).parked = s.parked.drop n := by
  unfold StreamState.sent StreamState.parked
  dsimp only
  rw [List.drop_drop, List.length_drop]
  by_cases h : s.pendingOff + n ≤ s.pending.length
  · congr 1
    omega
  · rw [List.drop_eq_nil_of_le (by omega), List.drop_eq_nil_of_le (by omega)]

/-- A state with `n` bytes taken off its window. -/
def StreamState.spent (s : StreamState) (n : Nat) : StreamState :=
  { s with sendWindow := s.sendWindow - n }

/-- A state with bytes parked behind the others. -/
def StreamState.park (s : StreamState) (b : List UInt8) (endStream : Bool) : StreamState :=
  { s with pending := s.pending ++ b, pendingEnd := endStream }

theorem StreamState.park_parked {s : StreamState} (h : s.pendingOff ≤ s.pending.length)
    (b : List UInt8) (endStream : Bool) : (s.park b endStream).parked = s.parked ++ b :=
  List.drop_append_of_le_length h

/-- The bytes parked for a stream. -/
def ServerConn.parkedOn (c : ServerConn) (s : Nat) : List UInt8 :=
  ((c.streams.get s).map StreamState.parked).getD []

namespace ServerConn

variable (c : ServerConn)

theorem flushPending_none {id : Nat} (h : c.streams.get id = none) :
    c.flushPending id = { conn := c } := by
  unfold flushPending
  rw [h]

theorem writeResponseBody_none {id : Nat} (h : c.streams.get id = none) (body : List UInt8)
    (endStream : Bool) : c.writeResponseBody id body endStream = { conn := c } := by
  unfold writeResponseBody
  rw [h]

/-- An empty body is nothing but the end of the stream, if it is that. -/
theorem writeResponseBody_empty {id : Nat} {st : StreamState} (h : c.streams.get id = some st)
    (endStream : Bool) :
    c.writeResponseBody id [] endStream =
      if endStream then { conn := c.releaseStream id, out := [writeData id [] true] }
      else { conn := c } := by
  unfold writeResponseBody
  rw [h]
  rfl

/-- `n` bytes are taken off both windows; `f` is what becomes of the stream's state besides. -/
def debit (id n : Nat) (f : StreamState → StreamState) : ServerConn :=
  updateStream { c with connSendWindow := c.connSendWindow - n } id f

theorem updateStream_congr {c : ServerConn} {id : Nat} {st : StreamState}
    {f g : StreamState → StreamState} (h : c.streams.get id = some st) (hfg : f st = g st) :
    c.updateStream id f = c.updateStream id g := by
  unfold updateStream
  rw [Streams.update_congr h hfg]

theorem updateStream_updateStream (id : Nat) (g h : StreamState → StreamState) :
    (c.updateStream id g).updateStream id h = c.updateStream id fun s => h (g s) := by
  unfold updateStream
  rw [Streams.update_update]

/-- What `flush_pending` does to a stream it sends `n` bytes of, as `fs`: more is left; or nothing
is, and it ends the stream with the DATA, or with the trailers that waited for it, or not. -/
inductive Flushed (id : Nat) (st : StreamState) (n : Nat) (fs : List Frame) : Reply → Prop where
  | waits (hlt : n < st.parked.length) :
      Flushed id st n fs { conn := c.debit id n (·.sent n), out := fs }
  | ends (hle : st.parked.length ≤ n) (hend : st.pendingEnd = true) :
      Flushed id st n fs { conn := (c.debit id n (·.sent n)).releaseStream id, out := fs }
  | trailers (hle : st.parked.length ≤ n) (hend : st.pendingEnd = false)
      (htr : st.trailersPending = true) :
      Flushed id st n fs
        { conn :=
            (c.debit id n fun s => { s.sent n with trailersPending := false }).releaseStream id
          out := fs ++ headerFrames id c.peerMaxFrame st.trailers true }
  | dry (hle : st.parked.length ≤ n) (hend : st.pendingEnd = false)
      (htr : st.trailersPending = false) :
      Flushed id st n fs { conn := c.debit id n (·.sent n), out := fs }

/-- **What `flush_pending` does**: it sends what the windows allow. -/
theorem flushPending_flushed (hm : 0 < c.peerMaxFrame) {id : Nat} {st : StreamState}
    (h : c.streams.get id = some st) :
    ∃ fs n, n = sendable st.parked c.connSendWindow st.sendWindow ∧
      DataRun id c.peerMaxFrame (st.pendingEnd && decide (n = st.parked.length))
        (st.parked.take n) fs ∧ c.Flushed id st n fs (c.flushPending id) := by
  obtain ⟨fs, hs, hrun⟩ :=
    sendLoop_spec hm id st.pendingEnd st.parked c.connSendWindow st.sendWindow
  refine ⟨fs, _, rfl, hrun, ?_⟩
  unfold flushPending
  rw [h]
  dsimp only
  rw [hs]
  dsimp only
  generalize sendable st.parked c.connSendWindow st.sendWindow = n
  have hdebit : updateStream { c with connSendWindow := c.connSendWindow - n } id
      (fun s => { s with
        sendWindow := st.sendWindow - n
        pendingOff := s.pending.length - (st.parked.drop n).length }) =
      c.debit id n (·.sent n) := updateStream_congr h rfl
  rw [hdebit]
  split
  · rename_i hrest
    exact .waits (Nat.lt_of_not_le fun hle => hrest (List.drop_eq_nil_of_le hle))
  · rename_i hrest
    have hle := List.drop_eq_nil_iff.mp (not_not.mp hrest)
    split
    · rename_i hend
      exact .ends hle hend
    · rename_i hend
      split
      · rename_i htr
        rw [debit, updateStream_updateStream]
        exact .trailers hle (eq_false_of_ne_true hend) htr
      · rename_i htr
        exact .dry hle (eq_false_of_ne_true hend) (eq_false_of_ne_true htr)

/-- What `write_response_body` does with a body that is not empty, `n` bytes of which it sends as
`fs`: the rest is parked; or there is none, and it ends the stream or not. -/
inductive Wrote (id : Nat) (body : List UInt8) (endStream : Bool) (n : Nat) (fs : List Frame) :
    Reply → Prop where
  | parks (hlt : n < body.length) :
      Wrote id body endStream n fs
        { conn := c.debit id n fun s => (s.spent n).park (body.drop n) endStream, out := fs }
  | ends (hle : body.length ≤ n) (hend : endStream = true) :
      Wrote id body endStream n fs
        { conn := (c.debit id n (·.spent n)).releaseStream id, out := fs }
  | stays (hle : body.length ≤ n) (hend : endStream = false) :
      Wrote id body endStream n fs
        { conn := c.debit id n (·.spent n), out := fs }

/-- **What `write_response_body` does** with a body that is not empty: it sends what the windows
allow. -/
theorem writeResponseBody_wrote (hm : 0 < c.peerMaxFrame) {id : Nat} {st : StreamState}
    (h : c.streams.get id = some st) {body : List UInt8} (hb : body ≠ []) (endStream : Bool) :
    ∃ fs n, n = sendable body c.connSendWindow st.sendWindow ∧
      DataRun id c.peerMaxFrame (endStream && decide (n = body.length)) (body.take n) fs ∧
      c.Wrote id body endStream n fs (c.writeResponseBody id body endStream) := by
  obtain ⟨fs, hs, hrun⟩ := sendLoop_spec hm id endStream body c.connSendWindow st.sendWindow
  refine ⟨fs, _, rfl, hrun, ?_⟩
  have hlen : ¬ body.length = 0 := fun h => hb (List.length_eq_zero_iff.mp h)
  unfold writeResponseBody
  rw [h]
  dsimp only
  rw [if_neg hlen, hs]
  dsimp only
  generalize sendable body c.connSendWindow st.sendWindow = n
  have hdebit : updateStream { c with connSendWindow := c.connSendWindow - n } id
      (fun s => { s with sendWindow := st.sendWindow - n }) =
      c.debit id n (·.spent n) := updateStream_congr h rfl
  rw [hdebit]
  split
  · rename_i hrest
    rw [debit, updateStream_updateStream]
    exact .parks (Nat.lt_of_not_le fun hle => hrest (List.drop_eq_nil_of_le hle))
  · rename_i hrest
    have hle := List.drop_eq_nil_iff.mp (not_not.mp hrest)
    cases endStream with
    | true => exact .ends hle rfl
    | false => exact .stays hle rfl

/-! ### Sending, for the windows -/

/-- A reply that sends the bytes `b` as DATA of a stream, and then the frames `tail`: both windows
allow the bytes and are smaller by them, and the other streams are left alone. -/
structure Sends (id : Nat) (st : StreamState) (b : List UInt8) (tail : List Frame)
    (r : Reply) : Prop where
  out : ∃ last fs, DataRun id c.peerMaxFrame last b fs ∧ r.out = fs ++ tail
  window : b ≠ [] → (b.length : Int) ≤ c.connSendWindow ∧ b.length ≤ st.sendWindow
  conn : r.conn.connSendWindow = c.connSendWindow - b.length
  self : ∀ st', r.conn.streams.get id = some st' → st'.sendWindow = st.sendWindow - b.length
  other : ∀ i, i ≠ id → r.conn.streams.get i = c.streams.get i

/-- What is behind the DATA: nothing, the trailers, or an empty DATA frame. -/
inductive Tail (id maxFrame : Nat) : List Frame → Prop where
  | none : Tail id maxFrame []
  | trailers (block : List UInt8) : Tail id maxFrame (headerFrames id maxFrame block true)
  | empty : Tail id maxFrame [writeData id [] true]

variable {c} {id : Nat} {st : StreamState}

theorem take_sendable (b : List UInt8) (conn send : Int) :
    (b.take (sendable b conn send)).length = sendable b conn send := by
  rw [List.length_take]
  exact Nat.min_eq_left (sendable_le b conn send)

theorem sendable_window {b : List UInt8} {conn send : Int}
    (h : b.take (sendable b conn send) ≠ []) :
    ((b.take (sendable b conn send)).length : Int) ≤ conn ∧
      ((b.take (sendable b conn send)).length : Int) ≤ send := by
  have hpos : 0 < sendable b conn send :=
    Nat.pos_of_ne_zero fun h0 => h (by rw [h0, List.take_zero])
  rw [take_sendable]
  unfold sendable at hpos ⊢
  omega

/-- The bytes are taken off both windows, and the stream stays open. -/
theorem Sends.debit (h : c.streams.get id = some st) {b : List UInt8} {tail fs : List Frame}
    {last : Bool} {n : Nat} {g : StreamState → StreamState} {r : Reply} (hn : b.length = n)
    (hconn : r.conn = c.debit id n g) (hout : r.out = fs ++ tail)
    (hrun : DataRun id c.peerMaxFrame last b fs)
    (hwin : b ≠ [] → (b.length : Int) ≤ c.connSendWindow ∧ b.length ≤ st.sendWindow)
    (hg : (g st).sendWindow = st.sendWindow - n) : c.Sends id st b tail r := by
  subst hn
  refine ⟨⟨last, fs, hrun, hout⟩, hwin, by rw [hconn]; rfl, fun st' h' => ?_, fun i hi => ?_⟩
  · rw [hconn, ServerConn.debit, updateStream, Streams.get_update, if_pos rfl, h] at h'
    cases h'
    exact hg
  · rw [hconn, ServerConn.debit, updateStream, Streams.get_update, if_neg hi]

/-- The bytes are taken off both windows, and the stream is released. -/
theorem Sends.release {b : List UInt8} {tail fs : List Frame} {last : Bool} {n : Nat}
    {g : StreamState → StreamState} {r : Reply} (hn : b.length = n)
    (hconn : r.conn = (c.debit id n g).releaseStream id) (hout : r.out = fs ++ tail)
    (hrun : DataRun id c.peerMaxFrame last b fs)
    (hwin : b ≠ [] → (b.length : Int) ≤ c.connSendWindow ∧ b.length ≤ st.sendWindow) :
    c.Sends id st b tail r := by
  subst hn
  refine ⟨⟨last, fs, hrun, hout⟩, hwin, by rw [hconn]; rfl, fun st' h' => ?_, fun i hi => ?_⟩
  · rw [hconn, releaseStream, Streams.get_release, if_pos rfl] at h'
    cases h'
  · rw [hconn, releaseStream, Streams.get_release, if_neg hi, ServerConn.debit, updateStream,
      Streams.get_update, if_neg hi]

theorem flushPending_sends (hm : 0 < c.peerMaxFrame) (h : c.streams.get id = some st) :
    ∃ b tail, c.Sends id st b tail (c.flushPending id) ∧ Tail id c.peerMaxFrame tail := by
  obtain ⟨fs, n, rfl, hrun, he⟩ := flushPending_flushed c hm h
  have hlen := take_sendable st.parked c.connSendWindow st.sendWindow
  have hnil : fs = fs ++ [] := (List.append_nil fs).symm
  generalize c.flushPending id = r at he
  cases he with
  | waits => exact ⟨_, [], Sends.debit h hlen rfl hnil hrun sendable_window rfl, .none⟩
  | ends => exact ⟨_, [], Sends.release hlen rfl hnil hrun sendable_window, .none⟩
  | trailers =>
      exact ⟨_, _, Sends.release hlen rfl rfl hrun sendable_window, .trailers st.trailers⟩
  | dry => exact ⟨_, [], Sends.debit h hlen rfl hnil hrun sendable_window rfl, .none⟩

theorem writeResponseBody_sends (hm : 0 < c.peerMaxFrame) (h : c.streams.get id = some st)
    (body : List UInt8) (endStream : Bool) :
    ∃ b tail, c.Sends id st b tail (c.writeResponseBody id body endStream) ∧
      Tail id c.peerMaxFrame tail := by
  by_cases hb : body = []
  · rw [hb, writeResponseBody_empty c h]
    have hnil : DataRun id c.peerMaxFrame endStream [] [] := .nil
    split
    · refine ⟨[], _, ⟨⟨_, _, hnil, rfl⟩, (absurd rfl ·), (Int.sub_zero _).symm, fun st' h' => ?_,
        fun i hi => ?_⟩, .empty⟩
      · rw [releaseStream, Streams.get_release, if_pos rfl] at h'
        cases h'
      · rw [releaseStream, Streams.get_release, if_neg hi]
    · refine ⟨[], [], ⟨⟨_, _, hnil, rfl⟩, (absurd rfl ·), (Int.sub_zero _).symm, fun st' h' => ?_,
        fun i hi => rfl⟩, .none⟩
      rw [h, Option.some.injEq] at h'
      rw [← h']
      exact (Int.sub_zero _).symm
  · obtain ⟨fs, n, rfl, hrun, he⟩ := writeResponseBody_wrote c hm h hb endStream
    have hlen := take_sendable body c.connSendWindow st.sendWindow
    have hnil : fs = fs ++ [] := (List.append_nil fs).symm
    generalize c.writeResponseBody id body endStream = r at he
    cases he with
    | parks => exact ⟨_, [], Sends.debit h hlen rfl hnil hrun sendable_window rfl, .none⟩
    | ends => exact ⟨_, [], Sends.release hlen rfl hnil hrun sendable_window, .none⟩
    | stays => exact ⟨_, [], Sends.debit h hlen rfl hnil hrun sendable_window rfl, .none⟩

end ServerConn

end Vanilla.Http2

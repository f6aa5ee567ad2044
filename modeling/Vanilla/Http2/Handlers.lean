import Vanilla.Http2.Sending

/-!
# HTTP/2 — what the handlers leave alone

Which fields of the connection a handler can change, as equations between the connection before and
after it with those fields blanked out: `rest` is the connection without its streams, `base`
without its send window as well, and the others leave out what one kind of frame changes.

* `rest`: PRIORITY, RST_STREAM, PING, GOAWAY, the end of a stream's request.
* `base`: WINDOW_UPDATE and the writing of responses.
* `restHeaders`, `restRecv`, `baseSettings`: HEADERS and CONTINUATION, DATA, SETTINGS.
* `frame_blanked`: so a frame of any type, with what that type can change left out; `frame_limits`
  and the others read single fields off it.
-/

namespace Vanilla.Http2

namespace ServerConn

variable (c : ServerConn)

/-! ### Streams and the send window -/

/-- The connection without its streams. -/
def rest : ServerConn := { c with streams := .new }

/-- The connection without its streams and its send window. -/
def base : ServerConn := { c with streams := .new, connSendWindow := 0 }

theorem base_of_rest {c c' : ServerConn} (h : c'.rest = c.rest) : c'.base = c.base :=
  (congrArg base h :)

theorem writeResponseHeaders_rest (id : Nat) (block : List UInt8) (endStream : Bool) :
    (c.writeResponseHeaders id block endStream).conn.rest = c.rest := by
  unfold writeResponseHeaders
  split <;> rfl

theorem flushPending_base (id : Nat) : (c.flushPending id).conn.base = c.base := by
  unfold flushPending
  split
  · rfl
  · dsimp only
    split
    · rfl
    · split
      · rfl
      · split <;> rfl

theorem flushAll_base (ids : List Nat) : (c.flushAll ids).conn.base = c.base := by
  induction ids generalizing c with
  | nil => rfl
  | cons id ids ih => exact (ih _).trans (flushPending_base c id)

theorem writeResponseBody_base (id : Nat) (body : List UInt8) (endStream : Bool) :
    (c.writeResponseBody id body endStream).conn.base = c.base := by
  unfold writeResponseBody
  split
  · rfl
  · split
    · split <;> rfl
    · dsimp only
      split
      · rfl
      · dsimp only
        split <;> rfl

theorem writeResponseTrailers_rest (id : Nat) (block : List UInt8) :
    (c.writeResponseTrailers id block).conn.rest = c.rest := by
  unfold writeResponseTrailers
  split
  · rfl
  · split
    · rfl
    · exact writeResponseHeaders_rest c id block true

/-- Writing changes the streams and the send window only. -/
theorem write_base (w : Write) : (w.exec c).conn.base = c.base := by
  cases w with
  | headers id block endStream =>
      exact base_of_rest (writeResponseHeaders_rest c id block endStream)
  | body id bytes endStream => exact writeResponseBody_base c id bytes endStream
  | data id bytes => exact writeResponseBody_base c id bytes true
  | trailers id block => exact base_of_rest (writeResponseTrailers_rest c id block)
  | abort id code => rfl

theorem completeStream_rest (id : Nat) : (c.completeStream id).conn.rest = c.rest := by
  unfold completeStream
  split
  · rfl
  · dsimp only
    split
    · rfl
    · split <;> rfl

theorem finishFields_rest (fields : List HeaderField) :
    (c.finishFields fields).conn.rest = c.rest := by
  unfold finishFields
  dsimp only
  split
  · split
    · rfl
    · exact completeStream_rest c _
  · split
    · rfl
    · split
      · exact completeStream_rest _ _
      · rfl

theorem onWindowUpdate_base (f : Frame) : (c.onWindowUpdate f).conn.base = c.base := by
  unfold onWindowUpdate
  split
  · rfl
  · split
    · split
      · rfl
      · dsimp only
        split
        · rfl
        · exact (flushAll_base _ _).trans rfl
    · split
      · rfl
      · split
        · rfl
        · split
          · rfl
          · dsimp only
            split
            · rfl
            · exact (flushPending_base _ _).trans rfl

theorem onPriority_rest (f : Frame) : (c.onPriority f).conn.rest = c.rest := by
  unfold onPriority
  split
  · rfl
  · split
    · rfl
    · split <;> rfl

theorem onRstStream_rest (f : Frame) : (c.onRstStream f).conn.rest = c.rest := by
  unfold onRstStream
  split
  · rfl
  · split <;> rfl

theorem onPing_conn (f : Frame) : (c.onPing f).conn = c := by
  unfold onPing
  split
  · rfl
  · split <;> rfl

theorem onGoaway_conn (f : Frame) : (c.onGoaway f).conn = c := by
  unfold onGoaway
  split
  · rfl
  · split <;> rfl

/-! ### Header blocks -/

/-- `rest` without what header blocks change. -/
def restHeaders : ServerConn :=
  { c.rest with
    dec := newDecoder 0
    lastStream := 0
    hdrExpecting := false
    hdrStream := 0
    hdrEndStream := false
    hdrRefused := false
    hdrTrailers := false
    hdrMalformed := false
    hdrBlock := [] }

theorem finishHeaderBlock_restHeaders : c.finishHeaderBlock.conn.restHeaders = c.restHeaders := by
  unfold finishHeaderBlock
  split
  · rfl
  · exact (congrArg restHeaders (finishFields_rest _ _) :)

theorem beginBlock_restHeaders (f : Frame) (fragment : List UInt8) :
    (c.beginBlock f fragment).conn.restHeaders = c.restHeaders := by
  unfold beginBlock
  dsimp only
  split
  · exact (finishHeaderBlock_restHeaders _).trans rfl
  · rfl

theorem onHeaderFragment_restHeaders (f : Frame) (fragment : List UInt8) :
    (c.onHeaderFragment f fragment).conn.restHeaders = c.restHeaders := by
  unfold onHeaderFragment
  split
  · split
    · rfl
    · split
      · rfl
      · exact (beginBlock_restHeaders _ f fragment).trans rfl
  · split
    · rfl
    · exact (beginBlock_restHeaders _ f fragment).trans rfl

theorem onHeaders_restHeaders (f : Frame) : (c.onHeaders f).conn.restHeaders = c.restHeaders := by
  unfold onHeaders
  split
  · rfl
  · split
    · rfl
    · dsimp only
      split
      · split
        · rfl
        · rw [onHeaderFragment_restHeaders]
          split <;> rfl
      · exact (onHeaderFragment_restHeaders _ f _).trans rfl

theorem onContinuation_restHeaders (f : Frame) :
    (c.onContinuation f).conn.restHeaders = c.restHeaders := by
  unfold onContinuation
  split
  · rfl
  · split
    · rfl
    · dsimp only
      split
      · exact (finishHeaderBlock_restHeaders _).trans rfl
      · rfl

/-! ### DATA and SETTINGS -/

/-- `rest` without the receive window. -/
def restRecv : ServerConn := { c.rest with connRecvWindow := 0 }

theorem replenish_restRecv (f : Frame) : (c.replenish f).conn.restRecv = c.restRecv := by
  unfold replenish
  dsimp only
  split
  · split <;> rfl
  · rfl

theorem onData_restRecv (f : Frame) : (c.onData f).conn.restRecv = c.restRecv := by
  unfold onData
  split
  · rfl
  · split
    · rfl
    · split
      · rfl
      · dsimp only
        split
        · rfl
        · split
          · rfl
          · split
            · rfl
            · split
              · refine (congrArg restRecv (completeStream_rest _ _) :).trans ?_
                refine (replenish_restRecv _ f).trans ?_
                split <;> rfl
              · refine (replenish_restRecv _ f).trans ?_
                split <;> rfl

/-- `base` without the peer's settings. -/
def baseSettings : ServerConn := { c.base with initSendWindow := 0, peerMaxFrame := 0 }

theorem onSetting_baseSettings (st : Setting) :
    (c.onSetting st).1.baseSettings = c.baseSettings := by
  unfold onSetting
  split
  · split <;> rfl
  · split
    · split <;> rfl
    · split
      · split <;> rfl
      · rfl

/-- What holds of a connection and survives every setting survives a list of them. -/
theorem onSettingList_rule {P : ServerConn → Prop} (hstep : ∀ c st, P c → P (c.onSetting st).1)
    {c : ServerConn} (h : P c) (sts : List Setting) : P (c.onSettingList sts).1 := by
  induction sts generalizing c with
  | nil => exact h
  | cons st sts ih =>
      unfold onSettingList
      dsimp only
      split
      · exact hstep c st h
      · exact ih (hstep c st h)

theorem onSettingList_cons {c c₁ : ServerConn} {st : Setting} {sts : List Setting}
    (h : c.onSettingList (st :: sts) = (c₁, .noError)) :
    (c.onSetting st).2 = .noError ∧ (c.onSetting st).1.onSettingList sts = (c₁, .noError) := by
  unfold onSettingList at h
  dsimp only at h
  split at h
  · rename_i hne
    exact absurd (congrArg Prod.snd h) hne
  · rename_i hne
    exact ⟨not_not.mp hne, h⟩

theorem onSettingList_baseSettings (sts : List Setting) :
    (c.onSettingList sts).1.baseSettings = c.baseSettings :=
  onSettingList_rule (P := fun c' => c'.baseSettings = c.baseSettings)
    (fun c' st h => (onSetting_baseSettings c' st).trans h) rfl sts

theorem onSettings_baseSettings (f : Frame) :
    (c.onSettings f).conn.baseSettings = c.baseSettings := by
  unfold onSettings
  split
  · rfl
  · split
    · split <;> rfl
    · split
      · rfl
      · rename_i settings _
        have hlist := onSettingList_baseSettings c settings
        dsimp only
        split
        · exact hlist
        · split
          · exact (congrArg baseSettings (flushAll_base _ _) :).trans hlist
          · exact hlist

/-! ### Any frame -/

/-- A frame without error is dispatched; in the middle of a header block, only CONTINUATION is. -/
theorem frame_ok {f : Frame} (h : (c.frame f).code = .noError) :
    c.frame f = c.dispatch f ∧ (c.hdrExpecting = true → f.type = .continuation) := by
  unfold frame at h ⊢
  split at h
  · cases h
  · rename_i hx
    rw [if_neg hx]
    exact ⟨rfl, fun he => not_not.mp fun ht => hx ⟨he, ht⟩⟩

/-- The connection without what a frame of this type can change. -/
def blanked : FrameType → ServerConn → ServerConn
  | .data => restRecv
  | .headers | .continuation => restHeaders
  | .settings => baseSettings
  | .windowUpdate => base
  | _ => rest

theorem frame_blanked (f : Frame) :
    blanked f.type (c.frame f).conn = blanked f.type c := by
  unfold frame dispatch
  split
  · rfl
  · generalize f.type = t
    cases t with
    | data => exact onData_restRecv c f
    | headers => exact onHeaders_restHeaders c f
    | priority => exact onPriority_rest c f
    | rstStream => exact onRstStream_rest c f
    | settings => exact onSettings_baseSettings c f
    | ping => rw [onPing_conn]
    | goaway => rw [onGoaway_conn]
    | windowUpdate => exact onWindowUpdate_base c f
    | continuation => exact onContinuation_restHeaders c f
    | pushPromise | unknown => rfl

/-- A frame does not touch the preface. -/
theorem frame_prefaceSeen (f : Frame) : (c.frame f).conn.prefaceSeen = c.prefaceSeen := by
  have h := frame_blanked c f
  generalize f.type = t at h
  cases t <;> exact (congrArg prefaceSeen h :)

/-- What header blocks change: the decoder, the assembly of a block and the last stream. -/
def headerPart : ServerConn :=
  { c.base with prefaceSeen := false, connRecvWindow := 0, initSendWindow := 0, peerMaxFrame := 0 }

theorem headerPart_of_base {c c' : ServerConn} (h : c'.base = c.base) :
    c'.headerPart = c.headerPart :=
  (congrArg headerPart h :)

/-- Only HEADERS and CONTINUATION change it. -/
theorem frame_headerPart {f : Frame} (hh : f.type ≠ .headers) (hc : f.type ≠ .continuation) :
    (c.frame f).conn.headerPart = c.headerPart := by
  have h := frame_blanked c f
  generalize f.type = t at h hh hc
  cases t <;> first | contradiction | exact (congrArg headerPart h :)

/-- The limits the peer has set. -/
def limits : Nat × Int := (c.peerMaxFrame, c.initSendWindow)

theorem limits_of_base {c c' : ServerConn} (h : c'.base = c.base) : c'.limits = c.limits :=
  (congrArg limits h :)

/-- Only SETTINGS changes the limits. -/
theorem frame_limits {f : Frame} (hs : f.type ≠ .settings) :
    (c.frame f).conn.limits = c.limits := by
  have h := frame_blanked c f
  generalize f.type = t at h hs
  cases t <;> first | contradiction | exact (congrArg limits h :)

/-- Only SETTINGS and WINDOW_UPDATE change the connection's send window. -/
theorem frame_connSendWindow {f : Frame} (hs : f.type ≠ .settings) (hw : f.type ≠ .windowUpdate) :
    (c.frame f).conn.connSendWindow = c.connSendWindow := by
  have h := frame_blanked c f
  generalize f.type = t at h hs hw
  cases t <;> first | contradiction | exact (congrArg connSendWindow h :)

end ServerConn

end Vanilla.Http2

import Vanilla.Http2.Handlers
import Vanilla.Http2.HpackTable

/-!
# HTTP/2 — header blocks and the decoder

HPACK is stateful: the decoder must see every header block of the connection, once and in order,
whatever becomes of the stream.  `scanBlocks` is what the frames of a connection say the blocks
are; the connection assembles them in `hdr_block`.

* `onHeaders_ok`, `onContinuation_ok`: what a HEADERS or CONTINUATION frame without error does.
* `decoder_in_sync`: the decoder has decoded the blocks of the frames received.
-/

namespace Vanilla.Http2
open ServerConn

/-! ### The blocks of a connection -/

/-- The header block fragment of a HEADERS frame: its payload without padding and priority. -/
def Frame.fragment (f : Frame) : Option (List UInt8) :=
  f.unpadded.bind fun b =>
    if f.has flagPriority then if b.length < 5 then none else some (b.drop 5) else some b

/-- The complete blocks of some frames, and the block that is not complete yet. -/
structure BlockScan where
  blocks : List (List UInt8) := []
  cur : Option (List UInt8) := none

namespace BlockScan

/-- A fragment behind those of the current block, which it may complete. -/
def fragment (s : BlockScan) (b : List UInt8) (endHeaders : Bool) : BlockScan :=
  if endHeaders then ⟨s.blocks ++ [b], none⟩ else { s with cur := some b }

/-- One frame. -/
def frame (s : BlockScan) (f : Frame) : BlockScan :=
  match f.type with
  | .headers => s.fragment (f.fragment.getD []) f.endHeaders
  | .continuation => s.fragment (s.cur.getD [] ++ f.payload) f.endHeaders
  | _ => s

theorem frame_other (s : BlockScan) {f : Frame} (hh : f.type ≠ .headers)
    (hc : f.type ≠ .continuation) : s.frame f = s := by
  unfold frame
  split
  · rename_i ht
    exact absurd ht hh
  · rename_i ht
    exact absurd ht hc
  · rfl

end BlockScan

/-- The header blocks of some frames. -/
def scanBlocks (frames : List Frame) : BlockScan := frames.foldl BlockScan.frame {}

/-- The frames received in a history. -/
def received (h : List Done) : List Frame :=
  h.filterMap fun d => match d.event with
    | .recv f => some f
    | _ => none

theorem received_append (h h' : List Done) : received (h ++ h') = received h ++ received h' :=
  List.filterMap_append ..

/-! ### HEADERS and CONTINUATION -/

/-- What the checks of `on_headers` note about a block that begins: it is the trailers of an open
stream, or it opens one. -/
inductive Noted (c : ServerConn) (f : Frame) : ServerConn → Prop where
  | trailers {st : StreamState} (malformed : Bool) (hget : c.streams.get f.streamId = some st)
      (hopen : st.remoteDone = false) (hend : f.endStream = true) :
      Noted c f { c with hdrTrailers := true, hdrRefused := false, hdrMalformed := malformed }
  | opens (malformed : Bool) (hget : c.streams.get f.streamId = none)
      (hlt : c.lastStream < f.streamId) :
      Noted c f
        { c with
          hdrTrailers := false
          hdrRefused := decide (maxConcurrentStreams ≤ c.streams.len)
          hdrMalformed := malformed
          lastStream := f.streamId }

namespace ServerConn

variable {c : ServerConn} {f : Frame}

theorem onHeaderFragment_ok {malformed : Bool} {b : List UInt8}
    (h : (onHeaderFragment { c with
      hdrTrailers := false, hdrRefused := false, hdrMalformed := malformed } f b).code = .noError) :
    ∃ c₁, Noted c f c₁ ∧ onHeaderFragment { c with
      hdrTrailers := false, hdrRefused := false, hdrMalformed := malformed } f b =
        c₁.beginBlock f b := by
  unfold onHeaderFragment at h ⊢
  cases hget : c.streams.get f.streamId with
  | some st =>
      simp only [hget] at h ⊢
      split at h
      · cases h
      · rename_i hr
        split at h
        · cases h
        · rename_i he
          rw [if_neg hr, if_neg he]
          exact ⟨_, .trailers malformed hget (by simpa using hr) (by simpa using he), rfl⟩
  | none =>
      simp only [hget] at h ⊢
      split at h
      · cases h
      · rename_i hle
        rw [if_neg hle]
        refine ⟨_, .opens malformed hget (Nat.lt_of_not_le hle), ?_⟩
        congr 2

/-- **A HEADERS frame without error** begins the block of its fragment, on an odd stream. -/
theorem onHeaders_ok (h : (c.onHeaders f).code = .noError) :
    ∃ c₁ b, Noted c f c₁ ∧ f.fragment = some b ∧ f.streamId % 2 = 1 ∧
      c.onHeaders f = c₁.beginBlock f b := by
  unfold onHeaders at h ⊢
  unfold Frame.fragment
  split at h
  · cases h
  · rename_i hid
    rw [if_neg hid]
    have hodd : f.streamId % 2 = 1 := by omega
    cases hu : f.unpadded with
    | none =>
        rw [hu] at h
        cases h
    | some b =>
        simp only [hu] at h ⊢
        split at h
        · rename_i hp
          rw [if_pos hp]
          split at h
          · cases h
          · rename_i hlen
            rw [if_neg hlen]
            have hfrag : (some b).bind (fun b => if f.has flagPriority = true then
                if b.length < 5 then none else some (b.drop 5) else some b) = some (b.drop 5) := by
              simp [hp, hlen]
            rw [hfrag]
            split at h
            · rename_i hdep
              rw [if_pos hdep]
              obtain ⟨c₁, hn, he⟩ := onHeaderFragment_ok h
              exact ⟨c₁, _, hn, rfl, hodd, he⟩
            · rename_i hdep
              rw [if_neg hdep]
              obtain ⟨c₁, hn, he⟩ := onHeaderFragment_ok h
              exact ⟨c₁, _, hn, rfl, hodd, he⟩
        · rename_i hp
          rw [if_neg hp]
          obtain ⟨c₁, hn, he⟩ := onHeaderFragment_ok h
          exact ⟨c₁, b, hn, by simp [hp], hodd, he⟩

/-- **A CONTINUATION frame without error** goes behind the block of its stream. -/
theorem onContinuation_ok (h : (c.onContinuation f).code = .noError) :
    c.hdrExpecting = true ∧ f.streamId = c.hdrStream ∧
      c.onContinuation f =
        if f.endHeaders then finishHeaderBlock { c with hdrBlock := c.hdrBlock ++ f.payload }
        else { conn := { c with hdrBlock := c.hdrBlock ++ f.payload } } := by
  unfold onContinuation at h ⊢
  split at h
  · cases h
  · rename_i hx
    split at h
    · cases h
    · rename_i hlen
      rw [if_neg hx, if_neg hlen]
      simp only [Bool.not_eq_true', not_or, Bool.not_eq_false, not_not] at hx
      exact ⟨hx.1, hx.2, rfl⟩

/-- A block that is finished without error is decoded. -/
theorem finishHeaderBlock_ok (h : c.finishHeaderBlock.code = .noError) :
    ∃ fields dec, (decodeInto c.hdrBlock).run c.dec = .ok fields dec ∧
      c.finishHeaderBlock = finishFields { c with hdrExpecting := false, dec := dec } fields := by
  unfold finishHeaderBlock at h ⊢
  split at h
  · cases h
  · rename_i fields dec hd
    exact ⟨fields, dec, hd, rfl⟩

end ServerConn

/-! ### The decoder -/

theorem decodeBlocks_concat {d d₁ d₂ : HpackDecoder} {blocks : List (List UInt8)}
    {fields : List (List HeaderField)} {b : List UInt8} {fs : List HeaderField}
    (h : decodeBlocks d blocks = some (d₁, fields)) (hb : (decodeInto b).run d₁ = .ok fs d₂) :
    decodeBlocks d (blocks ++ [b]) = some (d₂, fields ++ [fs]) := by
  induction blocks generalizing d fields with
  | nil =>
      cases h
      simp [decodeBlocks, hb]
  | cons block blocks ih =>
      rw [List.cons_append, decodeBlocks]
      rw [decodeBlocks] at h
      split at h
      · cases h
      · rename_i gs d' hd
        obtain ⟨⟨d'', hs⟩, hrest, he⟩ := Option.map_eq_some_iff.mp h
        cases he
        rw [ih hrest]
        rfl

/-- The connection has decoded the complete blocks, and has the other one in `hdr_block`. -/
structure InSync (s : BlockScan) (c : ServerConn) : Prop where
  dec : ∃ fields, decodeBlocks (newDecoder hpackDefaultTableSize) s.blocks = some (c.dec, fields)
  cur : s.cur = if c.hdrExpecting then some c.hdrBlock else none

namespace InSync

variable {s : BlockScan} {c c₁ : ServerConn}

/-- What is kept when neither the decoder nor the assembly changes. -/
theorem of_headerPart (h : InSync s c) (he : c₁.headerPart = c.headerPart) : InSync s c₁ := by
  have hdec : c₁.dec = c.dec := (congrArg ServerConn.dec he :)
  have hexp : c₁.hdrExpecting = c.hdrExpecting := (congrArg hdrExpecting he :)
  have hblock : c₁.hdrBlock = c.hdrBlock := (congrArg hdrBlock he :)
  exact ⟨by rw [hdec]; exact h.dec, by rw [hexp, hblock]; exact h.cur⟩

/-- A block that is complete, and decodes. -/
theorem finish (h : InSync s c) (hdec : c₁.dec = c.dec)
    (hok : c₁.finishHeaderBlock.code = .noError) :
    InSync (s.fragment c₁.hdrBlock true) c₁.finishHeaderBlock.conn := by
  obtain ⟨fields, dec, hd, he⟩ := finishHeaderBlock_ok hok
  obtain ⟨fs, hfs⟩ := h.dec
  have hbase := finishFields_rest { c₁ with hdrExpecting := false, dec := dec } fields
  rw [← he] at hbase
  rw [hdec] at hd
  refine ⟨⟨fs ++ [fields], ?_⟩, ?_⟩
  · rw [show c₁.finishHeaderBlock.conn.dec = dec from (congrArg ServerConn.dec hbase :)]
    exact decodeBlocks_concat hfs hd
  · rw [show c₁.finishHeaderBlock.conn.hdrExpecting = false from
      (congrArg hdrExpecting hbase :)]
    rfl

/-- A block that begins. -/
theorem begin (h : InSync s c) {f : Frame} (hn : Noted c f c₁) {b : List UInt8}
    (hok : (c₁.beginBlock f b).code = .noError) :
    InSync (s.fragment b f.endHeaders) (c₁.beginBlock f b).conn := by
  have hdec : c₁.dec = c.dec := by cases hn <;> rfl
  unfold beginBlock at hok ⊢
  dsimp only at hok ⊢
  cases he : f.endHeaders with
  | true =>
      rw [he, if_pos rfl] at hok
      rw [if_pos rfl]
      exact @finish _ _ { c₁ with
        hdrStream := f.streamId, hdrEndStream := f.endStream, hdrBlock := b } h hdec hok
  | false =>
      refine ⟨?_, rfl⟩
      show ∃ fields, _ = some (c₁.dec, fields)
      rw [hdec]
      exact h.dec

/-- **One frame**, of any type, keeps the decoder in step with the blocks. -/
theorem frame (h : InSync s c) {f : Frame} (hok : (c.frame f).code = .noError) :
    InSync (s.frame f) (c.frame f).conn := by
  obtain ⟨hd, -⟩ := frame_ok c hok
  by_cases hh : f.type = .headers
  · have he : c.frame f = c.onHeaders f := by
      rw [hd, dispatch, hh]
    rw [he] at hok ⊢
    obtain ⟨c₁, b, hn, hfrag, -, hbegin⟩ := onHeaders_ok hok
    rw [hbegin] at hok ⊢
    rw [BlockScan.frame, hh, hfrag]
    exact h.begin hn hok
  · by_cases hc : f.type = .continuation
    · have he : c.frame f = c.onContinuation f := by
        rw [hd, dispatch, hc]
      rw [he] at hok ⊢
      obtain ⟨hx, -, hcont⟩ := onContinuation_ok hok
      have hcur : s.cur = some c.hdrBlock := by rw [h.cur, hx]; rfl
      rw [hcont] at hok ⊢
      rw [BlockScan.frame, hc, hcur]
      cases hend : f.endHeaders with
      | true =>
          rw [hend, if_pos rfl] at hok
          rw [if_pos rfl]
          exact @finish _ _ { c with hdrBlock := c.hdrBlock ++ f.payload } h rfl hok
      | false =>
          refine ⟨h.dec, ?_⟩
          show some _ = if c.hdrExpecting then _ else _
          rw [hx]
          rfl
    · rw [s.frame_other hh hc]
      exact h.of_headerPart (frame_headerPart c hh hc)

end InSync

/-- Along a trace without errors the decoder keeps in step. -/
theorem Trace.inSync {h : List Done} {c : ServerConn} (t : Trace newServerConn h c)
    (hok : ∀ d ∈ h, d.Ok) : InSync (scanBlocks (received h)) c := by
  induction t with
  | nil => exact ⟨⟨[], rfl⟩, rfl⟩
  | snoc t hok' e ih =>
      rename_i h c
      have hs := ih hok'
      have he := hok ⟨c, e⟩ (by simp)
      rw [received_append]
      cases e with
      | preface =>
          rw [show received [⟨c, .preface⟩] = [] from rfl, List.append_nil]
          exact hs.of_headerPart rfl
      | write w =>
          rw [show received [⟨c, .write w⟩] = [] from rfl, List.append_nil]
          exact hs.of_headerPart (headerPart_of_base (write_base c w))
      | recv f =>
          rw [show received [⟨c, .recv f⟩] = [f] from rfl, scanBlocks, List.foldl_append]
          exact hs.frame he

/-- **The decoder never gets out of step.**  In a run that has not closed, the decoder is what
decoding the complete header blocks of the frames received, in order and each once, makes of a
fresh one. -/
theorem decoder_in_sync (calls : List Call)
    (h : (runCalls newServerConn calls).closed = false) :
    ∃ fields, decodeBlocks (newDecoder hpackDefaultTableSize)
        (scanBlocks (received (runCalls newServerConn calls).history)).blocks =
      some ((runCalls newServerConn calls).conn.dec, fields) := by
  obtain ⟨ht, hok⟩ := runCalls_trace newServerConn calls
  exact (ht.inSync (hok h)).dec

/-- The preface, a GET whose block goes on in a CONTINUATION with a literal that is indexed, and
another GET with that field from the table. -/
def indexedLater : List UInt8 :=
  prefaceTail ++ [0, 0, 3, 1, 1, 0, 0, 0, 1, 0x82, 0x86, 0x84] ++
    [0, 0, 5, 9, 4, 0, 0, 0, 1, 0x40, 1, 0x61, 1, 0x62] ++
    [0, 0, 4, 1, 5, 0, 0, 0, 3, 0x82, 0x86, 0x84, 0xbe]

theorem decoder_in_sync_get :
    (scanBlocks (received (runCalls newServerConn [.consume indexedLater]).history)).blocks =
        [[0x82, 0x86, 0x84, 0x40, 1, 0x61, 1, 0x62], [0x82, 0x86, 0x84, 0xbe]] ∧
      (runCalls newServerConn [.consume indexedLater]).conn.dec.dyn = [⟨ascii "a", ascii "b"⟩] ∧
      ∃ fields, decodeBlocks (newDecoder hpackDefaultTableSize)
          (scanBlocks (received (runCalls newServerConn [.consume indexedLater]).history)).blocks =
        some ((runCalls newServerConn [.consume indexedLater]).conn.dec, fields) :=
  ⟨by decide +kernel, by decide +kernel, decoder_in_sync _ (by decide +kernel)⟩

end Vanilla.Http2

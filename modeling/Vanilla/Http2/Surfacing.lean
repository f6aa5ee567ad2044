import Vanilla.Http2.Effects
import Vanilla.Http2.Fields

/-!
# HTTP/2 — requests that are surfaced

A request is surfaced when `complete_stream` finds nothing wrong with it: with the DATA frame, the
trailers or the header block that ends it (`Completed`).  Until then the stream's state is the
record of what was received on it (`Reads`), and from then on the stream is settled: no frame
completes it again.

* `frame_reqs`: what a frame surfaces comes from one completed stream.
* `Reads`: headers and body of a stream that is read are those of its frames.
* `surfacing_sound`: over any run, each request is surfaced once at most, and whole.
-/

namespace Vanilla.Http2

open StreamState Streams ServerConn

/-! ### What a history received and surfaced -/

/-- The requests a history has surfaced. -/
def surfaced (h : List Done) : List Http2Request := h.flatMap (·.reply.reqs)

/-- The bytes an event brings for the body of a stream: those of a DATA frame, without padding. -/
def Event.dataFor (s : Nat) : Event → List UInt8
  | recv f => if f.type = .data ∧ f.streamId = s then f.unpadded.getD [] else []
  | _ => []

/-- The DATA received on a stream. -/
def dataOn (s : Nat) (h : List Done) : List UInt8 := h.flatMap (·.event.dataFor s)

/-- A request as it should be, `received` being the DATA of its stream. -/
structure Http2Request.Whole (q : Http2Request) (received : List UInt8) : Prop where
  rules : ∃ declared, RequestFields q.headers declared
  length : ∀ f ∈ q.headers, f.name = ascii "content-length" →
    parseContentLength f.value = some q.body.length
  body : q.body = received

theorem dataOn_snoc (s : Nat) (h : List Done) (d : Done) :
    dataOn s (h ++ [d]) = dataOn s h ++ d.event.dataFor s := by
  simp [dataOn]

theorem surfaced_snoc (h : List Done) (d : Done) :
    surfaced (h ++ [d]) = surfaced h ++ d.reply.reqs := by
  simp [surfaced]

/-! ### Completion -/

/-- The streams a frame completes, and the connection `complete_stream` finds. -/
inductive Completed (c : ServerConn) (f : Frame) : ServerConn → Nat → Prop where
  | data {st : StreamState} {data : List UInt8} (ht : f.type = .data)
      (hget : c.streams.get f.streamId = some st) (hopen : st.remoteDone = false)
      (hunpad : f.unpadded = some data) :
      Completed c f (c.updateStream f.streamId (·.take f data)) f.streamId
  | trailers {c₁ : ServerConn} (ha : Assembled c f c₁) (dec : HpackDecoder)
      (ht : c₁.hdrTrailers = true) :
      Completed c f { c₁ with hdrExpecting := false, dec := dec } c₁.hdrStream
  | request {c₁ : ServerConn} (ha : Assembled c f c₁) (dec : HpackDecoder)
      (fields : List HeaderField) (ht : c₁.hdrTrailers = false) (hr : c₁.hdrRefused = false) :
      Completed c f
        (openRequest { c₁ with hdrExpecting := false, dec := dec } c₁.hdrStream fields
          (c₁.hdrMalformed || (validateRequestFields fields).isNone)
          ((validateRequestFields fields).getD none))
        c₁.hdrStream

namespace ServerConn

variable {c : ServerConn} {f : Frame} {q : Http2Request} {id : Nat} {st : StreamState}

/-- What `complete_stream` surfaces, and leaves. -/
theorem completeStream_reqs (hget : c.streams.get id = some st)
    (hq : q ∈ (c.completeStream id).reqs) :
    (c.completeStream id).reqs = [q] ∧ q = ⟨id, c.streams.ref id, st.headers, st.body⟩ ∧
      st.rejected = false ∧ (∀ n, st.declaredLen = some n → n = st.body.length) ∧
      (c.completeStream id).conn = c.updateStream id fun s => { s with remoteDone := true } := by
  have href : (c.updateStream id fun s => { s with remoteDone := true }).streams.ref id =
      c.streams.ref id := by
    unfold updateStream Streams.update
    dsimp only
    split <;> rfl
  unfold completeStream at hq ⊢
  rw [hget] at hq ⊢
  dsimp only at hq ⊢
  split at hq
  · cases hq
  · rename_i hrej
    rw [if_neg hrej]
    split at hq
    · cases hq
    · rename_i hlen
      rw [if_neg hlen]
      rw [List.mem_singleton.mp hq, href]
      refine ⟨rfl, rfl, eq_false_of_ne_true hrej, fun n hn => ?_, rfl⟩
      rw [hn] at hlen
      simpa using hlen

/-- Whatever `complete_stream` leaves of the stream is complete, and was not rejected. -/
theorem completeStream_get {st' : StreamState}
    (h : (c.completeStream id).conn.streams.get id = some st') :
    ∃ st, c.streams.get id = some st ∧ st.rejected = false ∧
      st' = { st with remoteDone := true } := by
  unfold completeStream at h
  split at h
  · rename_i hnone
    rw [hnone] at h
    cases h
  · rename_i st hget
    dsimp only at h
    split at h
    · rw [releaseStream, get_release, if_pos rfl] at h
      cases h
    · rename_i hrej
      split at h
      · rw [resetStream, releaseStream, get_release, if_pos rfl] at h
        cases h
      · rw [updateStream, get_update, if_pos rfl, hget] at h
        cases h
        exact ⟨st, hget, eq_false_of_ne_true hrej, rfl⟩

theorem completeStream_done (h : (c.completeStream id).conn.streams.get id = some st) :
    st.remoteDone = true := by
  obtain ⟨-, -, -, rfl⟩ := completeStream_get h
  rfl

/-- Writing surfaces nothing. -/
theorem write_reqs (c : ServerConn) (w : Write) : (w.exec c).reqs = [] := by
  have hbody : ∀ id body endStream, (c.writeResponseBody id body endStream).reqs = [] := by
    intro id body endStream
    unfold writeResponseBody
    split
    · rfl
    · split
      · split <;> rfl
      · dsimp only
        split <;> rfl
  cases w with
  | headers => rfl
  | abort => rfl
  | body id bytes endStream => exact hbody id bytes endStream
  | data id bytes => exact hbody id bytes true
  | trailers id block =>
      show (c.writeResponseTrailers id block).reqs = []
      unfold writeResponseTrailers
      split
      · rfl
      · split <;> rfl

/-- **What a frame surfaces** comes from a stream it completes. -/
theorem frame_reqs (hok : (c.frame f).code = .noError) (hq : q ∈ (c.frame f).reqs) :
    ∃ c₁ id, Completed c f c₁ id ∧ (c.frame f).reqs = (c₁.completeStream id).reqs ∧
      (c.frame f).conn = (c₁.completeStream id).conn := by
  have hr := frame_receives hok
  generalize c.frame f = r at *
  cases hr with
  | data ht hget hopen hunpad =>
      unfold takeData at hq ⊢
      dsimp only at hq ⊢
      split at hq
      · rename_i he
        rw [if_pos he]
        exact ⟨_, _, .data ht hget hopen hunpad, rfl, rfl⟩
      · cases hq
  | fragment => cases hq
  | @block c₁ fields dec ha =>
      unfold finishFields at hq ⊢
      dsimp only at hq ⊢
      split at hq
      · rename_i ht
        rw [if_pos ht]
        split at hq
        · cases hq
        · rename_i hv
          rw [if_neg hv]
          exact ⟨_, _, .trailers ha dec ht, rfl, rfl⟩
      · rename_i ht
        rw [if_neg ht]
        split at hq
        · cases hq
        · rename_i hr
          rw [if_neg hr]
          split at hq
          · rename_i he
            rw [if_pos he]
            exact ⟨_, _, .request ha dec fields (eq_false_of_ne_true ht) (eq_false_of_ne_true hr),
              rfl, rfl⟩
          · cases hq
  | other _ _ _ _ hreqs =>
      rw [hreqs] at hq
      cases hq

end ServerConn

/-! ### Streams that are read -/

/-- The states of the streams whose requests are not complete are what was received on them, unless
they are rejected. -/
structure Reads (h : List Done) (c : ServerConn) : Prop where
  stream : ∀ id st, c.streams.get id = some st → st.remoteDone = false → st.rejected = false →
    validateRequestFields st.headers = some st.declaredLen ∧ st.body = dataOn id h
  fresh : ∀ id, c.Pending id → dataOn id h = []

theorem reads_new : Reads [] newServerConn where
  stream id st h := by
    rw [show newServerConn.streams = .new from rfl, get_new] at h
    cases h
  fresh _ _ := rfl

section Step

variable {c : ServerConn} {f : Frame} {h : List Done}

theorem takeData_reading {data : List UInt8} {id : Nat} {st' : StreamState}
    (hget' : (c.takeData f data).conn.streams.get id = some st') (hopen : st'.remoteDone = false) :
    id ≠ f.streamId ∧ c.streams.get id = some st' ∨
      id = f.streamId ∧ ∃ st, c.streams.get id = some st ∧ st' = st.take f data := by
  by_cases hid : id = f.streamId
  · refine .inr ⟨hid, ?_⟩
    subst hid
    unfold takeData at hget'
    dsimp only at hget'
    split at hget'
    · rw [completeStream_done hget'] at hopen
      cases hopen
    · rw [updateStream, get_update, if_pos rfl] at hget'
      obtain ⟨st, hst, rfl⟩ := Option.map_eq_some_iff.mp hget'
      exact ⟨st, hst, rfl⟩
  · exact .inl ⟨hid, (takeData_get_ne hid).symm.trans hget'⟩

/-- The end of a block leaves the requests that are read as they were, and one that is new. -/
theorem finishFields_reading (hb : c.Block) {fields : List HeaderField} {id : Nat}
    {st' : StreamState} (hget' : (c.finishFields fields).conn.streams.get id = some st')
    (hopen : st'.remoteDone = false) :
    c.streams.get id = some st' ∨
      c.hdrTrailers = false ∧ id = c.hdrStream ∧ st'.headers = fields ∧ st'.body = [] ∧
        (st'.rejected = false → validateRequestFields fields = some st'.declaredLen) := by
  by_cases hid : id = c.hdrStream
  · subst hid
    unfold finishFields at hget'
    dsimp only at hget'
    split at hget'
    · split at hget'
      · rw [resetStream, releaseStream, get_release, if_pos rfl] at hget'
        cases hget'
      · rw [completeStream_done hget'] at hopen
        cases hopen
    · rename_i ht
      split at hget'
      · exact .inl hget'
      · rename_i hr
        split at hget'
        · rw [completeStream_done hget'] at hopen
          cases hopen
        · rw [openRequest_get hb (eq_false_of_ne_true ht) (eq_false_of_ne_true hr),
            if_pos rfl] at hget'
          cases hget'
          refine .inr ⟨eq_false_of_ne_true ht, rfl, rfl, rfl, fun hrej => ?_⟩
          cases hv : validateRequestFields fields with
          | none => simp [hv] at hrej
          | some declared => rfl
  · exact .inl ((finishFields_get_ne hb hid).symm.trans hget')

/-- Only the next stream, or the one whose block is read, can be opened after a frame. -/
theorem Sound.pending_frame (hs : Sound c) (hok : (c.frame f).code = .noError) {id : Nat}
    (hp : (c.frame f).conn.Pending id) : c.Pending id := by
  have heff := hs.effect hok
  have hpart := frame_headerPart c (f := f)
  generalize c.frame f = r at *
  cases heff with
  | quiet hq => exact hq.pending id hp
  | settings ht =>
      exact (pending_of_headerPart (hpart (by simp [ht]) (by simp [ht]))).mp hp
  | connCredit ht =>
      exact (pending_of_headerPart (hpart (by simp [ht]) (by simp [ht]))).mp hp
  | credit ht =>
      exact (pending_of_headerPart (hpart (by simp [ht]) (by simp [ht]))).mp hp

/-- A frame that is accepted brings no DATA for a stream that is not open. -/
theorem dataFor_nil (hok : (c.frame f).code = .noError) {id : Nat}
    (hget : c.streams.get id = none) : (Event.recv f).dataFor id = [] := by
  refine if_neg fun ⟨ht, hid⟩ => ?_
  have hr := frame_receives hok
  generalize c.frame f = r at hr
  subst hid
  cases hr with
  | data _ hst =>
      rw [hget] at hst
      cases hst
  | fragment ha => exact ha.type_ne (by decide) (by decide) ht
  | block ha => exact ha.type_ne (by decide) (by decide) ht
  | other hd => exact hd ht

/-- The body of a stream that takes a DATA frame. -/
theorem body_take {data : List UInt8} {st : StreamState} (ht : f.type = .data)
    (hunpad : f.unpadded = some data) (hrej : st.rejected = false)
    (hbody : st.body = dataOn f.streamId h) :
    (st.take f data).body = dataOn f.streamId h ++ (Event.recv f).dataFor f.streamId := by
  rw [Event.dataFor, if_pos ⟨ht, rfl⟩, hunpad, Option.getD_some, ← hbody]
  exact if_neg (by simp [hrej])

namespace Reads

/-- Only the response side changes, and nothing is received. -/
theorem of_kept (hr : Reads h c) {c' : ServerConn} {d : Done}
    (hk : Kept SameRequest c.streams c'.streams)
    (hp : ∀ id, c'.Pending id → c.Pending id) (hd : ∀ id, d.event.dataFor id = []) :
    Reads (h ++ [d]) c' := by
  refine ⟨fun id st' hget hopen hrej => ?_, fun id hpend => ?_⟩
  · obtain ⟨st, hst, he, -⟩ := hk id st' hget
    have hdone : st'.remoteDone = st.remoteDone := (congrArg StreamState.remoteDone he :)
    have hrej' : st'.rejected = st.rejected := (congrArg StreamState.rejected he :)
    have hheaders : st'.headers = st.headers := (congrArg StreamState.headers he :)
    have hdecl : st'.declaredLen = st.declaredLen := (congrArg StreamState.declaredLen he :)
    have hbody : st'.body = st.body := (congrArg StreamState.body he :)
    rw [hheaders, hdecl, hbody, dataOn_snoc, hd, List.append_nil]
    exact hr.stream id st hst (hdone ▸ hopen) (hrej' ▸ hrej)
  · rw [dataOn_snoc, hd, List.append_nil]
    exact hr.fresh id (hp id hpend)

/-- **One frame.** -/
theorem frame (hr : Reads h c) (hs : Sound c) (hok : (c.frame f).code = .noError) :
    Reads (h ++ [⟨c, .recv f⟩]) (c.frame f).conn := by
  have hrec := frame_receives hok
  have hpend := fun id => @Sound.pending_frame c f hs hok id
  have hno : f.type ≠ .data → ∀ id, (Event.recv f).dataFor id = [] := fun ht id =>
    if_neg fun h => ht h.1
  have hfresh : ∀ id, (c.frame f).conn.Pending id → dataOn id (h ++ [⟨c, .recv f⟩]) = [] :=
    fun id hp => by
      rw [dataOn_snoc, hr.fresh id (hpend id hp), dataFor_nil hok (hs.fresh id (hpend id hp))]
      rfl
  generalize c.frame f = r at *
  cases hrec with
  | @data _ data ht _ _ hunpad =>
      refine ⟨fun id st' hget' hopen hrej => ?_, hfresh⟩
      rw [dataOn_snoc]
      rcases takeData_reading hget' hopen with ⟨hne, hst⟩ | ⟨rfl, st, hst, rfl⟩
      · rw [show (Event.recv f).dataFor id = [] from if_neg fun h => hne h.2.symm, List.append_nil]
        exact hr.stream id st' hst hopen hrej
      · obtain ⟨hv, hbody⟩ := hr.stream f.streamId st hst hopen hrej
        exact ⟨hv, body_take ht hunpad hrej hbody⟩
  | fragment ha =>
      have ht : f.type ≠ .data := ha.type_ne (by decide) (by decide)
      refine ⟨fun id st' hget' hopen hrej => ?_, hfresh⟩
      rw [dataOn_snoc, hno ht, List.append_nil]
      refine hr.stream id st' ?_ hopen hrej
      rw [← ha.streams]
      exact hget'
  | @block c₁ fields dec ha =>
      have ht : f.type ≠ .data := ha.type_ne (by decide) (by decide)
      refine ⟨fun id st' hget' hopen hrej => ?_, hfresh⟩
      rw [dataOn_snoc, hno ht, List.append_nil]
      rcases finishFields_reading (ha.ready hs dec) hget' hopen with
        hst | ⟨htr, rfl, hheaders, hbody, hv⟩
      · refine hr.stream id st' ?_ hopen hrej
        rw [← ha.streams]
        exact hst
      · rw [hheaders, hbody]
        exact ⟨hv hrej, (hr.fresh _ (ha.pending htr)).symm⟩
  | other hd _ _ hk => exact hr.of_kept hk hpend (hno hd)

theorem write (hr : Reads h c) (w : Write) : Reads (h ++ [⟨c, .write w⟩]) (w.exec c).conn :=
  hr.of_kept (write_kept c w)
    (fun _ => (pending_of_headerPart
      (headerPart_of_base (write_base c w))).mp) fun _ => rfl

end Reads

/-! ### What is surfaced -/

/-- The storage of a surfaced request is its stream's. -/
structure Owns (c : ServerConn) (q : Http2Request) : Prop where
  entry : c.streams.table.get q.streamId = some q.state
  headers : (c.streams.heap q.state).headers = q.headers
  body : (c.streams.heap q.state).body = q.body

theorem owns_update {id : Nat} {st : StreamState} (hget : c.streams.get id = some st)
    {g : StreamState → StreamState} (hh : (g st).headers = st.headers)
    (hb : (g st).body = st.body) :
    Owns (c.updateStream id g) ⟨id, c.streams.ref id, st.headers, st.body⟩ := by
  obtain ⟨r, hr, rfl⟩ := Option.map_eq_some_iff.mp hget
  have href : c.streams.ref id = r := by rw [Streams.ref, hr, Option.getD_some]
  rw [href]
  unfold updateStream Streams.update
  rw [hr]
  refine ⟨hr, ?_, ?_⟩
  · dsimp only
    rw [Function.update_self]
    exact hh
  · dsimp only
    rw [Function.update_self]
    exact hb

/-- What `complete_stream` finds of the stream it completes. -/
theorem Completed.found {c₁ : ServerConn} {id : Nat} (hc : Completed c f c₁ id) (hr : Reads h c)
    (hs : Sound c) {st : StreamState} (hget : c₁.streams.get id = some st)
    (hrej : st.rejected = false) :
    validateRequestFields st.headers = some st.declaredLen ∧
      st.body = dataOn id (h ++ [⟨c, .recv f⟩]) := by
  rw [dataOn_snoc]
  cases hc with
  | @data st₀ data ht hget₀ hopen hunpad =>
      rw [updateStream, get_update, if_pos rfl, hget₀, Option.map_some,
        Option.some.injEq] at hget
      subst hget
      obtain ⟨hv, hbody⟩ := hr.stream f.streamId st₀ hget₀ hopen hrej
      exact ⟨hv, body_take ht hunpad hrej hbody⟩
  | @trailers c₁ ha dec ht =>
      have hty : f.type ≠ .data := ha.type_ne (by decide) (by decide)
      have hopen := (ha.block hs).reading ht st hget
      rw [show (Event.recv f).dataFor c₁.hdrStream = [] from if_neg fun h => hty h.1,
        List.append_nil]
      refine hr.stream _ st ?_ hopen hrej
      rw [← ha.streams]
      exact hget
  | @request c₁ ha dec fields ht href =>
      have hty : f.type ≠ .data := ha.type_ne (by decide) (by decide)
      rw [show (Event.recv f).dataFor c₁.hdrStream = [] from if_neg fun h => hty h.1,
        List.append_nil, hr.fresh _ (ha.pending ht)]
      have hopen := openRequest_get (ha.ready hs dec) ht href fields
        (c₁.hdrMalformed || (validateRequestFields fields).isNone)
        ((validateRequestFields fields).getD none) c₁.hdrStream
      rw [if_pos rfl] at hopen
      obtain rfl := Option.some.inj (hopen.symm.trans hget)
      refine ⟨?_, rfl⟩
      cases hv : validateRequestFields fields with
      | none => simp [hv] at hrej
      | some declared => rfl

/-- No settled stream is completed. -/
theorem Completed.unsettled {c₁ : ServerConn} {id : Nat} (hc : Completed c f c₁ id) :
    ¬ Settled c id := by
  intro hset
  cases hc with
  | data _ hget hopen =>
      rw [hset.done _ hget] at hopen
      cases hopen
  | trailers ha => exact hset.assembled ha rfl
  | request ha => exact hset.assembled ha rfl

/-- **What a frame surfaces**: one request, whole, whose stream was not settled and now is. -/
theorem Reads.surfaces (hr : Reads h c) (hs : Sound c) (hok : (c.frame f).code = .noError)
    {q : Http2Request} (hq : q ∈ (c.frame f).reqs) :
    (c.frame f).reqs = [q] ∧ q.Whole (dataOn q.streamId (h ++ [⟨c, .recv f⟩])) ∧
      ¬ Settled c q.streamId ∧ Settled (c.frame f).conn q.streamId ∧ Owns (c.frame f).conn q := by
  have hs' := hs.frame hok
  obtain ⟨c₁, id, hc, hreqs, hconn⟩ := frame_reqs hok hq
  rw [hreqs] at hq ⊢
  rw [hconn] at hs' ⊢
  cases hget : c₁.streams.get id with
  | none =>
      unfold completeStream at hq
      rw [hget] at hq
      cases hq
  | some st =>
      obtain ⟨hone, rfl, hrej, hlen, hupd⟩ := completeStream_reqs hget hq
      obtain ⟨hv, hbody⟩ := hc.found hr hs hget hrej
      have hrules := requestFields_of_valid hv
      refine ⟨hone, ⟨⟨_, hrules⟩, fun g hg hn => ?_, hbody⟩, hc.unsettled, ?_, ?_⟩
      · obtain ⟨hsome, hp⟩ := hrules.length g hg hn
        obtain ⟨n, hn⟩ := Option.isSome_iff_exists.mp hsome
        rw [hp, hn, hlen n hn]
      · rw [hupd] at hs' ⊢
        have hst : (c₁.updateStream id fun s => { s with remoteDone := true }).streams.get id =
            some { st with remoteDone := true } := by
          rw [updateStream, get_update, if_pos rfl, hget]
          rfl
        exact hs'.settled hst rfl
      · rw [hupd]
        exact owns_update hget rfl rfl

end Step

/-! ### Runs -/

/-- What holds of the requests a history without error has surfaced. -/
structure Surfacing (h : List Done) (c : ServerConn) : Prop where
  sound : Sound c
  reads : Reads h c
  settled : ∀ q ∈ surfaced h, Settled c q.streamId
  odd : ∀ q ∈ surfaced h, q.streamId % 2 = 1
  once : ((surfaced h).map (·.streamId)).Nodup
  whole : ∀ h₁ d h₂, h = h₁ ++ d :: h₂ → ∀ q ∈ d.reply.reqs,
    q.Whole (dataOn q.streamId (h₁ ++ [d]))

namespace Surfacing

variable {h : List Done} {c : ServerConn}

theorem new : Surfacing [] newServerConn :=
  ⟨sound_new, reads_new, fun q hq => (by cases hq), fun q hq => (by cases hq), List.nodup_nil,
    fun h₁ d h₂ he => (by simp at he)⟩

/-- An event that surfaces nothing. -/
theorem quiet (hS : Surfacing h c) {e : Event} (hreqs : (e.exec c).reqs = [])
    (hsound : Sound (e.exec c).conn) (hreads : Reads (h ++ [⟨c, e⟩]) (e.exec c).conn)
    (hset : ∀ s, Settled c s → Settled (e.exec c).conn s) :
    Surfacing (h ++ [⟨c, e⟩]) (e.exec c).conn := by
  have hnone : surfaced (h ++ [⟨c, e⟩]) = surfaced h := by
    rw [surfaced_snoc, Done.reply, hreqs, List.append_nil]
  refine ⟨hsound, hreads, ?_, ?_, ?_, fun h₁ d h₂ he q hq => ?_⟩
  · rw [hnone]
    exact fun q hq => hset _ (hS.settled q hq)
  · rw [hnone]
    exact hS.odd
  · rw [hnone]
    exact hS.once
  · rcases snoc_eq_append_cons he with ⟨-, rfl, -⟩ | ⟨h', rfl, -⟩
    · rw [Done.reply, hreqs] at hq
      cases hq
    · exact hS.whole h₁ d h' rfl q hq

theorem frame (hS : Surfacing h c) {f : Frame} (hok : (c.frame f).code = .noError) :
    Surfacing (h ++ [⟨c, .recv f⟩]) (c.frame f).conn := by
  have hsound := hS.sound.frame hok
  have hreads := hS.reads.frame hS.sound hok
  have hset : ∀ s, Settled c s → Settled (c.frame f).conn s := fun s hs => hs.frame hS.sound hok
  by_cases hnone : (c.frame f).reqs = []
  · exact hS.quiet hnone hsound hreads hset
  · obtain ⟨q, hq⟩ := List.exists_mem_of_ne_nil _ hnone
    obtain ⟨hone, hwhole, hun, hnow, howns⟩ := hS.reads.surfaces hS.sound hok hq
    have hsnoc : surfaced (h ++ [⟨c, .recv f⟩]) = surfaced h ++ [q] := by
      rw [surfaced_snoc]
      exact congrArg _ hone
    have hall : ∀ {P : Http2Request → Prop}, (∀ p ∈ surfaced h, P p) → P q →
        ∀ p ∈ surfaced h ++ [q], P p := fun h₁ h₂ p hp => by
      rcases List.mem_append.mp hp with hp | hp
      · exact h₁ p hp
      · rw [List.mem_singleton.mp hp]
        exact h₂
    refine ⟨hsound, hreads, ?_, ?_, ?_, fun h₁ d h₂ he p hp => ?_⟩
    · rw [hsnoc]
      exact hall (fun p hp => hset _ (hS.settled p hp)) hnow
    · rw [hsnoc]
      exact hall hS.odd (hsound.odd _ _ (get_heap howns.entry))
    · -- a stream surfaced before is settled, and this one was not
      rw [hsnoc, List.map_append]
      refine hS.once.append (List.nodup_singleton _) fun s hs hs' => hun ?_
      obtain ⟨p, hp, rfl⟩ := List.mem_map.mp hs
      have hpq : p.streamId = q.streamId := List.mem_singleton.mp hs'
      exact hpq ▸ hS.settled p hp
    · rcases snoc_eq_append_cons he with ⟨rfl, rfl, -⟩ | ⟨h', rfl, -⟩
      · rw [Done.reply, Event.exec, hone] at hp
        rw [List.mem_singleton.mp hp]
        exact hwhole
      · exact hS.whole h₁ d h' rfl p hp

end Surfacing

/-- **Requests are surfaced once, and whole**, in every connection without error. -/
theorem Trace.surfacing {h : List Done} {c : ServerConn} (t : Trace newServerConn h c)
    (hok : ∀ d ∈ h, d.Ok) : Surfacing h c := by
  induction t with
  | nil => exact .new
  | @snoc h c t hok' e ih =>
      have hS := ih hok'
      have he : Done.Ok ⟨c, e⟩ := hok _ (by simp)
      cases e with
      | preface =>
          refine hS.quiet rfl hS.sound.preface ?_ fun s hs => ?_
          · exact hS.reads.of_kept (Kept.refl _) (fun _ => id) fun _ => rfl
          · exact hs.of_kept (Kept.refl _) rfl
      | recv f => exact hS.frame he
      | write w =>
          exact hS.quiet (write_reqs c w) (hS.sound.write w) (hS.reads.write w)
            fun s hs => hs.write w

/-- **Surfacing is sound.**  Whatever is called on a new connection, no stream's request is surfaced
twice; surfaced ids are odd and not above the last stream; every request keeps the rules of its
header list and its content-length, and its body is the DATA received on its stream up to then; and
there are never more than 128 streams. -/
theorem surfacing_sound (calls : List Call) :
    ((surfaced (session calls).history).map (·.streamId)).Nodup ∧
      (∀ q ∈ surfaced (session calls).history,
        q.streamId % 2 = 1 ∧ q.streamId ≤ (session calls).conn.lastStream) ∧
      (∀ h₁ d h₂, (session calls).history = h₁ ++ d :: h₂ → ∀ q ∈ d.reply.reqs,
        q.Whole (dataOn q.streamId (h₁ ++ [d]))) ∧
      ∀ d ∈ (session calls).history,
        d.before.streams.len ≤ 128 ∧ d.reply.conn.streams.len ≤ 128 := by
  obtain ⟨t, -⟩ := runCalls_trace newServerConn calls
  have hlen : ∀ d ∈ (session calls).history,
      d.before.streams.len ≤ 128 ∧ d.reply.conn.streams.len ≤ 128 := fun d hd => by
    obtain ⟨h₁, h₂, -, t₁, hok₁⟩ := t.before hd
    have hbefore : d.before.streams.len ≤ 128 := (t₁.sound hok₁).len
    refine ⟨hbefore, ?_⟩
    by_cases hok : d.Ok
    · refine ((Trace.snoc t₁ hok₁ d.event).sound fun d' hd' => ?_).len
      rcases List.mem_append.mp hd' with hd' | hd'
      · exact hok₁ d' hd'
      · rw [List.mem_singleton.mp hd']
        exact hok
    · rw [(d.halted hok).len]
      exact hbefore
  rcases t.last with hok | ⟨h, d, he, t', hok, hd, hc⟩
  · have hS := t.surfacing hok
    exact ⟨hS.once, fun q hq => ⟨hS.odd q hq, (hS.settled q hq).le⟩, hS.whole, hlen⟩
  · have hS := t'.surfacing hok
    have hhalt := d.halted hd
    have hnone : surfaced (session calls).history = surfaced h := by
      rw [session, he, surfaced_snoc, hhalt.reqs, List.append_nil]
    refine ⟨hnone ▸ hS.once, fun q hq => ?_, fun h₁ d' h₂ he' q hq => ?_, hlen⟩
    · rw [hnone] at hq
      refine ⟨hS.odd q hq, (hS.settled q hq).le.trans ?_⟩
      rw [session, hc]
      exact hhalt.last
    · rcases snoc_eq_append_cons (he.symm.trans he') with ⟨-, rfl, -⟩ | ⟨h', rfl, -⟩
      · rw [hhalt.reqs] at hq
        cases hq
      · exact hS.whole h₁ d' h' rfl q hq

end Vanilla.Http2

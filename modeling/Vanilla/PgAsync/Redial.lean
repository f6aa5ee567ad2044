import Vanilla.PgAsync.Reading

/-!
# PostgreSQL — re-dialing a lost connection

`pg_async/redial.v`: the bring-up of a pooled connection in steps that never wait.  `redial_start`
drops the socket and starts a connect; each call of `redial` then takes the attempt as far as it
goes: over TLS the SSLRequest, its answer and the handshake, then the StartupMessage, then the
messages that have arrived.

The results of the calls it makes are handed to it (`RedialEnv`): `none` is an error, whose text
`redial` drops.  The pool's key cache is handed in as well; other connections of the pool use it
between two calls.

* `Redialed`, `redial_spec`: what a call of `redial` does to the connection.
-/

namespace Vanilla.PgAsync
open PgConn

open Scan (Turn Framing loop loop_rule Descends)
open Buffers (Inbox)

/-- What a `ConnConfig` says to a re-dial; `ssl` is `ssl_mode != .disable`. -/
structure ConnConfig where
  auth : AuthConfig
  user : List UInt8
  ssl : Bool
  connectTimeoutMs : Int
  maxLifetimeMs : Int
  lifetimeJitterMs : Int
  deriving DecidableEq, Repr

/-- SCRAM over a plain connection, no lifetime. -/
def saslConfig : ConnConfig := ⟨⟨false, true⟩, ascii "app", false, 0, 0, 0⟩

/-- `time.millisecond`, in nanoseconds. -/
def millisecond : Nat := 1000000
/-- `redial_backoff`: a second. -/
def redialBackoff : Nat := 1000 * millisecond
/-- `redial_timeout`: ten seconds. -/
def redialTimeout : Nat := 10000 * millisecond

/-- `lifetime_deadline`; `hash` is the mix of the clock and the connection's address. -/
def lifetimeDeadline (cfg : ConnConfig) (now hash : Nat) : Option Nat :=
  if cfg.maxLifetimeMs ≤ 0 then none
  else
    let life := cfg.maxLifetimeMs.toNat * millisecond
    let span := if 0 < cfg.lifetimeJitterMs then cfg.lifetimeJitterMs.toNat * millisecond else 0
    let span := if life ≤ span then life - 1 else span
    some (now + life - hash % (span + 1))

/-- What the calls of one `redial` find: the clock as it is read, the password and the nonce, the
dial, the steps of the TLS negotiation, the StartupMessage, what has arrived, and which answers are
sent. -/
structure RedialEnv where
  now : Nat
  startNow : Nat
  readyNow : Nat
  hash : Nat
  password : Option (List UInt8)
  nonce : Option (List UInt8)
  dialed : Option Int
  sslRequest : Option Bool
  sslAnswer : Option Bool
  tlsAttach : Bool
  tlsStep : Option Bool
  startup : Option Bool
  recvs : List Recv
  cache : Option ScramCache
  sends : List Bool
  deriving DecidableEq, Repr

namespace PgConn

/-- `close_socket`. -/
def closeSocket (c : PgConn) : PgConn :=
  { c with fd := -1, dials := c.dials ++ [c.inflight.length] }

/-- What `redial_start` resets. -/
def resetSession (c : PgConn) : PgConn :=
  { c with
    inflight := []
    frameRing := 0
    recv := .fresh (if c.recv.cap < recvFloor then recvFloor else c.recv.cap)
    send := c.send.reset
    tlsWlen := 0
    tlsReadBlocked := false
    fatal := {}
    loss := ""
    readyStatus := txIdle
    lastReady := none
    rollbackDeadline := 0 }

/-- `redial_start`: whether an attempt is under way. -/
def redialStart (c : PgConn) (cfg : ConnConfig) (env : RedialEnv) : Bool × PgConn :=
  if cfg.ssl ∧ ¬ c.tlsCfg then (false, c)
  else
    let c := c.closeSocket.resetSession
    match env.password, env.nonce with
    | some password, some nonce =>
      let c := { c with scram := ⟨cfg.user, password, nonce, [], [], false⟩, heard := [] }
      let c := { c with state := .connecting }
      match env.dialed with
      | none => (false, c)
      | some fd =>
        let timeout :=
          if 0 < cfg.connectTimeoutMs then cfg.connectTimeoutMs.toNat * millisecond
          else redialTimeout
        (true, { c with fd := fd, dialDeadline := env.startNow + timeout })
    | _, _ => (false, c)

/-- `redial_failed`. -/
def redialFailed (c : PgConn) (now : Nat) : PgConn :=
  { c.closeSocket with
    state := .broken, retryAt := now + redialBackoff, addrCursor := c.addrCursor + 1 }

end PgConn

/-- Where a stage of `redial_step` leaves the attempt: on to the next stage, waiting for the
server, failed. -/
inductive Stage where
  | on (c : PgConn)
  | waiting (c : PgConn)
  | failed (c : PgConn)

namespace PgConn

/-- The connect is done once the socket takes the first write. -/
def connectStage (c : PgConn) (env : RedialEnv) : Stage :=
  if c.state = .connecting then
    if c.tlsCfg then
      match env.sslRequest with
      | none => .failed c
      | some false => .waiting c
      | some true => .on { c with state := .sslRequest }
    else
      match env.startup with
      | none => .failed c
      | some false => .waiting c
      | some true => .on { c with state := .starting }
  else .on c

/-- The answer to the SSLRequest, and the TLS session. -/
def sslStage (c : PgConn) (env : RedialEnv) : Stage :=
  if c.state = .sslRequest then
    match env.sslAnswer with
    | none => .failed c
    | some false => .waiting c
    | some true =>
      if env.tlsAttach then .on { c with tls := true, state := .tlsHandshake } else .failed c
  else .on c

/-- The TLS handshake, and the StartupMessage over it. -/
def tlsStage (c : PgConn) (env : RedialEnv) : Stage :=
  if c.state = .tlsHandshake then
    match env.tlsStep with
    | none => .failed c
    | some false => .waiting c
    | some true => if env.startup = some true then .on { c with state := .starting } else .failed c
  else .on c

/-- One pass of the receive loop of `redial_step`. -/
def startupRecvStep :
    Inbox UInt8 × List Recv → Turn (Inbox UInt8 × List Recv) (Inbox UInt8 × Recv.Ending)
  | (inbox, script) =>
    let inbox := if inbox.buf.length = inbox.cap then inbox.grow inbox.cap else inbox
    match script with
    | [] | .again :: _ => .exit (inbox, .again)
    | .blocked :: _ => .exit (inbox, .blocked)
    | .eof :: _ => .exit (inbox, .eof)
    | .failed errno :: _ => .exit (inbox, .failed errno)
    | .data b bs :: rest =>
      match (b :: bs).drop inbox.spare with
      | [] => .next (inbox.extend (b :: bs), rest)
      | b' :: bs' => .next (inbox.extend (b :: bs), .data b' bs' :: rest)

/-- The receive loop: `false` when the server has closed or the receive fails. -/
def startupRecv (c : PgConn) (script : List Recv) : Bool × PgConn :=
  let r := loop startupRecvStep (fun s => (s.2.map Recv.weight).sum) (c.recv, .again)
    (c.recv, script)
  let c := { c with recv := r.1 }
  match r.2 with
  | .again => (true, c)
  | .blocked => (true, if c.tls then { c with tlsReadBlocked := true } else c)
  | .eof | .failed _ => (false, c)

end PgConn

/-- How an attempt stands after a call. -/
inductive Dialed where
  | ready
  | waiting
  | failed
  deriving DecidableEq, Repr

/-- The message loop of `redial_step`: the connection, the key cache, and which of the answers to
come are sent. -/
structure Greeting where
  conn : PgConn
  cache : Option ScramCache
  sends : List Bool

section

variable (K : Crypto) (cfg : ConnConfig)

/-- One pass of the message loop.  The ReadyForQuery that ends the bring-up is on record like that
of a query; `ready_status` is not taken from it. -/
def Greeting.step (env : RedialEnv) (g : Greeting) : Turn Greeting (Dialed × PgConn) :=
  let c := g.conn
  match messageAt c.recv.buf c.recv.pos with
  | none => .exit (.waiting, c)
  | some m =>
    let sendOk := g.sends.headD true
    let c := { c with
      recv := c.recv.advance m.size
      heard := c.heard ++ [⟨m, g.cache, sendOk⟩] }
    match onStartupMsg K cfg.auth c.tls c.scram g.cache sendOk m with
    | .error _ => .exit (.failed, c)
    | .ok (true, scram, _) =>
      .exit (.ready, { c with
        scram := scram
        state := .ready
        lastReady := some m.payload
        expiresAt := lifetimeDeadline cfg env.readyNow env.hash })
    | .ok (false, scram, cache) => .next ⟨{ c with scram := scram }, cache, g.sends.tail⟩

/-- The message loop. -/
def Greeting.run (env : RedialEnv) (g : Greeting) : Dialed × PgConn :=
  loop (Greeting.step K cfg env) (fun g => g.conn.recv.rest.length) (.waiting, g.conn) g

namespace PgConn

/-- `redial_step`. -/
def redialStep (c : PgConn) (env : RedialEnv) : Dialed × PgConn :=
  match c.connectStage env with
  | .failed c => (.failed, c)
  | .waiting c => (.waiting, c)
  | .on c =>
    match c.sslStage env with
    | .failed c => (.failed, c)
    | .waiting c => (.waiting, c)
    | .on c =>
      match c.tlsStage env with
      | .failed c => (.failed, c)
      | .waiting c => (.waiting, c)
      | .on c =>
        match c.startupRecv env.recvs with
        | (false, c) => (.failed, c)
        | (true, c) => Greeting.run K cfg env ⟨c, env.cache, env.sends⟩

/-- The part of `redial` behind its guards. -/
def redialGo (c : PgConn) (env : RedialEnv) : Bool × PgConn :=
  match c.redialStep K cfg env with
  | (.failed, c) => (false, c.redialFailed env.now)
  | (.waiting, c) => (false, c)
  | (.ready, c) => (true, c)

/-- `redial`: whether the connection is ready to serve. -/
def redial (c : PgConn) (env : RedialEnv) : Bool × PgConn :=
  if c.state = .ready then (true, c)
  else if c.state = .broken then
    if 0 < c.inflight.length ∨ env.now < c.retryAt then (false, c)
    else
      match c.redialStart cfg env with
      | (false, c) => (false, c.redialFailed env.now)
      | (true, c) => c.redialGo K cfg env
  else if c.dialDeadline ≤ env.now then (false, c.redialFailed env.now)
  else c.redialGo K cfg env

end PgConn

end

/-! ### What a call does -/

namespace PgConn

/-- What the steps of an attempt leave alone. -/
def Attempting (c c' : PgConn) : Prop :=
  { c' with
    state := c.state, tls := c.tls, recv := c.recv, scram := c.scram, heard := c.heard
    expiresAt := c.expiresAt, tlsReadBlocked := c.tlsReadBlocked, lastReady := c.lastReady } = c

theorem Attempting.refl (c : PgConn) : Attempting c c := rfl

theorem Attempting.trans {c c' c'' : PgConn} (h : Attempting c c') (h' : Attempting c' c'') :
    Attempting c c'' := by
  unfold Attempting at h h' ⊢
  exact (congrArg (fun c₁ : PgConn => { c₁ with
    state := c.state, tls := c.tls, recv := c.recv, scram := c.scram, heard := c.heard
    expiresAt := c.expiresAt, tlsReadBlocked := c.tlsReadBlocked
    lastReady := c.lastReady }) h').trans h

/-- A connection between two steps of its re-dial. -/
def Dialing (c : PgConn) : Prop := c.state ≠ .ready ∧ c.state ≠ .broken

/-- Nothing is heard before the StartupMessage is sent, and nothing changes the transport behind
it. -/
structure Unheard (c c' : PgConn) : Prop where
  scram : c'.scram = c.scram
  heard : c'.heard = c.heard
  lastReady : c'.lastReady = c.lastReady
  starting : c.state = .starting → c'.state = .starting ∧ c'.tls = c.tls

theorem Unheard.refl (c : PgConn) : Unheard c c := ⟨rfl, rfl, rfl, fun h => ⟨h, rfl⟩⟩

/-- What a stage does: the attempt stays one. -/
inductive Staged (c : PgConn) : Stage → Prop where
  | on {c' : PgConn} (h : Attempting c c') (hd : Dialing c') (hu : Unheard c c') : Staged c (.on c')
  | waiting (hd : Dialing c) : Staged c (.waiting c)
  | failed : Staged c (.failed c)

theorem connectStage_spec {c : PgConn} (hd : c.Dialing) (env : RedialEnv) :
    Staged c (c.connectStage env) := by
  unfold connectStage
  split
  · rename_i hs
    have hu : ∀ st, Unheard c { c with state := st } := fun st =>
      ⟨rfl, rfl, rfl, fun h => by rw [hs] at h; cases h⟩
    split
    · split
      · exact .failed
      · exact .waiting hd
      · exact .on rfl ⟨by simp, by simp⟩ (hu _)
    · split
      · exact .failed
      · exact .waiting hd
      · exact .on rfl ⟨by simp, by simp⟩ (hu _)
  · exact .on (.refl c) hd (.refl c)

theorem sslStage_spec {c : PgConn} (hd : c.Dialing) (env : RedialEnv) :
    Staged c (c.sslStage env) := by
  unfold sslStage
  split
  · rename_i hs
    split
    · exact .failed
    · exact .waiting hd
    · split
      · exact .on rfl ⟨by simp, by simp⟩ ⟨rfl, rfl, rfl, fun h => by rw [hs] at h; cases h⟩
      · exact .failed
  · exact .on (.refl c) hd (.refl c)

theorem tlsStage_spec {c : PgConn} (hd : c.Dialing) (env : RedialEnv) :
    Staged c (c.tlsStage env) := by
  unfold tlsStage
  split
  · rename_i hs
    split
    · exact .failed
    · exact .waiting hd
    · split
      · exact .on rfl ⟨by simp, by simp⟩ ⟨rfl, rfl, rfl, fun h => by rw [hs] at h; cases h⟩
      · exact .failed
  · exact .on (.refl c) hd (.refl c)

theorem startupRecv_spec (c : PgConn) (script : List Recv) :
    Attempting c (c.startupRecv script).2 ∧ (c.startupRecv script).2.state = c.state ∧
      Unheard c (c.startupRecv script).2 := by
  unfold startupRecv
  dsimp only
  split
  · exact ⟨rfl, rfl, rfl, rfl, rfl, fun h => ⟨h, rfl⟩⟩
  · split <;> exact ⟨rfl, rfl, rfl, rfl, rfl, fun h => ⟨h, rfl⟩⟩
  · exact ⟨rfl, rfl, rfl, rfl, rfl, fun h => ⟨h, rfl⟩⟩
  · exact ⟨rfl, rfl, rfl, rfl, rfl, fun h => ⟨h, rfl⟩⟩

end PgConn

/-- What has been heard of a session so far, and its ReadyForQuery once there is one. -/
structure PgConn.Hears (c c' : PgConn) : Prop where
  heard : c.heard <+: c'.heard
  lastReady : c'.lastReady = c.lastReady

theorem PgConn.Hears.trans {c c' c'' : PgConn} (h : c.Hears c') (h' : c'.Hears c'') : c.Hears c'' :=
  ⟨h.heard.trans h'.heard, h'.lastReady.trans h.lastReady⟩

theorem PgConn.Unheard.hears {c c' : PgConn} (h : c.Unheard c') : c.Hears c' :=
  ⟨h.heard ▸ List.prefix_rfl, h.lastReady⟩

/-- How `redial_step` ends. -/
inductive StepEnds (c : PgConn) : Dialed × PgConn → Prop where
  | failed {c' : PgConn} (h : c.Attempting c') (hh : c.Hears c') : StepEnds c (.failed, c')
  | waiting {c' : PgConn} (h : c.Attempting c') (hh : c.Hears c') (hd : c'.Dialing) :
      StepEnds c (.waiting, c')
  | ready {c' : PgConn} {x : Heard} (h : c.Attempting c') (hs : c'.state = .ready)
      (hx : x ∈ c'.heard) (hz : x.msg.typ = btReadyForQuery)
      (hl : c'.lastReady = some x.msg.payload) : StepEnds c (.ready, c')

theorem StepEnds.of_attempting {c c₁ : PgConn} {r : Dialed × PgConn} (h : c.Attempting c₁)
    (hh : c.Hears c₁) (hr : StepEnds c₁ r) : StepEnds c r := by
  cases hr with
  | failed h' hh' => exact .failed (h.trans h') (hh.trans hh')
  | waiting h' hh' hd => exact .waiting (h.trans h') (hh.trans hh') hd
  | ready h' hs hx hz hl => exact .ready (h.trans h') hs hx hz hl

section

variable {K : Crypto} {cfg : ConnConfig}

theorem Greeting.step_descends (env : RedialEnv) :
    Descends (Greeting.step K cfg env) (fun g => g.conn.recv.rest.length) fun _ => True := by
  rintro g g' - h
  refine ⟨trivial, ?_⟩
  unfold Greeting.step at h
  dsimp only at h
  rw [messageAt_recv] at h
  split at h
  · cases h
  rename_i m hm
  obtain ⟨hok, r, hr⟩ := Framing.next_split hm
  have hlen := congrArg List.length hr
  have hsize : m.size ≤ g.conn.recv.rest.length := by
    rw [hlen, List.length_append, framing_enc, Msg.length_bytes]
    omega
  split at h
  · cases h
  · cases h
  · cases h
    show (g.conn.recv.advance m.size).rest.length < g.conn.recv.rest.length
    rw [Inbox.rest_advance hsize, List.length_drop]
    have : 0 < m.size := by rw [Msg.size]; omega
    omega

theorem Greeting.run_spec (env : RedialEnv) (g : Greeting) (hd : g.conn.Dialing) :
    StepEnds g.conn (Greeting.run K cfg env g) := by
  refine loop_rule (Greeting.step_descends env)
    (P := fun g r => g.conn.Dialing → StepEnds g.conn r) ?_ ?_ (s := g) trivial hd
  · intro g r _ h hd
    unfold Greeting.step at h
    dsimp only at h
    split at h
    · cases h
      exact .waiting (.refl _) ⟨List.prefix_rfl, rfl⟩ hd
    · split at h
      · cases h
        exact .failed rfl ⟨List.prefix_append _ _, rfl⟩
      · rename_i he
        cases h
        exact .ready rfl rfl (List.mem_append_right _ List.mem_cons_self)
          ((onStartupMsg_spec he).2.mp rfl) rfl
      · cases h
  · intro g g' r _ h ih hd
    unfold Greeting.step at h
    dsimp only at h
    split at h
    · cases h
    · split at h
      · cases h
      · cases h
      · cases h
        refine .of_attempting ?_ ?_ (ih hd)
        · rfl
        · exact ⟨List.prefix_append _ _, rfl⟩

namespace PgConn

/-- How `redial_step` goes: an attempt stops at a stage, or comes to its messages. -/
inductive Goes (K : Crypto) (cfg : ConnConfig) (c : PgConn) (env : RedialEnv) :
    Dialed × PgConn → Prop where
  | failed {c' : PgConn} (h : Attempting c c') (hu : Unheard c c') :
      Goes K cfg c env (.failed, c')
  | waiting {c' : PgConn} (h : Attempting c c') (hd : c'.Dialing) (hu : Unheard c c') :
      Goes K cfg c env (.waiting, c')
  | messages {c' : PgConn} (h : Attempting c c') (hd : c'.Dialing) (hu : Unheard c c')
      (hs : c'.state = .starting) :
      Goes K cfg c env (Greeting.run K cfg env ⟨c', env.cache, env.sends⟩)

theorem Unheard.trans {c c' c'' : PgConn} (h : Unheard c c') (h' : Unheard c' c'') :
    Unheard c c'' where
  scram := h'.scram.trans h.scram
  heard := h'.heard.trans h.heard
  lastReady := h'.lastReady.trans h.lastReady
  starting hs :=
    ⟨(h'.starting (h.starting hs).1).1, (h'.starting (h.starting hs).1).2.trans (h.starting hs).2⟩

theorem Goes.of_stage {c c₁ : PgConn} {env : RedialEnv} {r : Dialed × PgConn}
    (h : Attempting c c₁) (hu : Unheard c c₁) (hr : Goes K cfg c₁ env r) : Goes K cfg c env r := by
  cases hr with
  | failed h' hu' => exact .failed (h.trans h') (hu.trans hu')
  | waiting h' hd hu' => exact .waiting (h.trans h') hd (hu.trans hu')
  | messages h' hd hu' hs => exact .messages (h.trans h') hd (hu.trans hu') hs

theorem connectStage_past {c c' : PgConn} {env : RedialEnv} (h : c.connectStage env = .on c') :
    c'.state ≠ .connecting := by
  unfold connectStage at h
  split at h
  · split at h
    · split at h <;> cases h
      simp
    · split at h <;> cases h
      simp
  · cases h
    assumption

theorem sslStage_past {c c' : PgConn} {env : RedialEnv} (hc : c.state ≠ .connecting)
    (h : c.sslStage env = .on c') : c'.state ≠ .connecting ∧ c'.state ≠ .sslRequest := by
  unfold sslStage at h
  split at h
  · split at h
    · cases h
    · cases h
    · split at h <;> cases h
      simp
  · cases h
    exact ⟨hc, ‹_›⟩

/-- Behind the three stages the StartupMessage is sent. -/
theorem tlsStage_past {c c' : PgConn} {env : RedialEnv} (hd : c.Dialing)
    (hc : c.state ≠ .connecting ∧ c.state ≠ .sslRequest) (h : c.tlsStage env = .on c') :
    c'.state = .starting := by
  unfold tlsStage at h
  split at h
  · split at h
    · cases h
    · cases h
    · split at h <;> cases h
      rfl
  · rename_i hs
    cases h
    cases hst : c.state with
    | starting => rfl
    | ready => exact absurd hst hd.1
    | broken => exact absurd hst hd.2
    | connecting => exact absurd hst hc.1
    | sslRequest => exact absurd hst hc.2
    | tlsHandshake => exact absurd hst hs

theorem redialStep_goes {c : PgConn} (hd : c.Dialing) (env : RedialEnv) :
    Goes K cfg c env (c.redialStep K cfg env) := by
  unfold redialStep
  have h₁ := connectStage_spec hd env
  generalize hc₁ : c.connectStage env = st at h₁
  cases h₁ with
  | failed => exact .failed (.refl c) (.refl c)
  | waiting hd => exact .waiting (.refl c) hd (.refl c)
  | @on c₁ h hd hu =>
      refine .of_stage h hu ?_
      have h₂ := sslStage_spec hd env
      dsimp only
      generalize hc₂ : c₁.sslStage env = st at h₂
      cases h₂ with
      | failed => exact .failed (.refl _) (.refl _)
      | waiting hd => exact .waiting (.refl _) hd (.refl _)
      | @on c₂ h hd hu =>
          refine .of_stage h hu ?_
          have h₃ := tlsStage_spec hd env
          dsimp only
          generalize hc₃ : c₂.tlsStage env = st at h₃
          cases h₃ with
          | failed => exact .failed (.refl _) (.refl _)
          | waiting hd => exact .waiting (.refl _) hd (.refl _)
          | @on c₃ h hd hu =>
              refine .of_stage h hu ?_
              obtain ⟨ha, hs, hu'⟩ := c₃.startupRecv_spec env.recvs
              have hst : c₃.state = .starting :=
                tlsStage_past ‹_› (sslStage_past (connectStage_past hc₁) hc₂) hc₃
              dsimp only
              generalize c₃.startupRecv env.recvs = r at ha hs hu'
              obtain ⟨b, c₄⟩ := r
              cases b with
              | false => exact .failed ha hu'
              | true =>
                  exact .messages ha
                    ⟨fun h => hd.1 (hs.symm.trans h), fun h => hd.2 (hs.symm.trans h)⟩ hu'
                    (hs.trans hst)

theorem redialStep_spec {c : PgConn} (hd : c.Dialing) (env : RedialEnv) :
    StepEnds c (c.redialStep K cfg env) := by
  have hg : Goes K cfg c env (c.redialStep K cfg env) := redialStep_goes hd env
  generalize c.redialStep K cfg env = r at hg
  cases hg with
  | failed h hu => exact .failed h hu.hears
  | waiting h hd hu => exact .waiting h hu.hears hd
  | messages h hd hu _ => exact .of_attempting h hu.hears (Greeting.run_spec env ⟨_, _, _⟩ hd)

/-- Every ReadyForQuery heard in the bring-up reports idle. -/
def GreetedIdle (c : PgConn) : Prop :=
  ∀ x ∈ c.heard, x.msg.typ = btReadyForQuery → ∀ b ∈ x.msg.payload.head?, b = txIdle

theorem Hears.greetedIdle {c c' : PgConn} (h : Hears c c') (hg : c'.GreetedIdle) : c.GreetedIdle :=
  fun x hx => hg x (h.heard.subset hx)

/-- A connection whose re-dials found nothing in flight, so that a re-dial under way has nothing in
flight either; and its `ready_status` is that of a new session. -/
structure Settled (c : PgConn) : Prop where
  dialing : c.Dialing → c.inflight = [] ∧ c.readyStatus = txIdle
  dials : ∀ n ∈ c.dials, n = 0

/-- `ready_status` is what the last ReadyForQuery reports, if the one of the bring-up reports
idle. -/
def Reports (c : PgConn) : Prop := c.GreetedIdle → c.Told

/-- What a call of `redial` does. -/
structure Redialed (c : PgConn) (b : Bool) (c' : PgConn) : Prop where
  ready : b = true ↔ c'.state = .ready
  live : c.state = .ready → c' = c
  settled : c.Settled → c'.Settled
  empty : c.inflight = [] → c'.inflight = []
  reports : c.Settled → c.Reports → c'.Reports
  rollback : c.rollbackDeadline = 0 → c'.rollbackDeadline = 0
  size : c'.send.size = c.send.size
  cap : c'.inflightCap = c.inflightCap
  tooLarge : c'.frameTooLarge = c.frameTooLarge

/-- An attempt under way, seen from the connection that was lost. -/
structure Restarted (c c₁ : PgConn) : Prop where
  dialing : c.Settled → c₁.Dialing → c₁.readyStatus = txIdle
  inflight : c.Settled → c₁.inflight = []
  empty : c.inflight = [] → c₁.inflight = []
  dials : c.Settled → ∀ n ∈ c₁.dials, n = 0
  reports : c.Settled → c.Reports → c₁.Reports
  rollback : c.rollbackDeadline = 0 → c₁.rollbackDeadline = 0
  size : c₁.send.size = c.send.size
  cap : c₁.inflightCap = c.inflightCap
  tooLarge : c₁.frameTooLarge = c.frameTooLarge

theorem Reports.hears {c c' : PgConn} (h : c.Reports) (hh : Hears c c')
    (hs : c'.readyStatus = c.readyStatus) : c'.Reports := fun hg =>
  (h (hh.greetedIdle hg)).congr hh.lastReady hs

/-- The ReadyForQuery of the bring-up: `ready_status` is that of a new session. -/
theorem reports_ready {c : PgConn} {x : Heard} (hs : c.readyStatus = txIdle) (hx : x ∈ c.heard)
    (hz : x.msg.typ = btReadyForQuery) (hl : c.lastReady = some x.msg.payload) : c.Reports := by
  intro hg
  rw [Told, hl]
  intro b hb
  rw [hs, hg x hx hz b hb]

/-- The attempt goes on, and stays under way or comes to its end with `c'.Reports`. -/
theorem Restarted.attempting {c c₁ c' : PgConn} (h : Restarted c c₁) (ha : Attempting c₁ c')
    (hd : c'.Dialing → c₁.Dialing) (hr : c.Settled → c₁.Reports → c'.Reports) :
    Restarted c c' where
  dialing hs hd' := (congrArg PgConn.readyStatus ha :).trans (h.dialing hs (hd hd'))
  inflight hs := (congrArg PgConn.inflight ha :).trans (h.inflight hs)
  empty hin := (congrArg PgConn.inflight ha :).trans (h.empty hin)
  dials hs := by
    rw [(congrArg PgConn.dials ha :)]
    exact h.dials hs
  reports hs ht := hr hs (h.reports hs ht)
  rollback hr := (congrArg PgConn.rollbackDeadline ha :).trans (h.rollback hr)
  size := (congrArg (·.send.size) ha :).trans h.size
  cap := (congrArg PgConn.inflightCap ha :).trans h.cap
  tooLarge := (congrArg PgConn.frameTooLarge ha :).trans h.tooLarge

theorem Restarted.redialed {c c' : PgConn} {b : Bool} (h : Restarted c c') (hc : c.state ≠ .ready)
    (hb : b = true ↔ c'.state = .ready) : Redialed c b c' where
  ready := hb
  live hs := absurd hs hc
  settled hs := ⟨fun hd => ⟨h.inflight hs, h.dialing hs hd⟩, h.dials hs⟩
  empty := h.empty
  reports := h.reports
  rollback := h.rollback
  size := h.size
  cap := h.cap
  tooLarge := h.tooLarge

theorem Restarted.failed {c c₁ : PgConn} (h : Restarted c c₁) (now : Nat) :
    Restarted c (c₁.redialFailed now) where
  dialing _ hd := absurd rfl hd.2
  inflight := h.inflight
  empty := h.empty
  dials hs n hn := by
    rcases List.mem_append.mp hn with hn | hn
    · exact h.dials hs n hn
    · rw [List.mem_singleton.mp hn, h.inflight hs]
      rfl
  reports := h.reports
  rollback := h.rollback
  size := h.size
  cap := h.cap
  tooLarge := h.tooLarge

/-- `redial_start`, on a connection with nothing in flight. -/
theorem redialStart_spec {c : PgConn} (hin : c.inflight = []) (cfg : ConnConfig) (env : RedialEnv) :
    Restarted c (c.redialStart cfg env).2 := by
  have hdials : c.Settled → ∀ n ∈ c.closeSocket.resetSession.dials, n = 0 := by
    intro hs n hn
    rcases List.mem_append.mp hn with hn | hn
    · exact hs.dials n hn
    · rw [List.mem_singleton.mp hn, hin]
      rfl
  unfold redialStart
  split
  · exact ⟨fun hs hd => (hs.dialing hd).2, fun _ => hin, id, fun hs => hs.dials, fun _ => id, id,
      rfl, rfl, rfl⟩
  have hreset : ∀ c' : PgConn, { c' with
      scram := c.scram, heard := c.heard, state := c.state, fd := -1
      dialDeadline := c.dialDeadline } = c.closeSocket.resetSession → Restarted c c' := by
    intro c' h
    have hstatus : c'.readyStatus = txIdle := (congrArg readyStatus h :)
    refine ⟨fun _ _ => hstatus, fun _ => (congrArg inflight h :), fun _ => (congrArg inflight h :),
      fun hs => ?_, fun _ _ _ => ?_, fun _ => (congrArg rollbackDeadline h :),
      (congrArg (·.send.size) h :), (congrArg inflightCap h :),
      (congrArg frameTooLarge h :)⟩
    · rw [(congrArg dials h :)]
      exact hdials hs
    · have hl : c'.lastReady = none := (congrArg lastReady h :)
      rw [Told, hl]
      exact hstatus
  dsimp only
  split
  · split <;> exact hreset _ rfl
  · exact hreset _ rfl

theorem redialStart_dialing {c c' : PgConn} {env : RedialEnv}
    (h : c.redialStart cfg env = (true, c')) : c'.Dialing := by
  unfold redialStart at h
  split at h
  · cases h
  dsimp only at h
  split at h
  · split at h <;> cases h
    exact ⟨by simp, by simp⟩
  · cases h

theorem redialGo_spec {c c₁ c' : PgConn} {b : Bool} {env : RedialEnv} (hc : c.state ≠ .ready)
    (h : Restarted c c₁) (hd : c₁.Dialing) (hr : c₁.redialGo K cfg env = (b, c')) :
    Redialed c b c' := by
  have hstep : StepEnds c₁ (c₁.redialStep K cfg env) := redialStep_spec hd env
  unfold redialGo at hr
  generalize c₁.redialStep K cfg env = r at hstep hr
  cases hstep with
  | failed ha hh =>
      cases hr
      refine ((h.attempting ha (fun _ => hd) fun _ ht => ?_).failed _).redialed hc
        (by simp [redialFailed])
      exact ht.hears hh (congrArg PgConn.readyStatus ha :)
  | waiting ha hh hd' =>
      cases hr
      refine (h.attempting ha (fun _ => hd) fun _ ht => ?_).redialed hc (by simpa using hd'.1)
      exact ht.hears hh (congrArg PgConn.readyStatus ha :)
  | ready ha hs hx hz hl =>
      cases hr
      refine (h.attempting ha (fun _ => hd) fun hset _ => ?_).redialed hc (by simpa using hs)
      exact reports_ready ((congrArg PgConn.readyStatus ha :).trans (h.dialing hset hd)) hx hz hl

/-- **What a call of `redial` does.** -/
theorem redial_spec {c c' : PgConn} {b : Bool} {env : RedialEnv}
    (h : c.redial K cfg env = (b, c')) : Redialed c b c' := by
  unfold redial at h
  split at h
  · rename_i hs
    cases h
    exact ⟨by simpa using hs, fun _ => rfl, id, id, fun _ => id, id, rfl, rfl, rfl⟩
  rename_i hs
  split at h
  · rename_i hbroken
    split at h
    · cases h
      exact ⟨by simpa using hs, fun _ => rfl, id, id, fun _ => id, id, rfl, rfl, rfl⟩
    · rename_i hidle
      rw [not_or] at hidle
      have hin : c.inflight = [] := List.length_eq_zero_iff.mp (by omega)
      have hstart := redialStart_spec hin cfg env
      generalize hr : c.redialStart cfg env = r at h hstart
      obtain ⟨ok, c₁⟩ := r
      cases ok with
      | false =>
          cases h
          exact (hstart.failed _).redialed hs (by simp [redialFailed])
      | true => exact redialGo_spec hs hstart (redialStart_dialing hr) h
  · rename_i hbroken
    have hself' : Restarted c c :=
      ⟨fun hc hd => (hc.dialing hd).2, fun hc => (hc.dialing ⟨hs, hbroken⟩).1, id,
        fun hc => hc.dials, fun _ => id, id, rfl, rfl, rfl⟩
    split at h
    · cases h
      exact (hself'.failed _).redialed hs (by simp [redialFailed])
    · exact redialGo_spec hs hself' ⟨hs, hbroken⟩ h

end PgConn

end

end Vanilla.PgAsync

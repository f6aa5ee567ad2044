import Vanilla.PgAsync.Blocking
import Vanilla.PgAsync.Redial

/-!
# PostgreSQL — is the server authenticated

The two ways a connection comes up: the blocking `handshake` of `pg_async/conn.v`, and calls of
`redial` until one of them finds it ready.  Both hand the server's messages to `on_startup_msg` one
by one (`BroughtUp`).

`on_startup_msg` looks at each message alone.  A SASLFinal is checked when it comes, and nothing
asks for one: a ReadyForQuery ends the bring-up at any point of the exchange.

* `BroughtUp.ended`: a bring-up is a session of `Steps` that a ReadyForQuery ends.
* `server_verified_iff`: the server of a connection that came up is verified if and only if a
  SASLFinal came behind each SASLContinue.
-/

namespace Vanilla.PgAsync
open PgConn

open Scan (Turn loop loop_rule Descends)

/-! ### The blocking bring-up -/

/-- The loop of `handshake`. -/
structure Handshake where
  scram : ScramClient
  cache : Option ScramCache
  wire : Wire
  sends : List Bool
  heard : List Heard := []
  deriving DecidableEq, Repr

/-- How `handshake` ends, if it does. -/
inductive HandshakeEnd where
  | ready (h : Handshake)
  | failed (e : List UInt8)
  | blocked
  deriving DecidableEq, Repr

section

variable (K : Crypto) (cfg : AuthConfig) (tls : Bool)

/-- One pass of the loop of `handshake`. -/
def Handshake.step (h : Handshake) : Turn Handshake HandshakeEnd :=
  match h.wire.readMsg with
  | .blocked => .exit .blocked
  | .closed => .exit (.failed (ascii "pg: connection closed by server"))
  | .msg m w =>
    let sendOk := h.sends.headD true
    let h : Handshake := { h with
      wire := w, sends := h.sends.tail, heard := h.heard ++ [⟨m, h.cache, sendOk⟩] }
    match onStartupMsg K cfg tls h.scram h.cache sendOk m with
    | .error e => .exit (.failed e)
    | .ok (true, scram, cache) => .exit (.ready { h with scram := scram, cache := cache })
    | .ok (false, scram, cache) => .next { h with scram := scram, cache := cache }

/-- `handshake`, from its first read on. -/
def Handshake.run (h : Handshake) : HandshakeEnd :=
  loop (Handshake.step K cfg tls) (fun h => h.wire.rest.length) .blocked h

/-- Calls of `redial`, one after the other. -/
def PgConn.redials (cfg : ConnConfig) : PgConn → List RedialEnv → PgConn
  | c, [] => c
  | c, env :: envs => (c.redial K cfg env).2.redials cfg envs

end

/-- **A connection came up**: the client of the attempt as it started, and the messages heard. -/
inductive BroughtUp (K : Crypto) (cfg : ConnConfig) : ScramClient → List Heard → Prop where
  | handshake {s₀ : ScramClient} {tls : Bool} {h h' : Handshake} (hs : h.scram = s₀.restart)
      (hnew : h.heard = []) (hend : h.run K cfg.auth tls = .ready h') :
      BroughtUp K cfg s₀.restart h'.heard
  | redial {c₀ c c' : PgConn} {envs : List RedialEnv} {env : RedialEnv} (hlost : c₀.state = .broken)
      (hrun : c₀.redials K cfg envs = c) (hs : c.state ≠ .ready)
      (hend : c.redial K cfg env = (true, c')) : BroughtUp K cfg c'.scram.restart c'.heard

/-- Messages handled, and a ReadyForQuery behind them. -/
def Ended (K : Crypto) (cfg : AuthConfig) (tls : Bool) (s₀ : ScramClient) (heard : List Heard) :
    Prop :=
  ∃ hs x s, heard = hs ++ [x] ∧ Steps K cfg tls s₀ hs s ∧ x.msg.typ = btReadyForQuery

section

variable {K : Crypto}

theorem Steps.heard {cfg : AuthConfig} {tls : Bool} {s₀ s s' : ScramClient} {hs : List Heard}
    {x : Heard} {cache : Option ScramCache} (h : Steps K cfg tls s₀ hs s)
    (he : onStartupMsg K cfg tls s x.cache x.sendOk x.msg = .ok (false, s', cache)) :
    Steps K cfg tls s₀ (hs ++ [x]) s' :=
  h.append (.cons he (.nil s'))

theorem Handshake.step_descends (cfg : AuthConfig) (tls : Bool) :
    Descends (Handshake.step K cfg tls) (fun h => h.wire.rest.length) fun _ => True := by
  rintro h h' - hstep
  refine ⟨trivial, ?_⟩
  have hread := h.wire.readMsg_spec
  unfold Handshake.step at hstep
  generalize framing.next h.wire.rest = v at hread
  generalize h.wire.readMsg = r at hread hstep
  cases hread with
  | blocked => cases hstep
  | closed => cases hstep
  | @msg m w hok hrest hclosed =>
      dsimp only at hstep
      split at hstep
      · cases hstep
      · cases hstep
      · cases hstep
        show w.rest.length < h.wire.rest.length
        rw [hrest, List.length_append, Msg.length_bytes, Msg.size]
        omega

theorem Handshake.run_ended {cfg : AuthConfig} {tls : Bool} {h h' : Handshake} {s₀ : ScramClient}
    (hst : Steps K cfg tls s₀ h.heard h.scram) (hend : h.run K cfg tls = .ready h') :
    Ended K cfg tls s₀ h'.heard := by
  refine loop_rule (Handshake.step_descends cfg tls)
    (P := fun h r => Steps K cfg tls s₀ h.heard h.scram → ∀ h', r = .ready h' →
      Ended K cfg tls s₀ h'.heard) ?_ ?_ (s := h) trivial hst h' hend
  · intro h r _ hstep hst h' hr
    subst hr
    unfold Handshake.step at hstep
    split at hstep
    · cases hstep
    · cases hstep
    · dsimp only at hstep
      split at hstep
      · cases hstep
      · rename_i he
        cases hstep
        exact ⟨h.heard, _, h.scram, rfl, hst, (onStartupMsg_spec he).2.mp rfl⟩
      · cases hstep
  · intro h h₁ r _ hstep ih hst
    unfold Handshake.step at hstep
    split at hstep
    · cases hstep
    · cases hstep
    · dsimp only at hstep
      split at hstep
      · cases hstep
      · cases hstep
      · rename_i he
        cases hstep
        exact ih (hst.heard he)

/-! ### Re-dials -/

/-- A re-dial under way: the client of the attempt has handled what was heard. -/
def PgConn.Greets (K : Crypto) (cfg : ConnConfig) (c : PgConn) : Prop :=
  c.Dialing → Steps K cfg.auth c.tls c.scram.restart c.heard c.scram ∧
    (c.state ≠ .starting → c.heard = [])

theorem Greeting.run_hears (cfg : ConnConfig) (env : RedialEnv) (g : Greeting) {s₀ : ScramClient}
    (hst : Steps K cfg.auth g.conn.tls s₀ g.conn.heard g.conn.scram) :
    (∀ c', Greeting.run K cfg env g = (.waiting, c') →
      Steps K cfg.auth c'.tls s₀ c'.heard c'.scram ∧ c'.state = g.conn.state) ∧
    (∀ c', Greeting.run K cfg env g = (.ready, c') →
      Ended K cfg.auth g.conn.tls s₀ c'.heard ∧ c'.scram.restart = s₀.restart ∧
        c'.state = .ready) := by
  refine loop_rule (Greeting.step_descends env)
    (P := fun g r => Steps K cfg.auth g.conn.tls s₀ g.conn.heard g.conn.scram →
      (∀ c', r = (.waiting, c') →
        Steps K cfg.auth c'.tls s₀ c'.heard c'.scram ∧ c'.state = g.conn.state) ∧
      (∀ c', r = (.ready, c') →
        Ended K cfg.auth g.conn.tls s₀ c'.heard ∧ c'.scram.restart = s₀.restart ∧
          c'.state = .ready))
    ?_ ?_ (s := g) trivial hst
  · intro g r _ hstep hst
    unfold Greeting.step at hstep
    dsimp only at hstep
    split at hstep
    · cases hstep
      exact ⟨fun c' h => by cases h; exact ⟨hst, rfl⟩, fun c' h => by cases h⟩
    · split at hstep
      · cases hstep
        exact ⟨fun c' h => (by cases h), fun c' h => (by cases h)⟩
      · rename_i he
        cases hstep
        refine ⟨fun c' h => (by cases h), fun c' h => ?_⟩
        cases h
        obtain ⟨hh, hz⟩ := onStartupMsg_spec he
        exact ⟨⟨g.conn.heard, _, g.conn.scram, rfl, hst, hz.mp rfl⟩,
          hh.restart.trans hst.restart, rfl⟩
      · cases hstep
  · intro g g' r _ hstep ih hst
    unfold Greeting.step at hstep
    dsimp only at hstep
    split at hstep
    · cases hstep
    · split at hstep
      · cases hstep
      · cases hstep
      · rename_i he
        cases hstep
        exact ih (hst.heard he)

/-- A stage of an attempt that has not heard anything yet, or nothing at all. -/
theorem PgConn.Greets.unheard {cfg : ConnConfig} {c c' : PgConn} (hg : c.Greets K cfg)
    (hd : c.Dialing) (hu : c.Unheard c') :
    Steps K cfg.auth c'.tls c'.scram.restart c'.heard c'.scram ∧
      (c'.state ≠ .starting → c'.heard = []) := by
  obtain ⟨hst, hnew⟩ := hg hd
  rw [hu.scram, hu.heard]
  by_cases hs : c.state = .starting
  · obtain ⟨hs', htls⟩ := hu.starting hs
    rw [htls]
    exact ⟨hst, fun h => absurd hs' h⟩
  · rw [hnew hs] at hst ⊢
    generalize hr : c.scram.restart = s at hst
    cases hst
    exact ⟨.nil _, fun _ => rfl⟩

theorem PgConn.redialGo_hears {cfg : ConnConfig} {c c' : PgConn} {b : Bool} {env : RedialEnv}
    (hg : c.Greets K cfg) (hd : c.Dialing) (h : c.redialGo K cfg env = (b, c')) :
    c'.Greets K cfg ∧
      (b = true → ∃ tls, Ended K cfg.auth tls c'.scram.restart c'.heard) := by
  have hgo : Goes K cfg c env (c.redialStep K cfg env) := redialStep_goes hd env
  unfold redialGo at h
  generalize c.redialStep K cfg env = r at hgo h
  cases hgo with
  | failed =>
      cases h
      exact ⟨fun hd => absurd rfl hd.2, fun h => by cases h⟩
  | waiting _ _ hu =>
      cases h
      exact ⟨fun _ => hg.unheard hd hu, fun h => by cases h⟩
  | @messages c₁ _ _ hu hs =>
      obtain ⟨hst, -⟩ := hg.unheard hd hu
      obtain ⟨hwait, hready⟩ :=
        Greeting.run_hears cfg env ⟨c₁, env.cache, env.sends⟩ hst
      generalize Greeting.run K cfg env ⟨c₁, env.cache, env.sends⟩ = r at h hwait hready
      split at h
      · cases h
        exact ⟨fun hd => absurd rfl hd.2, fun h => by cases h⟩
      · cases h
        obtain ⟨hst', hs'⟩ := hwait _ rfl
        refine ⟨fun _ => ⟨?_, fun h => absurd (hs'.trans hs) h⟩, fun h => by cases h⟩
        rw [hst'.restart]
        exact hst'
      · cases h
        obtain ⟨hend, hr, hs'⟩ := hready _ rfl
        refine ⟨fun hd => absurd hs' hd.1, fun _ => ⟨c₁.tls, ?_⟩⟩
        rw [hr]
        exact hend

theorem PgConn.redialStart_greets {cfg : ConnConfig} {c c' : PgConn} {env : RedialEnv} {b : Bool}
    (h : c.redialStart cfg env = (b, c')) (hd : c.state = .broken) : c'.Greets K cfg := by
  unfold redialStart at h
  split at h
  · cases h
    exact fun hc => absurd hd hc.2
  dsimp only at h
  split at h
  · split at h
    all_goals
      cases h
      exact fun _ => ⟨.nil _, fun _ => rfl⟩
  · cases h
    exact fun hc => absurd hd hc.2

/-- **A re-dial hears its session message by message**, until the ReadyForQuery. -/
theorem PgConn.redial_hears {cfg : ConnConfig} {c c' : PgConn} {b : Bool} {env : RedialEnv}
    (hg : c.Greets K cfg) (h : c.redial K cfg env = (b, c')) :
    c'.Greets K cfg ∧ (c.state ≠ .ready → b = true →
      ∃ tls, Ended K cfg.auth tls c'.scram.restart c'.heard) := by
  unfold redial at h
  split at h
  · rename_i hs
    cases h
    exact ⟨hg, fun hne => absurd hs hne⟩
  split at h
  · rename_i hbroken
    split at h
    · cases h
      exact ⟨hg, fun _ h => by cases h⟩
    · split at h
      · cases h
        exact ⟨fun hd => absurd rfl hd.2, fun _ h => by cases h⟩
      · rename_i c₁ hstart
        obtain ⟨h₁, h₂⟩ :=
          redialGo_hears (redialStart_greets hstart hbroken) (redialStart_dialing hstart) h
        exact ⟨h₁, fun _ => h₂⟩
  · rename_i hs hbroken
    split at h
    · cases h
      exact ⟨fun hd => absurd rfl hd.2, fun _ h => by cases h⟩
    · obtain ⟨h₁, h₂⟩ := redialGo_hears hg ⟨hs, hbroken⟩ h
      exact ⟨h₁, fun _ => h₂⟩

theorem PgConn.redials_greets {cfg : ConnConfig} {envs : List RedialEnv} {c c' : PgConn}
    (hg : c.Greets K cfg) (h : c.redials K cfg envs = c') : c'.Greets K cfg := by
  induction envs generalizing c with
  | nil =>
      cases h
      exact hg
  | cons env envs ih => exact ih (redial_hears hg rfl).1 h

/-- **A bring-up is a session that a ReadyForQuery ends.** -/
theorem BroughtUp.ended {cfg : ConnConfig} {s₀ : ScramClient} {heard : List Heard}
    (h : BroughtUp K cfg s₀ heard) : ∃ tls, Ended K cfg.auth tls s₀ heard := by
  cases h with
  | @handshake s₀ tls h h' hs hnew hend =>
      refine ⟨tls, Handshake.run_ended ?_ hend⟩
      rw [hnew, hs]
      exact .nil _
  | @redial c₀ c c' envs env hlost hrun hs hend =>
      have hg : c₀.Greets K cfg := fun hd => absurd hlost hd.2
      exact (redial_hears (redials_greets hg hrun) hend).2 hs rfl

end

/-! ### Verified servers -/

/-- **The server is verified**: behind every SASLContinue, which the client answers with its
client-final message, and before the next, comes a SASLFinal with the ServerSignature of that
exchange. -/
def ServerVerified (K : Crypto) (s₀ : ScramClient) (ms : List Msg) : Prop :=
  ∀ before m after, ms = before ++ m :: after → isSaslContinue m = true →
    ∃ mid f rest sig, after = mid ++ f :: rest ∧ (∀ x ∈ mid, isSaslContinue x = false) ∧
      isSaslFinal f = true ∧
      serverSignature K s₀.password (firstBareAfter s₀ before) m.saslData = .ok sig ∧
      Carries K f.saslData sig

/-- Behind every SASLContinue, before the next one, comes a SASLFinal. -/
def FinalFollows (ms : List Msg) : Prop :=
  ∀ before m after, ms = before ++ m :: after → isSaslContinue m = true →
    ∃ mid f rest, after = mid ++ f :: rest ∧ (∀ x ∈ mid, isSaslContinue x = false) ∧
      isSaslFinal f = true

theorem isAuth_not_ready {n : Nat} {m : Msg} (h : isAuth n m = true) :
    m.typ ≠ btReadyForQuery := by
  simp only [isAuth, Bool.and_eq_true, beq_iff_eq] at h
  rw [h.1]
  decide

/-- **The server of a connection that came up is verified if and only if a SASLFinal came behind
each SASLContinue.** -/
theorem server_verified_iff (K : Crypto) (cfg : ConnConfig) (s₀ : ScramClient)
    (heard : List Heard) (hup : BroughtUp K cfg s₀ heard)
    (hkeys : ∀ h ∈ heard, KeysHeld K h.cache s₀.password) :
    ServerVerified K s₀ (heard.map Heard.msg) ↔ FinalFollows (heard.map Heard.msg) := by
  constructor
  · intro hv before m after hms hm
    obtain ⟨mid, f, rest, -, hafter, hmid, hf, -⟩ := hv before m after hms hm
    exact ⟨mid, f, rest, hafter, hmid, hf⟩
  · intro hfollows before m after hms hm
    obtain ⟨mid, f, rest, rfl, hmid, hf⟩ := hfollows before m after hms hm
    obtain ⟨tls, hs, z, s, rfl, hsteps, hz⟩ := hup.ended
    -- the split of the messages is one of what was heard
    obtain ⟨b, r, hbr, rfl, hr⟩ := List.map_eq_append_iff.mp hms
    obtain ⟨x, r', rfl, rfl, hr'⟩ := List.map_eq_cons_iff.mp hr
    obtain ⟨md, r'', rfl, rfl, hr''⟩ := List.map_eq_append_iff.mp hr'
    obtain ⟨y, e, rfl, rfl, rfl⟩ := List.map_eq_cons_iff.mp hr''
    -- the ReadyForQuery is behind the SASLFinal
    rcases List.eq_nil_or_concat e with rfl | ⟨e, z', rfl⟩
    · have hlast : hs ++ [z] = (b ++ x :: md) ++ [y] := by simpa using hbr
      obtain ⟨-, hzy⟩ := List.append_inj' hlast rfl
      cases hzy
      exact absurd hz (isAuth_not_ready hf)
    · have hlast : hs ++ [z] = (b ++ x :: (md ++ y :: e)) ++ [z'] := by simpa using hbr
      obtain ⟨rfl, -⟩ := List.append_inj' hlast rfl
      have hx : KeysHeld K x.cache s₀.password := hkeys x (by simp)
      have hmd : ∀ w ∈ md, isSaslContinue w.msg = false := fun w hw =>
        hmid w.msg (List.mem_map_of_mem hw)
      obtain ⟨sig, hsig, hc⟩ := hsteps.final_carries hx hm hmd hf
      exact ⟨_, y.msg, _, sig, rfl, hmid, hf, hsig, hc⟩

def saslClient : ScramClient := ⟨ascii "app", ascii "secret", ascii "nonce", [], [], false⟩

/-- An Authentication message. -/
def authMsg (n : Nat) (data : List UInt8) : Msg := ⟨btAuthentication, putU32 n ++ data⟩

/-- AuthenticationSASL, a server-first message, then ReadyForQuery. -/
def impostor : List Msg :=
  [authMsg 10 (ascii "SCRAM-SHA-256"), authMsg 11 (ascii "r=nonce1,s=salt,i=4096"),
    ⟨btReadyForQuery, [txIdle]⟩]

/-- The handshake with the messages `ms`. -/
def saslHandshake (ms : List Msg) : Handshake :=
  { scram := saslClient, cache := none, wire := { pieces := [framing.encs ms], closed := false }
    sends := [] }

/-- What is heard of the messages `ms` without a pool's cache. -/
def heardOf (ms : List Msg) : List Heard := ms.map fun m => ⟨m, none, true⟩

/-- What was heard of a handshake that ended well. -/
def HandshakeEnd.heard : HandshakeEnd → Option (List Heard)
  | ready h => some h.heard
  | _ => none

theorem saslHandshake_up (ms : List Msg) {hs : List Heard}
    (hend : ((saslHandshake ms).run plainCrypto saslConfig.auth false).heard = some hs) :
    BroughtUp plainCrypto saslConfig saslClient hs := by
  generalize hr : (saslHandshake ms).run plainCrypto saslConfig.auth false = r at hend
  cases r with
  | ready h =>
      cases hend
      show BroughtUp plainCrypto saslConfig saslClient.restart _
      exact .handshake rfl rfl hr
  | _ => cases hend

/-- An exchange with its server-final message. -/
def honest : List Msg :=
  [authMsg 10 (ascii "SCRAM-SHA-256"), authMsg 11 (ascii "r=nonce1,s=salt,i=4096"),
    authMsg 12 (ascii "v=" ++ plainCrypto.base64Encode (ascii ("secretsaltServer Key" ++
      "n=app,r=nonce,r=nonce1,s=salt,i=4096,c=") ++ plainCrypto.base64Encode (ascii "n,,") ++
      ascii ",r=nonce1")),
    authMsg 0 [], ⟨btReadyForQuery, [txIdle]⟩]

theorem honest_follows : FinalFollows honest := by
  intro before m after hms hm
  match before, hms with
  | [], hms =>
      cases hms
      exact absurd hm (by decide)
  | [_], hms =>
      cases hms
      exact ⟨[], _, _, rfl, by simp, by decide⟩
  | _ :: _ :: before, hms =>
      have hlate : ∀ m ∈ honest.drop 2, isSaslContinue m = false := by decide
      have hmem : m ∈ honest.drop 2 := by rw [hms]; simp
      rw [hlate m hmem] at hm
      cases hm

theorem server_verified_iff_honest :
    ServerVerified plainCrypto saslClient ((heardOf honest).map Heard.msg) := by
  have hup : BroughtUp plainCrypto saslConfig saslClient (heardOf honest) :=
    saslHandshake_up honest (by decide +kernel)
  refine (server_verified_iff plainCrypto saslConfig saslClient _ hup ?_).mpr honest_follows
  intro h hm c hc
  obtain ⟨m, -, rfl⟩ := List.mem_map.mp hm
  cases hc

/-- An exchange that ends without the server-final message. -/
theorem impostor_comes_up :
    BroughtUp plainCrypto saslConfig saslClient (heardOf impostor) ∧
      ¬ ServerVerified plainCrypto saslClient ((heardOf impostor).map Heard.msg) := by
  refine ⟨saslHandshake_up impostor (by decide +kernel), fun hv => ?_⟩
  obtain ⟨mid, f, rest, -, hafter, -, hf, -⟩ := hv [authMsg 10 (ascii "SCRAM-SHA-256")]
    (authMsg 11 (ascii "r=nonce1,s=salt,i=4096")) [⟨btReadyForQuery, [txIdle]⟩] rfl (by decide)
  have hm : f ∈ [(⟨btReadyForQuery, [txIdle]⟩ : Msg)] := by rw [hafter]; simp
  rw [List.mem_singleton.mp hm] at hf
  cases hf

end Vanilla.PgAsync

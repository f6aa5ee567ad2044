import Vanilla.PgAsync.Protocol
import Vanilla.PgAsync.Scram

/-!
# PostgreSQL — the start of a session

`on_startup_msg` and `handle_auth` of `pg_async/conn.v`: what the client does at each message
between its StartupMessage and the first ReadyForQuery.  The blocking bring-up and the re-dial share
them.

A message is handled with the key cache of the pool as it is at that time, and an answer can fail to
be sent; `Heard` is a message with the two.  `Steps` is a client that has handled some messages.

* `handleServerFirst_spec`, `handleServerFinal_spec`: the signature a client expects is the one of
  the exchange, and a server-final message it accepts carries it.
* `Steps.final_carries`: so it is along a session, from a SASLContinue to the next SASLFinal.
-/

namespace Vanilla.PgAsync

/-! ### Messages -/

/-- `auth_subtype`. -/
def authSubtype (payload : List UInt8) : Nat :=
  if payload.length < 4 then 0xFFFFFFFF else bigEndianU32At payload 0

/-- `scram_sha_256`. -/
def scramSha256 : List UInt8 := ascii "SCRAM-SHA-256"

/-- `write_sasl_initial`. -/
def writeSaslInitial (mechanism clientFirst : List UInt8) : List UInt8 :=
  message 112 (putCstrS mechanism ++ putU32 clientFirst.length ++ clientFirst)

/-- `write_password`. -/
def writePassword (password : List UInt8) : List UInt8 := message 112 (putCstrS password)

/-- `write_sasl_response`. -/
def writeSaslResponse (data : List UInt8) : List UInt8 := message 112 data

/-- What `handle_auth` asks of `ConnConfig.allowed_auth`. -/
structure AuthConfig where
  cleartextPassword : Bool
  sasl : Bool
  deriving DecidableEq, Repr

section

variable (K : Crypto) (cfg : AuthConfig) (tls : Bool)

/-- `handle_auth`: what is sent in answer, and the client and the cache afterwards. -/
def handleAuth (scram : ScramClient) (cache : Option ScramCache) (payload : List UInt8) :
    Except (List UInt8) (Option (List UInt8) × ScramClient × Option ScramCache) :=
  let sub := authSubtype payload
  let data := payload.drop 4
  if sub = 0 then .ok (none, scram, cache)
  else if sub = 3 then
    if !cfg.cleartextPassword then
      .error (ascii ("pg: the server asks for a cleartext password, which allowed_auth does not " ++
        "allow (token authentication: allowed_auth [.cleartext_password] with ssl_mode " ++
        ".verify_full)"))
    else if !tls then
      .error (ascii ("pg: refusing to send a cleartext password over an unencrypted connection " ++
        "(set ssl_mode, e.g. .verify_full)"))
    else if 0 ∈ scram.password then .error (ascii "pg: the password holds a NUL byte")
    else .ok (some (writePassword scram.password), scram, cache)
  else if sub = 10 then
    if !cfg.sasl then
      .error (ascii ("pg: the server asks for SASL (SCRAM-SHA-256) authentication, which " ++
        "allowed_auth does not allow"))
    else
      let r := scram.clientFirst
      .ok (some (writeSaslInitial scramSha256 r.1), r.2, cache)
  else if sub = 11 then do
    let r ← scram.handleServerFirst K cache data
    return (some (writeSaslResponse r.1), r.2.1, r.2.2)
  else if sub = 12 then do
    let scram ← scram.handleServerFinal K data
    return (none, scram, cache)
  else
    .error (ascii "pg: unsupported authentication method (code " ++ ascii (toString sub) ++
      ascii "); pg_async implements SCRAM-SHA-256 and, over TLS, cleartext password")

/-- `on_startup_msg`: `true` at the ReadyForQuery.  `sendOk`: an answer, if there is one, is
sent. -/
def onStartupMsg (scram : ScramClient) (cache : Option ScramCache) (sendOk : Bool) (m : Msg) :
    Except (List UInt8) (Bool × ScramClient × Option ScramCache) :=
  if m.typ = btAuthentication then do
    let r ← handleAuth K cfg tls scram cache m.payload
    if r.1.isSome ∧ ¬ sendOk then throw (ascii "pg: send failed")
    return (false, r.2)
  else if m.typ = btErrorResponse then
    let info := parseErrorResponse m.payload
    .error (ascii "pg: startup failed: " ++ info.message ++ ascii " (SQLSTATE " ++ info.code ++
      ascii ")")
  else if m.typ = btReadyForQuery then .ok (true, scram, cache)
  else .ok (false, scram, cache)

end

/-- A message of a bring-up: with the key cache it was handled with, and whether an answer to it was
sent. -/
structure Heard where
  msg : Msg
  cache : Option ScramCache
  sendOk : Bool
  deriving DecidableEq, Repr

/-! ### Authentication messages -/

/-- An Authentication message of sub-code `n`. -/
def isAuth (n : Nat) (m : Msg) : Bool :=
  m.typ == btAuthentication && authSubtype m.payload == n

/-- AuthenticationSASL, which is answered with the client-first message. -/
def isSasl (m : Msg) : Bool := isAuth 10 m

/-- AuthenticationSASLContinue, which carries the server-first message and is answered with the
client-final one. -/
def isSaslContinue (m : Msg) : Bool := isAuth 11 m

/-- AuthenticationSASLFinal, which carries the server-final message. -/
def isSaslFinal (m : Msg) : Bool := isAuth 12 m

/-- The SASL data of an Authentication message. -/
def Msg.saslData (m : Msg) : List UInt8 := m.payload.drop 4

/-! ### Signatures -/

section

variable (K : Crypto)

/-- **The ServerSignature of an exchange**: from the password, the client-first message, and the
salt, the iteration count and the nonce of the server-first message. -/
def serverSignature (password clientFirstBare sf : List UInt8) :
    Except (List UInt8) (List UInt8) := do
  let s ← ServerFirst.read K {} (attributes sf)
  let ks ← deriveKeys K password (K.base64Decode s.saltB64) s.iter
  let clientFinalBare := ascii "c=" ++ K.base64Encode gs2Header ++ ascii ",r=" ++ s.combinedNonce
  return K.hmac ks.2 (clientFirstBare ++ [comma] ++ sf ++ [comma] ++ clientFinalBare)

/-- A server-final message that carries a signature. -/
def Carries (sf sig : List UInt8) : Prop :=
  readServerFinal [] (attributes sf) = .ok (K.base64Encode sig)

/-- An entry of the cache under the digest of a password holds the keys of that password. -/
def ScramCache.Holds (cache : ScramCache) (password : List UInt8) : Prop :=
  cache.clientKey ≠ [] → cache.password = K.sha256 password →
    deriveKeys K password cache.salt cache.iterations = .ok (cache.clientKey, cache.serverKey)

/-- The same of the cache a client may have. -/
def KeysHeld (cache : Option ScramCache) (password : List UInt8) : Prop :=
  ∀ c, cache = some c → c.Holds K password

variable {K}

/-- **The keys of an exchange are those of its password, salt and iteration count.** -/
theorem exchangeKeys_spec {cache cache' : Option ScramCache} {password salt : List UInt8}
    {iterations : Int} {ks : List UInt8 × List UInt8} (hc : KeysHeld K cache password)
    (h : exchangeKeys K cache password salt iterations = .ok (ks, cache')) :
    deriveKeys K password salt iterations = .ok ks ∧ KeysHeld K cache' password := by
  cases cache with
  | none =>
      simp only [exchangeKeys, Except.map] at h
      split at h
      · cases h
      · rename_i hd
        cases h
        exact ⟨hd, fun c hc => by cases hc⟩
  | some c =>
      have hheld := hc c rfl
      simp only [exchangeKeys, ScramCache.keys] at h
      split at h
      · -- another password, salt or count: the keys are derived, and kept
        cases hd : deriveKeys K password salt iterations with
        | error e =>
            rw [hd] at h
            cases h
        | ok ks' =>
            rw [hd] at h
            cases h
            refine ⟨rfl, fun c' hc' => ?_⟩
            cases hc'
            exact fun _ _ => hd
      · rename_i hsame
        simp only [not_or, not_not] at hsame
        obtain ⟨hne, rfl, rfl, hpw⟩ := hsame
        cases h
        exact ⟨hheld hne hpw, fun c' hc' => by cases hc'; exact hheld⟩

theorem handleServerFirst_spec {c c' : ScramClient} {cache cache' : Option ScramCache}
    {sf final : List UInt8} (h : c.handleServerFirst K cache sf = .ok (final, c', cache')) :
    ∃ sig, c' = { c with serverSignature := sig } ∧ (KeysHeld K cache c.password →
      serverSignature K c.password c.clientFirstBare sf = .ok sig) := by
  unfold ScramClient.handleServerFirst at h
  cases hs : ServerFirst.read K {} (attributes sf) with
  | error e =>
      rw [hs] at h
      cases h
  | ok s =>
      rw [hs] at h
      simp only [bind, Except.bind, pure, Except.pure] at h
      split at h
      · cases h
      split at h
      · cases h
      cases hk : exchangeKeys K cache c.password (K.base64Decode s.saltB64) s.iter with
      | error e =>
          rw [hk] at h
          cases h
      | ok r =>
          obtain ⟨ks, cache₁⟩ := r
          rw [hk] at h
          cases h
          refine ⟨_, rfl, fun hc => ?_⟩
          have hd := (exchangeKeys_spec hc hk).1
          rw [serverSignature, hs]
          simp only [bind, Except.bind, hd]
          rfl

theorem handleServerFinal_spec {c c' : ScramClient} {sf : List UInt8}
    (h : c.handleServerFinal K sf = .ok c') :
    c' = { c with done := true } ∧ Carries K sf c.serverSignature := by
  unfold ScramClient.handleServerFinal at h
  cases hv : readServerFinal [] (attributes sf) with
  | error e =>
      rw [hv] at h
      cases h
  | ok v =>
      rw [hv] at h
      simp only [bind, Except.bind, pure, Except.pure] at h
      split at h
      · cases h
      split at h
      · cases h
      · rename_i hne
        cases h
        exact ⟨rfl, by rw [Carries, hv, not_not.mp hne]⟩

end

/-! ### Sessions -/

/-- What a message makes of a client. -/
inductive Handled (K : Crypto) (cache : Option ScramCache) (s : ScramClient) (m : Msg) :
    ScramClient → Prop where
  | sasl (h : isSasl m = true) : Handled K cache s m s.clientFirst.2
  | saslContinue {sig : List UInt8} (h : isSaslContinue m = true)
      (hsig : KeysHeld K cache s.password →
        serverSignature K s.password s.clientFirstBare m.saslData = .ok sig) :
      Handled K cache s m { s with serverSignature := sig }
  | saslFinal (h : isSaslFinal m = true) (hsig : Carries K m.saslData s.serverSignature) :
      Handled K cache s m { s with done := true }
  | other (h₁ : isSasl m = false) (h₂ : isSaslContinue m = false) (h₃ : isSaslFinal m = false) :
      Handled K cache s m s

section

variable {K : Crypto} {cfg : AuthConfig} {tls : Bool}

theorem isAuth_ne {n k : Nat} {m : Msg} (h : isAuth n m = true) (hk : k ≠ n) :
    isAuth k m = false := by
  simp only [isAuth, Bool.and_eq_true, beq_iff_eq] at h
  rw [isAuth, h.2, Bool.and_eq_false_iff]
  exact .inr (by simpa using Ne.symm hk)

theorem handleAuth_spec {s s' : ScramClient} {cache cache' : Option ScramCache}
    {m : Msg} {out : Option (List UInt8)} (hm : m.typ = btAuthentication)
    (h : handleAuth K cfg tls s cache m.payload = .ok (out, s', cache')) :
    Handled K cache s m s' := by
  have hauth : ∀ n, authSubtype m.payload = n → isAuth n m = true := by
    intro n hn
    simp [isAuth, hm, hn]
  have hother : authSubtype m.payload ≠ 10 → authSubtype m.payload ≠ 11 →
      authSubtype m.payload ≠ 12 → Handled K cache s m s := by
    intro h₁ h₂ h₃
    exact .other (by simp [isSasl, isAuth, h₁]) (by simp [isSaslContinue, isAuth, h₂])
      (by simp [isSaslFinal, isAuth, h₃])
  unfold handleAuth at h
  dsimp only at h
  split at h
  · rename_i h0
    cases h
    exact hother (by omega) (by omega) (by omega)
  split at h
  · rename_i h3
    split at h
    · cases h
    split at h
    · cases h
    split at h
    · cases h
    cases h
    exact hother (by omega) (by omega) (by omega)
  split at h
  · rename_i h10
    split at h
    · cases h
    cases h
    exact .sasl (hauth 10 h10)
  split at h
  · rename_i h11
    cases hs : s.handleServerFirst K cache (m.payload.drop 4) with
    | error e =>
        rw [hs] at h
        cases h
    | ok r =>
        rw [hs] at h
        cases h
        obtain ⟨sig, hs', hsig⟩ := handleServerFirst_spec hs
        rw [hs']
        exact .saslContinue (hauth 11 h11) hsig
  split at h
  · rename_i h12
    cases hs : s.handleServerFinal K (m.payload.drop 4) with
    | error e =>
        rw [hs] at h
        cases h
    | ok r =>
        rw [hs] at h
        cases h
        obtain ⟨rfl, hcarries⟩ := handleServerFinal_spec hs
        exact .saslFinal (hauth 12 h12) hcarries
  · cases h

/-- **What the client does at a message**, if it goes on. -/
theorem onStartupMsg_spec {s s' : ScramClient} {cache cache' : Option ScramCache} {sendOk b : Bool}
    {m : Msg} (h : onStartupMsg K cfg tls s cache sendOk m = .ok (b, s', cache')) :
    Handled K cache s m s' ∧ (b = true ↔ m.typ = btReadyForQuery) := by
  have hother : m.typ ≠ btAuthentication → Handled K cache s m s := by
    intro hne
    exact .other (by simp [isSasl, isAuth, hne]) (by simp [isSaslContinue, isAuth, hne])
      (by simp [isSaslFinal, isAuth, hne])
  unfold onStartupMsg at h
  split at h
  · rename_i hm
    cases ha : handleAuth K cfg tls s cache m.payload with
    | error e =>
        rw [ha] at h
        cases h
    | ok r =>
        obtain ⟨out, s₁, cache₁⟩ := r
        rw [ha] at h
        simp only [bind, Except.bind, pure, Except.pure] at h
        split at h
        · cases h
        · cases h
          refine ⟨handleAuth_spec hm ha, ?_⟩
          rw [hm]
          decide
  rename_i hm
  split at h
  · cases h
  split at h
  · rename_i hz
    cases h
    exact ⟨hother hm, by simp [hz]⟩
  · rename_i hz
    cases h
    exact ⟨hother hm, by simp [hz]⟩

end

/-- A client that has handled some messages, none of them a ReadyForQuery. -/
inductive Steps (K : Crypto) (cfg : AuthConfig) (tls : Bool) :
    ScramClient → List Heard → ScramClient → Prop where
  | nil (s : ScramClient) : Steps K cfg tls s [] s
  | cons {s s₁ s₂ : ScramClient} {h : Heard} {hs : List Heard} {cache : Option ScramCache}
      (he : onStartupMsg K cfg tls s h.cache h.sendOk h.msg = .ok (false, s₁, cache))
      (t : Steps K cfg tls s₁ hs s₂) : Steps K cfg tls s (h :: hs) s₂

/-- A client as `ScramClient.new` makes it. -/
def ScramClient.restart (s : ScramClient) : ScramClient :=
  ⟨s.username, s.password, s.clientNonce, [], [], false⟩

/-- The client-first message sent so far, without its header. -/
def firstBareAfter (s : ScramClient) (ms : List Msg) : List UInt8 :=
  if ms.any isSasl then s.clientFirst.2.clientFirstBare else s.clientFirstBare

namespace Handled

variable {K : Crypto} {cache : Option ScramCache} {s s' : ScramClient} {m : Msg}

theorem restart (h : Handled K cache s m s') : s'.restart = s.restart := by
  cases h <;> rfl

theorem clientFirst (h : Handled K cache s m s') :
    s'.clientFirst.2.clientFirstBare = s.clientFirst.2.clientFirstBare := by
  cases h <;> rfl

theorem clientFirstBare (h : Handled K cache s m s') :
    s'.clientFirstBare = firstBareAfter s [m] := by
  cases h with
  | sasl h => simp [firstBareAfter, h]
  | saslContinue h => simp [firstBareAfter, isSasl, isAuth_ne h (by decide : 10 ≠ 11)]
  | saslFinal h => simp [firstBareAfter, isSasl, isAuth_ne h (by decide : 10 ≠ 12)]
  | other h => simp [firstBareAfter, h]

theorem signature (h : Handled K cache s m s') (hm : isSaslContinue m = false) :
    s'.serverSignature = s.serverSignature := by
  cases h with
  | saslContinue h =>
      rw [h] at hm
      cases hm
  | _ => rfl

theorem of_saslContinue (h : Handled K cache s m s') (hm : isSaslContinue m = true)
    (hc : KeysHeld K cache s.password) :
    serverSignature K s.password s.clientFirstBare m.saslData = .ok s'.serverSignature := by
  cases h with
  | saslContinue _ hsig => exact hsig hc
  | sasl h => rw [isSasl, isAuth_ne hm (by decide)] at h; cases h
  | saslFinal h => rw [isSaslFinal, isAuth_ne hm (by decide)] at h; cases h
  | other _ h => rw [hm] at h; cases h

theorem of_saslFinal (h : Handled K cache s m s') (hm : isSaslFinal m = true) :
    Carries K m.saslData s.serverSignature := by
  cases h with
  | saslFinal _ hsig => exact hsig
  | sasl h => rw [isSasl, isAuth_ne hm (by decide)] at h; cases h
  | saslContinue h => rw [isSaslContinue, isAuth_ne hm (by decide)] at h; cases h
  | other _ _ h => rw [hm] at h; cases h

end Handled

namespace Steps

variable {K : Crypto} {cfg : AuthConfig} {tls : Bool} {s s' s'' : ScramClient}
  {hs hs' : List Heard}

theorem append (h : Steps K cfg tls s hs s') (h' : Steps K cfg tls s' hs' s'') :
    Steps K cfg tls s (hs ++ hs') s'' := by
  induction h with
  | nil => exact h'
  | cons he _ ih => exact .cons he (ih h')

theorem split (h : Steps K cfg tls s (hs ++ hs') s'') :
    ∃ s', Steps K cfg tls s hs s' ∧ Steps K cfg tls s' hs' s'' := by
  induction hs generalizing s with
  | nil => exact ⟨s, .nil s, h⟩
  | cons x hs ih =>
      cases h with
      | cons he t =>
          obtain ⟨s', h₁, h₂⟩ := ih t
          exact ⟨s', .cons he h₁, h₂⟩

theorem restart (h : Steps K cfg tls s hs s') : s'.restart = s.restart := by
  induction h with
  | nil => rfl
  | cons he _ ih => exact ih.trans (onStartupMsg_spec he).1.restart

theorem password (h : Steps K cfg tls s hs s') : s'.password = s.password :=
  (congrArg ScramClient.password h.restart :)

theorem clientFirstBare (h : Steps K cfg tls s hs s') :
    s'.clientFirstBare = firstBareAfter s (hs.map Heard.msg) := by
  induction h with
  | nil s => simp [firstBareAfter]
  | @cons s s₁ s₂ x hs cache he t ih =>
      have hh := (onStartupMsg_spec he).1
      refine ih.trans ?_
      simp only [firstBareAfter, hh.clientFirst, hh.clientFirstBare, List.map_cons, List.any_cons,
        List.any_nil, Bool.or_false]
      cases isSasl x.msg <;> simp

theorem signature (h : Steps K cfg tls s hs s')
    (hno : ∀ x ∈ hs, isSaslContinue x.msg = false) : s'.serverSignature = s.serverSignature := by
  induction h with
  | nil => rfl
  | cons he _ ih =>
      obtain ⟨hnx, hnos⟩ := List.forall_mem_cons.mp hno
      exact (ih hnos).trans ((onStartupMsg_spec he).1.signature hnx)

/-- **A SASLFinal that is accepted carries the signature of the exchange it ends.** -/
theorem final_carries {before mid after : List Heard} {x f : Heard}
    (h : Steps K cfg tls s (before ++ x :: (mid ++ f :: after)) s')
    (hk : KeysHeld K x.cache s.password) (hx : isSaslContinue x.msg = true)
    (hmid : ∀ y ∈ mid, isSaslContinue y.msg = false) (hf : isSaslFinal f.msg = true) :
    ∃ sig, serverSignature K s.password (firstBareAfter s (before.map Heard.msg)) x.msg.saslData =
        .ok sig ∧ Carries K f.msg.saslData sig := by
  obtain ⟨s₁, hbefore, hrest⟩ := h.split
  cases hrest with
  | @cons _ s₂ _ _ _ _ he t =>
      obtain ⟨s₃, hm, hfin⟩ := t.split
      cases hfin with
      | @cons _ s₄ _ _ _ _ hef _ =>
          have hsig := (onStartupMsg_spec he).1.of_saslContinue hx (hbefore.password ▸ hk)
          rw [hbefore.password, hbefore.clientFirstBare] at hsig
          refine ⟨s₂.serverSignature, hsig, ?_⟩
          rw [← hm.signature hmid]
          exact (onStartupMsg_spec hef).1.of_saslFinal hf

end Steps

end Vanilla.PgAsync

import Vanilla.Http1.Basic

/-!
# PostgreSQL — the SCRAM client

`pg_async/scram.v`: the three client steps of SCRAM-SHA-256 and the key cache of a pool.

The functions of V's standard library are given (`Crypto`): the hash, HMAC, PBKDF2, base64 and
`string.int()`.  A `ScramClient` points to its pool's `ScramCache`; here the cache is handed to the
steps and comes back from them, `none` for a client that has no pool.
-/

namespace Vanilla.PgAsync

/-- What `scram.v` takes from the standard library. -/
structure Crypto where
  sha256 : List UInt8 → List UInt8
  hmac : List UInt8 → List UInt8 → List UInt8
  pbkdf2 : List UInt8 → List UInt8 → Int → Except (List UInt8) (List UInt8)
  base64Encode : List UInt8 → List UInt8
  base64Decode : List UInt8 → List UInt8
  int : List UInt8 → Int

/-- `ScramClient`. -/
structure ScramClient where
  username : List UInt8
  password : List UInt8
  clientNonce : List UInt8
  clientFirstBare : List UInt8 := []
  serverSignature : List UInt8 := []
  done : Bool := false
  deriving DecidableEq, Repr

/-- `ScramCache`: `password` is the SHA-256 of the password the keys come from. -/
structure ScramCache where
  salt : List UInt8 := []
  iterations : Int := 0
  password : List UInt8 := []
  clientKey : List UInt8 := []
  serverKey : List UInt8 := []
  deriving DecidableEq, Repr

section

variable (K : Crypto)

/-- `derive_keys`: ClientKey and ServerKey. -/
def deriveKeys (password salt : List UInt8) (iterations : Int) :
    Except (List UInt8) (List UInt8 × List UInt8) := do
  let salted ← K.pbkdf2 password salt iterations
  return (K.hmac salted (ascii "Client Key"), K.hmac salted (ascii "Server Key"))

/-- `ScramCache.keys`: the keys, and the cache that holds them. -/
def ScramCache.keys (cache : ScramCache) (password salt : List UInt8) (iterations : Int) :
    Except (List UInt8) ((List UInt8 × List UInt8) × ScramCache) := do
  let digest := K.sha256 password
  if cache.clientKey = [] ∨ cache.iterations ≠ iterations ∨ cache.salt ≠ salt ∨
      cache.password ≠ digest then
    let ks ← deriveKeys K password salt iterations
    return (ks, ⟨salt, iterations, digest, ks.1, ks.2⟩)
  else return ((cache.clientKey, cache.serverKey), cache)

/-- The keys of an exchange: from the pool's cache when there is one. -/
def exchangeKeys (cache : Option ScramCache) (password salt : List UInt8) (iterations : Int) :
    Except (List UInt8) ((List UInt8 × List UInt8) × Option ScramCache) :=
  match cache with
  | some c => (c.keys K password salt iterations).map fun r => (r.1, some r.2)
  | none => (deriveKeys K password salt iterations).map fun ks => (ks, none)

/-- `scram_escape`. -/
def scramEscape (s : List UInt8) : List UInt8 :=
  (s.flatMap fun c => if c = equal then ascii "=3D" else [c]).flatMap fun c =>
    if c = comma then ascii "=2C" else [c]

/-- `gs2_header`. -/
def gs2Header : List UInt8 := ascii "n,,"

/-- `client_first`. -/
def ScramClient.clientFirst (c : ScramClient) : List UInt8 × ScramClient :=
  let bare := ascii "n=" ++ scramEscape c.username ++ ascii ",r=" ++ c.clientNonce
  (gs2Header ++ bare, { c with clientFirstBare := bare })

/-- The attributes of a SCRAM message: `x=value` between commas, the rest passed over. -/
def attributes (msg : List UInt8) : List (UInt8 × List UInt8) :=
  (msg.splitOn comma).filterMap fun attr =>
    match attr with
    | a :: e :: val => if e = equal then some (a, val) else none
    | _ => none

/-- What a server-first message says. -/
structure ServerFirst where
  combinedNonce : List UInt8 := []
  saltB64 : List UInt8 := []
  iter : Int := 0

/-- The loop over a server-first message's attributes: `r`, `s`, `i`; `e` is an error at once. -/
def ServerFirst.read : ServerFirst → List (UInt8 × List UInt8) → Except (List UInt8) ServerFirst
  | s, [] => .ok s
  | s, (a, val) :: rest =>
    if a = 114 then ServerFirst.read { s with combinedNonce := val } rest
    else if a = 115 then ServerFirst.read { s with saltB64 := val } rest
    else if a = 105 then ServerFirst.read { s with iter := K.int val } rest
    else if a = 101 then .error (ascii "scram: server error in server-first: " ++ val)
    else ServerFirst.read s rest

/-- `handle_server_first`: the client-final message, and the client with the signature it expects
of the server. -/
def ScramClient.handleServerFirst (c : ScramClient) (cache : Option ScramCache)
    (sf : List UInt8) :
    Except (List UInt8) (List UInt8 × ScramClient × Option ScramCache) := do
  let s ← ServerFirst.read K {} (attributes sf)
  if s.combinedNonce = [] ∨ ¬ c.clientNonce <+: s.combinedNonce then
    throw (ascii "scram: server nonce does not extend the client nonce")
  if s.saltB64 = [] ∨ s.iter ≤ 0 then
    throw (ascii "scram: malformed server-first message")
  let ((clientKey, serverKey), cache) ←
    exchangeKeys K cache c.password (K.base64Decode s.saltB64) s.iter
  let storedKey := K.sha256 clientKey
  let channelBinding := ascii "c=" ++ K.base64Encode gs2Header
  let clientFinalBare := channelBinding ++ ascii ",r=" ++ s.combinedNonce
  let authMessage := c.clientFirstBare ++ [comma] ++ sf ++ [comma] ++ clientFinalBare
  let clientSignature := K.hmac storedKey authMessage
  let clientProof := List.zipWith (· ^^^ ·) clientKey clientSignature
  return (clientFinalBare ++ ascii ",p=" ++ K.base64Encode clientProof,
    { c with serverSignature := K.hmac serverKey authMessage }, cache)

/-- The loop over a server-final message's attributes: `v`; `e` is an error at once. -/
def readServerFinal : List UInt8 → List (UInt8 × List UInt8) → Except (List UInt8) (List UInt8)
  | v, [] => .ok v
  | v, (a, val) :: rest =>
    if a = 118 then readServerFinal val rest
    else if a = 101 then .error (ascii "scram: server rejected authentication: " ++ val)
    else readServerFinal v rest

/-- `handle_server_final`. -/
def ScramClient.handleServerFinal (c : ScramClient) (sf : List UInt8) :
    Except (List UInt8) ScramClient := do
  let v ← readServerFinal [] (attributes sf)
  if v = [] then throw (ascii "scram: missing server signature in server-final")
  if K.base64Encode c.serverSignature ≠ v then throw (ascii "scram: server signature mismatch")
  return { c with done := true }

end

/-- Functions that keep their texts readable, in the place of the standard library's. -/
def plainCrypto : Crypto where
  sha256 := id
  hmac key msg := key ++ msg
  pbkdf2 password salt _ := .ok (password ++ salt)
  base64Encode b := b.map (· ||| 64)
  base64Decode := id
  int _ := 4096

end Vanilla.PgAsync

import Vanilla.PgAsync.Scram

/-!
# PostgreSQL — the SCRAM key cache

A pool keeps the keys of its last derivation in a `ScramCache`.  `keysBy` is `ScramCache.keys` with
the derivation left open, so that a call can be asked which derivations it came to; `keysBy_keys`
says that it is `keys`, and `serve` has the answer and the cache from the one and the derivations
from the other.

* `KeptFor`: what is kept belongs to the latest derivation that succeeded.  A call keeps it so
  (`serve_spec`), a failed one by leaving the cache alone.
* `key_cache_transparent`: whatever the calls before it, a call answers as `derive_keys` does, and
  comes to a derivation unless the latest one that succeeded had its arguments.
-/

namespace Vanilla.PgAsync
open ScramCache

/-- The arguments of a `keys` call. -/
structure KeyCall where
  password : List UInt8
  salt : List UInt8
  iterations : Int
  deriving DecidableEq

/-- What a call answers: ClientKey and ServerKey, or the error. -/
abbrev KeyAnswer := Except (List UInt8) (List UInt8 × List UInt8)

/-- `derive_keys`, at the arguments of a call. -/
def KeyCall.derive (K : Crypto) (c : KeyCall) : KeyAnswer :=
  deriveKeys K c.password c.salt c.iterations

/-- The test of `keys`: the cache holds nothing, or the keys of other arguments. -/
def ScramCache.Stale (sha256 : List UInt8 → List UInt8) (cache : ScramCache) (c : KeyCall) : Prop :=
  cache.clientKey = [] ∨ cache.iterations ≠ c.iterations ∨ cache.salt ≠ c.salt ∨
    cache.password ≠ sha256 c.password

instance (sha256 : List UInt8 → List UInt8) (cache : ScramCache) (c : KeyCall) :
    Decidable (cache.Stale sha256 c) :=
  inferInstanceAs (Decidable (_ ∨ _))

/-- `ScramCache.keys`, with `derive` run where the source calls `derive_keys`. -/
def ScramCache.keysBy {m : Type → Type} [Monad m] (sha256 : List UInt8 → List UInt8)
    (derive : KeyCall → m KeyAnswer) (cache : ScramCache) (c : KeyCall) :
    m (KeyAnswer × ScramCache) := do
  if cache.Stale sha256 c then
    match ← derive c with
    -- `!` returns here, before anything is assigned
    | .error e => return (.error e, cache)
    | .ok ks => return (.ok ks, ⟨c.salt, c.iterations, sha256 c.password, ks.1, ks.2⟩)
  else return (.ok (cache.clientKey, cache.serverKey), cache)

/-- With `derive_keys` it is `keys`. -/
theorem keysBy_keys (K : Crypto) (cache : ScramCache) (c : KeyCall) :
    cache.keys K c.password c.salt c.iterations =
      match (cache.keysBy (m := Id) K.sha256 fun c => c.derive K) c with
      | (.ok ks, cache) => .ok (ks, cache)
      | (.error e, _) => .error e := by
  unfold keys keysBy KeyCall.derive
  by_cases h : cache.Stale K.sha256 c
  · rw [if_pos (show _ ∨ _ from h), if_pos h]
    dsimp only [bind, pure]
    cases deriveKeys K c.password c.salt c.iterations <;> rfl
  · rw [if_neg (show ¬ (_ ∨ _) from h), if_neg h]
    rfl

/-! ### Runs -/

/-- A call that was made: its arguments, its answer and the derivations it ran. -/
structure Served where
  call : KeyCall
  answer : KeyAnswer
  runs : List KeyCall

/-- `derive_keys`, noting that it runs. -/
def KeyCall.noted (K : Crypto) (c : KeyCall) : StateM (List KeyCall) KeyAnswer := do
  modify (· ++ [c])
  return c.derive K

/-- A call of `keys`. -/
def ScramCache.serve (K : Crypto) (cache : ScramCache) (c : KeyCall) : Served × ScramCache :=
  let runs := ((cache.keysBy K.sha256 (KeyCall.noted K) c).run []).2
  match cache.keys K c.password c.salt c.iterations with
  | .ok (ks, cache) => (⟨c, .ok ks, runs⟩, cache)
  | .error e => (⟨c, .error e, runs⟩, cache)

/-- What a call does. -/
theorem serve_eq (K : Crypto) (cache : ScramCache) (c : KeyCall) :
    cache.serve K c =
      if cache.Stale K.sha256 c then
        (⟨c, c.derive K, [c]⟩,
          match c.derive K with
          | .error _ => cache
          | .ok ks => ⟨c.salt, c.iterations, K.sha256 c.password, ks.1, ks.2⟩)
      else (⟨c, .ok (cache.clientKey, cache.serverKey), []⟩, cache) := by
  rw [serve, keysBy_keys]
  unfold keysBy
  by_cases h : cache.Stale K.sha256 c
  · rw [if_pos h, if_pos h, if_pos h]
    unfold KeyCall.noted
    dsimp only [StateT.run, bind, StateT.bind, modify, modifyGet, MonadStateOf.modifyGet,
      StateT.modifyGet, pure, StateT.pure]
    cases c.derive K <;> rfl
  · rw [if_neg h, if_neg h, if_neg h]
    rfl

/-- Calls one after the other, on one cache. -/
def ScramCache.serveAll (K : Crypto) : ScramCache → List KeyCall → List Served
  | _, [] => []
  | cache, c :: cs => (cache.serve K c).1 :: serveAll K (cache.serve K c).2 cs

/-- The derivation of a call that succeeded. -/
def Served.derived (s : Served) : Option KeyCall :=
  match s.answer with
  | .ok _ => s.runs.getLast?
  | .error _ => none

/-- The latest derivation that succeeded. -/
def latest (before : List Served) : Option KeyCall := (before.filterMap Served.derived).getLast?

theorem latest_snoc (before : List Served) (s : Served) :
    latest (before ++ [s]) = s.derived.or (latest before) := by
  unfold latest
  rw [List.filterMap_append, List.getLast?_append]
  cases h : s.derived <;> simp [h]

/-! ### What the cache holds -/

/-- The cache holds what the latest successful derivation gave. -/
def ScramCache.KeptFor (K : Crypto) (cache : ScramCache) : Option KeyCall → Prop
  | none => cache.clientKey = []
  | some c => ∃ ks, c.derive K = .ok ks ∧ ks.1 ≠ [] ∧
      cache = ⟨c.salt, c.iterations, K.sha256 c.password, ks.1, ks.2⟩

section

variable {K : Crypto} {cache : ScramCache} {l : Option KeyCall} {c : KeyCall}

/-- The test of `keys` is whether the latest derivation had other arguments. -/
theorem KeptFor.stale_iff (h : cache.KeptFor K l)
    (hinj : ∀ d ∈ l, K.sha256 d.password = K.sha256 c.password → d.password = c.password) :
    cache.Stale K.sha256 c ↔ l ≠ some c := by
  cases l with
  | none => exact ⟨fun _ => nofun, fun _ => .inl h⟩
  | some d =>
      obtain ⟨ks, -, hne, rfl⟩ := h
      have heq : some d = some c ↔
          d.iterations = c.iterations ∧ d.salt = c.salt ∧
            K.sha256 d.password = K.sha256 c.password := by
        constructor
        · rintro ⟨⟩
          exact ⟨rfl, rfl, rfl⟩
        · rintro ⟨hi, hs, hp⟩
          have hp := hinj d rfl hp
          cases d
          cases c
          cases hi
          cases hs
          cases hp
          rfl
      refine Iff.trans ?_ (not_congr heq).symm
      simp only [Stale, hne, false_or, not_and_or, ne_eq]

/-- **A call**: it answers as `derive_keys`, comes to a derivation where the latest had other
arguments, and leaves the cache with the latest one's keys. -/
theorem serve_spec (h : cache.KeptFor K l)
    (hinj : ∀ d ∈ l, K.sha256 d.password = K.sha256 c.password → d.password = c.password)
    (hkeys : ∀ ks, c.derive K = .ok ks → ks.1 ≠ []) :
    (cache.serve K c).1 = ⟨c, c.derive K, if l = some c then [] else [c]⟩ ∧
      (cache.serve K c).2.KeptFor K ((cache.serve K c).1.derived.or l) := by
  have hstale := KeptFor.stale_iff h hinj
  rw [serve_eq]
  by_cases hl : l = some c
  · -- a hit: nothing is run, and what is kept is the answer
    rw [if_neg (mt hstale.mp (not_not_intro hl)), if_pos hl]
    refine ⟨?_, h⟩
    subst hl
    obtain ⟨ks, hks, -, rfl⟩ := h
    rw [hks]
  · rw [if_pos (hstale.mpr hl), if_neg hl]
    refine ⟨rfl, ?_⟩
    cases hd : c.derive K with
    | error e => exact h
    | ok ks => exact ⟨ks, hd, hkeys ks hd, rfl⟩

/-- A derivation that succeeded had the arguments of its call. -/
theorem derived_serve (h : cache.KeptFor K l)
    (hinj : ∀ d ∈ l, K.sha256 d.password = K.sha256 c.password → d.password = c.password)
    (hkeys : ∀ ks, c.derive K = .ok ks → ks.1 ≠ []) {d : KeyCall}
    (hd : (cache.serve K c).1.derived = some d) : d = c := by
  rw [(serve_spec h hinj hkeys).1] at hd
  unfold Served.derived at hd
  split at hd
  · have hmem := List.mem_of_getLast? hd
    split at hmem
    · cases hmem
    · exact List.mem_singleton.mp hmem
  · cases hd

end

section

variable {K : Crypto} {calls : List KeyCall}

/-- Calls behind others: the cache holds the latest derivation of those. -/
theorem serveAll_spec
    (hinj : ∀ c ∈ calls, ∀ d ∈ calls, K.sha256 c.password = K.sha256 d.password →
      c.password = d.password)
    (hkeys : ∀ c ∈ calls, ∀ ks, c.derive K = .ok ks → ks.1 ≠ []) {cs : List KeyCall}
    (hcs : ∀ c ∈ cs, c ∈ calls) {cache : ScramCache} {past : List Served}
    (hpast : ∀ d ∈ latest past, d ∈ calls) (hholds : cache.KeptFor K (latest past)) :
    (serveAll K cache cs).map Served.call = cs ∧
      ∀ before s after, serveAll K cache cs = before ++ s :: after →
        s.answer = s.call.derive K ∧
        s.runs = if latest (past ++ before) = some s.call then [] else [s.call] := by
  induction cs generalizing cache past with
  | nil =>
      refine ⟨rfl, fun before s after h => ?_⟩
      cases before <;> cases h
  | cons c cs ih =>
      have hc : c ∈ calls := hcs c List.mem_cons_self
      have hinj' := fun d hd => hinj d (hpast d hd) c hc
      obtain ⟨hserved, hholds'⟩ := serve_spec hholds hinj' (hkeys c hc)
      rw [← latest_snoc] at hholds'
      have hpast' : ∀ d ∈ latest (past ++ [(cache.serve K c).1]), d ∈ calls := by
        intro d hd
        rw [latest_snoc, Option.mem_def, Option.or_eq_some_iff] at hd
        rcases hd with hd | ⟨-, hd⟩
        · rw [derived_serve hholds hinj' (hkeys c hc) hd]
          exact hc
        · exact hpast d hd
      obtain ⟨hcalls, hrest⟩ :=
        ih (fun d hd => hcs d (List.mem_cons_of_mem _ hd)) hpast' hholds'
      refine ⟨by rw [serveAll, List.map_cons, hcalls, hserved], ?_⟩
      intro before s after h
      cases before with
      | nil =>
          obtain ⟨rfl, -⟩ := List.cons.inj h
          rw [hserved, List.append_nil]
          exact ⟨rfl, rfl⟩
      | cons b before =>
          obtain ⟨rfl, htail⟩ := List.cons.inj h
          have := hrest before s after htail
          rwa [List.append_assoc] at this

/-- **The key cache is transparent**: in every sequence of calls on a new cache, each call answers
what `derive_keys` answers for its own arguments, and comes to a derivation exactly when none has
succeeded yet or the latest one that did had another password, salt or count. -/
theorem key_cache_transparent
    (hinj : ∀ c ∈ calls, ∀ d ∈ calls, K.sha256 c.password = K.sha256 d.password →
      c.password = d.password)
    (hkeys : ∀ c ∈ calls, ∀ ks, c.derive K = .ok ks → ks.1 ≠ []) :
    (serveAll K {} calls).map Served.call = calls ∧
      ∀ before s after, serveAll K {} calls = before ++ s :: after →
        s.answer = s.call.derive K ∧
        s.runs = if latest before = some s.call then [] else [s.call] :=
  serveAll_spec hinj hkeys (fun _ h => h) (show ∀ d ∈ latest [], d ∈ calls from nofun) rfl

end

/-- Two calls with one password and a call with another. -/
theorem key_cache_transparent_rotated :
    ((serveAll plainCrypto {} [⟨[1], [2], 1⟩, ⟨[1], [2], 1⟩, ⟨[3], [2], 1⟩]).map
      Served.runs = [[⟨[1], [2], 1⟩], [], [⟨[3], [2], 1⟩]]) ∧
    (serveAll plainCrypto {} [⟨[1], [2], 1⟩, ⟨[1], [2], 1⟩, ⟨[3], [2], 1⟩]).map
      Served.call = [⟨[1], [2], 1⟩, ⟨[1], [2], 1⟩, ⟨[3], [2], 1⟩] :=
  ⟨by decide, (key_cache_transparent (K := plainCrypto) (fun _ _ _ _ h => h) (by
    intro c _ ks h
    cases h
    intro hnil
    cases (List.append_eq_nil_iff.mp hnil).2)).1⟩

end Vanilla.PgAsync

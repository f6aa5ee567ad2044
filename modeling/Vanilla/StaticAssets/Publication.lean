import Mathlib.Logic.Function.Basic
import Mathlib.Logic.Relation

/-!
# StaticAssets — publishing snapshots

`current`, `revalidate`, `refresh` and `load_snap` of `static_assets/static_assets.v` on one
representation, called by any number of threads.  Each atomic load, store and compare-exchange is a
step of its own; between two of them the other calls may do anything.  What the system answers (the
clock, `stat`, `open`, `fstat`, the read) is free.  Snapshots are numbered as they are allocated;
their response bytes and etag play no part.  The clock's `u64`s are numbers: it counts milliseconds,
and the window is a positive `int`, so `now + window_ms` is below 2^64 for every reading below 2^63.

* `Inv`: one call at a time holds `busy`, and only it moves `cur`.
* `Spaced`: each check of the window begins where the last one ended.
* `publication_safe`: what holds over every interleaving.
-/

namespace Vanilla.StaticAssets.Publication

/-! ### Snapshots -/

/-- `vanilla_sa_sig`. -/
structure Sig where
  ino : Nat
  size : Int
  mtimeNs : Int
  ctimeNs : Int
  dev : Nat

/-- `sig_eq`. -/
def sigEq (a b : Sig) : Bool :=
  a.ino == b.ino && a.size == b.size && a.mtimeNs == b.mtimeNs && a.ctimeNs == b.ctimeNs &&
    a.dev == b.dev

/-- `Snap`: its file's signature, where its body is, and the snapshot it replaced. -/
structure Snap where
  sig : Sig
  inMemory : Bool
  /-- `file_fd >= 0`. -/
  onDisk : Bool
  prev : Option Nat

/-- The parts of a `Variant` that do not change. -/
structure Variant where
  threshold : Int
  keepMemory : Bool
  follow : Bool
  windowMs : Nat

/-- `max_ram_body`. -/
def maxRamBody : Int := 9223372036854775807 - 65536

/-- `is_large`. -/
def isLarge (threshold size : Int) : Bool := decide (threshold > 0) && decide (size ≥ threshold)

/-- What the system answers `load_snap`. -/
structure Loading where
  /-- `vanilla_sa_open`. -/
  opened : Bool
  /-- `vanilla_sa_fstat` on the opened file, and again after the read. -/
  sig : Option Sig
  again : Option Sig
  /-- Bytes read. -/
  got : Int

/-- `load_snap`. -/
def loadSnap (v : Variant) (prev : Nat) (a : Loading) : Option Snap :=
  if !a.opened then none
  else match a.sig with
    | none => none
    | some sig =>
        let large := isLarge v.threshold sig.size
        let inMemory := (!large || v.keepMemory) && decide (sig.size ≤ maxRamBody)
        let whole := a.got == sig.size && (a.again.any fun again => sigEq sig again)
        if inMemory && !whole then none
        else some ⟨sig, inMemory, !(inMemory && !large), some prev⟩

theorem loadSnap_prev {v : Variant} {prev : Nat} {a : Loading} {n : Snap}
    (h : loadSnap v prev a = some n) : n.prev = some prev := by
  unfold loadSnap at h
  split at h
  · cases h
  split at h
  · cases h
  dsimp only at h
  split at h
  · cases h
  · cases h
    rfl

/-! ### A call -/

/-- What the calls share: the fields of the `Variant` that change, and the snapshots. -/
structure Memory where
  cur : Nat
  nextCheck : Nat
  busy : Bool
  heap : List Snap

/-- Where a call of `current` is, with its local variables. -/
inductive Pc where
  /-- `s := v.snap()`. -/
  | start
  /-- `now := vanilla_sa_now_ms()`. -/
  | clock (s : Nat)
  /-- `due := load(next_check)`. -/
  | due (s now : Nat)
  /-- The compare-exchange of `next_check`. -/
  | gate (s now due : Nat)
  /-- `revalidate`: the `stat`, and the reading of the clock that led to it. -/
  | stat (s : Nat) (now : Option Nat)
  /-- `refresh`: the compare-exchange of `busy`. -/
  | claim (seen : Nat)
  /-- `cur := v.snap()`. -/
  | claimed (seen : Nat)
  /-- `load_snap`. -/
  | building (seen : Nat)
  /-- The store to `cur`. -/
  | publish (n : Nat)
  /-- The store to `busy`. -/
  | release (r : Nat)
  | done (r : Nat)

/-- What the system answers a step. -/
structure Answers where
  now : Nat
  /-- `vanilla_sa_stat`. -/
  stat : Option Sig
  load : Loading

/-- The next step of a call. -/
def advance (v : Variant) (a : Answers) (m : Memory) : Pc → Memory × Pc
  | .start =>
      (m, if !v.follow then .done m.cur
        else if v.windowMs > 0 then .clock m.cur
        else .stat m.cur none)
  | .clock s => (m, .due s a.now)
  | .due s now => (m, if now < m.nextCheck then .done s else .gate s now m.nextCheck)
  | .gate s now due =>
      if m.nextCheck = due then ({ m with nextCheck := now + v.windowMs }, .stat s (some now))
      else (m, .done s)
  | .stat s _ =>
      (m, match a.stat with
        | none => .done s
        | some st => if m.heap[s]?.any fun snap => sigEq st snap.sig then .done s else .claim s)
  | .claim seen => if m.busy then (m, .done seen) else ({ m with busy := true }, .claimed seen)
  | .claimed seen => (m, if m.cur ≠ seen then .release m.cur else .building seen)
  | .building seen =>
      match loadSnap v seen a.load with
      | none => (m, .release seen)
      | some n => ({ m with heap := m.heap ++ [n] }, .publish m.heap.length)
  | .publish n => ({ m with cur := n }, .release n)
  | .release r => ({ m with busy := false }, .done r)
  | .done r => (m, .done r)

/-- The call has set `busy` and not cleared it. -/
def Pc.Holds : Pc → Prop
  | .claimed _ | .building _ | .publish _ | .release _ => True
  | _ => False

/-- More steps than a call has left. -/
def Pc.left : Pc → Nat
  | .start => 10
  | .clock _ => 9
  | .due _ _ => 8
  | .gate _ _ _ => 7
  | .stat _ _ => 6
  | .claim _ => 5
  | .claimed _ => 4
  | .building _ => 3
  | .publish _ => 2
  | .release _ => 1
  | .done _ => 0

/-- A call waits for no other. -/
theorem advance_left (v : Variant) (a : Answers) (m : Memory) {pc : Pc} (h : 0 < pc.left) :
    (advance v a m pc).2.left < pc.left := by
  cases pc with
  | done r => cases h
  | _ =>
      dsimp only [advance]
      repeat' split
      all_goals simp only [Pc.left, Nat.reduceLT]

/-! ### Every interleaving -/

/-- A call, what was current when it began, and its `stat`: the reading of the clock behind it. -/
structure Call where
  pc : Pc
  floor : Nat
  stat : Option (Option Nat)

/-- The calls by name, `none` before they begin, and the snapshots in the order they were
published. -/
structure World (τ : Type) where
  memory : Memory
  calls : τ → Option Call
  published : List Nat

/-- What a step puts behind the published snapshots. -/
def Pc.publishes : Pc → List Nat
  | .publish n => [n]
  | _ => []

/-- The `stat` of a call, that it has made or is about to make. -/
def Call.reading (c : Call) : Option (Option Nat) :=
  match c.pc with
  | .stat _ now => some now
  | _ => c.stat

variable {τ : Type} [DecidableEq τ]

/-- A call makes its next step. -/
def World.move (v : Variant) (w : World τ) (t : τ) (c : Call) (a : Answers) : World τ where
  memory := (advance v a w.memory c.pc).1
  calls := Function.update w.calls t
    (some { c with pc := (advance v a w.memory c.pc).2, stat := c.reading })
  published := w.published ++ c.pc.publishes

inductive Step (v : Variant) : World τ → World τ → Prop
  | begin {w : World τ} (t : τ) (h : w.calls t = none) :
      Step v w { w with calls := Function.update w.calls t (some ⟨.start, w.memory.cur, none⟩) }
  | move {w : World τ} (t : τ) {c : Call} (a : Answers) (h : w.calls t = some c) :
      Step v w (w.move v t c a)

/-- The snapshot built at boot, and no call. -/
structure Start (w : World τ) : Prop where
  cur : w.memory.cur = 0
  heap : w.memory.heap.length = 1
  busy : w.memory.busy = false
  calls : ∀ t, w.calls t = none
  published : w.published = [0]

/-! ### The chain -/

/-- The local variables of a call: no older than `floor`, and published, but for the snapshot its
holder of `busy` is about to publish. -/
def Pc.Fits (m : Memory) (floor : Nat) : Pc → Prop
  | .start => floor ≤ m.cur
  | .clock s | .due s _ | .gate s _ _ | .stat s _ | .claim s | .done s => floor ≤ s ∧ s ≤ m.cur
  | .claimed s | .release s => (floor ≤ s ∧ s ≤ m.cur) ∧ m.heap.length = m.cur + 1
  | .building s => (floor ≤ s ∧ s = m.cur) ∧ m.heap.length = m.cur + 1
  | .publish n => (floor ≤ n ∧ n = m.cur + 1) ∧ m.heap.length = m.cur + 2

theorem Pc.Fits.mono {m m' : Memory} {floor : Nat} {pc : Pc} (hfree : ¬ pc.Holds)
    (hcur : m.cur ≤ m'.cur) (h : pc.Fits m floor) : pc.Fits m' floor := by
  cases pc with
  | start => exact Nat.le_trans h hcur
  | claimed | building | publish | release => exact absurd trivial hfree
  | _ => exact ⟨h.1, Nat.le_trans h.2 hcur⟩

theorem Pc.Fits.congr {m m' : Memory} {floor : Nat} {pc : Pc} (hcur : m'.cur = m.cur)
    (hheap : m'.heap = m.heap) (h : pc.Fits m floor) : pc.Fits m' floor := by
  cases pc <;> simpa only [Pc.Fits, hcur, hheap] using h

/-- Each snapshot is chained to the one allocated just before it. -/
def Chained (heap : List Snap) : Prop := ∀ b s, heap[b + 1]? = some s → s.prev = some b

theorem Chained.append {heap : List Snap} (h : Chained heap) {b : Nat} {n : Snap}
    (hlen : heap.length = b + 1) (hprev : n.prev = some b) : Chained (heap ++ [n]) := by
  intro i s hs
  rcases Nat.lt_trichotomy (i + 1) heap.length with hlt | heq | hgt
  · rw [List.getElem?_append_left hlt] at hs
    exact h i s hs
  · rw [heq, List.getElem?_concat_length] at hs
    rw [← Option.some.inj hs, hprev]
    congr 1
    omega
  · rw [List.getElem?_eq_none (by rw [List.length_append]; exact hgt)] at hs
    cases hs

/-- Between any two steps. -/
structure Inv (w : World τ) : Prop where
  published : w.published = List.range (w.memory.cur + 1)
  exists_cur : w.memory.cur < w.memory.heap.length
  chain : Chained w.memory.heap
  idle : w.memory.busy = false → w.memory.heap.length = w.memory.cur + 1
  fits : ∀ t c, w.calls t = some c → c.pc.Fits w.memory c.floor
  busy : ∀ t c, w.calls t = some c → c.pc.Holds → w.memory.busy = true
  alone : ∀ t t' c c', w.calls t = some c → w.calls t' = some c' → c.pc.Holds → c'.pc.Holds →
    t = t'

/-- A call of the new state is the one that moved, or was there before. -/
theorem calls_update {calls : τ → Option Call} {t t' : τ} {c c' : Call}
    (h : Function.update calls t (some c) t' = some c') :
    t' = t ∧ c' = c ∨ t' ≠ t ∧ calls t' = some c' := by
  by_cases ht : t' = t
  · rw [ht, Function.update_self] at h
    exact .inl ⟨ht, (Option.some.inj h).symm⟩
  · rw [Function.update_of_ne ht] at h
    exact .inr ⟨ht, h⟩

section

variable {w : World τ} {t : τ} {m : Memory} {c : Call}

omit [DecidableEq τ] in
/-- Beside the holder of `busy` no other call holds it. -/
theorem Inv.others (h : Inv w) {c₀ : Call} (hc : w.calls t = some c₀) (hholds : c₀.pc.Holds)
    {t' : τ} {c' : Call} (hne : t' ≠ t) (hc' : w.calls t' = some c') : ¬ c'.pc.Holds :=
  fun hholds' => hne (h.alone t' t c' c₀ hc' hc hholds' hholds)

/-- A step of a call that does not hold `busy`: it leaves the snapshots alone, and may take `busy`
when it is free. -/
theorem Inv.outside (h : Inv w) (hcur : m.cur = w.memory.cur) (hheap : m.heap = w.memory.heap)
    (hbusy : m.busy = w.memory.busy ∧ ¬ c.pc.Holds ∨ w.memory.busy = false ∧ m.busy = true)
    (hfits : c.pc.Fits m c.floor) :
    Inv ⟨m, Function.update w.calls t (some c), w.published⟩ := by
  -- Whoever held `busy` before still does, and then nobody takes it.
  have hheld : ∀ t' c', w.calls t' = some c' → c'.pc.Holds → m.busy = true ∧ ¬ c.pc.Holds := by
    intro t' c' hc' hholds
    have htrue := h.busy t' c' hc' hholds
    rcases hbusy with ⟨hsame, hfree⟩ | ⟨hfalse, -⟩
    · exact ⟨hsame.trans htrue, hfree⟩
    · rw [htrue] at hfalse
      cases hfalse
  refine ⟨?_, ?_, ?_, ?_, ?_, ?_, ?_⟩
  · rw [hcur]
    exact h.published
  · rw [hcur, hheap]
    exact h.exists_cur
  · rw [hheap]
    exact h.chain
  · intro hidle
    rw [hcur, hheap]
    rcases hbusy with ⟨hsame, -⟩ | ⟨-, htrue⟩
    · exact h.idle (hsame.symm.trans hidle)
    · rw [htrue] at hidle
      cases hidle
  · intro t' c' hc'
    rcases calls_update hc' with ⟨-, rfl⟩ | ⟨-, hc'⟩
    · exact hfits
    · exact (h.fits t' c' hc').congr hcur hheap
  · intro t' c' hc' hholds
    rcases calls_update hc' with ⟨-, rfl⟩ | ⟨-, hc'⟩
    · rcases hbusy with ⟨-, hfree⟩ | ⟨-, htrue⟩
      · exact absurd hholds hfree
      · exact htrue
    · exact (hheld t' c' hc' hholds).1
  · intro t₁ t₂ c₁ c₂ h₁ h₂ hholds₁ hholds₂
    rcases calls_update h₁ with ⟨rfl, rfl⟩ | ⟨-, hold₁⟩
    · rcases calls_update h₂ with ⟨rfl, -⟩ | ⟨-, hold₂⟩
      · rfl
      · exact absurd hholds₁ (hheld t₂ c₂ hold₂ hholds₂).2
    · rcases calls_update h₂ with ⟨-, rfl⟩ | ⟨-, hold₂⟩
      · exact absurd hholds₂ (hheld t₁ c₁ hold₁ hholds₁).2
      · exact h.alone t₁ t₂ c₁ c₂ hold₁ hold₂ hholds₁ hholds₂

/-- A step of the call that holds `busy`. -/
theorem Inv.inside (h : Inv w) {c₀ : Call} (hc : w.calls t = some c₀) (hholds : c₀.pc.Holds)
    {published : List Nat} (hpub : published = List.range (m.cur + 1))
    (hcur : w.memory.cur ≤ m.cur) (hexists : m.cur < m.heap.length)
    (hchain : Chained m.heap)
    (hidle : m.busy = false → m.heap.length = m.cur + 1) (hbusy : c.pc.Holds → m.busy = true)
    (hfits : c.pc.Fits m c.floor) : Inv ⟨m, Function.update w.calls t (some c), published⟩ := by
  refine ⟨hpub, hexists, hchain, hidle, ?_, ?_, ?_⟩
  · intro t' c' hc'
    rcases calls_update hc' with ⟨-, rfl⟩ | ⟨hne, hc'⟩
    · exact hfits
    · exact (h.fits t' c' hc').mono (h.others hc hholds hne hc') hcur
  · intro t' c' hc' hholds'
    rcases calls_update hc' with ⟨-, rfl⟩ | ⟨hne, hc'⟩
    · exact hbusy hholds'
    · exact absurd hholds' (h.others hc hholds hne hc')
  · intro t₁ t₂ c₁ c₂ h₁ h₂ hholds₁ hholds₂
    rcases calls_update h₁ with ⟨rfl, rfl⟩ | ⟨hne, h₁⟩
    · rcases calls_update h₂ with ⟨rfl, rfl⟩ | ⟨hne, h₂⟩
      · rfl
      · exact absurd hholds₂ (h.others hc hholds hne h₂)
    · exact absurd hholds₁ (h.others hc hholds hne h₁)

end

/-- What a step of a call that does not hold `busy` does. -/
theorem advance_outside (v : Variant) (a : Answers) {m : Memory} {floor : Nat} {pc : Pc}
    (hfree : ¬ pc.Holds) (hfits : pc.Fits m floor)
    (hidle : m.busy = false → m.heap.length = m.cur + 1) :
    (advance v a m pc).1.cur = m.cur ∧ (advance v a m pc).1.heap = m.heap ∧
      ((advance v a m pc).1.busy = m.busy ∧ ¬ (advance v a m pc).2.Holds ∨
        m.busy = false ∧ (advance v a m pc).1.busy = true) ∧
      (advance v a m pc).2.Fits (advance v a m pc).1 floor ∧ pc.publishes = [] := by
  cases pc with
  | start =>
      have hcur : floor ≤ m.cur ∧ m.cur ≤ m.cur := ⟨hfits, Nat.le_refl _⟩
      dsimp only [advance]
      repeat' split
      all_goals exact ⟨rfl, rfl, .inl ⟨rfl, id⟩, hcur, rfl⟩
  | clock s => exact ⟨rfl, rfl, .inl ⟨rfl, id⟩, hfits, rfl⟩
  | due s now | gate s now due | stat s now =>
      dsimp only [advance]
      repeat' split
      all_goals exact ⟨rfl, rfl, .inl ⟨rfl, id⟩, hfits, rfl⟩
  | claim seen =>
      dsimp only [advance]
      split
      · exact ⟨rfl, rfl, .inl ⟨rfl, id⟩, hfits, rfl⟩
      · rename_i hbusy
        have hfalse := Bool.eq_false_iff.mpr hbusy
        exact ⟨rfl, rfl, .inr ⟨hfalse, rfl⟩, ⟨hfits, hidle hfalse⟩, rfl⟩
  | done r => exact ⟨rfl, rfl, .inl ⟨rfl, id⟩, hfits, rfl⟩
  | _ => exact absurd trivial hfree

/-- What a step of the call that holds `busy` does. -/
theorem advance_inside (v : Variant) (a : Answers) {m : Memory} {floor : Nat} {pc : Pc}
    (hholds : pc.Holds) (hfits : pc.Fits m floor) (hcur : m.cur < m.heap.length)
    (hchain : Chained m.heap) (hbusy : m.busy = true) :
    (m.cur ≤ (advance v a m pc).1.cur ∧
      (advance v a m pc).1.cur < (advance v a m pc).1.heap.length) ∧
      Chained (advance v a m pc).1.heap ∧
      ((advance v a m pc).1.busy = false →
        (advance v a m pc).1.heap.length = (advance v a m pc).1.cur + 1) ∧
      ((advance v a m pc).2.Holds → (advance v a m pc).1.busy = true) ∧
      (advance v a m pc).2.Fits (advance v a m pc).1 floor ∧
      List.range (m.cur + 1) ++ pc.publishes = List.range ((advance v a m pc).1.cur + 1) := by
  have hstays : m.busy = false → m.heap.length = m.cur + 1 := by
    rw [hbusy]
    intro hfalse
    cases hfalse
  cases pc with
  | claimed seen =>
      obtain ⟨⟨hfloor, hle⟩, hlen⟩ := hfits
      refine ⟨⟨Nat.le_refl _, hcur⟩, hchain, hstays, fun _ => hbusy, ?_, List.append_nil _⟩
      dsimp only [advance]
      split
      · exact ⟨⟨Nat.le_trans hfloor hle, Nat.le_refl _⟩, hlen⟩
      · rename_i hsame
        exact ⟨⟨hfloor, (not_not.mp hsame).symm⟩, hlen⟩
  | building seen =>
      obtain ⟨⟨hfloor, hseen⟩, hlen⟩ := hfits
      dsimp only [advance]
      split
      · exact ⟨⟨Nat.le_refl _, hcur⟩, hchain, hstays, fun _ => hbusy,
          ⟨⟨hfloor, Nat.le_of_eq hseen⟩, hlen⟩, List.append_nil _⟩
      · rename_i n hload
        have hgrown : (m.heap ++ [n]).length = m.cur + 2 := by
          rw [List.length_append, hlen, List.length_singleton]
        have hprev : n.prev = some m.cur := by rw [← hseen, loadSnap_prev hload]
        refine ⟨⟨Nat.le_refl _, ?_⟩, hchain.append hlen hprev, ?_, fun _ => hbusy, ?_,
          List.append_nil _⟩
        · dsimp only
          omega
        · dsimp only
          rw [hbusy]
          intro hfalse
          cases hfalse
        · exact ⟨⟨by omega, hlen⟩, hgrown⟩
  | publish n =>
      obtain ⟨⟨hfloor, rfl⟩, hlen⟩ := hfits
      refine ⟨⟨Nat.le_succ _, ?_⟩, hchain, fun _ => hlen, fun _ => hbusy,
        ⟨⟨hfloor, Nat.le_refl _⟩, hlen⟩, List.range_succ.symm⟩
      dsimp only [advance]
      omega
  | release r =>
      obtain ⟨hle, hlen⟩ := hfits
      exact ⟨⟨Nat.le_refl _, hcur⟩, hchain, fun _ => hlen, False.elim, hle, List.append_nil _⟩
  | _ => cases hholds

/-- **A step keeps the chain.** -/
theorem Inv.move {v : Variant} {w : World τ} (h : Inv w) {t : τ} {c : Call}
    (hc : w.calls t = some c) (a : Answers) : Inv (w.move v t c a) := by
  have hfits := h.fits t c hc
  unfold World.move
  by_cases hholds : c.pc.Holds
  · obtain ⟨⟨hle, hcur⟩, hchain, hidle, hbusy, hnext, hpub⟩ :=
      advance_inside v a hholds hfits h.exists_cur h.chain (h.busy t c hc hholds)
    rw [← h.published] at hpub
    exact h.inside hc hholds hpub hle hcur hchain hidle hbusy hnext
  · obtain ⟨hsame, hheap, hbusy, hnext, hnone⟩ := advance_outside v a hholds hfits h.idle
    rw [hnone, List.append_nil]
    exact h.outside hsame hheap hbusy hnext

theorem Inv.begin {w : World τ} (h : Inv w) (t : τ) :
    Inv { w with calls := Function.update w.calls t (some ⟨.start, w.memory.cur, none⟩) } :=
  h.outside rfl rfl (.inl ⟨rfl, id⟩) (Nat.le_refl _)

omit [DecidableEq τ] in
theorem Start.no_call {w : World τ} (h : Start w) {t : τ} {c : Call} : w.calls t ≠ some c := by
  intro hc
  rw [h.calls t] at hc
  cases hc

omit [DecidableEq τ] in
theorem Start.inv {w : World τ} (h : Start w) : Inv w := by
  refine ⟨?_, ?_, ?_, ?_, ?_, ?_, ?_⟩
  · rw [h.published, h.cur]
    rfl
  · rw [h.cur, h.heap]
    exact Nat.zero_lt_one
  · intro b s hs
    rw [List.getElem?_eq_none (by rw [h.heap]; exact Nat.le_add_left 1 b)] at hs
    cases hs
  · intro _
    rw [h.heap, h.cur]
  · intro t c hc
    exact absurd hc h.no_call
  · intro t c hc
    exact absurd hc h.no_call
  · intro t _ c _ hc
    exact absurd hc h.no_call

/-! ### The window -/

/-- The calls that check the file, by their readings of the clock: all a window before the next
check, and a window apart. -/
structure Spaced (window : Nat) (w : World τ) : Prop where
  due : ∀ t c s now due, w.calls t = some c → c.pc = .gate s now due → due ≤ now
  before : ∀ t c x, w.calls t = some c → c.reading = some x →
    ∃ n, x = some n ∧ n + window ≤ w.memory.nextCheck
  apart : ∀ t t' c c' n n', t ≠ t' → w.calls t = some c → w.calls t' = some c' →
    c.reading = some (some n) → c'.reading = some (some n') → n + window ≤ n' ∨ n' + window ≤ n

/-- A step that checks nothing anew. -/
theorem Spaced.keep {window : Nat} {w : World τ} (h : Spaced window w) {t : τ} {c : Call}
    {m : Memory} {published : List Nat} (hnext : w.memory.nextCheck ≤ m.nextCheck)
    (hdue : ∀ s now due, c.pc = .gate s now due → due ≤ now)
    (hreading : ∀ x, c.reading = some x → ∃ c₀, w.calls t = some c₀ ∧ c₀.reading = some x) :
    Spaced window ⟨m, Function.update w.calls t (some c), published⟩ := by
  -- What a call has read now, a call of that name had read before.
  have hold : ∀ t' c' x, Function.update w.calls t (some c) t' = some c' → c'.reading = some x →
      ∃ c₀, w.calls t' = some c₀ ∧ c₀.reading = some x := by
    intro t' c' x hc' hx
    rcases calls_update hc' with ⟨rfl, rfl⟩ | ⟨-, hc'⟩
    · exact hreading x hx
    · exact ⟨c', hc', hx⟩
  refine ⟨?_, ?_, ?_⟩
  · intro t' c' s now due hc' hpc
    rcases calls_update hc' with ⟨-, rfl⟩ | ⟨-, hc'⟩
    · exact hdue s now due hpc
    · exact h.due t' c' s now due hc' hpc
  · intro t' c' x hc' hx
    obtain ⟨c₀, hc₀, hx₀⟩ := hold t' c' x hc' hx
    obtain ⟨n, hn, hle⟩ := h.before t' c₀ x hc₀ hx₀
    exact ⟨n, hn, Nat.le_trans hle hnext⟩
  · intro t₁ t₂ c₁ c₂ n₁ n₂ hne h₁ h₂ hr₁ hr₂
    obtain ⟨d₁, hd₁, hx₁⟩ := hold t₁ c₁ _ h₁ hr₁
    obtain ⟨d₂, hd₂, hx₂⟩ := hold t₂ c₂ _ h₂ hr₂
    exact h.apart t₁ t₂ d₁ d₂ n₁ n₂ hne hd₁ hd₂ hx₁ hx₂

/-- The call that wins the window begins a check at `now`, not before the next one was due. -/
theorem Spaced.win {window : Nat} {w : World τ} (h : Spaced window w) {t : τ} {c : Call}
    {m : Memory} {published : List Nat} {now : Nat} (hdue : w.memory.nextCheck ≤ now)
    (hnext : m.nextCheck = now + window) {s : Nat} (hpc : c.pc = .stat s (some now)) :
    Spaced window ⟨m, Function.update w.calls t (some c), published⟩ := by
  have hmine : ∀ n, c.reading = some (some n) → n = now := by
    intro n hn
    rw [Call.reading, hpc] at hn
    exact (Option.some.inj (Option.some.inj hn)).symm
  have hother : ∀ t' c' x, w.calls t' = some c' → c'.reading = some x →
      ∃ n, x = some n ∧ n + window ≤ now := by
    intro t' c' x hc' hx
    obtain ⟨n, hn, hle⟩ := h.before t' c' x hc' hx
    exact ⟨n, hn, Nat.le_trans hle hdue⟩
  refine ⟨?_, ?_, ?_⟩
  · intro t' c' s' now' due hc' hgate
    rcases calls_update hc' with ⟨-, rfl⟩ | ⟨-, hc'⟩
    · rw [hpc] at hgate
      cases hgate
    · exact h.due t' c' s' now' due hc' hgate
  · intro t' c' x hc' hx
    rcases calls_update hc' with ⟨-, rfl⟩ | ⟨-, hc'⟩
    · rw [Call.reading, hpc] at hx
      exact ⟨now, (Option.some.inj hx).symm, Nat.le_of_eq hnext.symm⟩
    · obtain ⟨n, hn, hle⟩ := hother t' c' x hc' hx
      refine ⟨n, hn, ?_⟩
      dsimp only
      omega
  · intro t₁ t₂ c₁ c₂ n₁ n₂ hne h₁ h₂ hr₁ hr₂
    rcases calls_update h₁ with ⟨rfl, rfl⟩ | ⟨-, hold₁⟩
    · rcases calls_update h₂ with ⟨rfl, -⟩ | ⟨-, hold₂⟩
      · exact absurd rfl hne
      · obtain ⟨n, hn, hle⟩ := hother t₂ c₂ _ hold₂ hr₂
        rw [hmine n₁ hr₁, Option.some.inj hn]
        exact .inr hle
    · rcases calls_update h₂ with ⟨-, rfl⟩ | ⟨-, hold₂⟩
      · obtain ⟨n, hn, hle⟩ := hother t₁ c₁ _ hold₁ hr₁
        rw [hmine n₂ hr₂, Option.some.inj hn]
        exact .inl hle
      · exact h.apart t₁ t₂ c₁ c₂ n₁ n₂ hne hold₁ hold₂ hr₁ hr₂

/-- Only a compare-exchange of `next_check` that succeeds begins a check. -/
theorem Spaced.move {v : Variant} (hwindow : 0 < v.windowMs) {w : World τ}
    (h : Spaced v.windowMs w) {t : τ} {c : Call} (hc : w.calls t = some c) (a : Answers) :
    Spaced v.windowMs (w.move v t c a) := by
  have hsame : ∀ x, c.reading = some x → ∃ c₀, w.calls t = some c₀ ∧ c₀.reading = some x :=
    fun x hx => ⟨c, hc, hx⟩
  have hgate := h.due t c
  obtain ⟨pc, floor, stat⟩ := c
  unfold World.move
  cases pc with
  | due s now =>
      dsimp only [advance]
      split
      · exact h.keep (Nat.le_refl _) nofun hsame
      · rename_i hdue
        refine h.keep (Nat.le_refl _) ?_ hsame
        intro s' now' due hpc
        cases hpc
        exact Nat.le_of_not_lt hdue
  | gate s now due =>
      have hle := hgate s now due hc rfl
      dsimp only [advance]
      split
      · rename_i hdue
        exact h.win (hdue ▸ hle) rfl rfl
      · exact h.keep (Nat.le_refl _) nofun hsame
  | _ =>
      dsimp only [advance]
      repeat' split
      all_goals exact h.keep (Nat.le_refl _) nofun hsame

theorem Spaced.begin {window : Nat} {w : World τ} (h : Spaced window w) (t : τ) :
    Spaced window
      { w with calls := Function.update w.calls t (some ⟨.start, w.memory.cur, none⟩) } :=
  h.keep (Nat.le_refl _) nofun nofun

omit [DecidableEq τ] in
theorem Start.spaced {w : World τ} (h : Start w) (window : Nat) : Spaced window w := by
  refine ⟨?_, ?_, ?_⟩
  · intro t c _ _ _ hc
    exact absurd hc h.no_call
  · intro t c _ hc
    exact absurd hc h.no_call
  · intro t _ c _ _ _ _ hc
    exact absurd hc h.no_call

/-! ### The run -/

theorem run_inv {v : Variant} {w₀ w : World τ} (h₀ : Start w₀)
    (hrun : Relation.ReflTransGen (Step v) w₀ w) : Inv w := by
  induction hrun with
  | refl => exact h₀.inv
  | tail _ hstep ih =>
      cases hstep with
      | begin t _ => exact ih.begin t
      | move t a hc => exact ih.move hc a

theorem run_spaced {v : Variant} (hwindow : 0 < v.windowMs) {w₀ w : World τ} (h₀ : Start w₀)
    (hrun : Relation.ReflTransGen (Step v) w₀ w) : Spaced v.windowMs w := by
  induction hrun with
  | refl => exact h₀.spaced v.windowMs
  | tail _ hstep ih =>
      cases hstep with
      | begin t _ => exact ih.begin t
      | move t a hc => exact ih.move hwindow hc a

/-- A snapshot that the chain of `prev` from another one leads to. -/
inductive Reaches (heap : List Snap) : Nat → Nat → Prop
  | refl (a : Nat) : Reaches heap a a
  | prev {a b c : Nat} {s : Snap} (ha : heap[a]? = some s) (hb : s.prev = some b)
      (h : Reaches heap b c) : Reaches heap a c

theorem Chained.reaches {heap : List Snap} (h : Chained heap) {a b : Nat} (hle : a ≤ b)
    (hb : b < heap.length) : Reaches heap b a := by
  induction b with
  | zero =>
      rw [Nat.le_zero.mp hle]
      exact .refl 0
  | succ b ih =>
      rcases Nat.lt_or_eq_of_le hle with hlt | rfl
      · have hsome := List.getElem?_eq_getElem hb
        exact .prev hsome (h b _ hsome) (ih (Nat.le_of_lt_succ hlt) (Nat.lt_of_succ_lt hb))
      · exact .refl _

theorem Pc.done_of_left {pc : Pc} (h : pc.left = 0) : ∃ r, pc = .done r := by
  cases pc with
  | done r => exact ⟨r, rfl⟩
  | _ => cases h

/-- **Publication is safe** over every interleaving of calls, whatever the system answers.  One call
at a time holds `busy`, so one build runs at a time.  The current snapshot is the last published and
each published one is chained to the one before it, so one that was returned is reached from the
current one.  A call returns a snapshot no older than that current when it began, after a bounded
number of its own steps.  With a positive window the calls that `stat` the file do so at readings of
the clock a window apart. -/
theorem publication_safe (v : Variant) {w₀ w : World τ} (h₀ : Start w₀)
    (hrun : Relation.ReflTransGen (Step v) w₀ w) :
    (∀ t t' c c', w.calls t = some c → w.calls t' = some c' → c.pc.Holds → c'.pc.Holds → t = t') ∧
    (w.published.getLast? = some w.memory.cur ∧
      ∀ i a b, w.published[i]? = some a → w.published[i + 1]? = some b →
        ∃ s, w.memory.heap[b]? = some s ∧ s.prev = some a) ∧
    (∀ t c r, w.calls t = some c → c.pc = .done r → Reaches w.memory.heap w.memory.cur r ∧
      ∃ i j : Nat, i ≤ j ∧ w.published[i]? = some c.floor ∧ w.published[j]? = some r) ∧
    (∀ t c a, w.calls t = some c → (∃ r, c.pc = .done r) ∨
      (advance v a w.memory c.pc).2.left < c.pc.left) ∧
    (0 < v.windowMs → ∀ t t' c c' x x', t ≠ t' → w.calls t = some c → w.calls t' = some c' →
      c.reading = some x → c'.reading = some x' →
        ∃ n n', x = some n ∧ x' = some n' ∧ (n + v.windowMs ≤ n' ∨ n' + v.windowMs ≤ n)) := by
  have hinv := run_inv h₀ hrun
  have hcur := hinv.exists_cur
  have hat : ∀ i, i ≤ w.memory.cur → w.published[i]? = some i := by
    intro i hi
    rw [hinv.published, List.getElem?_range (Nat.lt_succ_of_le hi)]
  have hof : ∀ i a, w.published[i]? = some a → a = i ∧ i ≤ w.memory.cur := by
    intro i a ha
    rw [hinv.published, List.getElem?_eq_some_iff] at ha
    obtain ⟨hlt, rfl⟩ := ha
    rw [List.length_range] at hlt
    exact ⟨List.getElem_range _, Nat.le_of_lt_succ hlt⟩
  refine ⟨hinv.alone, ⟨?_, ?_⟩, ?_, ?_, ?_⟩
  · rw [hinv.published, List.range_succ, List.getLast?_concat]
  · intro i a b ha hb
    obtain ⟨rfl, -⟩ := hof i a ha
    obtain ⟨rfl, hle⟩ := hof _ b hb
    have hsome := List.getElem?_eq_getElem (Nat.lt_of_le_of_lt hle hcur)
    exact ⟨_, hsome, hinv.chain _ _ hsome⟩
  · intro t c r hc hdone
    have hfits := hinv.fits t c hc
    rw [hdone] at hfits
    obtain ⟨hfloor, hle⟩ := hfits
    exact ⟨hinv.chain.reaches hle hcur, c.floor, r, hfloor, hat _ (Nat.le_trans hfloor hle),
      hat r hle⟩
  · intro t c a _
    rcases Nat.eq_zero_or_pos c.pc.left with hzero | hpos
    · exact .inl (Pc.done_of_left hzero)
    · exact .inr (advance_left v a w.memory hpos)
  · intro hwindow t t' c c' x x' hne hc hc' hx hx'
    have hspaced := run_spaced hwindow h₀ hrun
    obtain ⟨n, rfl, -⟩ := hspaced.before t c x hc hx
    obtain ⟨n', rfl, -⟩ := hspaced.before t' c' x' hc' hx'
    exact ⟨n, n', rfl, rfl, hspaced.apart t t' c c' n n' hne hc hc' hx hx'⟩

/-- The call whose turn it is makes a step, its first one or its next. -/
def World.turn (v : Variant) (w : World τ) (x : τ × Answers) : World τ :=
  match w.calls x.1 with
  | none => { w with calls := Function.update w.calls x.1 (some ⟨.start, w.memory.cur, none⟩) }
  | some c => w.move v x.1 c x.2

/-- Turns one after the other are a run. -/
theorem turns_run (v : Variant) (w : World τ) (xs : List (τ × Answers)) :
    Relation.ReflTransGen (Step v) w (xs.foldl (World.turn v) w) := by
  induction xs generalizing w with
  | nil => exact .refl
  | cons x xs ih =>
      refine .head ?_ (ih _)
      unfold World.turn
      split
      · rename_i h
        exact .begin x.1 h
      · rename_i c h
        exact .move x.1 x.2 h

/-- A representation at boot. -/
def booted : World Bool where
  memory := ⟨0, 100, false, [⟨⟨7, 5, 1, 1, 1⟩, true, false, none⟩]⟩
  calls := fun _ => none
  published := [0]

/-- The answers at a reading of the clock, the file having grown. -/
def grown (now : Nat) : Answers :=
  ⟨now, some ⟨7, 6, 2, 2, 1⟩, true, some ⟨7, 6, 2, 2, 1⟩, some ⟨7, 6, 2, 2, 1⟩, 6⟩

/-- Two calls: both find the check due, one wins `next_check`, the other returns; the winner builds
and publishes. -/
def contended : World Bool :=
  ([true, true, true, true, false, false, false, false, true, false, true, true, true, true, true,
    true].map fun t => (t, grown (if t then 100 else 150))).foldl
    (World.turn ⟨0, false, true, 100⟩) booted

theorem publication_safe_contended :
    Start booted ∧ contended.published = [0, 1] ∧
      contended.calls true = some ⟨.done 1, 0, some (some 100)⟩ ∧
      contended.calls false = some ⟨.done 0, 0, none⟩ ∧
      (∃ s, contended.memory.heap[1]? = some s ∧ s.prev = some 0) ∧
      Reaches contended.memory.heap contended.memory.cur 0 := by
  have h₀ : Start booted := ⟨rfl, rfl, rfl, fun _ => rfl, rfl⟩
  obtain ⟨-, ⟨-, hprev⟩, hreturned, -⟩ :=
    publication_safe ⟨0, false, true, 100⟩ h₀ (turns_run _ booted _ :
      Relation.ReflTransGen (Step ⟨0, false, true, 100⟩) booted contended)
  exact ⟨h₀, rfl, rfl, rfl, hprev 0 0 1 rfl rfl, (hreturned false _ 0 rfl rfl).1⟩

end Vanilla.StaticAssets.Publication

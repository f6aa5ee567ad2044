import Vanilla.Http2.Huffman
import Vanilla.Http2.HpackTable

/-!
# HTTP/2 — the arena of a header block

`decode_into` sizes the arena once, at twice the block, and hands out views into it while it
decodes; so the block must never fill it.  A literal is at most as long as its octets, or,
Huffman-coded, at most 8/5 of them, since no code is shorter than five bits; what counts is that
this holds of a literal that fails half way too, and that the literals of a block share no octet.

`Spends` is the account: what a computation of the decoder writes is paid from the octets it takes
off the block, twice as much at most.  It has one rule for each construct of the decoder.

* `decodeStr_spends`: one literal, read or refused.
* `run_spends`: the passes of `decode_into`.
* `arena_never_outgrown`: any block, any decoder, after any number of passes.
-/

namespace Vanilla.Http2
open Scan Bits

/-! ### What is written is paid for -/

/-- The decoder when a computation has ended, with a value or with an error. -/
def Decode.after {α : Type} (x : Decode α) (d : HpackDecoder) : HpackDecoder :=
  match x.run d with
  | .ok _ d' => d'
  | .error _ d' => d'

/-- The computation only adds to the arena, at most two octets for each of the `before` it may take
and does not leave. -/
def Spends {α : Type} (x : Decode α) (before : Nat) (left : α → Nat) : Prop :=
  ∀ d, ∃ w, (x.after d).arena = d.arena ++ w ∧ w.length ≤ 2 * before ∧
    ∀ a d', x.run d = .ok a d' → w.length + 2 * left a ≤ 2 * before

namespace Spends

variable {α β : Type} {before : Nat} {left : α → Nat}

theorem bind {x : Decode α} {f : α → Decode β} {leave : β → Nat} (hx : Spends x before left)
    (hf : ∀ a, Spends (f a) (left a) leave) : Spends (x >>= f) before leave := by
  intro d
  obtain ⟨w, harena, hle, hok⟩ := hx d
  rw [Decode.after] at harena
  cases hrun : x.run d with
  | error e d₁ =>
      have hbind : (x >>= f).run d = .error e d₁ := by
        simp only [EStateM.run, Bind.bind, EStateM.bind] at hrun ⊢
        rw [hrun]
      rw [hrun] at harena
      exact ⟨w, by rw [Decode.after, hbind]; exact harena, hle, fun a d' h => by
        rw [hbind] at h
        cases h⟩
  | ok a d₁ =>
      have hbind : (x >>= f).run d = (f a).run d₁ := by
        simp only [EStateM.run, Bind.bind, EStateM.bind] at hrun ⊢
        rw [hrun]
      rw [hrun] at harena
      obtain ⟨w', harena', hle', hok'⟩ := hf a d₁
      have hpaid := hok a d₁ hrun
      refine ⟨w ++ w', ?_, ?_, ?_⟩
      · rw [Decode.after, hbind, ← Decode.after, harena', harena, List.append_assoc]
      · rw [List.length_append]
        omega
      · intro b d' h
        rw [hbind] at h
        have := hok' b d' h
        rw [List.length_append]
        omega

/-- A computation that writes nothing. -/
theorem of_keeps {x : Decode α} (harena : ∀ d, (x.after d).arena = d.arena)
    (hleft : ∀ a d d', x.run d = .ok a d' → left a ≤ before) : Spends x before left := by
  intro d
  refine ⟨[], by rw [harena, List.append_nil], Nat.zero_le _, fun a d' h => ?_⟩
  have := hleft a d d' h
  rw [List.length_nil]
  omega

theorem pure {a : α} (h : left a ≤ before) : Spends (pure a) before left :=
  of_keeps (fun _ => rfl) fun b d d' hb => by
    obtain ⟨rfl, -⟩ := Decode.pure_ok.mp hb
    exact h

theorem throw {e : HpackError} : Spends (throw e : Decode α) before left :=
  of_keeps (fun _ => rfl) fun _ _ _ h => absurd h Decode.throw_ok

theorem get : Spends (get : Decode HpackDecoder) before (fun _ => before) :=
  of_keeps (fun _ => rfl) fun _ _ _ _ => Nat.le_refl _

theorem modify {f : HpackDecoder → HpackDecoder} (h : ∀ d, (f d).arena = d.arena) :
    Spends (modify f : Decode PUnit) before (fun _ => before) :=
  of_keeps h fun _ _ _ _ => Nat.le_refl _

theorem liftExcept {e : Except HpackError α} (h : ∀ a, e = .ok a → left a ≤ before) :
    Spends (liftExcept e : Decode α) before left := by
  cases e with
  | error e => exact throw
  | ok a => exact pure (h a rfl)

end Spends

/-! ### Literals -/

/-- No code is shorter than five bits. -/
theorem codes_length (t : List UInt8) : 5 * t.length ≤ (t.flatMap huffmanCode).length := by
  induction t with
  | nil => exact Nat.le_refl _
  | cons c t ih =>
      have hc : c.toNat < 257 := c.toNat_lt.trans (by decide)
      have := (symbolCode_length hc).1
      rw [List.flatMap_cons, List.length_append, List.length_cons, huffmanCode]
      omega

/-- What is written for Huffman-coded octets, decoded to their end or not. -/
theorem huffmanDecode_length (src : List UInt8) :
    (huffmanDecode src).1.length ≤ 2 * src.length := by
  obtain ⟨s, rest, hbits, -⟩ := huffmanDecode_spec src
  have hlen := congrArg List.length hbits
  have := codes_length (huffmanDecode src).1
  rw [length_octets, List.length_append] at hlen
  omega

theorem decodeStr_written (b : List UInt8) : (decodeStr b).1.length ≤ 2 * b.length ∧
    ∀ s p, (decodeStr b).2 = .ok (s, p) → (decodeStr b).1.length + 2 * p.length ≤ 2 * b.length := by
  unfold decodeStr
  split
  · exact ⟨Nat.zero_le _, nofun⟩
  · rename_i c tail
    split
    · exact ⟨Nat.zero_le _, nofun⟩
    · rename_i n rest hint
      have hshort := decodeInt_shorter hint
      split
      · exact ⟨Nat.zero_le _, nofun⟩
      · rename_i hfit
        split
        · refine ⟨Nat.zero_le _, fun s p h => ?_⟩
          cases h
          rw [List.length_nil]
          omega
        · have htake : (rest.take n).length = n := by
            rw [List.length_take]
            omega
          have htext : (if c &&& 0x80 ≠ 0 then huffmanDecode (rest.take n)
              else (rest.take n, none)).1.length ≤ 2 * n := by
            split
            · exact (huffmanDecode_length _).trans (by rw [htake])
            · rw [htake]
              omega
          generalize (if c &&& 0x80 ≠ 0 then huffmanDecode (rest.take n)
            else (rest.take n, none)) = r at htext ⊢
          obtain ⟨text, e⟩ := r
          dsimp only at htext ⊢
          split
          · exact ⟨by dsimp only; omega, nofun⟩
          · refine ⟨by dsimp only; omega, fun s p h => ?_⟩
            cases h
            rw [List.length_drop]
            dsimp only
            omega

theorem decodeStr_spends (p : List UInt8) :
    Spends (decodeStrInto p) p.length (fun r => r.2.length) := by
  intro d
  obtain ⟨hle, hok⟩ := decodeStr_written p
  refine ⟨(decodeStr p).1, ?_, hle, fun r d' h => hok r.1 r.2 (Decode.str_ok.mp h).1⟩
  unfold decodeStrInto Decode.after
  cases (decodeStr p).2 <;> rfl

/-! ### Instructions -/

theorem decodeInt_spends (bits : Nat) (b : List UInt8) :
    Spends (liftExcept (decodeInt bits b)) b.length (fun r => r.2.length) :=
  .liftExcept fun _ h => Nat.le_of_lt (decodeInt_shorter h)

theorem decodeEntry_spends (idx n : Nat) : Spends (decodeEntry idx) n (fun _ => n) :=
  Spends.get.bind fun _ => .liftExcept fun _ _ => Nat.le_refl n

theorem evict_arena (d : HpackDecoder) : d.evict.arena = d.arena := by
  refine loop_rule evict_descends (P := fun d d' => d'.arena = d.arena) ?_ ?_ trivial
  · intro d d' _ h
    unfold HpackDecoder.evictStep at h
    split at h
    · split at h <;> cases h
      rfl
    · cases h
      rfl
  · intro d d' a _ h ih
    unfold HpackDecoder.evictStep at h
    split at h
    · split at h <;> cases h
      exact ih
    · cases h

namespace BlockState

theorem field_spends (s : BlockState) (rest : List UInt8) (f : HeaderField) :
    Spends (s.field rest f) rest.length (fun s' => s'.rest.length) := by
  unfold field
  dsimp only
  split
  · exact .throw
  · exact .pure (Nat.le_refl _)

theorem literalName_spends (idx : Nat) (p : List UInt8) :
    Spends (literalName idx p) p.length (fun r => r.2.length) := by
  unfold literalName
  split
  · exact (decodeEntry_spends idx p.length).bind fun _ => .pure (Nat.le_refl _)
  · exact decodeStr_spends p

theorem literal_spends (s : BlockState) (bits : Nat) :
    Spends (s.literal bits) s.rest.length (fun r => r.2.length) :=
  (decodeInt_spends bits s.rest).bind fun (idx, p) =>
    (literalName_spends idx p).bind fun (_, p) =>
      (decodeStr_spends p).bind fun _ => .pure (Nat.le_refl _)

theorem instruction_spends (s : BlockState) (b : UInt8) :
    Spends (s.instruction b) s.rest.length (fun s' => s'.rest.length) := by
  unfold instruction
  split
  · exact (decodeInt_spends 7 s.rest).bind fun (idx, p) =>
      (decodeEntry_spends idx p.length).bind fun f => field_spends s p f
  · split
    · exact (literal_spends s 6).bind fun (f, p) => (field_spends s p f).bind fun s' =>
        (Spends.modify (f := (·.add f)) fun d => evict_arena _).bind fun _ => .pure (Nat.le_refl _)
    · split
      · split
        · exact .throw
        · refine (decodeInt_spends 5 s.rest).bind fun (size, p) => Spends.get.bind fun d => ?_
          dsimp only
          split
          · exact .throw
          · exact (Spends.modify (f := fun d => HpackDecoder.evict { d with curMax := size })
              fun d => evict_arena _).bind fun _ => .pure (Nat.le_refl _)
      · exact (literal_spends s 4).bind fun (f, p) => field_spends s p f

/-- **The passes.**  However many there are, they pay for what they write. -/
theorem run_spends (n : Nat) (s : BlockState) :
    Spends (run n s) s.rest.length (fun _ => 0) := by
  induction n generalizing s with
  | zero => exact .pure (Nat.zero_le _)
  | succ n ih =>
      rw [run]
      split
      · exact .pure (Nat.zero_le _)
      · exact (instruction_spends s _).bind ih

/-- A pass more only adds to the arena. -/
theorem run_prefix (n : Nat) (s : BlockState) (d : HpackDecoder) :
    ((run n s).after d).arena <+: ((run (n + 1) s).after d).arena := by
  induction n generalizing s d with
  | zero =>
      obtain ⟨w, harena, -⟩ := run_spends 1 s d
      exact ⟨w, harena.symm⟩
  | succ n ih =>
      rw [run, run.eq_2 s (n + 1)]
      cases s.rest with
      | nil => exact List.prefix_refl _
      | cons b rest =>
          dsimp only [Decode.after, EStateM.run, Bind.bind, EStateM.bind]
          cases s.instruction b d with
          | error e d₁ => exact List.prefix_refl _
          | ok s' d₁ => exact ih s' d₁

end BlockState

/-! ### A block -/

/-- `decode_into`, stopped behind its first `n` passes. -/
def decodePasses (n : Nat) (block : List UInt8) : Decode (List HeaderField) := do
  modify fun d => { d with arena := [] }
  BlockState.run n ⟨block, [], 0, false⟩

theorem decodePasses_length (block : List UInt8) :
    decodePasses block.length block = decodeInto block := rfl

/-- The capacity of the arena behind the check at entry. -/
def arenaCap (cap : Nat) (block : List UInt8) : Nat :=
  if cap < block.length * 2 then block.length * 2 else cap

/-- **The arena is never outgrown.**  Behind any number of passes over a block, the last of them
complete or failed, the arena has at most two octets for each of the block, and the capacity made
sure of at entry is enough.  A pass only adds to it, so that this is so inside a pass as well. -/
theorem arena_never_outgrown (block : List UInt8) (d : HpackDecoder) (cap n : Nat) :
    ((decodePasses n block).after d).arena.length ≤ 2 * block.length ∧
    ((decodePasses n block).after d).arena.length ≤ arenaCap cap block ∧
    ((decodePasses n block).after d).arena <+: ((decodePasses (n + 1) block).after d).arena ∧
    ((decodeInto block).after d).arena.length ≤ 2 * block.length := by
  have hpasses : ∀ n, ((decodePasses n block).after d).arena.length ≤ 2 * block.length := by
    intro n
    obtain ⟨w, harena, hle, -⟩ :=
      BlockState.run_spends n ⟨block, [], 0, false⟩ { d with arena := [] }
    show ((BlockState.run n ⟨block, [], 0, false⟩).after { d with arena := [] }).arena.length ≤ _
    rw [harena]
    exact hle
  refine ⟨hpasses n, (hpasses n).trans ?_, ?_, ?_⟩
  · rw [arenaCap]
    split <;> omega
  · exact BlockState.run_prefix n ⟨block, [], 0, false⟩ { d with arena := [] }
  · rw [← decodePasses_length]
    exact hpasses block.length

end Vanilla.Http2

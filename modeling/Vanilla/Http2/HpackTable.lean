import Vanilla.Http2.Hpack
import Vanilla.Support.Bounded

/-!
# HTTP/2 — the dynamic table of RFC 7541

What RFC 7541 says a decoder does with a header block, apart from how the code does it: a block is
a list of instructions (`IsBlock`), and each of them acts on a table of entries, newest first, kept
within a limit (`RfcTable.exec`).

* `instruction_follows`: one pass of `decode_into` is one instruction of the block.
* `dynamic_table_follows_rfc`: over any blocks that decode, the decoder has the table of the RFC,
  and the fields it returns are those of the RFC.
-/

namespace Vanilla.Http2
open Scan Bounded HeaderField

/-! ### The table -/

/-- The static table. -/
def staticTable : List HeaderField :=
  (staticName.zip staticValue).map fun (n, v) => ⟨ascii n, ascii v⟩

/-- The dynamic table: its entries, newest first, and its maximum size. -/
structure RfcTable where
  entries : List HeaderField
  max : Nat

/-- The name of a literal. -/
inductive LiteralName where
  | index (i : Nat)
  | text (name : List UInt8)

/-- An instruction of a header block. -/
inductive Instruction where
  | indexed (i : Nat)
  | literal (indexing : Bool) (name : LiteralName) (value : List UInt8)
  | sizeUpdate (n : Nat)

namespace RfcTable

/-- The one index space of the static and the dynamic table, from 1 on. -/
def lookup (t : RfcTable) : Nat → Option HeaderField
  | 0 => none
  | i + 1 => (staticTable ++ t.entries)[i]?

/-- An entry is added, and the oldest ones go until the rest fits. -/
def insert (t : RfcTable) (f : HeaderField) : RfcTable :=
  { t with entries := fit size t.max (f :: t.entries) }

/-- The maximum size changes. -/
def resize (t : RfcTable) (n : Nat) : RfcTable := ⟨fit size n t.entries, n⟩

def literalName (t : RfcTable) : LiteralName → Option (List UInt8)
  | .index i => (t.lookup i).map (·.name)
  | .text name => some name

/-- An instruction: the table behind it, and the field it stands for. -/
def exec (t : RfcTable) : Instruction → Option (RfcTable × List HeaderField)
  | .indexed i => (t.lookup i).map fun f => (t, [f])
  | .literal indexing name value =>
    (t.literalName name).map fun n =>
      (if indexing then t.insert ⟨n, value⟩ else t, [⟨n, value⟩])
  | .sizeUpdate n => some (t.resize n, [])

/-- The instructions of a block, one after the other. -/
def execBlock (t : RfcTable) : List Instruction → Option (RfcTable × List HeaderField)
  | [] => some (t, [])
  | i :: is => do
    let (t, fs) ← t.exec i
    let (t, gs) ← execBlock t is
    return (t, fs ++ gs)

/-- Blocks, one after the other: the table behind them, and the fields of each. -/
def execBlocks (t : RfcTable) :
    List (List Instruction) → Option (RfcTable × List (List HeaderField))
  | [] => some (t, [])
  | b :: bs => do
    let (t, fs) ← t.execBlock b
    let (t, gs) ← execBlocks t bs
    return (t, fs :: gs)

end RfcTable

/-! ### The instructions of a block -/

def readName (idx : Nat) (p : List UInt8) : Except HpackError (LiteralName × List UInt8) :=
  if idx = 0 then (decodeStr p).2.map fun (name, p) => (.text name, p)
  else .ok (.index idx, p)

def readLiteral (indexing : Bool) (bits : Nat) (b : List UInt8) :
    Except HpackError (Instruction × List UInt8) := do
  let (idx, p) ← decodeInt bits b
  let (name, p) ← readName idx p
  let (value, p) ← (decodeStr p).2
  return (.literal indexing name value, p)

/-- The instruction at the head of a block, by the leading bits of its first octet. -/
def readInstruction : List UInt8 → Except HpackError (Instruction × List UInt8)
  | [] => .error .truncatedInteger
  | b :: rest =>
    if 128 ≤ b then (decodeInt 7 (b :: rest)).map fun (i, p) => (.indexed i, p)
    else if 64 ≤ b then readLiteral true 6 (b :: rest)
    else if 32 ≤ b then (decodeInt 5 (b :: rest)).map fun (n, p) => (.sizeUpdate n, p)
    else readLiteral false 4 (b :: rest)

/-- The block is these instructions and nothing else. -/
inductive IsBlock : List UInt8 → List Instruction → Prop where
  | nil : IsBlock [] []
  | cons {b p : List UInt8} {i : Instruction} {is : List Instruction}
      (h : readInstruction b = .ok (i, p)) (t : IsBlock p is) : IsBlock b (i :: is)

/-- The tests of `decode_into` on the leading bits. -/
theorem leading_bits (b : UInt8) :
    (b &&& 0x80 ≠ 0 ↔ 128 ≤ b) ∧ (¬ 128 ≤ b → (b &&& 0xc0 = 0x40 ↔ 64 ≤ b)) ∧
      (¬ 64 ≤ b → (b &&& 0xe0 = 0x20 ↔ 32 ≤ b)) := by
  revert b
  exact forall_byte (by decide +kernel)

/-! ### Reading takes octets -/

theorem except_bind_ok {ε α β : Type} {x : Except ε α} {f : α → Except ε β} {b : β} :
    (x >>= f) = .ok b ↔ ∃ a, x = .ok a ∧ f a = .ok b := by
  cases x <;> simp [bind, Except.bind]

theorem except_map_ok {ε α β : Type} {x : Except ε α} {f : α → β} {b : β} :
    x.map f = .ok b ↔ ∃ a, x = .ok a ∧ f a = b := by
  cases x <;> simp [Except.map]

theorem decodeIntRest_shorter {v shift n : Nat} {b p : List UInt8}
    (h : decodeIntRest v shift b = .ok (n, p)) : p.length < b.length := by
  induction b generalizing v shift with
  | nil => cases h
  | cons c b ih =>
      simp only [decodeIntRest] at h
      split at h
      · cases h
      · split at h
        · split at h <;> cases h
          exact Nat.lt_succ_self _
        · exact Nat.lt_succ_of_lt (ih h)

theorem decodeInt_shorter {bits n : Nat} {b p : List UInt8} (h : decodeInt bits b = .ok (n, p)) :
    p.length < b.length := by
  cases b with
  | nil => cases h
  | cons c b =>
      simp only [decodeInt] at h
      split at h
      · cases h
        exact Nat.lt_succ_self _
      · exact Nat.lt_succ_of_lt (decodeIntRest_shorter h)

theorem decodeStr_shorter {b s p : List UInt8} (h : (decodeStr b).2 = .ok (s, p)) :
    p.length < b.length := by
  unfold decodeStr at h
  split at h
  · cases h
  · split at h
    · cases h
    · rename_i hi
      have := decodeInt_shorter hi
      split at h
      · cases h
      · split at h
        · cases h
          exact this
        · dsimp only at h
          split at h <;> cases h
          rw [List.length_drop]
          omega

theorem readName_le {idx : Nat} {p p' : List UInt8} {n : LiteralName}
    (h : readName idx p = .ok (n, p')) : p'.length ≤ p.length := by
  unfold readName at h
  split at h
  · obtain ⟨⟨name, q⟩, hs, hq⟩ := except_map_ok.mp h
    cases hq
    exact Nat.le_of_lt (decodeStr_shorter hs)
  · cases h
    exact Nat.le_refl _

theorem readLiteral_shorter {indexing : Bool} {bits : Nat} {b p : List UInt8} {i : Instruction}
    (h : readLiteral indexing bits b = .ok (i, p)) : p.length < b.length := by
  unfold readLiteral at h
  simp only [except_bind_ok] at h
  obtain ⟨⟨idx, p₁⟩, hi, ⟨n, p₂⟩, hn, ⟨v, p₃⟩, hv, hret⟩ := h
  cases hret
  exact Nat.lt_of_lt_of_le (decodeStr_shorter hv)
    ((readName_le hn).trans (Nat.le_of_lt (decodeInt_shorter hi)))

theorem readInstruction_shorter {b p : List UInt8} {i : Instruction}
    (h : readInstruction b = .ok (i, p)) : p.length < b.length := by
  cases b with
  | nil => cases h
  | cons c b =>
      rw [readInstruction] at h
      split at h
      · obtain ⟨⟨n, q⟩, hs, hq⟩ := except_map_ok.mp h
        cases hq
        exact decodeInt_shorter hs
      · split at h
        · exact readLiteral_shorter h
        · split at h
          · obtain ⟨⟨n, q⟩, hs, hq⟩ := except_map_ok.mp h
            cases hq
            exact decodeInt_shorter hs
          · exact readLiteral_shorter h

/-! ### Computations that succeed -/

namespace Decode

variable {α β : Type} {d d' : HpackDecoder} {b : β}

theorem bind_ok {x : Decode α} {f : α → Decode β} :
    (x >>= f).run d = .ok b d' ↔ ∃ a d₁, x.run d = .ok a d₁ ∧ (f a).run d₁ = .ok b d' := by
  simp only [bind, EStateM.bind, EStateM.run]
  cases x d <;> simp

theorem pure_ok {a : β} : (pure a : Decode β).run d = .ok b d' ↔ a = b ∧ d = d' := by
  show EStateM.Result.ok a d = .ok b d' ↔ _
  simp

theorem throw_ok {e : HpackError} : ¬ (throw e : Decode β).run d = .ok b d' := nofun

theorem get_ok {a : HpackDecoder} :
    (get : Decode HpackDecoder).run d = .ok a d' ↔ d = a ∧ d = d' := by
  show EStateM.Result.ok d d = .ok a d' ↔ _
  simp

theorem modify_ok {f : HpackDecoder → HpackDecoder} {u : PUnit} :
    (modify f : Decode PUnit).run d = .ok u d' ↔ f d = d' := by
  show EStateM.Result.ok _ (f d) = .ok u d' ↔ _
  simp

theorem liftExcept_ok {e : Except HpackError β} :
    (liftExcept e : Decode β).run d = .ok b d' ↔ e = .ok b ∧ d = d' := by
  cases e with
  | error e => exact iff_of_false nofun nofun
  | ok a =>
      rw [Except.ok.injEq]
      exact pure_ok

theorem entry_ok {idx : Nat} {f : HeaderField} :
    (decodeEntry idx).run d = .ok f d' ↔ d.entry idx = .ok f ∧ d = d' := by
  unfold decodeEntry
  simp only [bind_ok, get_ok, liftExcept_ok]
  constructor
  · rintro ⟨_, _, ⟨rfl, rfl⟩, h⟩
    exact h
  · intro h
    exact ⟨d, d, ⟨rfl, rfl⟩, h⟩

theorem str_ok {p : List UInt8} {r : List UInt8 × List UInt8} :
    (decodeStrInto p).run d = .ok r d' ↔
      (decodeStr p).2 = .ok r ∧ { d with arena := d.arena ++ (decodeStr p).1 } = d' := by
  unfold decodeStrInto
  simp only [bind_ok, modify_ok, liftExcept_ok]
  constructor
  · rintro ⟨_, _, rfl, h⟩
    exact h
  · intro h
    exact ⟨⟨⟩, _, rfl, h⟩

theorem field_ok {s s' : BlockState} {rest : List UInt8} {f : HeaderField} :
    (s.field rest f).run d = .ok s' d' ↔
      s.decoded + f.name.length + f.value.length ≤ maxDecodedBlock ∧
        s' = ⟨rest, s.out ++ [f], s.decoded + f.name.length + f.value.length, true⟩ ∧ d = d' := by
  unfold BlockState.field
  dsimp only
  split
  · rename_i h
    exact iff_of_false throw_ok fun h' => absurd h'.1 (Nat.not_le_of_lt h)
  · rename_i h
    rw [pure_ok, and_iff_right (Nat.le_of_not_lt h), eq_comm]

end Decode

/-! ### The decoder against the table -/

/-- The decoder, of maximum size `m`, has the entries and the limit of the table, counts their size
right, and is within its limits. -/
structure Follows (m : Nat) (d : HpackDecoder) (t : RfcTable) : Prop where
  own : d.maxSize = m
  entries : d.dyn = t.entries
  max : d.curMax = t.max
  size : d.dynSize = total size d.dyn
  within : d.dynSize ≤ d.curMax
  limit : d.curMax ≤ m

theorem evict_descends : Descends HpackDecoder.evictStep (·.dyn.length) fun _ => True := by
  intro d d' _ h
  unfold HpackDecoder.evictStep at h
  split at h
  · rename_i last hl
    split at h <;> cases h
    obtain ⟨init, he⟩ := List.getLast?_eq_some_iff.mp hl
    refine ⟨trivial, ?_⟩
    simp [he]
  · cases h

/-- The decoder with the longest run of its newest entries within the limit. -/
def fitted (d : HpackDecoder) : HpackDecoder :=
  { d with
    dyn := fit size d.curMax d.dyn
    dynSize := total size (fit size d.curMax d.dyn) }

theorem fitted_within {d : HpackDecoder} (hd : d.dynSize = total size d.dyn)
    (h : d.dynSize ≤ d.curMax) : fitted d = d := by
  unfold fitted
  rw [fit_all (by omega), ← hd]

/-- `evict` leaves the longest run of newest entries within the limit. -/
theorem evict_eq_fitted {d : HpackDecoder} (h : d.dynSize = total size d.dyn) :
    d.evict = fitted d := by
  unfold HpackDecoder.evict
  refine loop_rule (I := fun _ => True) evict_descends
    (P := fun d d' => d.dynSize = total size d.dyn → d' = fitted d)
    (fun d d' _ hs hd => ?_) (fun d d' d'' _ hs ih hd => ?_) trivial h
  · unfold HpackDecoder.evictStep at hs
    split at hs
    · split at hs <;> cases hs
      rename_i hle
      rw [fitted_within hd (Nat.le_of_not_lt hle)]
    · rename_i hl
      cases hs
      rw [List.getLast?_eq_none_iff] at hl
      rw [hl, total_nil] at hd
      rw [fitted_within (by rw [hl, hd, total_nil]) (by omega)]
  · unfold HpackDecoder.evictStep at hs
    split at hs
    · rename_i last hl
      split at hs <;> cases hs
      rename_i hlt
      obtain ⟨init, he⟩ := List.getLast?_eq_some_iff.mp hl
      rw [he] at hd ih
      have hinit : d.dynSize - last.size = total size init := by simp [hd]
      rw [ih (by simpa using hinit)]
      unfold fitted
      rw [he, List.dropLast_concat, fit_drop (by omega)]
    · cases hs

namespace Follows

variable {m : Nat} {d : HpackDecoder} {t : RfcTable}

/-- The arena has no part in it. -/
theorem write (h : Follows m d t) (a : List UInt8) : Follows m { d with arena := a } t :=
  ⟨h.own, h.entries, h.max, h.size, h.within, h.limit⟩

/-- The decoder after an eviction, under a limit within its own. -/
theorem of_evict (h : d.dynSize = total HeaderField.size d.dyn) (hm : d.maxSize = m)
    (hl : d.curMax ≤ m) : Follows m d.evict ⟨fit HeaderField.size d.curMax d.dyn, d.curMax⟩ := by
  rw [evict_eq_fitted h]
  exact ⟨hm, rfl, rfl, rfl, total_fit _ _, hl⟩

theorem add (h : Follows m d t) (f : HeaderField) : Follows m (d.add f) (t.insert f) := by
  have hs : d.dynSize + f.size = total HeaderField.size (f :: d.dyn) := by
    rw [total_cons, ← h.size, Nat.add_comm]
  have ht : t.insert f = ⟨fit HeaderField.size d.curMax (f :: d.dyn), d.curMax⟩ := by
    rw [h.entries, h.max]
    rfl
  rw [ht]
  exact of_evict hs h.own h.limit

theorem resize (h : Follows m d t) {n : Nat} (hn : n ≤ m) :
    Follows m (HpackDecoder.evict { d with curMax := n }) (t.resize n) := by
  have ht : t.resize n = ⟨fit HeaderField.size n d.dyn, n⟩ := by
    rw [h.entries]
    rfl
  rw [ht]
  exact of_evict (d := { d with curMax := n }) h.size h.own hn

theorem staticTable_get {i : Nat} (h : i < 61) : staticTable[i]? =
    some ⟨ascii (staticName.getD i ""), ascii (staticValue.getD i "")⟩ := by
  have hn : i < staticName.length := h
  have hv : i < staticValue.length := h
  have hzip : (staticName.zip staticValue)[i]? = some (staticName[i], staticValue[i]) :=
    List.getElem?_zip_eq_some.mpr ⟨List.getElem?_eq_getElem hn, List.getElem?_eq_getElem hv⟩
  rw [staticTable, List.getElem?_map, hzip, List.getD_eq_getElem?_getD,
    List.getD_eq_getElem?_getD, List.getElem?_eq_getElem hn, List.getElem?_eq_getElem hv]
  rfl

theorem lookup (h : Follows m d t) {idx : Nat} {f : HeaderField} (he : d.entry idx = .ok f) :
    t.lookup idx = some f := by
  have hlen : staticTable.length = 61 := by decide
  unfold HpackDecoder.entry at he
  split at he
  · cases he
  · rename_i h0
    obtain ⟨i, rfl⟩ := Nat.exists_eq_succ_of_ne_zero h0
    rw [RfcTable.lookup]
    split at he
    · cases he
      rw [List.getElem?_append_left (by omega)]
      exact staticTable_get (by omega)
    · split at he <;> cases he
      rename_i hd
      rw [List.getElem?_append_right (by omega), ← h.entries, hlen, ← hd]
      rfl

end Follows

/-! ### One pass -/

section Pass

variable {m : Nat} {s s' : BlockState} {d d' : HpackDecoder} {t : RfcTable}

/-- The name of a literal is the one of the table. -/
theorem literalName_follows (h : Follows m d t) {idx : Nat} {p p' name : List UInt8}
    (hn : (BlockState.literalName idx p).run d = .ok (name, p') d') :
    ∃ n, readName idx p = .ok (n, p') ∧ t.literalName n = some name ∧ Follows m d' t := by
  unfold BlockState.literalName at hn
  unfold readName
  split at hn
  · rename_i hi
    rw [if_neg (by omega)]
    simp only [Decode.bind_ok, Decode.entry_ok, Decode.pure_ok, Prod.mk.injEq] at hn
    obtain ⟨f, _, ⟨he, rfl⟩, ⟨rfl, rfl⟩, rfl⟩ := hn
    exact ⟨_, rfl, by rw [RfcTable.literalName, h.lookup he]; rfl, h⟩
  · rename_i hi
    rw [if_pos (by omega)]
    obtain ⟨hs, rfl⟩ := Decode.str_ok.mp hn
    rw [hs]
    exact ⟨_, rfl, rfl, h.write _⟩

/-- A literal is the literal of the block, under the name of the table. -/
theorem literal_follows (h : Follows m d t) {bits : Nat} (indexing : Bool) {f : HeaderField}
    {p : List UInt8} (hl : (s.literal bits).run d = .ok (f, p) d') :
    ∃ n, readLiteral indexing bits s.rest = .ok (.literal indexing n f.value, p) ∧
      t.literalName n = some f.name ∧ Follows m d' t := by
  unfold BlockState.literal at hl
  simp only [Decode.bind_ok, Decode.liftExcept_ok] at hl
  obtain ⟨⟨idx, p₁⟩, _, ⟨hi, rfl⟩, ⟨name, p₂⟩, d₁, hn, ⟨value, p₃⟩, d₂, hv, hret⟩ := hl
  simp only [Decode.pure_ok, Prod.mk.injEq] at hret
  obtain ⟨⟨rfl, rfl⟩, rfl⟩ := hret
  obtain ⟨n, hread, hname, hf⟩ := literalName_follows h hn
  obtain ⟨hs, rfl⟩ := Decode.str_ok.mp hv
  refine ⟨n, ?_, hname, hf.write _⟩
  unfold readLiteral
  rw [hi]
  simp only [Except.bind, bind, hread, hs]
  rfl

/-- **One instruction.**  A pass of `decode_into` is the instruction at the head of the block. -/
theorem instruction_follows (h : Follows m d t) {b : UInt8} {rest : List UInt8}
    (hb : s.rest = b :: rest) (hi : (s.instruction b).run d = .ok s' d') :
    ∃ i t' fs, readInstruction s.rest = .ok (i, s'.rest) ∧ t.exec i = some (t', fs) ∧
      s'.out = s.out ++ fs ∧ Follows m d' t' := by
  obtain ⟨h128, h64, h32⟩ := leading_bits b
  unfold BlockState.instruction at hi
  rw [hb, readInstruction, ← hb]
  split at hi
  · rename_i hc
    rw [if_pos (h128.mp hc)]
    simp only [Decode.bind_ok, Decode.liftExcept_ok, Decode.entry_ok, Decode.field_ok] at hi
    obtain ⟨⟨idx, p⟩, _, ⟨hint, rfl⟩, f, _, ⟨he, rfl⟩, -, rfl, rfl⟩ := hi
    rw [hint]
    exact ⟨_, _, _, rfl, by rw [RfcTable.exec, h.lookup he]; rfl, rfl, h⟩
  rename_i hc
  have hc128 := mt h128.mpr hc
  rw [if_neg hc128]
  split at hi
  · rename_i hc
    rw [if_pos ((h64 hc128).mp hc)]
    simp only [Decode.bind_ok, Decode.field_ok, Decode.modify_ok, Decode.pure_ok] at hi
    obtain ⟨⟨f, p⟩, d₁, hl, _, _, ⟨-, rfl, rfl⟩, -, _, rfl, rfl, rfl⟩ := hi
    obtain ⟨n, hread, hname, hf⟩ := literal_follows h true hl
    exact ⟨_, _, _, hread, by rw [RfcTable.exec, hname]; rfl, rfl, hf.add f⟩
  rename_i hc
  have hc64 := mt (h64 hc128).mpr hc
  rw [if_neg hc64]
  split at hi
  · rename_i hc
    rw [if_pos ((h32 hc64).mp hc)]
    split at hi
    · exact absurd hi Decode.throw_ok
    · simp only [Decode.bind_ok, Decode.liftExcept_ok, Decode.get_ok] at hi
      obtain ⟨⟨size, p⟩, _, ⟨hint, rfl⟩, _, _, ⟨rfl, rfl⟩, hi⟩ := hi
      dsimp only at hi
      split at hi
      · exact absurd hi Decode.throw_ok
      · rename_i hle
        simp only [Decode.bind_ok, Decode.modify_ok, Decode.pure_ok] at hi
        obtain ⟨-, _, rfl, rfl, rfl⟩ := hi
        rw [hint]
        exact ⟨_, _, _, rfl, rfl, by simp, h.resize (h.own ▸ Nat.le_of_not_lt hle)⟩
  · rename_i hc
    rw [if_neg (mt (h32 hc64).mpr hc)]
    simp only [Decode.bind_ok, Decode.field_ok] at hi
    obtain ⟨⟨f, p⟩, d₁, hl, -, rfl, rfl⟩ := hi
    obtain ⟨n, hread, hname, hf⟩ := literal_follows h false hl
    exact ⟨_, _, _, hread, by rw [RfcTable.exec, hname]; rfl, rfl, hf⟩

end Pass

/-! ### Blocks -/

/-- The loop of `decode_into` is the rest of the block. -/
theorem run_follows {m n : Nat} {s : BlockState} {d d' : HpackDecoder} {t : RfcTable}
    {out : List HeaderField} (h : Follows m d t) (hn : s.rest.length ≤ n)
    (hr : (BlockState.run n s).run d = .ok out d') :
    ∃ is t' fs, IsBlock s.rest is ∧ t.execBlock is = some (t', fs) ∧ out = s.out ++ fs ∧
      Follows m d' t' := by
  -- on the passes left
  induction n generalizing s d t with
  | zero =>
      obtain ⟨rfl, rfl⟩ := Decode.pure_ok.mp hr
      rw [List.eq_nil_of_length_eq_zero (Nat.le_zero.mp hn)]
      exact ⟨[], t, [], .nil, rfl, by simp, h⟩
  | succ n ih =>
      rw [BlockState.run] at hr
      split at hr
      · rename_i he
        obtain ⟨rfl, rfl⟩ := Decode.pure_ok.mp hr
        rw [he]
        exact ⟨[], t, [], .nil, rfl, by simp, h⟩
      · rename_i b rest he
        obtain ⟨s₁, d₁, hi, hr⟩ := Decode.bind_ok.mp hr
        obtain ⟨i, t₁, fs, hread, hexec, hout, hf⟩ := instruction_follows h he hi
        have hlt := readInstruction_shorter hread
        obtain ⟨is, t', gs, hblock, hexecs, hout', hf'⟩ := ih hf (by omega) hr
        refine ⟨i :: is, t', fs ++ gs, .cons hread hblock, ?_, ?_, hf'⟩
        · simp [RfcTable.execBlock, hexec, hexecs]
        · rw [hout', hout, List.append_assoc]

/-- A block that decodes is a block of instructions, and gives the fields they stand for. -/
theorem decodeInto_follows {m : Nat} {d d' : HpackDecoder} {t : RfcTable} {block : List UInt8}
    {out : List HeaderField} (h : Follows m d t) (hr : (decodeInto block).run d = .ok out d') :
    ∃ is t', IsBlock block is ∧ t.execBlock is = some (t', out) ∧ Follows m d' t' := by
  unfold decodeInto at hr
  simp only [Decode.bind_ok, Decode.modify_ok] at hr
  obtain ⟨-, _, rfl, hr⟩ := hr
  obtain ⟨is, t', fs, hblock, hexec, hout, hf⟩ := run_follows
    (s := ⟨block, [], 0, false⟩) (h.write []) (Nat.le_refl _) hr
  exact ⟨is, t', hblock, by rw [hexec, hout]; rfl, hf⟩

/-- Header blocks decoded by one decoder: the fields of each, if all of them decode. -/
def decodeBlocks (d : HpackDecoder) :
    List (List UInt8) → Option (HpackDecoder × List (List HeaderField))
  | [] => some (d, [])
  | block :: blocks =>
    match (decodeInto block).run d with
    | .error _ _ => none
    | .ok fs d => (decodeBlocks d blocks).map fun (d, gs) => (d, fs :: gs)

theorem decodeBlocks_follows {m : Nat} {d d' : HpackDecoder} {t : RfcTable}
    {blocks : List (List UInt8)} {out : List (List HeaderField)} (h : Follows m d t)
    (hr : decodeBlocks d blocks = some (d', out)) :
    ∃ iss t', List.Forall₂ IsBlock blocks iss ∧ t.execBlocks iss = some (t', out) ∧
      Follows m d' t' := by
  induction blocks generalizing d t out with
  | nil =>
      cases hr
      exact ⟨[], t, .nil, rfl, h⟩
  | cons block blocks ih =>
      rw [decodeBlocks] at hr
      split at hr
      · cases hr
      · rename_i fs d₁ hd
        obtain ⟨⟨d₂, gs⟩, hrest, he⟩ := Option.map_eq_some_iff.mp hr
        cases he
        obtain ⟨is, t₁, hblock, hexec, hf⟩ := decodeInto_follows h hd
        obtain ⟨iss, t', hblocks, hexecs, hf'⟩ := ih hf hrest
        refine ⟨is :: iss, t', .cons hblock hblocks, ?_, hf'⟩
        simp [RfcTable.execBlocks, hexec, hexecs]

/-- **The dynamic table of RFC 7541.**  Over blocks that decode, the decoder counts the size of its
entries right and keeps within its limits; the blocks are lists of instructions, whose execution
leaves the decoder's entries and limit, and gives the fields the decoder gave. -/
theorem dynamic_table_follows_rfc (maxSize : Nat) (blocks : List (List UInt8)) (d : HpackDecoder)
    (fields : List (List HeaderField))
    (h : decodeBlocks (newDecoder maxSize) blocks = some (d, fields)) :
    d.dynSize = (d.dyn.map fun f => f.name.length + f.value.length + 32).sum ∧
      d.dynSize ≤ d.curMax ∧ d.curMax ≤ d.maxSize ∧ d.maxSize = maxSize ∧
      ∃ iss, List.Forall₂ IsBlock blocks iss ∧
        RfcTable.execBlocks ⟨[], maxSize⟩ iss = some (⟨d.dyn, d.curMax⟩, fields) := by
  have hnew : Follows maxSize (newDecoder maxSize) ⟨[], maxSize⟩ :=
    ⟨rfl, rfl, rfl, rfl, Nat.zero_le _, Nat.le_refl _⟩
  obtain ⟨iss, ⟨entries, max⟩, hblocks, hexec, hf⟩ := decodeBlocks_follows hnew h
  obtain rfl := hf.entries
  obtain rfl := hf.max
  exact ⟨hf.size, hf.within, hf.limit.trans_eq hf.own.symm, hf.own, iss, hblocks, hexec⟩

/-- Two entries in a table of 80 octets, the second of which evicts the first, then a reference to
it. -/
theorem dynamic_table_follows_rfc_evicting :
    ∃ iss, List.Forall₂ IsBlock
        [[0x40, 1, 97, 5, 1, 2, 3, 4, 5], [0x40, 1, 98, 10, 1, 2, 3, 4, 5, 6, 7, 8, 9, 10, 0xbe]]
        iss ∧
      RfcTable.execBlocks ⟨[], 80⟩ iss = some (⟨[⟨[98], [1, 2, 3, 4, 5, 6, 7, 8, 9, 10]⟩], 80⟩,
        [[⟨[97], [1, 2, 3, 4, 5]⟩],
          [⟨[98], [1, 2, 3, 4, 5, 6, 7, 8, 9, 10]⟩, ⟨[98], [1, 2, 3, 4, 5, 6, 7, 8, 9, 10]⟩]]) :=
  (dynamic_table_follows_rfc 80 _
    ⟨[⟨[98], [1, 2, 3, 4, 5, 6, 7, 8, 9, 10]⟩], 43, 80, 80, [98, 1, 2, 3, 4, 5, 6, 7, 8, 9, 10]⟩ _
    (by decide)).2.2.2.2

end Vanilla.Http2

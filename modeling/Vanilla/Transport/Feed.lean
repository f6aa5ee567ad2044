import Mathlib.Data.List.Flatten
import Mathlib.Data.List.Nodup
import Mathlib.Data.List.Perm.Subperm

/-!
# Transport — a follower's feed

`Feed.take`, `Feed.take_record` and `Resolver.write_update` of `transport/resolver_nix.c.v`: the
addresses of a host go to each follower as records, one write each, and the follower puts them
together again.

* `Update`: an answer, with the number it is written under.
* `Feed.reads_update`: what the records of one update that arrive do to the table.
* `Feed.reads_updates`: the table is the last answer that arrived whole.
-/

namespace Vanilla.Transport

/-! ### The source -/

/-- `max_addrs`. -/
def maxAddrs : Nat := 16

structure Addr where
  family : Int
  len : Nat
  data : List UInt8
  deriving DecidableEq

/-- `Record`. -/
structure Record where
  seq : Nat
  idx : Nat
  count : Nat
  family : Int
  len : Nat
  data : List UInt8
  deriving DecidableEq

/-- `Feed`, with the follower's table beside it. -/
structure Feed where
  fd : Int := -1
  staging : List Addr := []
  stageSeq : Nat := 0
  table : List Addr := []
  deriving DecidableEq

/-- `write_update`, from the address `k` on; `ok` says which writes the pipe takes. -/
def writeUpdate (seq count : Nat) (ok : Nat → Bool) (k : Nat) : List Addr → List Record
  | [] => []
  | a :: found =>
    if ok k then
      ⟨seq, k, count, a.family, a.len, a.data⟩ :: writeUpdate seq count ok (k + 1) found
    else []

/-- `take_record`: `true` if the table was swapped. -/
def Feed.takeRecord (f : Feed) (rec : Record) : Feed × Bool :=
  let f := if rec.idx = 0 then { f with staging := [], stageSeq := rec.seq } else f
  if rec.seq ≠ f.stageSeq ∨ rec.idx ≠ f.staging.length ∨ rec.count = 0 then
    ({ f with staging := [], stageSeq := 0 }, false)
  else
    let f :=
      if f.staging.length < maxAddrs then
        { f with staging := f.staging ++ [⟨rec.family, rec.len, rec.data⟩] }
      else f
    if rec.idx ≠ rec.count - 1 then (f, false)
    else ({ f with table := f.staging, staging := [] }, true)

/-- `take`, with the records that are in the pipe. -/
def Feed.take (f : Feed) (recs : List Record) : Feed × Bool :=
  if f.fd < 0 then (f, false)
  else
    recs.foldl (fun s rec => ((s.1.takeRecord rec).1, s.2 || (s.1.takeRecord rec).2)) (f, false)

/-- One `take` after another. -/
def Feed.takes (f : Feed) (batches : List (List Record)) : Feed :=
  batches.foldl (fun f recs => (f.take recs).1) f

/-! ### One record after another -/

/-- The records, however the calls of `take` group them. -/
def Feed.reads (f : Feed) (recs : List Record) : Feed :=
  recs.foldl (fun f rec => (f.takeRecord rec).1) f

@[simp] theorem Feed.reads_cons (f : Feed) (rec : Record) (recs : List Record) :
    f.reads (rec :: recs) = (f.takeRecord rec).1.reads recs := rfl

theorem Feed.reads_append (f : Feed) (r r' : List Record) :
    f.reads (r ++ r') = (f.reads r).reads r' :=
  List.foldl_append

theorem Feed.takeRecord_fd (f : Feed) (rec : Record) : (f.takeRecord rec).1.fd = f.fd := by
  unfold takeRecord
  grind

theorem Feed.reads_fd (f : Feed) (recs : List Record) : (f.reads recs).fd = f.fd := by
  induction recs generalizing f with
  | nil => rfl
  | cons rec recs ih => rw [reads_cons, ih, takeRecord_fd]

theorem Feed.take_eq (f : Feed) (recs : List Record) (h : 0 ≤ f.fd) :
    (f.take recs).1 = f.reads recs := by
  have hfold : ∀ (recs : List Record) (s : Feed × Bool),
      (recs.foldl (fun s rec => ((s.1.takeRecord rec).1, s.2 || (s.1.takeRecord rec).2)) s).1 =
        s.1.reads recs := by
    intro recs
    induction recs with
    | nil => exact fun s => rfl
    | cons rec recs ih => exact fun s => ih _
  unfold take
  rw [if_neg (Int.not_lt.2 h)]
  exact hfold recs (f, false)

theorem Feed.takes_eq (f : Feed) (batches : List (List Record)) (h : 0 ≤ f.fd) :
    f.takes batches = f.reads batches.flatten := by
  induction batches generalizing f with
  | nil => rfl
  | cons recs batches ih =>
      have hf : 0 ≤ (f.reads recs).fd := by rw [f.reads_fd]; exact h
      have hstep : f.takes (recs :: batches) = (f.take recs).1.takes batches := rfl
      rw [hstep, f.take_eq recs h, ih _ hf, List.flatten_cons, f.reads_append]

/-! ### The records of one update -/

/-- An answer, and the number it is written under. -/
structure Update where
  seq : Nat
  found : List Addr
  named : seq ≠ 0
  filled : found ≠ []
  bounded : found.length ≤ maxAddrs

/-- Its records, if the pipe takes them all. -/
def Update.records (u : Update) : List Record :=
  writeUpdate u.seq u.found.length (fun _ => true) 0 u.found

theorem mem_writeUpdate {seq count k : Nat} {ok : Nat → Bool} {found : List Addr} {r : Record}
    (h : r ∈ writeUpdate seq count ok k found) : r.seq = seq ∧ k ≤ r.idx := by
  induction found generalizing k with
  | nil => exact nomatch h
  | cons a found ih =>
      unfold writeUpdate at h
      split at h
      · rcases List.mem_cons.1 h with rfl | h
        · exact ⟨rfl, Nat.le_refl k⟩
        · obtain ⟨hs, hk⟩ := ih h
          exact ⟨hs, Nat.le_of_succ_le hk⟩
      · exact nomatch h

theorem nodup_writeUpdate (seq count k : Nat) (ok : Nat → Bool) (found : List Addr) :
    (writeUpdate seq count ok k found).Nodup := by
  induction found generalizing k with
  | nil => exact List.nodup_nil
  | cons a found ih =>
      unfold writeUpdate
      split
      · refine List.nodup_cons.2 ⟨fun hm => ?_, ih (k + 1)⟩
        exact Nat.not_succ_le_self k (mem_writeUpdate hm).2
      · exact List.nodup_nil

/-- A record that does not continue what was staged. -/
theorem Feed.takeRecord_drops {f : Feed} {rec : Record} (hidx : rec.idx ≠ 0)
    (h : rec.seq ≠ f.stageSeq ∨ rec.idx ≠ f.staging.length) :
    f.takeRecord rec = ({ f with staging := [], stageSeq := 0 }, false) := by
  unfold takeRecord
  rw [if_neg hidx]
  exact if_pos (h.imp_right Or.inl)

/-- The rest of an update that has lost a record. -/
theorem Feed.reads_lost {f : Feed} {seq : Nat} {r : List Record} (hseq : seq ≠ 0)
    (hr : ∀ rec ∈ r, rec.seq = seq ∧ rec.idx ≠ 0)
    (hf : f.stageSeq ≠ seq ∨ ∀ rec ∈ r, rec.idx ≠ f.staging.length) :
    (f.reads r).table = f.table ∧
      ((f.reads r).stageSeq = f.stageSeq ∨ (f.reads r).stageSeq = 0) := by
  induction r generalizing f with
  | nil => exact ⟨rfl, .inl rfl⟩
  | cons rec r ih =>
      obtain ⟨⟨hs, hi⟩, hr⟩ := List.forall_mem_cons.1 hr
      have hdrop := f.takeRecord_drops hi
        (hf.imp (fun hf => hs ▸ hf.symm) fun hf => hf rec List.mem_cons_self)
      rw [reads_cons, hdrop]
      obtain ⟨htable, hstage⟩ := ih (f := { f with staging := [], stageSeq := 0 }) hr
        (.inl hseq.symm)
      exact ⟨htable, .inr (hstage.elim id id)⟩

/-- The next record of an update, or its first. -/
theorem Feed.takeRecord_next {f : Feed} {st : List Addr} {seq count : Nat} (a : Addr)
    (hin : st ≠ [] → f.staging = st ∧ f.stageSeq = seq) (hlt : st.length < count)
    (hb : count ≤ maxAddrs) :
    f.takeRecord ⟨seq, st.length, count, a.family, a.len, a.data⟩ =
      if st.length + 1 = count then
        ({ f with stageSeq := seq, table := st ++ [a], staging := [] }, true)
      else ({ f with stageSeq := seq, staging := st ++ [a] }, false) := by
  have hstage : (if st.length = 0 then { f with staging := [], stageSeq := seq } else f) =
      { f with staging := st, stageSeq := seq } := by
    cases st with
    | nil => rfl
    | cons b st =>
        obtain ⟨hst, hseq⟩ := hin (List.cons_ne_nil b st)
        rw [if_neg (by simp), ← hst, ← hseq]
  unfold takeRecord
  dsimp only
  rw [hstage]
  dsimp only
  rw [if_neg (by omega), if_pos (Nat.lt_of_lt_of_le hlt hb)]
  by_cases hlast : st.length + 1 = count
  · rw [if_pos hlast, if_neg (by omega)]
  · rw [if_neg hlast, if_pos (by omega)]

/-- The record that is due is lost. -/
theorem Feed.reads_skipped (u : Update) {f : Feed} {st as : List Addr} {r : List Record}
    (hin : st ≠ [] → f.staging = st ∧ f.stageSeq = u.seq)
    (hout : st = [] → f.stageSeq ≠ u.seq)
    (hr : r.Sublist (writeUpdate u.seq u.found.length (fun _ => true) (st.length + 1) as)) :
    (f.reads r).table = f.table ∧
      ((f.reads r).stageSeq = f.stageSeq ∨ (f.reads r).stageSeq = 0) := by
  have hrec : ∀ rec ∈ r, rec.seq = u.seq ∧ st.length < rec.idx := fun rec hm =>
    mem_writeUpdate (hr.subset hm)
  refine f.reads_lost u.named (fun rec hm => ⟨(hrec rec hm).1, ?_⟩) ?_
  · exact Nat.ne_of_gt (Nat.zero_lt_of_lt (hrec rec hm).2)
  · by_cases hst : st = []
    · exact .inl (hout hst)
    · rw [(hin hst).1]
      exact .inr fun rec hm => Nat.ne_of_gt (hrec rec hm).2

/-- **One update**: the table changes if all its records arrive, and then to its answer. -/
theorem Feed.reads_update (u : Update) (st : List Addr) {a : Addr} {as : List Addr} {f : Feed}
    {r : List Record} (hfound : st ++ a :: as = u.found)
    (hin : st ≠ [] → f.staging = st ∧ f.stageSeq = u.seq)
    (hout : st = [] → f.stageSeq ≠ u.seq)
    (hr : r.Sublist (writeUpdate u.seq u.found.length (fun _ => true) st.length (a :: as))) :
    (f.reads r).table =
        (if r = writeUpdate u.seq u.found.length (fun _ => true) st.length (a :: as)
          then u.found else f.table) ∧
      ((f.reads r).stageSeq = f.stageSeq ∨ (f.reads r).stageSeq = u.seq ∨
        (f.reads r).stageSeq = 0) := by
  induction as generalizing f st a r with
  | nil =>
      have hlen : st.length + 1 = u.found.length := by rw [← hfound]; simp
      have hnext := f.takeRecord_next a hin (Nat.lt_of_succ_le (Nat.le_of_eq hlen)) u.bounded
      rw [writeUpdate, if_pos rfl, writeUpdate] at hr ⊢
      cases hr with
      | cons _ hr =>
          rw [List.sublist_nil.1 hr]
          exact ⟨rfl, .inl rfl⟩
      | cons_cons _ hr =>
          rw [List.sublist_nil.1 hr, if_pos rfl, reads_cons, hnext, if_pos hlen]
          exact ⟨hfound, .inr (.inl rfl)⟩
  | cons b as ih =>
      have hlt : st.length + 1 < u.found.length := by rw [← hfound]; simp
      have hnext := f.takeRecord_next a hin (Nat.lt_of_succ_lt hlt) u.bounded
      rw [writeUpdate, if_pos rfl] at hr ⊢
      cases hr with
      | cons _ hr =>
          obtain ⟨ht, hs⟩ := f.reads_skipped u hin hout hr
          refine ⟨?_, hs.imp_right Or.inr⟩
          rw [ht, if_neg]
          rintro rfl
          exact Nat.not_succ_le_self _ hr.length_le
      | @cons_cons r' _ _ hr =>
          have hlen : (st ++ [a]).length = st.length + 1 := by simp
          rw [← hlen] at hr ⊢
          obtain ⟨ht, hs⟩ := ih (f := { f with stageSeq := u.seq, staging := st ++ [a] })
            (st ++ [a]) (by rw [← hfound]; simp) (fun _ => ⟨rfl, rfl⟩) (by simp) hr
          rw [reads_cons, hnext, if_neg (Nat.ne_of_lt hlt), ht]
          simp only [List.cons.injEq, true_and]
          exact .inr (hs.elim Or.inl id)

/-! ### Updates one after the other -/

/-- The answer of the last update whose records are all there, or what was there before. -/
def lastWhole (us : List Update) (recs : List Record) (table : List Addr) : List Addr :=
  (((us.filter fun u => decide (u.records ⊆ recs)).getLast?).map Update.found).getD table

theorem Update.mem_records {u : Update} {r : Record} (h : r ∈ u.records) : r.seq = u.seq :=
  (mem_writeUpdate h).1

/-- Records of other updates are none of this one's. -/
theorem Update.records_subset_append (u : Update) {r r' : List Record}
    (h : ∀ rec ∈ r, rec.seq ≠ u.seq) : u.records ⊆ r ++ r' ↔ u.records ⊆ r' := by
  refine ⟨fun hsub rec hm => ?_, fun hsub rec hm => List.mem_append_right r (hsub hm)⟩
  exact (List.mem_append.1 (hsub hm)).resolve_left fun hr => h rec hr (mem_records hm)

/-- A part of the records has them all if it is all of them. -/
theorem Update.records_subset_iff (u : Update) {r : List Record} (h : r.Sublist u.records) :
    u.records ⊆ r ↔ r = u.records := by
  refine ⟨fun hsub => h.eq_of_length_le ?_, fun he => he ▸ List.Subset.refl _⟩
  exact ((nodup_writeUpdate _ _ _ _ _).subperm hsub).length_le

theorem lastWhole_cons {u : Update} {us : List Update} {r r' : List Record} {table : List Addr}
    (hr : r.Sublist u.records) (hr' : ∀ rec ∈ r', rec.seq ≠ u.seq)
    (hus : ∀ v ∈ us, u.seq ≠ v.seq) :
    lastWhole (u :: us) (r ++ r') table =
      lastWhole us r' (if r = u.records then u.found else table) := by
  have hu : u.records ⊆ r ++ r' ↔ r = u.records := by
    have hcomm : u.records ⊆ r ++ r' ↔ u.records ⊆ r' ++ r :=
      ⟨fun h => List.Subset.trans h List.perm_append_comm.subset,
        fun h => List.Subset.trans h List.perm_append_comm.subset⟩
    rw [hcomm, u.records_subset_append hr', u.records_subset_iff hr]
  have hfilter : us.filter (fun v => decide (v.records ⊆ r ++ r')) =
      us.filter (fun v => decide (v.records ⊆ r')) := by
    refine List.filter_congr fun v hv => decide_eq_decide.2 (v.records_subset_append ?_)
    exact fun rec hm he => hus v hv ((Update.mem_records (hr.subset hm)).symm.trans he)
  unfold lastWhole
  rw [List.filter_cons, hfilter]
  by_cases h : r = u.records
  · rw [if_pos (decide_eq_true (hu.2 h)), if_pos h, List.getLast?_cons]
    cases (us.filter fun v => decide (v.records ⊆ r')).getLast? with
    | none => rfl
    | some v => rfl
  · rw [if_neg (by rw [decide_eq_true_eq]; exact h ∘ hu.1), if_neg h]

/-- **The table is the last answer that arrived whole.** -/
theorem Feed.reads_updates {us : List Update} {f : Feed} {recs : List Record}
    (hd : (us.map Update.seq).Nodup) (hf : f.stageSeq ∉ us.map Update.seq)
    (hr : recs.Sublist (us.flatMap Update.records)) :
    (f.reads recs).table = lastWhole us recs f.table := by
  induction us generalizing f recs with
  | nil =>
      rw [List.sublist_nil.1 hr]
      rfl
  | cons u us ih =>
      rw [List.map_cons, List.nodup_cons] at hd
      rw [List.map_cons, List.mem_cons, not_or] at hf
      rw [List.flatMap_cons] at hr
      obtain ⟨r, r', rfl, hr, hr'⟩ := List.sublist_append_iff.1 hr
      have hmem : ∀ v ∈ us, u.seq ≠ v.seq := fun v hv he =>
        hd.1 (he ▸ List.mem_map_of_mem hv)
      have hrecs : ∀ rec ∈ r', rec.seq ≠ u.seq := by
        intro rec hm he
        obtain ⟨v, hv, hvm⟩ := List.mem_flatMap.1 (hr'.subset hm)
        exact hmem v hv (he.symm.trans (Update.mem_records hvm))
      obtain ⟨a, as, hfound⟩ := List.exists_cons_of_ne_nil u.filled
      have hrec : writeUpdate u.seq u.found.length (fun _ => true) 0 (a :: as) = u.records :=
        congrArg _ hfound.symm
      obtain ⟨ht, hs⟩ := f.reads_update u [] hfound.symm (fun h => absurd rfl h) (fun _ => hf.1)
        (hrec.symm ▸ hr)
      have hstage : (f.reads r).stageSeq ∉ us.map Update.seq := by
        rcases hs with hs | hs | hs
        · rw [hs]
          exact hf.2
        · rw [hs]
          exact hd.1
        · rw [hs]
          intro hm
          obtain ⟨v, -, hv⟩ := List.mem_map.1 hm
          exact v.named hv
      rw [reads_append, ih hd.2 hstage hr', ht, lastWhole_cons hr hrecs hmem, ← hrec]
      rfl

theorem Feed.takes_updates {us : List Update} {f : Feed} {batches : List (List Record)}
    (hd : (us.map Update.seq).Nodup) (hfd : 0 ≤ f.fd) (hf : f.stageSeq ∉ us.map Update.seq)
    (hr : batches.flatten.Sublist (us.flatMap Update.records)) :
    (f.takes batches).table = lastWhole us batches.flatten f.table := by
  rw [f.takes_eq batches hfd, Feed.reads_updates hd hf hr]

/-- A feed as `follow` makes it, of a follower that has a table. -/
def follow (fd : Nat) (table : List Addr) : Feed := { fd := fd, table := table }

/-- **A follower never shows a mixed answer.**  The updates are written one after the other, each
under a number of its own; what arrives of their records, in any number of `take`s, leaves the
last answer that arrived whole. -/
theorem take_shows_whole_answers (us : List Update) (hd : (us.map Update.seq).Nodup)
    (batches : List (List Record))
    (hr : batches.flatten.Sublist (us.flatMap Update.records)) (fd : Nat) (table : List Addr) :
    ((follow fd table).takes batches).table = lastWhole us batches.flatten table := by
  refine Feed.takes_updates hd (Int.natCast_nonneg fd) (fun hm => ?_) hr
  obtain ⟨u, -, hu⟩ := List.mem_map.1 hm
  exact u.named hu

/-- The second record of an answer is lost; the next answer is shown. -/
theorem take_after_lost_record :
    ((follow 3 []).takes [[⟨1, 0, 2, 2, 16, [10]⟩], [⟨2, 0, 1, 2, 16, [12]⟩]]).table =
      [⟨2, 16, [12]⟩] :=
  (take_shows_whole_answers
    [⟨1, [⟨2, 16, [10]⟩, ⟨2, 16, [11]⟩], by decide, by decide, by decide⟩,
      ⟨2, [⟨2, 16, [12]⟩], by decide, by decide, by decide⟩]
    (by decide) _ (by decide) 3 []).trans (by decide)

end Vanilla.Transport

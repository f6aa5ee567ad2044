import Vanilla.Backend.Definitions
import Vanilla.RequestParser.Framing

/-!
# Backend — requests do not depend on how the stream was read

Without limits, the framer's answers are final, so the requests `drain_requests` cuts off a
connection's read buffer, and the refusal that closes it, are those of the byte stream: however
the stream was split into reads (`onReads_cuts`, `Cuts.unique`).
-/

namespace Vanilla.Backend
open Scan RequestParser

/-! ### The framer as a cutter -/

theorem frameIdx_append {b x : List UInt8} (h : frameRequestLengthLimIdx b 0 0 ≠ -1) :
    frameRequestLengthLimIdx (b ++ x) 0 0 = frameRequestLengthLimIdx b 0 0 := by
  have hm : frameRequest b 0 0 ≠ .more := fun e => h (frameIdx_more.mpr e)
  simp only [frameRequestLengthLimIdx, frameRequest_append hm]

theorem drainVerdict_stable : Stable (drainVerdict 0 0) := by
  intro b x h
  have hm : frameRequestLengthLimIdx b 0 0 ≠ -1 := fun e => h (by
    simp only [drainVerdict, e, if_true])
  simp only [drainVerdict, frameIdx_append hm]

theorem drainVerdict_accept {b : List UInt8} {mh mb : Int} {n : Nat}
    (h : drainVerdict mh mb b = .accept n) : frameRequestLengthLimIdx b mh mb = n := by
  unfold drainVerdict at h
  simp only at h
  split at h
  · cases h
  split at h
  · cases h
  · cases h
    rw [Int.toNat_of_nonneg (by omega)]

theorem drainVerdict_cutting : Cutting (drainVerdict 0 0) := by
  intro b n h
  obtain ⟨hn, hd, vs, ws, body, e, -⟩ := frameRequest_iff.mp
    (frameIdx_nat.mp (drainVerdict_accept h))
  refine ⟨?_, hn⟩
  have := congrArg List.length e
  rw [List.length_take, List.length_append, head_length] at this
  omega

/-! ### A connection's reads -/

/-- What the connection has made of the bytes `sofar`, whatever comes behind them. -/
def Conn.MadeOf (c : Conn) (sofar : List UInt8) : Prop :=
  match c.stop with
  | some e => ∀ x, Cuts (drainVerdict 0 0) (sofar ++ x) c.cuts (some e)
  | none => drainVerdict 0 0 c.readBuf = .more ∧ ∀ x ns st,
      Cuts (drainVerdict 0 0) (c.readBuf ++ x) ns st →
        Cuts (drainVerdict 0 0) (sofar ++ x) (c.cuts ++ ns) st

/-- What one read does to an open connection. -/
theorem Conn.onRead_open {mh mb : Int} {c : Conn} (hs : c.stop = none) (bytes : List UInt8) :
    ∃ pos ms, drainRequests mh mb (c.readBuf ++ bytes) = (pos, ms, (c.onRead mh mb bytes).stop) ∧
      (c.onRead mh mb bytes).readBuf = (c.readBuf ++ bytes).drop pos ∧
      (c.onRead mh mb bytes).cuts = c.cuts ++ ms := by
  simp only [Conn.onRead, hs]
  exact ⟨_, _, rfl, rfl, rfl⟩

/-- One read. -/
theorem Conn.MadeOf.onRead {c : Conn} {sofar : List UInt8} (hc : c.MadeOf sofar)
    (bytes : List UInt8) : (c.onRead 0 0 bytes).MadeOf (sofar ++ bytes) := by
  unfold Conn.MadeOf at hc ⊢
  cases hs : c.stop with
  | some e =>
      simp only [Conn.onRead, hs] at hc ⊢
      intro x
      rw [List.append_assoc]
      exact hc (bytes ++ x)
  | none =>
      simp only [hs] at hc
      obtain ⟨pos, ms, hr, hbuf, hcuts⟩ := @Conn.onRead_open 0 0 c hs bytes
      obtain ⟨-, hcut⟩ := cutAll_cuts drainVerdict_cutting (by decide) hr
      cases hst : (c.onRead 0 0 bytes).stop with
      | some e =>
          simp only [hst, CutFrom, List.drop_zero] at hcut ⊢
          intro x
          rw [List.append_assoc, hcuts]
          refine hc.2 (bytes ++ x) ms (some e) ?_
          rw [← List.append_assoc]
          exact hcut x
      | none =>
          simp only [hst, CutFrom, List.drop_zero] at hcut ⊢
          rw [hbuf, hcuts]
          refine ⟨hcut.1, fun x ns st hns => ?_⟩
          rw [List.append_assoc, List.append_assoc]
          refine hc.2 (bytes ++ x) (ms ++ ns) st ?_
          rw [← List.append_assoc]
          exact hcut.2 x ns st hns

theorem onReads_madeOf {reads : List (List UInt8)} {c : Conn} {sofar : List UInt8}
    (hc : c.MadeOf sofar) : (reads.foldl (Conn.onRead 0 0) c).MadeOf (sofar ++ reads.flatten) := by
  induction reads generalizing c sofar with
  | nil => simpa using hc
  | cons bytes reads ih =>
      rw [List.flatten_cons, ← List.append_assoc]
      exact ih (hc.onRead bytes)

/-- **The reads make of the stream what it is cut into.** -/
theorem onReads_cuts (reads : List (List UInt8)) :
    Cuts (drainVerdict 0 0) reads.flatten (Conn.onReads 0 0 reads).cuts
      (Conn.onReads 0 0 reads).stop := by
  have hinit : Conn.MadeOf {} [] := ⟨by decide, fun _ _ _ h => h⟩
  have hc : (Conn.onReads 0 0 reads).MadeOf ([] ++ reads.flatten) := onReads_madeOf hinit
  rw [List.nil_append] at hc
  generalize Conn.onReads 0 0 reads = c at hc
  obtain ⟨buf, cuts, stop⟩ := c
  cases stop with
  | some e => simpa using hc []
  | none =>
      obtain ⟨hm, hc⟩ := hc
      -- what is still buffered is waiting, and so is every prefix of it
      have hw : Cuts (drainVerdict 0 0) (buf ++ []) [] none := by
        refine .wait fun b hp => ?_
        rw [List.append_nil] at hp
        by_contra hb
        exact hb ((drainVerdict_stable.prefix_eq hp hb).symm.trans hm)
      simpa using hc [] [] none hw

/-- **The framer's answers are final, and requests do not depend on the reads.**  Without limits:
an answer `n` is within the buffer and is the answer on the first `n` bytes and on every longer
buffer; a malformed buffer stays malformed; and two ways to split one stream into reads give the
same requests and the same refusal. -/
theorem framing_final_and_split_independent :
    (∀ (b : List UInt8) (n : Nat), frameRequestLengthLimIdx b 0 0 = n →
      n ≤ b.length ∧ frameRequestLengthLimIdx (b.take n) 0 0 = n ∧
        ∀ ext, frameRequestLengthLimIdx (b ++ ext) 0 0 = n) ∧
    (∀ b ext : List UInt8, frameRequestLengthLimIdx b 0 0 = -400 →
      frameRequestLengthLimIdx (b ++ ext) 0 0 = -400) ∧
    (∀ reads reads' : List (List UInt8), reads.flatten = reads'.flatten →
      (Conn.onReads 0 0 reads).cuts = (Conn.onReads 0 0 reads').cuts ∧
        (Conn.onReads 0 0 reads).stop = (Conn.onReads 0 0 reads').stop) := by
  refine ⟨fun b n h => ?_, fun b ext h => ?_, fun reads reads' e => ?_⟩
  · obtain ⟨hn, hm⟩ := frameRequest_iff.mp (frameIdx_nat.mp h)
    refine ⟨hn, ?_, fun ext => ?_⟩
    · rw [frameIdx_nat, frameRequest_iff, List.length_take, List.take_take, Nat.min_self]
      exact ⟨by omega, hm⟩
    · rw [frameIdx_append (by omega), h]
  · rw [frameIdx_append (by rw [h]; decide), h]
  · have hc := onReads_cuts reads
    rw [e] at hc
    exact hc.unique drainVerdict_stable (onReads_cuts reads')

/-- Two pipelined requests in one read, and the same bytes in three; and a bare LF, whatever comes
behind it. -/
theorem framing_final_and_split_independent_pipelined :
    frameRequestLengthLimIdx
        (ascii "GET / HTTP/1.1\r\n\r\n" ++ ascii "GET / HTTP/1.0\r\n\r\n") 0 0 = 18 ∧
      frameRequestLengthLimIdx (ascii "GET /\n" ++ ascii "\r\n") 0 0 = -400 ∧
      (Conn.onReads 0 0
        [ascii "GET / HT", ascii "TP/1.1\r\n\r\nGET ", ascii "/ HTTP/1.0\r\n\r\n"]).cuts =
        [18, 18] := by
  obtain ⟨h₁, h₂, h₃⟩ := framing_final_and_split_independent
  refine ⟨(h₁ (ascii "GET / HTTP/1.1\r\n\r\n") 18 (by decide +kernel)).2.2 _,
    h₂ _ _ (by decide +kernel), ?_⟩
  rw [(h₃ _ [ascii "GET / HTTP/1.1\r\n\r\nGET / HTTP/1.0\r\n\r\n"] (by decide)).1]
  decide +kernel

end Vanilla.Backend

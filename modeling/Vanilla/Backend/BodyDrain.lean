import Vanilla.Backend.Definitions
import Vanilla.RequestParser.Framing

/-!
# Backend — the size of a body that is not buffered

While the framer waits for a body, `frame_expected_total` says how long the message will be.  The
three walkers over the head agree there: the answer is the framer's own, to come
(`expected_reads`), and what `start_body_drain` discards is the rest of the message
(`expected_total_authoritative`).
-/

namespace Vanilla.Backend
open Scan RequestParser

/-- The head at the front of `m` has Content-Length lines, and each of them declares `n`. -/
def Declares (m : List UInt8) (n : Int) : Prop :=
  ∃ (h : Head) (rest : List UInt8), m = h.bytes ++ rest ∧ h.Lines ∧
    (∃ l ∈ h.fields, Named clName l) ∧
    ∀ l ∈ h.fields, ∀ v, Field clName l v → Digits v ∧ (decValue 0 v : Int) = n

/-- Where the framer waits and `frame_expected_total` answers, the head is complete and declares a
length, and no Transfer-Encoding: the framer waits for that many bytes. -/
theorem expected_reads {buf : List UInt8} {mh mb t : Int}
    (hmore : frameRequest buf mh mb = .more) (ht : frameExpectedTotal buf = t) (h0 : 0 ≤ t) :
    ∃ (h : Head) (rest : List UInt8) (vs : List (List UInt8)) (n : Nat) (s : HeadState),
      buf = h.bytes ++ rest ∧ h.Lines ∧ Values clName h.fields vs ∧ vs ≠ [] ∧
      (∀ v ∈ vs, Digits v ∧ decValue 0 v = n) ∧ ¬ (0 < mb ∧ mb < (n : Int)) ∧
      headOf mh mb buf = .accept (h.requestLine.length + 1, s) ∧ s.pos + 2 = h.bytes.length ∧
      s.teSeen = false ∧ s.chunked = false ∧ s.contentLength = some n ∧
      t = (h.bytes.length + n : Nat) := by
  obtain ⟨h, rest, n, rfl, hl, hfold, hn⟩ := frameExpectedTotal_head ht (by omega)
  -- a complete head is not what the framer waits for
  rw [frameRequest_eq] at hmore
  cases hh : headOf mh mb (h.bytes ++ rest) with
  | more =>
      rw [headOf_head hl] at hh
      split at hh
      · cases hh
      · split at hh <;> cases hh
  | refuse e => rw [hh] at hmore; cases hmore
  | accept p =>
      obtain ⟨rl, s⟩ := p
      rw [hh, Verdict.bind_accept] at hmore
      obtain ⟨h', rest', vs, ws, e, hl', rfl, hpos, ha, hs, hmb⟩ := headOf_read hh
      obtain ⟨rfl, rfl⟩ := head_unique hl hl' e
      obtain ⟨v, hv, hnv⟩ : ∃ v ∈ vs, some n = some (decValue 0 v) :=
        (expectedFold_values ha.cl hfold).resolve_left (fun h => by cases h.2)
      obtain rfl : n = decValue 0 v := Option.some.inj hnv
      have hvs : vs ≠ [] := List.ne_nil_of_mem hv
      have hte : s.teSeen = false := by
        by_contra hte
        rw [Bool.not_eq_false] at hte
        rw [bodyVerdict, if_pos (by simp [hte, hs.isSome.mpr hvs])] at hmore
        cases hmore
      have hw : ws = [] := by
        by_contra hw
        rw [hs.teSeen.mpr hw] at hte
        cases hte
      have hch : s.chunked = false := by
        subst hw
        simpa [codingFold] using hs.codes.symm
      have hcl : s.contentLength = some (decValue 0 v) := by
        rcases hs.length with ⟨h, -⟩ | ⟨v', hv', e⟩
        · exact absurd h hvs
        · rw [e, ha.same v' hv' v hv]
      refine ⟨h, rest, vs, decValue 0 v, s, rfl, hl, ha.cl, hvs,
        fun v' hv' => ⟨(ha.digits v' hv').1, ha.same v' hv' v hv⟩, hmb v hv, rfl, hpos, hte, hch,
        hcl, hn⟩

/-- What the framer waits for then: its answers to come, and what `start_body_drain` makes of the
bytes so far. -/
theorem awaited {buf : List UInt8} {mh mb t : Int}
    (hmore : frameRequest buf mh mb = .more) (ht : frameExpectedTotal buf = t) (h0 : 0 ≤ t) :
    ∃ (h : Head) (rest : List UInt8), buf = h.bytes ++ rest ∧ h.Lines ∧ (buf.length : Int) < t ∧
      Declares h.bytes (t - h.bytes.length) ∧
      (∀ ext, frameRequest (buf ++ ext) mh mb =
        if t ≤ ((buf ++ ext).length : Int) then .accept t.toNat else .more) ∧
      startBodyDrain buf mb t = .draining h.bytes (t - buf.length) := by
  obtain ⟨h, rest, vs, n, s, rfl, hl, hv, hvs, hdec, hlim, hh, hpos, hte, hch, hcl, hn⟩ :=
    expected_reads hmore ht h0
  have hverdict : ∀ ext, frameRequest (h.bytes ++ rest ++ ext) mh mb =
      if t ≤ ((h.bytes ++ rest ++ ext).length : Int) then .accept t.toNat else .more := by
    intro ext
    rw [frameRequest_eq, headOf_stable mh mb _ ext (by rw [hh]; simp), hh, Verdict.bind_accept]
    simp only [bodyVerdict, hte, hch, hcl, hpos, hn, Bool.false_and, Bool.false_eq_true, if_false,
      Int.ofNat_le, Int.toNat_natCast]
  have hlt : ((h.bytes ++ rest).length : Int) < t := by
    by_contra hge
    have := hverdict []
    rw [List.append_nil, hmore, if_pos (by omega)] at this
    cases this
  have hlen : h.bytes.length ≤ (h.bytes ++ rest).length := by rw [List.length_append]; omega
  have hpos0 : h.bytes.length ≠ 0 := by rw [head_length]; omega
  refine ⟨h, rest, rfl, hl, hlt, ⟨h, [], by simp, hl, hv.ne_nil_iff.mp hvs, ?_⟩, hverdict, ?_⟩
  · intro l hm v hf
    obtain ⟨hd, e⟩ := hdec v (hv.mem hm hf)
    exact ⟨hd, by omega⟩
  · have hmb : ¬ (0 < mb ∧ mb < t - (h.bytes.length : Int)) := by
      intro hc; exact hlim ⟨hc.1, by omega⟩
    simp only [startBodyDrain, frameHeadLen_head hl rest, hpos0, Nat.not_lt.mpr hlen, or_self,
      if_false, if_neg hmb, List.take_left]
    rw [if_neg (by omega), show t - (h.bytes.length : Int) -
      ((h.bytes ++ rest).length - h.bytes.length) = t - (h.bytes ++ rest).length by omega]

theorem Declares.append {m : List UInt8} {n : Int} (h : Declares m n) (x : List UInt8) :
    Declares (m ++ x) n := by
  obtain ⟨hd, rest, rfl, hl, hcl, hdec⟩ := h
  exact ⟨hd, rest ++ x, List.append_assoc _ _ _, hl, hcl, hdec⟩

/-- **The size hint is authoritative.**  Where the framer waits and `frame_expected_total` answers
`t`: the buffer is shorter, `t` is the head's length and the declared Content-Length, the framer
answers `t` as soon as that many bytes are there, and `start_body_drain` discards the rest. -/
theorem expected_total_authoritative (b : List UInt8) (mh mb t : Int)
    (hmore : frameRequestLengthLimIdx b mh mb = -1) (ht : frameExpectedTotal b = t) (h0 : 0 ≤ t) :
    (b.length : Int) < t ∧
      ∃ headLen : Nat, frameHeadLen b = some headLen ∧ Declares b (t - headLen) ∧
        (∀ ext, frameRequestLengthLimIdx (b ++ ext) mh mb =
          if t ≤ ((b ++ ext).length : Int) then t else -1) ∧
        startBodyDrain b mb t = .draining (b.take headLen) (t - b.length) := by
  rw [frameIdx_more] at hmore
  obtain ⟨h, rest, rfl, hl, hlt, hdec, hverdict, hdrain⟩ := awaited hmore ht h0
  refine ⟨hlt, h.bytes.length, frameHeadLen_head hl rest, hdec.append rest, fun ext => ?_, ?_⟩
  · by_cases hle : t ≤ ((h.bytes ++ rest ++ ext).length : Int)
    · simp only [frameRequestLengthLimIdx, hverdict ext, if_pos hle]
      exact Int.toNat_of_nonneg h0
    · simp only [frameRequestLengthLimIdx, hverdict ext, if_neg hle]
  · rw [hdrain, List.take_left]

/-- A request whose body has not arrived. -/
theorem expected_total_authoritative_post :
    startBodyDrain (ascii "POST / HTTP/1.1\r\nContent-Length: 9\r\n\r\nab") 0 47 =
      .draining (ascii "POST / HTTP/1.1\r\nContent-Length: 9\r\n\r\n") 7 := by
  obtain ⟨-, headLen, hhead, -, -, hdrain⟩ := expected_total_authoritative
    (ascii "POST / HTTP/1.1\r\nContent-Length: 9\r\n\r\nab") 0 0 47 (by decide +kernel)
    (by decide +kernel) (by decide)
  obtain rfl : headLen = 38 := Option.some.inj (hhead.symm.trans (by decide +kernel))
  exact hdrain

end Vanilla.Backend

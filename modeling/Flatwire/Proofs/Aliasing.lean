import Mathlib.Algebra.BigOperators.Ring.Finset
import Mathlib.Algebra.Order.BigOperators.Group.Finset
import Mathlib.Order.Interval.Finset.Nat
import Flatwire.Proofs.Metering

/-! Payloads that share bytes. A checked walk pays for every payload, out of a budget of as many bytes as the buffer has.
If it cannot pay, two of the payloads share a byte. It may pay though some do: the bytes that are paid for twice are
made up for by bytes that no payload has. -/

namespace Flatwire

namespace Payload

/-- The byte belongs to the payload. -/
def Covers (p : Payload) (k : Nat) : Prop := p.start ≤ k ∧ k < p.start + p.size

instance (p : Payload) (k : Nat) : Decidable (p.Covers k) := inferInstanceAs (Decidable (_ ∧ _))

def Apart (p q : Payload) : Prop := ∀ k, ¬ (p.Covers k ∧ q.Covers k)

/-- How many of the payloads have the byte. -/
def coverage (ps : List Payload) (k : Nat) : Nat := ps.countP fun p => p.Covers k

variable {p : Payload} {ps : List Payload} {buf : Buffer}

theorem coverage_cons (p : Payload) (ps : List Payload) (k : Nat) :
    coverage (p :: ps) k = coverage ps k + if p.Covers k then 1 else 0 := by
  rw [coverage, List.countP_cons, coverage]
  simp

theorem Lies.covers_lt (h : p.Lies buf) {k : Nat} (hk : p.Covers k) : k < buf.size := by
  unfold Lies Covers at *
  omega

theorem Lies.card_covers (h : p.Lies buf) : ((Finset.range buf.size).filter p.Covers).card = p.size := by
  have hset : (Finset.range buf.size).filter p.Covers = Finset.Ico p.start (p.start + p.size) := by
    ext k
    rw [Finset.mem_filter, Finset.mem_range, Finset.mem_Ico]
    exact ⟨fun hk => hk.2, fun hk => ⟨h.covers_lt hk, hk⟩⟩
  rw [hset, Nat.card_Ico, Nat.add_sub_cancel_left]

theorem sum_coverage (h : ∀ p ∈ ps, p.Lies buf) : ∑ k ∈ Finset.range buf.size, coverage ps k = total ps := by
  induction ps with
  | nil => simp [coverage, total]
  | cons p ps ih =>
    obtain ⟨hp, hps⟩ := List.forall_mem_cons.1 h
    simp only [coverage_cons]
    rw [Finset.sum_add_distrib, ih hps, ← Finset.card_filter, hp.card_covers, total_cons, Nat.add_comm]

theorem pairwise_apart_iff : ps.Pairwise Apart ↔ ∀ k, coverage ps k ≤ 1 := by
  induction ps with
  | nil => simp [coverage]
  | cons p ps ih =>
    rw [List.pairwise_cons, ih]
    constructor
    · rintro ⟨hp, hps⟩ k
      rw [coverage_cons]
      split_ifs with hk
      · have hzero : coverage ps k = 0 := by
          rw [coverage, List.countP_eq_zero]
          intro q hq
          simpa using fun hqk => hp q hq k ⟨hk, hqk⟩
        omega
      · exact hps k
    · intro h
      refine ⟨fun q hq k hk => ?_, fun k => ?_⟩
      · have hpos : 0 < coverage ps k := List.countP_pos_iff.2 ⟨q, hq, by simpa using hk.2⟩
        have := h k
        rw [coverage_cons, if_pos hk.1] at this
        omega
      · have := h k
        rw [coverage_cons] at this
        omega

theorem exists_shared (h : ∀ p ∈ ps, p.Lies buf) (hlt : buf.size < total ps) :
    ∃ (i j : Nat) (p q : Payload), i < j ∧ ps[i]? = some p ∧ ps[j]? = some q ∧
      ∃ k < buf.size, p.Covers k ∧ q.Covers k := by
  have hnot : ¬ ps.Pairwise Apart := by
    intro hapart
    have hle : ∑ k ∈ Finset.range buf.size, coverage ps k ≤ ∑ k ∈ Finset.range buf.size, 1 :=
      Finset.sum_le_sum fun k _ => pairwise_apart_iff.1 hapart k
    rw [sum_coverage h] at hle
    simp at hle
    omega
  simp only [List.pairwise_iff_getElem, Apart, not_forall, not_not] at hnot
  obtain ⟨i, j, hi, hj, hij, k, hki, hkj⟩ := hnot
  exact ⟨i, j, ps[i], ps[j], hij, List.getElem?_eq_getElem hi, List.getElem?_eq_getElem hj, k,
    (h _ (List.getElem_mem hi)).covers_lt hki, hki, hkj⟩

theorem sum_excess_le (h : ∀ p ∈ ps, p.Lies buf) (hle : total ps ≤ buf.size) :
    ∑ k ∈ Finset.range buf.size, (coverage ps k - 1) ≤
      ((Finset.range buf.size).filter fun k => coverage ps k = 0).card := by
  have hpoint : ∀ k, coverage ps k - 1 + 1 = coverage ps k + if coverage ps k = 0 then 1 else 0 := by
    intro k
    split_ifs <;> omega
  have hsum : ∑ k ∈ Finset.range buf.size, (coverage ps k - 1 + 1) =
      ∑ k ∈ Finset.range buf.size, (coverage ps k + if coverage ps k = 0 then 1 else 0) :=
    Finset.sum_congr rfl fun k _ => hpoint k
  rw [Finset.sum_add_distrib, Finset.sum_add_distrib, sum_coverage h, ← Finset.card_filter] at hsum
  simp at hsum
  omega

theorem pairwise_apart_of_full (h : ∀ p ∈ ps, p.Lies buf) (hle : total ps ≤ buf.size)
    (hfull : ∀ k < buf.size, coverage ps k ≠ 0) : ps.Pairwise Apart := by
  have hexcess := sum_excess_le h hle
  have hnone : ((Finset.range buf.size).filter fun k => coverage ps k = 0) = ∅ :=
    Finset.filter_eq_empty_iff.2 fun k hk => hfull k (Finset.mem_range.1 hk)
  rw [hnone, Finset.card_empty, Nat.le_zero, Finset.sum_eq_zero_iff] at hexcess
  refine pairwise_apart_iff.2 fun k => ?_
  by_cases hk : k < buf.size
  · have := hexcess k (Finset.mem_range.2 hk)
    omega
  · have hzero : coverage ps k = 0 := by
      rw [coverage, List.countP_eq_zero]
      intro p hp
      simpa using fun hpk => hk ((h p hp).covers_lt hpk)
    omega

end Payload

namespace Reader

variable {r : Reader}

def payloads (r : Reader) : List Payload := r.payments.map Payment.payload

/-- The payloads that decoding would follow if nothing had to be paid. -/
def references (r : Reader) : List Payload := (Flatwire.payments r.depth r (-1)).map Payment.payload

theorem payments_eq (hc : r.checked = true) : r.payments = Flatwire.payments r.depth r r.buf.size := by
  rw [payments, hc]
  rfl

theorem payloads_lie (hc : r.checked = true) : ∀ p ∈ r.payloads, p.Lies r.buf := by
  intro p hp
  obtain ⟨x, hx, rfl⟩ := List.mem_map.1 hp
  exact payments_lie r.depth r hc rfl _ x hx

theorem exists_meters (r : Reader) :
    ∃ out, Meters (decodeAux r.depth r) (Flatwire.payments r.depth r) r.references out := by
  obtain ⟨ps, out, h⟩ := decodeAux_metered r.depth r
  have hps : r.references = ps := (h.unlimited (-1) (by decide)).2
  exact ⟨out, hps ▸ h⟩

theorem payments_billed (hc : r.checked = true) : r.payments = bill r.buf.size r.references := by
  obtain ⟨out, h⟩ := r.exists_meters
  rw [payments_eq hc, h.billed _ (Int.natCast_nonneg _)]

theorem decode_eq (hc : r.checked = true) : r.decode = (decodeAux r.depth r r.buf.size).map Prod.fst := by
  rw [decode, if_pos hc]
  cases decodeAux r.depth r r.buf.size <;> rfl

theorem decode_overlap_iff (hc : r.checked = true) :
    (∃ e, r.decode = .error e ∧ e.cause.kind? = some .overlap) ↔ r.buf.size < Payload.total r.references := by
  obtain ⟨out, h⟩ := r.exists_meters
  rw [decode_eq hc]
  constructor
  · rintro ⟨e, he, hk⟩
    by_contra hle
    rw [h.lasts _ (by omega)] at he
    cases out with
    | ok v => cases he
    | error e' =>
      cases he
      exact h.calm e rfl hk
  · intro hlt
    obtain ⟨e, he, hk⟩ := h.runsOut r.buf.size (by omega) (by omega)
    exact ⟨e, by rw [he]; rfl, hk⟩

theorem walk_eq_ok_iff {v : Value} {left : Int} :
    decodeAux r.depth r r.buf.size = .ok (v, left) ↔
      decodeAux r.depth r (-1) = .ok (v, -1) ∧ Payload.total r.references ≤ r.buf.size ∧
        left = r.buf.size - Payload.total r.references := by
  obtain ⟨out, h⟩ := r.exists_meters
  rw [(h.unlimited (-1) (by decide)).1]
  by_cases hle : Payload.total r.references ≤ r.buf.size
  · rw [h.lasts _ (by omega)]
    cases out with
    | error e => simp [Except.map]
    | ok w => simp [Except.map, hle, eq_comm]
  · obtain ⟨e, he, -⟩ := h.runsOut r.buf.size (by omega) (by omega)
    simp [he, hle]

theorem payloads_eq_references (hc : r.checked = true) (hle : Payload.total r.references ≤ r.buf.size) :
    r.payloads = r.references := by
  rw [payloads, payments_billed hc]
  exact map_bill_of_le (by omega)

/-- A checked walk that fails with an overlap has come to two payloads that share a byte of the buffer, the last of them
maybe the one that it could not pay for. What is left to spend is never negative, and no more is paid than the buffer
has bytes. -/
theorem overlap_shares_byte (hc : r.checked = true) :
    (∀ e, r.decode = .error e → e.cause.kind? = some .overlap →
      ∃ (i j : Nat) (p q : Payload), i < j ∧ r.payloads[i]? = some p ∧ r.payloads[j]? = some q ∧
        ∃ k < r.buf.size, p.Covers k ∧ q.Covers k) ∧
    (∀ (i : Nat) (x : Payment), r.payments[i]? = some x →
      0 ≤ x.budget ∧ x.budget = r.buf.size - Payload.total (r.payloads.take i)) ∧
    Payload.total ((r.payments.filter Payment.paid).map Payment.payload) ≤ r.buf.size ∧
    ∀ v left, decodeAux r.depth r r.buf.size = .ok (v, left) →
      0 ≤ left ∧ left = r.buf.size - Payload.total r.payloads := by
  have hbill := payments_billed hc
  refine ⟨fun e he hk => ?_, fun i x hx => ?_, ?_, fun v left hv => ?_⟩
  · have hlt := (decode_overlap_iff hc).1 ⟨e, he, hk⟩
    have hmore : (r.buf.size : Int) < Payload.total r.payloads := by
      rw [payloads, hbill]
      exact lt_total_bill (by omega)
    exact Payload.exists_shared (payloads_lie hc) (by omega)
  · rw [hbill] at hx
    rw [payloads, ← List.map_take, hbill]
    exact bill_budget (Int.natCast_nonneg _) hx
  · have hpaid := @total_paid_le r.buf.size r.references (Int.natCast_nonneg _)
    rw [← hbill] at hpaid
    omega
  · obtain ⟨-, hle, rfl⟩ := walk_eq_ok_iff.1 hv
    rw [payloads_eq_references hc hle]
    exact ⟨by omega, rfl⟩

end Reader

/-- Two texts side by side. -/
def Schema.couple : Schema where
  name := "couple"
  types := #[.string, .sequence ⟨"S", 4, [⟨"a", 0, 0⟩, ⟨"b", 2, 0⟩]⟩]
  decls := [1]
  oneOfs := []

/-- Both slots point at the one text, which the buffer is too short to pay for twice. -/
theorem Reader.overlap_shares_byte_couple :
    let r : Reader := ⟨Schema.couple, #[4, 0, 2, 0, 104, 101, 108, 108, 111, 0], #[], true, 1, 0⟩
    r.payments = [⟨⟨4, 6⟩, 10⟩, ⟨⟨4, 6⟩, 4⟩] ∧ r.decode = .error ⟨[.field "S" "b"], .overlap 6 2 10⟩ ∧
      ∃ (i j : Nat) (p q : Payload), i < j ∧ r.payloads[i]? = some p ∧ r.payloads[j]? = some q ∧
        ∃ k < 10, p.Covers k ∧ q.Covers k := by
  intro r
  have hfail : (⟨Schema.couple, #[4, 0, 2, 0, 104, 101, 108, 108, 111, 0], #[], true, 1, 0⟩ : Reader).decode =
      .error ⟨[.field "S" "b"], .overlap 6 2 10⟩ := by rfl
  exact ⟨by decide +kernel, hfail, (Reader.overlap_shares_byte (r := r) rfl).1 _ hfail rfl⟩

namespace Schema

theorem couple_lawful : couple.Lawful where
  refs id t h := (by decide : ∀ t ∈ couple.types.toList, ∀ ref ∈ t.refs, ref < couple.types.size) t (type?_mem h)
  acyclic := by
    apply not_transGen_of_rank fun id => id
    rintro a b ⟨q, hq, f, hf, rfl⟩
    have ha : a < 2 := type?_lt hq
    interval_cases a <;> cases hq
    revert f
    decide
  contiguous id t h := (by decide : ∀ t ∈ couple.types.toList, t.Contiguous couple) t (type?_mem h)
  lists := by
    refine ⟨fun a => ⟨a, fun b h => ?_⟩⟩
    have hb : a < 2 := type?_lt h
    unfold Lists at h
    interval_cases a <;> cases h
  distinct id t h := (by decide : ∀ t ∈ couple.types.toList, t.Distinct) t (type?_mem h)

variable {s : Schema} {id : TypeId} {buf : Buffer} {r : Reader}

theorem validate_eq_ok_iff (hr : Reader.ofBuffer s id buf true = .ok r) :
    s.validate id buf = .ok () ↔
      (∃ v, decodeAux r.depth r (-1) = .ok (v, -1)) ∧ Payload.total r.references ≤ buf.size := by
  obtain ⟨t, -, -, rfl⟩ := Reader.ofBuffer_eq_ok.1 hr
  set r : Reader := ⟨s, buf, #[], true, id, 0⟩
  have hdecode : s.validate id buf = .ok () ↔ ∃ v left, decodeAux r.depth r r.buf.size = .ok (v, left) := by
    rw [validate, hr]
    dsimp only
    rw [Reader.decode_eq rfl]
    cases hwalk : decodeAux r.depth r r.buf.size with
    | error e => simp [Except.map]
    | ok x =>
      obtain ⟨v, left⟩ := x
      simp [Except.map]
  rw [hdecode]
  simp only [Reader.walk_eq_ok_iff]
  constructor
  · rintro ⟨v, left, hv, hle, -⟩
    exact ⟨⟨v, hv⟩, hle⟩
  · rintro ⟨⟨v, hv⟩, hle⟩
    exact ⟨v, _, hv, hle, rfl⟩

/-- A buffer is accepted exactly if it would be without a budget and its payloads together have no more bytes than it.
So payloads may share bytes, but no more than are left over elsewhere: they are apart if every byte belongs to one. -/
theorem validate_iff_affordable (hr : Reader.ofBuffer s id buf true = .ok r) :
    (s.validate id buf = .ok () ↔
      (∃ v, decodeAux r.depth r (-1) = .ok (v, -1)) ∧ Payload.total r.references ≤ buf.size) ∧
    (s.validate id buf = .ok () →
      r.payloads = r.references ∧
      ∑ k ∈ Finset.range buf.size, (Payload.coverage r.payloads k - 1) ≤
        ((Finset.range buf.size).filter fun k => Payload.coverage r.payloads k = 0).card ∧
      ((∀ k < buf.size, Payload.coverage r.payloads k ≠ 0) → r.payloads.Pairwise Payload.Apart)) := by
  have hiff := validate_eq_ok_iff hr
  refine ⟨hiff, fun hok => ?_⟩
  have hle := (hiff.1 hok).2
  obtain ⟨t, -, -, rfl⟩ := Reader.ofBuffer_eq_ok.1 hr
  set r : Reader := ⟨s, buf, #[], true, id, 0⟩
  have heq := Reader.payloads_eq_references (r := r) rfl hle
  have hlie := Reader.payloads_lie (r := r) rfl
  have htotal : Payload.total r.payloads ≤ buf.size := heq ▸ hle
  exact ⟨heq, Payload.sum_excess_le hlie htotal, Payload.pairwise_apart_of_full hlie htotal⟩

/-- Both slots point at the one text, and the bytes of the slots pay for it a second time. -/
theorem validate_aliased :
    let r : Reader := ⟨couple, #[4, 0, 2, 0, 104, 105, 0], #[], true, 1, 0⟩
    couple.Lawful ∧ Reader.ofBuffer couple 1 r.buf true = .ok r ∧ couple.validate 1 r.buf = .ok () ∧
      r.payloads = [⟨4, 3⟩, ⟨4, 3⟩] ∧ ¬ r.payloads.Pairwise Payload.Apart := by
  intro r
  have hpayloads : r.payloads = [⟨4, 3⟩, ⟨4, 3⟩] := by decide +kernel
  refine ⟨couple_lawful, rfl, by decide +kernel, hpayloads, fun h => ?_⟩
  rw [hpayloads, Payload.pairwise_apart_iff] at h
  exact absurd (h 4) (by decide)

theorem validate_iff_affordable_couple :
    let r : Reader := ⟨couple, #[4, 0, 2, 0, 104, 105, 0], #[], true, 1, 0⟩
    couple.validate 1 r.buf = .ok () ∧
      ∑ k ∈ Finset.range 7, (Payload.coverage r.payloads k - 1) ≤
        ((Finset.range 7).filter fun k => Payload.coverage r.payloads k = 0).card := by
  intro r
  have hr : Reader.ofBuffer couple 1 r.buf true = .ok r := rfl
  have hok : couple.validate 1 r.buf = .ok () := by decide +kernel
  exact ⟨hok, ((validate_iff_affordable hr).2 hok).2.1⟩

end Schema

end Flatwire

import Mathlib.Order.Defs.LinearOrder
import Flatwire.Proofs.Reference

/-! Numbers and the bytes that store them. A float of a format fits its bits, two's complement loses no number in range,
and the declared numbers of an enum fit its width: what is stored for a value can be read back whole. -/

namespace Flatwire

namespace FloatFormat

theorem signBit_le (f : FloatFormat) (negative : Bool) :
    f.signBit negative ≤ Nat.pow 2 (f.fractionBits + f.exponentBits) := by
  unfold signBit
  split
  · exact Nat.le_refl _
  · exact Nat.zero_le _

theorem topField_mul (f : FloatFormat) :
    f.topField * Nat.pow 2 f.fractionBits + Nat.pow 2 f.fractionBits = Nat.pow 2 (f.fractionBits + f.exponentBits) := by
  have hpos : 0 < Nat.pow 2 f.exponentBits := Nat.two_pow_pos _
  have hsplit : Nat.pow 2 (f.fractionBits + f.exponentBits) = Nat.pow 2 f.fractionBits * Nat.pow 2 f.exponentBits :=
    Nat.pow_add _ _ _
  rw [← Nat.succ_mul, topField, Nat.succ_eq_add_one, Nat.sub_add_cancel hpos, hsplit, Nat.mul_comm]

theorem infinity_add_lt (f : FloatFormat) (negative : Bool) {fraction : Nat} (h : fraction < Nat.pow 2 f.fractionBits) :
    f.infinity negative + fraction < Nat.pow 2 (f.fractionBits + f.exponentBits + 1) := by
  have hs := f.signBit_le negative
  have ht := f.topField_mul
  have hd : Nat.pow 2 (f.fractionBits + f.exponentBits + 1) = Nat.pow 2 (f.fractionBits + f.exponentBits) * 2 := rfl
  rw [infinity, hd]
  omega

theorem encode_lt (f : FloatFormat) (negative : Bool) (mantissa : Nat) (exponent : Int) :
    f.encode negative mantissa exponent < Nat.pow 2 (f.fractionBits + f.exponentBits + 1) := by
  have hpos : 0 < Nat.pow 2 f.fractionBits := Nat.two_pow_pos _
  have hinf := f.infinity_add_lt negative hpos
  have hi : f.infinity negative = f.signBit negative + f.topField * Nat.pow 2 f.fractionBits := rfl
  simp only [encode]
  split_ifs <;> omega

theorem convert_lt (f g : FloatFormat) (hg : 0 < g.fractionBits) (bits : Nat) :
    f.convert g bits < Nat.pow 2 (g.fractionBits + g.exponentBits + 1) := by
  have hpos : 0 < Nat.pow 2 g.fractionBits := Nat.two_pow_pos _
  unfold convert
  split
  · rename_i negative fraction _
    have hq : Nat.pow 2 g.fractionBits = Nat.pow 2 (g.fractionBits - 1) * 2 := (Nat.two_pow_pred_mul_two hg).symm
    have hm : fraction * Nat.pow 2 g.fractionBits / Nat.pow 2 f.fractionBits % Nat.pow 2 (g.fractionBits - 1) <
        Nat.pow 2 (g.fractionBits - 1) := Nat.mod_lt _ (Nat.two_pow_pos _)
    dsimp only
    rw [Nat.add_assoc]
    exact g.infinity_add_lt negative (by omega)
  · rename_i negative _
    exact g.infinity_add_lt negative hpos
  · exact g.encode_lt _ _ _

end FloatFormat

theorem pow_two_mul_eight (n : Nat) : Nat.pow 2 (8 * n) = Nat.pow 256 n := Nat.pow_mul 2 8 n

theorem unsigned_lt (n : Nat) (v : Int) : unsigned n v < Nat.pow 256 n := by
  have hpos : 0 < Nat.pow 2 (8 * n) := Nat.two_pow_pos _
  have hlt := Int.emod_lt_of_pos v (Int.natCast_pos.2 hpos)
  have hnn := Int.emod_nonneg v (Int.natCast_ne_zero.2 (Nat.ne_of_gt hpos))
  rw [← pow_two_mul_eight, unsigned]
  omega

theorem unsigned_of_nonneg {n : Nat} {v : Int} (h0 : 0 ≤ v) (h : v < Nat.pow 2 (8 * n)) : (unsigned n v : Int) = v := by
  rw [unsigned, Int.emod_eq_of_lt h0 h, Int.toNat_of_nonneg h0]

theorem signed_unsigned {n : Nat} (hn : 0 < n) {v : Int} (hlo : -(Nat.pow 2 (8 * n - 1) : Nat) ≤ v)
    (hhi : v < Nat.pow 2 (8 * n - 1)) : signed n (unsigned n v) = v := by
  have hhalf : Nat.pow 2 (8 * n) = Nat.pow 2 (8 * n - 1) * 2 := (Nat.two_pow_pred_mul_two (by omega)).symm
  rw [signed]
  -- a negative number is stored as one from the upper half
  rcases Int.lt_or_le v 0 with hneg | hpos
  · have hu : (unsigned n v : Int) = v + (Nat.pow 2 (8 * n) : Nat) := by
      rw [unsigned, ← Int.add_emod_right, Int.emod_eq_of_lt (by omega) (by omega), Int.toNat_of_nonneg (by omega)]
    rw [if_neg (by omega), hu]
    omega
  · have hu := unsigned_of_nonneg hpos (show v < Nat.pow 2 (8 * n) by omega)
    rw [if_pos (by omega), hu]

namespace PrimitiveKind

/-- The value that a stored number stands for. -/
def restored (k : PrimitiveKind) (n : Nat) : Value :=
  if k = .bool then .bool (n != 0)
  else if k.isFloat then .f64 (if k = .f32 then FloatFormat.convert .single .double n else n)
  else if k.isSigned then .i64 (signed k.size n)
  else .u64 n

/-- A value of the kind as it is read back: integers in 64 bits, and floats in double precision after they were rounded
to the kind. -/
def decoded (k : PrimitiveKind) (v : Value) : Value :=
  match k, v with
  | .bool, v => v
  | .f32, v => .f64 (FloatFormat.convert .single .double (FloatFormat.convert .double .single (v.toFloat?.getD 0)))
  | .f64, v => .f64 (v.toFloat?.getD 0 % Nat.pow 2 64)
  | k, .int x => if k.isSigned then .i64 x.value else .u64 x.value.toNat
  | _, v => v

theorem restored_integer {k : PrimitiveKind} (hb : k ≠ .bool) (hf : k.isFloat = false) {n : Int}
    (h : k.range.1 ≤ n ∧ n ≤ k.range.2) :
    k.restored (unsigned k.size n) = if k.isSigned then .i64 n else .u64 n.toNat := by
  have hpos : 0 < k.size := by cases k <;> decide
  rw [restored, if_neg hb, hf, if_neg Bool.false_ne_true]
  cases hk : k.isSigned with
  | true =>
    simp only [range, hk, if_true] at h ⊢
    rw [signed_unsigned hpos h.1 (by omega)]
  | false =>
    simp only [range, hk, Bool.false_eq_true, if_false] at h ⊢
    have hstored := unsigned_of_nonneg h.1 (show n < Nat.pow 2 (8 * k.size) by omega)
    rw [← hstored, Int.toNat_natCast, hstored]

theorem restored_number? {k : PrimitiveKind} {v : Value} {n : Nat} (h : k.number? v = some n) :
    k.restored (n % Nat.pow 256 k.size) = k.decoded v := by
  have integer : k ≠ .bool → k.isFloat = false → (v.between? k.range.1 k.range.2).map (unsigned k.size) = some n →
      ∃ x, v = .int x ∧ k.restored (n % Nat.pow 256 k.size) = if k.isSigned then .i64 x.value else .u64 x.value.toNat := by
    intro hb hf h
    obtain ⟨m, hm, rfl⟩ := Option.map_eq_some_iff.1 h
    obtain ⟨x, hv, rfl, hx⟩ := Value.between?_eq_some_iff.1 hm
    exact ⟨x, hv, by rw [Nat.mod_eq_of_lt (unsigned_lt _ _), restored_integer hb hf hx]⟩
  cases k with
  | bool =>
    cases v <;> cases h
    rename_i b
    cases b <;> rfl
  | f32 =>
    obtain ⟨bits, hbits, rfl⟩ := Option.map_eq_some_iff.1 h
    have hlt : FloatFormat.convert .double .single bits < Nat.pow 256 f32.size :=
      FloatFormat.convert_lt .double .single (by decide) bits
    rw [decoded, hbits, Nat.mod_eq_of_lt hlt]
    rfl
  | f64 =>
    have hbits : v.toFloat? = some n := h
    rw [decoded, hbits]
    rfl
  | u8 | u16 | u32 | u64 | i8 | i16 | i32 | i64 =>
    obtain ⟨x, rfl, hx⟩ := integer (by decide) rfl h
    exact hx

end PrimitiveKind

theorem le_maxValue {variants : List EnumVariant} {v : EnumVariant} (h : v ∈ variants) :
    v.value.toNat ≤ (maxValue variants).toNat := by
  have step : ∀ (vs : List EnumVariant) (m : UInt64),
      m.toNat ≤ (vs.foldl (fun m v => max m v.value) m).toNat ∧
        ∀ v ∈ vs, v.value.toNat ≤ (vs.foldl (fun m v => max m v.value) m).toNat := by
    intro vs
    induction vs with
    | nil => simp
    | cons w ws ih =>
      intro m
      have hm : m.toNat ≤ (max m w.value).toNat ∧ w.value.toNat ≤ (max m w.value).toNat := by
        simp only [UInt64.max_def, ← UInt64.le_iff_toNat_le]
        split_ifs <;> grind
      obtain ⟨hle, hws⟩ := ih (max m w.value)
      refine ⟨Nat.le_trans hm.1 hle, fun v hv => ?_⟩
      rcases List.mem_cons.1 hv with rfl | hv
      · exact Nat.le_trans hm.2 hle
      · exact hws v hv
  exact (step variants 0).2 v h

theorem lt_enumWidth {m : UInt64} {n : Nat} (h : n ≤ m.toNat) : n < Nat.pow 256 (enumWidth m).toNat := by
  have hm := m.toNat_lt
  unfold enumWidth
  split_ifs with h1 h2 h3
  · exact Nat.lt_of_le_of_lt h (UInt64.lt_iff_toNat_lt.1 h1)
  · exact Nat.lt_of_le_of_lt h (UInt64.lt_iff_toNat_lt.1 h2)
  · exact Nat.lt_of_le_of_lt h (UInt64.lt_iff_toNat_lt.1 h3)
  · exact Nat.lt_of_le_of_lt h hm

theorem EnumType.number?_declared {e : EnumType} {v : Value} {n : UInt64} (h : e.number? v = some n) :
    ∃ m ∈ e.variants, m.value = n := by
  cases v with
  | text name =>
    obtain ⟨m, hm, rfl⟩ := Option.map_eq_some_iff.1 h
    exact ⟨m, List.mem_of_find?_eq_some hm, rfl⟩
  | int x =>
    obtain ⟨-, hn⟩ := Option.filter_eq_some_iff.1 h
    simpa using hn
  | nil | bool | f32 | f64 | bytes | list | record | variant | variantRef | foreign => cases h

theorem EnumType.number?_lt {e : EnumType} (he : TypeDef.Distinct (.enum e)) {v : Value} {n : UInt64}
    (h : e.number? v = some n) : n.toNat < Nat.pow 256 e.width.toNat := by
  obtain ⟨m, hm, rfl⟩ := number?_declared h
  rw [he.2.2]
  exact lt_enumWidth (le_maxValue hm)

end Flatwire

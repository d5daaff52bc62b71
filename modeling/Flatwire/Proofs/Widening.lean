import Mathlib.Tactic.Ring
import Flatwire.Proofs.Numbers

/-! Floats in a wider format. Widening a number is exact, so narrowing it again gives back its bits; of what is no
number the first fraction bit is set by the first conversion, and from then on nothing changes. -/

namespace Flatwire

theorem roundShift_zero (m : Nat) : roundShift m 0 = m := by
  simp [roundShift, Nat.mod_one]

theorem roundShift_scale (m j k : Nat) : roundShift (m * Nat.pow 2 k) (j + k) = roundShift m j := by
  have hk : 0 < Nat.pow 2 k := Nat.two_pow_pos k
  have hsplit : Nat.pow 2 (j + k) = Nat.pow 2 j * Nat.pow 2 k := Nat.pow_add 2 j k
  have hgt : 2 * (m % Nat.pow 2 j * Nat.pow 2 k) > Nat.pow 2 j * Nat.pow 2 k ↔
      2 * (m % Nat.pow 2 j) > Nat.pow 2 j := by
    rw [← Nat.mul_assoc]
    exact Nat.mul_lt_mul_right hk
  have heq : 2 * (m % Nat.pow 2 j * Nat.pow 2 k) = Nat.pow 2 j * Nat.pow 2 k ↔
      2 * (m % Nat.pow 2 j) = Nat.pow 2 j := by
    rw [← Nat.mul_assoc]
    exact Nat.mul_left_inj (Nat.ne_of_gt hk)
  simp only [roundShift, hsplit, Nat.mul_div_mul_right _ _ hk, Nat.mul_mod_mul_right, hgt, heq]

theorem log2_scale {m : Nat} (hm : m ≠ 0) (k : Nat) : (m * Nat.pow 2 k).log2 = m.log2 + k := by
  have hk : 0 < Nat.pow 2 k := Nat.two_pow_pos k
  rw [Nat.log2_eq_iff (Nat.mul_ne_zero hm (Nat.ne_of_gt hk)), Nat.pow_add, show m.log2 + k + 1 = m.log2 + 1 + k by omega,
    Nat.pow_add]
  exact ⟨Nat.mul_le_mul_right _ (Nat.log2_self_le hm), (Nat.mul_lt_mul_right hk).2 Nat.lt_log2_self⟩

theorem log2_le {m k : Nat} (h : m < Nat.pow 2 (k + 1)) : m.log2 ≤ k := by
  rcases Nat.eq_zero_or_pos m with rfl | hpos
  · exact Nat.zero_le k
  · exact Nat.le_of_lt_succ ((Nat.log2_lt (Nat.ne_of_gt hpos)).2 h)

namespace FloatFormat

variable {f : FloatFormat}

/-- The bits of a sign, an exponent field and a fraction. -/
def pack (f : FloatFormat) (negative : Bool) (field fraction : Nat) : Nat :=
  f.signBit negative + field * Nat.pow 2 f.fractionBits + fraction

/-- What the parts of a bit pattern stand for. -/
def meaning (f : FloatFormat) (negative : Bool) (field fraction : Nat) : FloatValue :=
  if field = f.topField then if fraction = 0 then .infinite negative else .nan negative fraction
  else if field = 0 then .finite negative fraction f.leastExponent
  else .finite negative (Nat.pow 2 f.fractionBits + fraction) (f.leastExponent + (field - 1 : Nat))

theorem pow_add (f : FloatFormat) :
    Nat.pow 2 (f.fractionBits + f.exponentBits) = Nat.pow 2 f.fractionBits * Nat.pow 2 f.exponentBits :=
  Nat.pow_add 2 _ _

theorem exists_pack {bits : Nat} (h : bits < Nat.pow 2 (f.fractionBits + f.exponentBits + 1)) :
    ∃ negative field fraction, field < Nat.pow 2 f.exponentBits ∧ fraction < Nat.pow 2 f.fractionBits ∧
      bits = f.pack negative field fraction := by
  have hP : 0 < Nat.pow 2 f.fractionBits := Nat.two_pow_pos _
  have hQ : 0 < Nat.pow 2 f.exponentBits := Nat.two_pow_pos _
  have hsplit := f.pow_add
  have hdouble : Nat.pow 2 (f.fractionBits + f.exponentBits + 1) = Nat.pow 2 (f.fractionBits + f.exponentBits) * 2 := rfl
  -- the sign is the quotient by both, the field the quotient by the fractions of what remains
  refine ⟨bits / Nat.pow 2 (f.fractionBits + f.exponentBits) = 1,
    bits % Nat.pow 2 (f.fractionBits + f.exponentBits) / Nat.pow 2 f.fractionBits,
    bits % Nat.pow 2 f.fractionBits, ?_, Nat.mod_lt _ hP, ?_⟩
  · rw [hsplit]
    exact Nat.div_lt_of_lt_mul (Nat.mod_lt _ (Nat.mul_pos hP hQ))
  · have hone : bits / Nat.pow 2 (f.fractionBits + f.exponentBits) < 2 :=
      Nat.div_lt_of_lt_mul (by rw [← hdouble]; exact h)
    have hbits := Nat.div_add_mod bits (Nat.pow 2 (f.fractionBits + f.exponentBits))
    have hlow := Nat.div_add_mod (bits % Nat.pow 2 (f.fractionBits + f.exponentBits)) (Nat.pow 2 f.fractionBits)
    have hmod : bits % Nat.pow 2 (f.fractionBits + f.exponentBits) % Nat.pow 2 f.fractionBits =
        bits % Nat.pow 2 f.fractionBits := by
      rw [hsplit]
      exact Nat.mod_mul_right_mod _ _ _
    rw [hmod, Nat.mul_comm] at hlow
    unfold pack signBit
    rcases Nat.lt_or_ge (bits / Nat.pow 2 (f.fractionBits + f.exponentBits)) 1 with h0 | h1
    · have hz : bits / Nat.pow 2 (f.fractionBits + f.exponentBits) = 0 := Nat.lt_one_iff.1 h0
      rw [hz] at hbits ⊢
      simp only [Nat.zero_ne_one, decide_false, Bool.false_eq_true, if_false]
      omega
    · have hz : bits / Nat.pow 2 (f.fractionBits + f.exponentBits) = 1 :=
        Nat.le_antisymm (Nat.le_of_lt_succ hone) h1
      rw [hz] at hbits ⊢
      simp only [decide_true, if_true]
      omega

theorem decode_pack {negative : Bool} {field fraction : Nat} (hfield : field < Nat.pow 2 f.exponentBits)
    (hfraction : fraction < Nat.pow 2 f.fractionBits) :
    f.decode (f.pack negative field fraction) = f.meaning negative field fraction := by
  have hP : 0 < Nat.pow 2 f.fractionBits := Nat.two_pow_pos _
  have hQ : 0 < Nat.pow 2 f.exponentBits := Nat.two_pow_pos _
  have hsplit := f.pow_add
  -- with the sign as a number, all three parts are quotients and remainders
  obtain ⟨sign, hsign, hone⟩ : ∃ sign, f.signBit negative =
      sign * (Nat.pow 2 f.fractionBits * Nat.pow 2 f.exponentBits) ∧ (sign % 2 = 1 ↔ negative = true) := by
    cases negative with
    | false => exact ⟨0, by simp [signBit], by simp⟩
    | true => exact ⟨1, by simp only [signBit, if_true, hsplit, Nat.one_mul], by simp⟩
  have hbits : f.pack negative field fraction =
      fraction + Nat.pow 2 f.fractionBits * (field + Nat.pow 2 f.exponentBits * sign) := by
    rw [pack, hsign]
    ring
  have hlow : f.pack negative field fraction % Nat.pow 2 f.fractionBits = fraction := by
    rw [hbits, Nat.add_mul_mod_self_left, Nat.mod_eq_of_lt hfraction]
  have hhigh : f.pack negative field fraction / Nat.pow 2 f.fractionBits = field + Nat.pow 2 f.exponentBits * sign := by
    rw [hbits, Nat.add_mul_div_left _ _ hP, Nat.div_eq_of_lt hfraction, Nat.zero_add]
  have hmid : (field + Nat.pow 2 f.exponentBits * sign) % Nat.pow 2 f.exponentBits = field := by
    rw [Nat.add_mul_mod_self_left, Nat.mod_eq_of_lt hfield]
  have htop : f.pack negative field fraction / Nat.pow 2 (f.fractionBits + f.exponentBits) = sign := by
    rw [hsplit, ← Nat.div_div_eq_div_mul, hhigh, Nat.add_mul_div_left _ _ hQ, Nat.div_eq_of_lt hfield, Nat.zero_add]
  have hneg : decide (sign % 2 = 1) = negative := by
    rw [Bool.eq_iff_iff, decide_eq_true_iff, hone]
  simp only [decode, hlow, hhigh, hmid, htop, hneg, meaning]

theorem encode_scale (negative : Bool) {m : Nat} (hm : m ≠ 0) (e : Int) (k : Nat) :
    f.encode negative (m * Nat.pow 2 k) (e - k) = f.encode negative m e := by
  have hk : m * Nat.pow 2 k ≠ 0 := Nat.mul_ne_zero hm (Nat.ne_of_gt (Nat.two_pow_pos k))
  have hlead : e - k + ((m * Nat.pow 2 k).log2 : Int) - f.fractionBits = e + m.log2 - f.fractionBits := by
    rw [log2_scale hm]
    omega
  have hplaces : ∀ last : Int,
      (if last ≤ e - k then m * Nat.pow 2 k * Nat.pow 2 (e - k - last).toNat
        else roundShift (m * Nat.pow 2 k) (last - (e - k)).toNat) =
      if last ≤ e then m * Nat.pow 2 (e - last).toNat else roundShift m (last - e).toNat := by
    intro last
    by_cases hle : last ≤ e - k
    · have hpow : Nat.pow 2 (e - last).toNat = Nat.pow 2 k * Nat.pow 2 (e - k - last).toNat := by
        rw [show (e - last).toNat = k + (e - k - last).toNat by omega]
        exact Nat.pow_add 2 _ _
      rw [if_pos hle, if_pos (by omega), hpow, Nat.mul_assoc]
    · rw [if_neg hle]
      by_cases hfit : last ≤ e
      · -- only zeros are cut off
        have hsum : (e - last).toNat + (last - (e - k)).toNat = k := by omega
        have hpow : Nat.pow 2 ((e - last).toNat + (last - (e - k)).toNat) =
            Nat.pow 2 (e - last).toNat * Nat.pow 2 (last - (e - k)).toNat := Nat.pow_add 2 _ _
        rw [hsum] at hpow
        have hround := roundShift_scale (m * Nat.pow 2 (e - last).toNat) 0 (last - (e - k)).toNat
        rw [Nat.zero_add, roundShift_zero, Nat.mul_assoc, ← hpow] at hround
        rw [if_pos hfit, hround]
      · rw [if_neg hfit, show (last - (e - k)).toNat = (last - e).toNat + k by omega, roundShift_scale]
  simp only [encode, hlead, hplaces, if_neg hk, if_neg hm]

theorem encode_full (negative : Bool) {fraction field : Nat} (hfraction : fraction < Nat.pow 2 f.fractionBits)
    (hfield : field + 1 < f.topField) :
    f.encode negative (Nat.pow 2 f.fractionBits + fraction) (f.leastExponent + field) =
      f.pack negative (field + 1) fraction := by
  have hpos : 0 < Nat.pow 2 f.fractionBits := Nat.two_pow_pos _
  have hlog : (Nat.pow 2 f.fractionBits + fraction).log2 = f.fractionBits := by
    rw [Nat.log2_eq_iff (by omega)]
    exact ⟨Nat.le_add_right _ _, by rw [Nat.pow_succ]; change _ < Nat.pow 2 f.fractionBits * 2; omega⟩
  have hlast : max (f.leastExponent + field + (f.fractionBits : Int) - f.fractionBits) f.leastExponent =
      f.leastExponent + field := by omega
  have hshift : (f.leastExponent + (field : Int) - f.leastExponent).toNat = field := by omega
  have hroom : (field + 2) * Nat.pow 2 f.fractionBits ≤ f.topField * Nat.pow 2 f.fractionBits :=
    Nat.mul_le_mul_right _ hfield
  have hone : Nat.pow 2 0 = 1 := rfl
  rw [Nat.add_mul] at hroom
  simp only [encode, hlog, hlast, hshift, le_refl, if_true, Int.sub_self, Int.toNat_zero, hone, Nat.mul_one, pack,
    Nat.add_mul, Nat.one_mul]
  rw [if_neg (by omega), if_neg (by omega)]
  omega

theorem encode_short (negative : Bool) {fraction : Nat} (hfraction : fraction < Nat.pow 2 f.fractionBits)
    (htop : 0 < f.topField) : f.encode negative fraction f.leastExponent = f.pack negative 0 fraction := by
  rcases Nat.eq_zero_or_pos fraction with rfl | hpos
  · simp [encode, pack]
  · have hlog : fraction.log2 < f.fractionBits := (Nat.log2_lt (Nat.ne_of_gt hpos)).2 hfraction
    have hlast : max (f.leastExponent + (fraction.log2 : Int) - f.fractionBits) f.leastExponent = f.leastExponent := by
      omega
    have hroom : 1 * Nat.pow 2 f.fractionBits ≤ f.topField * Nat.pow 2 f.fractionBits := Nat.mul_le_mul_right _ htop
    have hone : Nat.pow 2 0 = 1 := rfl
    simp only [encode, hlast, le_refl, if_true, Int.sub_self, Int.toNat_zero, hone, Nat.mul_one, pack]
    rw [if_neg (by omega), if_neg (by omega)]
    omega

theorem decode_encode_exact (negative : Bool) {m field : Nat} {e : Int} (hm : m ≠ 0) (hlog : m.log2 ≤ f.fractionBits)
    (he : e + m.log2 - f.fractionBits = f.leastExponent + field) (hfield : field + 1 < f.topField) :
    f.decode (f.encode negative m e) = .finite negative (m * Nat.pow 2 (f.fractionBits - m.log2))
      (e - (f.fractionBits - m.log2 : Nat)) := by
  have hk : 0 < Nat.pow 2 (f.fractionBits - m.log2) := Nat.two_pow_pos _
  have hfull : (m * Nat.pow 2 (f.fractionBits - m.log2)).log2 = f.fractionBits := by
    rw [log2_scale hm]
    omega
  obtain ⟨hge, hlt⟩ := (Nat.log2_eq_iff (Nat.mul_ne_zero hm (Nat.ne_of_gt hk))).1 hfull
  obtain ⟨fraction, hfraction⟩ : ∃ fraction, m * Nat.pow 2 (f.fractionBits - m.log2) =
      Nat.pow 2 f.fractionBits + fraction := Nat.exists_eq_add_of_le hge
  have hsmall : fraction < Nat.pow 2 f.fractionBits := by
    rw [hfraction, Nat.pow_succ] at hlt
    change _ < Nat.pow 2 f.fractionBits * 2 at hlt
    omega
  have hexp : e - (f.fractionBits - m.log2 : Nat) = f.leastExponent + field := by omega
  have hbound : field + 1 < Nat.pow 2 f.exponentBits := by
    unfold topField at hfield
    omega
  rw [← encode_scale negative hm e (f.fractionBits - m.log2), hfraction, hexp, encode_full negative hsmall hfield,
    decode_pack hbound hsmall, meaning, if_neg (Nat.ne_of_lt hfield), if_neg (Nat.succ_ne_zero field), Nat.add_sub_cancel]

/-- Every number of the first format is one of full length of the second. -/
structure Widens (f g : FloatFormat) : Prop where
  fraction_pos : 0 < f.fractionBits
  fraction_le : f.fractionBits ≤ g.fractionBits
  exponent : 1 < f.exponentBits
  least : g.leastExponent + g.fractionBits ≤ f.leastExponent
  top : f.leastExponent + f.fractionBits + f.topField ≤ g.leastExponent + g.fractionBits + g.topField

theorem single_widens_double : Widens .single .double := by
  constructor <;> decide

section

variable {g : FloatFormat} (hw : Widens f g)
include hw

theorem Widens.two_le_topField : 2 ≤ f.topField := by
  have h : 2 ^ 2 ≤ 2 ^ f.exponentBits := Nat.pow_le_pow_right (by decide) hw.exponent
  change 4 ≤ Nat.pow 2 f.exponentBits at h
  unfold topField
  omega

theorem Widens.wide_top : 0 < g.topField := by
  have h1 := hw.two_le_topField
  have h2 := hw.least
  have h3 := hw.top
  omega

theorem convert_finite {bits m : Nat} {negative : Bool} {e : Int} (h : f.decode bits = .finite negative m e)
    (hlog : m.log2 ≤ f.fractionBits) (hlo : f.leastExponent ≤ e) (hhi : e + 2 ≤ f.leastExponent + f.topField) :
    g.convert f (f.convert g bits) = f.encode negative m e := by
  have hwide : f.convert g bits = g.encode negative m e := by rw [convert, h]
  rw [hwide]
  rcases Nat.eq_zero_or_pos m with rfl | hpos
  · have hzero : g.encode negative 0 e = g.pack negative 0 0 := by simp [encode, pack]
    rw [hzero, convert, decode_pack (Nat.two_pow_pos _) (Nat.two_pow_pos _), meaning, if_neg (Nat.ne_of_lt hw.wide_top),
      if_pos rfl]
    simp [encode]
  · have hm := Nat.ne_of_gt hpos
    have h1 := hw.fraction_le
    have h2 := hw.least
    have h3 := hw.top
    obtain ⟨field, hfield⟩ : ∃ field : Nat, e + m.log2 - g.fractionBits = g.leastExponent + field :=
      ⟨(e + m.log2 - g.fractionBits - g.leastExponent).toNat, by omega⟩
    rw [convert, decode_encode_exact negative hm (by omega) hfield (by omega)]
    exact encode_scale negative hm e _

theorem convert_convert (negative : Bool) {field fraction : Nat} (hfield : field < f.topField)
    (hfraction : fraction < Nat.pow 2 f.fractionBits) :
    g.convert f (f.convert g (f.pack negative field fraction)) = f.pack negative field fraction := by
  have hbound : field < Nat.pow 2 f.exponentBits := Nat.lt_of_lt_of_le hfield (Nat.sub_le _ _)
  have hmeaning : f.decode (f.pack negative field fraction) = f.meaning negative field fraction :=
    decode_pack hbound hfraction
  rw [meaning, if_neg (Nat.ne_of_lt hfield)] at hmeaning
  have htop := hw.two_le_topField
  have hdouble : Nat.pow 2 (f.fractionBits + 1) = Nat.pow 2 f.fractionBits * 2 := rfl
  cases field with
  | zero =>
    have hlog : fraction.log2 ≤ f.fractionBits := log2_le (by omega)
    rw [convert_finite hw hmeaning hlog (Int.le_refl _) (by omega), encode_short negative hfraction (by omega)]
  | succ field =>
    have hlog : (Nat.pow 2 f.fractionBits + fraction).log2 ≤ f.fractionBits := log2_le (by omega)
    rw [if_neg (Nat.succ_ne_zero field), Nat.add_sub_cancel] at hmeaning
    rw [convert_finite hw hmeaning hlog (by omega) (by omega), encode_full negative hfraction hfield]

end

theorem convert_convert_infinite (f g : FloatFormat) (negative : Bool) :
    g.convert f (f.convert g (f.pack negative f.topField 0)) = f.pack negative f.topField 0 := by
  have infinite : ∀ h : FloatFormat, h.decode (h.pack negative h.topField 0) = .infinite negative := by
    intro h
    have hbound : h.topField < Nat.pow 2 h.exponentBits := Nat.sub_lt (Nat.two_pow_pos _) Nat.one_pos
    rw [decode_pack hbound (Nat.two_pow_pos _), meaning, if_pos rfl, if_pos rfl]
  have hwide : f.convert g (f.pack negative f.topField 0) = g.pack negative g.topField 0 := by
    rw [convert, infinite]
    rfl
  rw [hwide, convert, infinite]
  rfl

/-- The fraction that stands in the second format for one of the first. -/
def quieted (f g : FloatFormat) (fraction : Nat) : Nat :=
  Nat.pow 2 (g.fractionBits - 1) +
    fraction * Nat.pow 2 g.fractionBits / Nat.pow 2 f.fractionBits % Nat.pow 2 (g.fractionBits - 1)

theorem quieted_lt {g : FloatFormat} (hg : 0 < g.fractionBits) (fraction : Nat) :
    quieted f g fraction < Nat.pow 2 g.fractionBits := by
  have hhalf : Nat.pow 2 g.fractionBits = Nat.pow 2 (g.fractionBits - 1) * 2 := (Nat.two_pow_pred_mul_two hg).symm
  have hlt := Nat.mod_lt (fraction * Nat.pow 2 g.fractionBits / Nat.pow 2 f.fractionBits)
    (Nat.two_pow_pos (g.fractionBits - 1))
  unfold quieted
  change _ + _ % Nat.pow 2 _ < _
  change _ % Nat.pow 2 _ < Nat.pow 2 _ at hlt
  omega

theorem quieted_pos (g : FloatFormat) (fraction : Nat) : 0 < quieted f g fraction :=
  Nat.add_pos_left (Nat.two_pow_pos _) _

theorem convert_nan (g : FloatFormat) (negative : Bool) {fraction : Nat} (hpos : 0 < fraction)
    (hlt : fraction < Nat.pow 2 f.fractionBits) :
    f.convert g (f.pack negative f.topField fraction) = g.pack negative g.topField (quieted f g fraction) := by
  have hbound : f.topField < Nat.pow 2 f.exponentBits := Nat.sub_lt (Nat.two_pow_pos _) Nat.one_pos
  rw [convert, decode_pack hbound hlt, meaning, if_pos rfl, if_neg (Nat.ne_of_gt hpos)]
  simp only [infinity, pack, quieted, Nat.add_assoc]

theorem quieted_quieted {g : FloatFormat} (hw : Widens f g) (fraction : Nat) :
    quieted f g (quieted g f (quieted f g fraction)) = quieted f g fraction := by
  obtain ⟨d, hd⟩ := Nat.exists_eq_add_of_le hw.fraction_le
  have hD : 0 < Nat.pow 2 d := Nat.two_pow_pos d
  have hP : 0 < Nat.pow 2 f.fractionBits := Nat.two_pow_pos _
  have hwhole : Nat.pow 2 g.fractionBits = Nat.pow 2 d * Nat.pow 2 f.fractionBits := by
    rw [hd, Nat.mul_comm]
    exact Nat.pow_add 2 _ _
  have hhalf : Nat.pow 2 (g.fractionBits - 1) = Nat.pow 2 (f.fractionBits - 1) * Nat.pow 2 d := by
    have hpos := hw.fraction_pos
    rw [hd, show f.fractionBits + d - 1 = f.fractionBits - 1 + d by omega]
    exact Nat.pow_add 2 _ _
  have widened : ∀ x, quieted f g x =
      (Nat.pow 2 (f.fractionBits - 1) + x % Nat.pow 2 (f.fractionBits - 1)) * Nat.pow 2 d := by
    intro x
    rw [quieted, hwhole, ← Nat.mul_assoc, Nat.mul_div_cancel _ hP, hhalf, Nat.mul_mod_mul_right, ← Nat.add_mul]
  have narrowed : ∀ x, quieted g f (x * Nat.pow 2 d) =
      Nat.pow 2 (f.fractionBits - 1) + x % Nat.pow 2 (f.fractionBits - 1) := by
    intro x
    rw [quieted, hwhole, Nat.mul_assoc, Nat.mul_div_cancel _ (Nat.mul_pos hD hP)]
  rw [widened fraction, narrowed, widened, Nat.add_mod_left, Nat.mod_mod, Nat.add_mod_left, Nat.mod_mod]

theorem convert_stable {g : FloatFormat} (hw : Widens f g) {bits : Nat}
    (h : bits < Nat.pow 2 (f.fractionBits + f.exponentBits + 1)) :
    f.convert g (g.convert f (f.convert g bits)) = f.convert g bits := by
  obtain ⟨negative, field, fraction, hfield, hfraction, rfl⟩ := exists_pack h
  have hle : field ≤ f.topField := Nat.le_sub_one_of_lt hfield
  rcases Nat.lt_or_eq_of_le hle with hfinite | rfl
  · rw [convert_convert hw negative hfinite hfraction]
  rcases Nat.eq_zero_or_pos fraction with rfl | hpos
  · rw [convert_convert_infinite]
  have hf := hw.fraction_pos
  have hg := Nat.lt_of_lt_of_le hf hw.fraction_le
  rw [convert_nan g negative hpos hfraction, convert_nan f negative (quieted_pos _ _) (quieted_lt hg _),
    convert_nan g negative (quieted_pos _ _) (quieted_lt hf _), quieted_quieted hw]

end FloatFormat

end Flatwire

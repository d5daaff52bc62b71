import Mathlib.Tactic.SplitIfs
import Flatwire.Dynamic.Encode

/-! Integers of all types, and the two conversions between which they are divided. Each conversion hands the types of the
other over to it, and whatever way an integer takes, its value comes out or is refused. -/

namespace Flatwire

namespace Integer

variable {x : Integer}

/-- The conversions call each other, as if each were defined by the other. -/
theorem conversions_eq : toInt64? = signedBy toUInt64? ∧ toUInt64? = unsignedBy toInt64? := by
  constructor
  · funext x
    cases x <;> rfl
  · funext x
    cases x <;> rfl

theorem toInt_of_le {n : UInt64} (h : n ≤ 0x7FFFFFFFFFFFFFFF) : n.toInt64.toInt = n.toNat := by
  have hn : n.toNat ≤ 0x7FFFFFFFFFFFFFFF := UInt64.le_iff_toNat_le.1 h
  change n.toBitVec.toInt = n.toNat
  rw [BitVec.toInt_eq_toNat_of_lt]
  · rfl
  · change 2 * n.toNat < 2 ^ 64
    omega

theorem toNat_of_nonneg {n : Int64} (h : 0 ≤ n) : (n.toUInt64.toNat : Int) = n.toInt := by
  have hn : 0 ≤ n.toInt := Int64.le_iff_toInt_le.1 h
  rw [Int64.toNat_toUInt64_of_le h, Int64.toNatClampNeg, Int.toNat_of_nonneg hn]

/-- The two halves of the switches: signed integers are widened with their sign, unsigned ones without. -/
inductive Widened (x : Integer) : Prop where
  | signed (n : Int64) : x.value = n.toInt → (∀ f, signedBy f x = some n) →
      (∀ f, unsignedBy f x = (f x).bind fun n => if n < 0 then none else some n.toUInt64) → Widened x
  | unsigned (n : UInt64) : x.value = n.toNat → (∀ f, unsignedBy f x = some n) →
      (∀ f, signedBy f x = (f x).bind fun n => if n > 0x7FFFFFFFFFFFFFFF then none else some n.toInt64) → Widened x

theorem widened (x : Integer) : x.Widened := by
  cases x with
  | int n => exact .signed n rfl (fun _ => rfl) fun _ => rfl
  | i8 n => exact .signed n.toInt64 (Int8.toInt_toInt64 n).symm (fun _ => rfl) fun _ => rfl
  | i16 n => exact .signed n.toInt64 (Int16.toInt_toInt64 n).symm (fun _ => rfl) fun _ => rfl
  | i32 n => exact .signed n.toInt64 (Int32.toInt_toInt64 n).symm (fun _ => rfl) fun _ => rfl
  | i64 n => exact .signed n rfl (fun _ => rfl) fun _ => rfl
  | uint n => exact .unsigned n rfl (fun _ => rfl) fun _ => rfl
  | u8 n => exact .unsigned n.toUInt64 (by simp [value]) (fun _ => rfl) fun _ => rfl
  | u16 n => exact .unsigned n.toUInt64 (by simp [value]) (fun _ => rfl) fun _ => rfl
  | u32 n => exact .unsigned n.toUInt64 (by simp [value]) (fun _ => rfl) fun _ => rfl
  | u64 n => exact .unsigned n rfl (fun _ => rfl) fun _ => rfl

theorem value_bounds (x : Integer) : -0x8000000000000000 ≤ x.value ∧ x.value < 0x10000000000000000 := by
  cases x.widened with
  | signed n hn =>
    have := n.le_toInt
    have := n.toInt_lt
    omega
  | unsigned n hn =>
    have := n.toNat_lt
    omega

theorem toInt64?_eq_some_iff {n : Int64} : x.toInt64? = some n ↔ n.toInt = x.value := by
  rw [toInt64?]
  cases x.widened with
  | signed m hm hs _ => rw [hs, hm, Option.some.injEq, Int64.toInt_inj, eq_comm]
  | unsigned m hm hu hs =>
    rw [hs, hu, hm, Option.bind_some]
    split_ifs with hlarge
    · have hbound := n.toInt_lt
      have hlarge : 0x7FFFFFFFFFFFFFFF < m.toNat := UInt64.lt_iff_toNat_lt.1 hlarge
      refine iff_of_false nofun ?_
      omega
    · rw [Option.some.injEq, ← Int64.toInt_inj, toInt_of_le (UInt64.not_lt.1 hlarge), eq_comm]

theorem toUInt64?_eq_some_iff {n : UInt64} : x.toUInt64? = some n ↔ (n.toNat : Int) = x.value := by
  rw [toUInt64?]
  cases x.widened with
  | unsigned m hm hu _ => rw [hu, hm, Option.some.injEq, Int.natCast_inj, UInt64.toNat_inj, eq_comm]
  | signed m hm hs hu =>
    rw [hu, hs, hm, Option.bind_some]
    split_ifs with hneg
    · have hneg : m.toInt < 0 := Int64.lt_iff_toInt_lt.1 hneg
      refine iff_of_false nofun ?_
      omega
    · rw [Option.some.injEq, ← toNat_of_nonneg (Int64.not_lt.1 hneg), Int.natCast_inj, UInt64.toNat_inj, eq_comm]

theorem value_u64 {n : Nat} (h : n < 0x10000000000000000) : (u64 (.ofNat n)).value = n := by
  rw [value, UInt64.toNat_ofNat_of_lt' h]

theorem value_i64 {n : Int} (hlo : -0x8000000000000000 ≤ n) (hhi : n < 0x8000000000000000) :
    (i64 (.ofInt n)).value = n := by
  rw [value, Int64.toInt_ofInt]
  apply Int.bmod_eq_of_le <;> simp only [Int64.size] <;> omega

end Integer

namespace Value

variable {v : Value}

theorem uint?_eq_some_iff {limit n : UInt64} :
    v.uint? limit = some n ↔ ∃ x, v = .int x ∧ x.value = n.toNat ∧ n ≤ limit := by
  cases v with
  | int x =>
    simp only [uint?, Option.filter_eq_some_iff, Integer.toUInt64?_eq_some_iff, decide_eq_true_eq, int.injEq,
      exists_eq_left', and_congr_left_iff]
    exact fun _ => eq_comm
  | nil | bool | f32 | f64 | text | bytes | list | record | variant | variantRef | foreign => simp [uint?]

theorem int?_eq_some_iff {lo hi n : Int64} :
    v.int? lo hi = some n ↔ ∃ x, v = .int x ∧ x.value = n.toInt ∧ lo ≤ n ∧ n ≤ hi := by
  cases v with
  | int x =>
    simp only [int?, Option.filter_eq_some_iff, Integer.toInt64?_eq_some_iff, decide_eq_true_eq, int.injEq,
      exists_eq_left', and_congr_left_iff]
    exact fun _ => eq_comm
  | nil | bool | f32 | f64 | text | bytes | list | record | variant | variantRef | foreign => simp [int?]

/-- The number of an integer of any type, if it lies between two bounds. -/
def between? (v : Value) (lo hi : Int) : Option Int :=
  match v with
  | int x => if lo ≤ x.value ∧ x.value ≤ hi then some x.value else none
  | _ => none

theorem between?_eq_some_iff {lo hi n : Int} :
    v.between? lo hi = some n ↔ ∃ x, v = .int x ∧ x.value = n ∧ lo ≤ n ∧ n ≤ hi := by
  cases v with
  | int x =>
    simp only [between?, Option.ite_none_right_eq_some, Option.some.injEq, int.injEq, exists_eq_left']
    exact ⟨fun ⟨hx, hn⟩ => ⟨hn, hn ▸ hx⟩, fun ⟨hn, hx⟩ => ⟨hn.symm ▸ hx, hn⟩⟩
  | nil | bool | f32 | f64 | text | bytes | list | record | variant | variantRef | foreign => simp [between?]

theorem int?_map (v : Value) (lo hi : Int64) : (v.int? lo hi).map Int64.toInt = v.between? lo.toInt hi.toInt := by
  ext n
  rw [Option.map_eq_some_iff, between?_eq_some_iff]
  constructor
  · rintro ⟨m, hm, rfl⟩
    obtain ⟨x, hv, hx, hlo, hhi⟩ := int?_eq_some_iff.1 hm
    exact ⟨x, hv, hx, Int64.le_iff_toInt_le.1 hlo, Int64.le_iff_toInt_le.1 hhi⟩
  · rintro ⟨x, hv, hx, hlo, hhi⟩
    -- a number between two machine integers is one
    have hmin := lo.le_toInt
    have hmax := hi.toInt_lt
    have hn : (Int64.ofInt n).toInt = n := Integer.value_i64 (by omega) (by omega)
    refine ⟨.ofInt n, int?_eq_some_iff.2 ⟨x, hv, hx.trans hn.symm, ?_, ?_⟩, hn⟩
    · rwa [Int64.le_iff_toInt_le, hn]
    · rwa [Int64.le_iff_toInt_le, hn]

theorem uint?_map (v : Value) (limit : UInt64) :
    (v.uint? limit).map (fun n => (n.toNat : Int)) = v.between? 0 limit.toNat := by
  ext n
  rw [Option.map_eq_some_iff, between?_eq_some_iff]
  constructor
  · rintro ⟨m, hm, rfl⟩
    obtain ⟨x, hv, hx, hle⟩ := uint?_eq_some_iff.1 hm
    have hle := UInt64.le_iff_toNat_le.1 hle
    exact ⟨x, hv, hx, by omega, by omega⟩
  · rintro ⟨x, hv, hx, hlo, hhi⟩
    have hmax := limit.toNat_lt
    have hn : (UInt64.ofNat n.toNat).toNat = n.toNat := UInt64.toNat_ofNat_of_lt' (by simp only [UInt64.size]; omega)
    refine ⟨.ofNat n.toNat, uint?_eq_some_iff.2 ⟨x, hv, ?_, ?_⟩, ?_⟩
    · omega
    · rw [UInt64.le_iff_toNat_le]
      omega
    · omega

/-- Every integer is a float, though the ones above the signed range take the second conversion. -/
theorem toFloat?_int (x : Integer) : (Value.int x).toFloat? = some (FloatFormat.double.ofInt x.value) := by
  have hbounds := x.value_bounds
  simp only [toFloat?]
  have hint := int?_map (.int x) Int64.minValue Int64.maxValue
  have huint := uint?_map (.int x) 0xFFFFFFFFFFFFFFFF
  rw [Int64.toInt_minValue, Int64.toInt_maxValue, between?] at hint
  rw [between?] at huint
  cases hi : (Value.int x).int? Int64.minValue Int64.maxValue with
  | some n =>
    obtain ⟨_, ⟨⟩, hn, -⟩ := int?_eq_some_iff.1 hi
    rw [hn]
  | none =>
    have hlarge : 2 ^ 63 ≤ x.value := by
      rw [hi, Option.map_none] at hint
      split_ifs at hint
      omega
    have hmax : (0xFFFFFFFFFFFFFFFF : UInt64).toNat = 2 ^ 64 - 1 := rfl
    rw [if_pos (by omega)] at huint
    obtain ⟨n, hn, hx⟩ := Option.map_eq_some_iff.1 huint
    rw [hn, Option.map_some, hx]

end Value

namespace PrimitiveKind

/-- The least and the greatest number of an integer kind. -/
def range (k : PrimitiveKind) : Int × Int :=
  if k.isSigned then (-(Nat.pow 2 (8 * k.size - 1) : Nat), (Nat.pow 2 (8 * k.size - 1) : Nat) - 1)
  else (0, (Nat.pow 2 (8 * k.size) : Nat) - 1)

theorem component?_integer {k : PrimitiveKind} (hb : k ≠ .bool) (hf : k.isFloat = false) (v : Value) :
    k.component? v = (v.between? k.range.1 k.range.2).map (Component.int k.size) := by
  have signed : (v.int? k.bounds.1 k.bounds.2).map (fun n => Component.int k.size n.toInt) =
      (v.between? k.bounds.1.toInt k.bounds.2.toInt).map (Component.int k.size) := by
    rw [← Value.int?_map, Option.map_map]
    rfl
  have unsigned : (v.uint? k.limit).map (fun n => Component.int k.size n.toNat) =
      (v.between? 0 k.limit.toNat).map (Component.int k.size) := by
    rw [← Value.uint?_map, Option.map_map]
    rfl
  cases k with
  | bool => exact absurd rfl hb
  | f32 | f64 => cases hf
  | i8 | i16 | i32 | i64 => exact signed
  | u8 | u16 | u32 | u64 => exact unsigned

end PrimitiveKind

end Flatwire

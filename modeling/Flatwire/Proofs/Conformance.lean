import Mathlib.Data.List.Perm.Subperm
import Flatwire.Proofs.Encoding

/-! The values that a type takes. Conformance is stated by the shape of value and type alone, without sizes, offsets or
the order in which the parts are looked at. A value is planned exactly if it conforms, and encoded exactly if its plan
also fits a buffer. -/

namespace Flatwire

variable {q : SequenceType} {k : PrimitiveKind} {e : EnumType} {o : OneOfType}

namespace PrimitiveKind

/-- The integer lies in the range of the kind. -/
def Admits : PrimitiveKind → Int → Prop
  | u8, n => 0 ≤ n ∧ n ≤ 255
  | u16, n => 0 ≤ n ∧ n ≤ 65535
  | u32, n => 0 ≤ n ∧ n ≤ 4294967295
  | u64, n => 0 ≤ n ∧ n ≤ 18446744073709551615
  | i8, n => -128 ≤ n ∧ n ≤ 127
  | i16, n => -32768 ≤ n ∧ n ≤ 32767
  | i32, n => -2147483648 ≤ n ∧ n ≤ 2147483647
  | i64, n => -9223372036854775808 ≤ n ∧ n ≤ 9223372036854775807
  | f32, _ | f64, _ | bool, _ => False

end PrimitiveKind

namespace Value

def IsNumber : Value → Prop
  | int _ | f32 _ | f64 _ => True
  | _ => False

mutual

/-- The value may stand where a type of the schema is asked for. -/
inductive Conforms (s : Schema) : TypeId → Value → Prop
  | intro {id : TypeId} {t : TypeDef} {v : Value} (ht : s.type? id = some t) (h : Fits s t v) : Conforms s id v

inductive Fits (s : Schema) : TypeDef → Value → Prop
  | integer {k : PrimitiveKind} {x : Integer} (hx : k.Admits x.value) : Fits s (.primitive k) (.int x)
  | float {k : PrimitiveKind} {v : Value} (hk : k = .f32 ∨ k = .f64) (hv : v.IsNumber) : Fits s (.primitive k) v
  | bool {b : Bool} : Fits s (.primitive .bool) (.bool b)
  | enumName {e : EnumType} {name : Bytes} (hn : name ∈ e.variants.map EnumVariant.name) : Fits s (.enum e) (.text name)
  | enumNumber {e : EnumType} {x : Integer} (hx : x.value ∈ e.variants.map fun v => (v.value.toNat : Int)) :
      Fits s (.enum e) (.int x)
  | text {t : Bytes} (h0 : 0 ∉ t) : Fits s .string (.text t)
  | bytes {elem : TypeId} {items : Bytes} (he : s.type? elem = some (.primitive .u8)) (hl : items.length ≤ 65535) :
      Fits s (.list elem) (.bytes items)
  | list {elem : TypeId} {items : List Value} (hl : items.length ≤ 65535) (hi : ∀ v ∈ items, Conforms s elem v) :
      Fits s (.list elem) (.list items)
  | record {q : SequenceType} {fields : List (Bytes × Value)}
      (keys : ∀ name, name ∈ fields.map Prod.fst ↔ name ∈ q.fields.map Field.name)
      (hf : ∀ f ∈ q.fields, ∀ v, named? fields f.name = some v → Conforms s f.type v) :
      Fits s (.sequence q) (.record fields)
  | oneOf {o : OneOfType} {member : Variant} {v value : Value} (hm : member ∈ o.variants)
      (hv : v = .variant member.name value ∨ v = .variantRef member.name value) (hc : Conforms s member.type value) :
      Fits s (.oneOf o) v

end

end Value

theorem PrimitiveKind.component?_isSome_iff {v : Value} :
    (∃ c, k.component? v = some c) ↔
      (∃ x, v = .int x ∧ k.Admits x.value) ∨ ((k = .f32 ∨ k = .f64) ∧ v.IsNumber) ∨ (k = .bool ∧ ∃ b, v = .bool b) := by
  have integer (hb : k ≠ .bool) (hf : k.isFloat = false)
      (hk : ∀ n : Int, k.range.1 ≤ n ∧ n ≤ k.range.2 ↔ k.Admits n) :
      (∃ c, k.component? v = some c) ↔ ∃ x, v = .int x ∧ k.Admits x.value := by
    rw [component?_integer hb hf]
    simp [Value.between?_eq_some_iff, hk]
  cases k with
  | bool => cases v <;> simp [component?, Admits]
  | f32 | f64 =>
    cases v with
    | int x => simp [component?, Value.toFloat?_int, Value.IsNumber]
    | _ => simp [component?, Value.toFloat?, Value.int?, Value.uint?, Value.IsNumber]
  | u8 | u16 | u32 | u64 | i8 | i16 | i32 | i64 =>
    rw [integer (by decide) rfl fun n => by simp [range, isSigned, size, Admits]; try omega]
    simp

theorem EnumType.number?_isSome_iff {v : Value} :
    (∃ n, e.number? v = some n) ↔
      (∃ name, v = .text name ∧ name ∈ e.variants.map EnumVariant.name) ∨
      (∃ x, v = .int x ∧ x.value ∈ e.variants.map fun v => (v.value.toNat : Int)) := by
  cases v with
  | text name => simp [number?, ← Option.isSome_iff_exists]
  | int x =>
    have hall (n : UInt64) : n ≤ 0xFFFFFFFFFFFFFFFF := UInt64.le_iff_toNat_le.2 (Nat.le_of_lt_succ n.toNat_lt)
    simp [number?, Option.filter_eq_some_iff, Value.uint?_eq_some_iff, hall, @eq_comm _ x.value, and_comm]
  | nil | bool | f32 | f64 | bytes | list | record | variant | variantRef | foreign => simp [number?, Value.uint?]

theorem planFields_isOk {entries : List (Bytes × (TypeId → Planned))} {fs : List Field} {n : Nat}
    {done : List (UInt16 × Component)} :
    (∃ out, planFields q entries fs n done = .ok out) ↔
      ∀ f ∈ fs, ∃ plan p, named? entries f.name = some plan ∧ plan f.type = .ok p := by
  induction fs generalizing n done with
  | nil => simp [planFields]
  | cons f fs ih =>
    rw [planFields, List.forall_mem_cons, named?]
    cases hfind : entries.find? fun e => e.1 = f.name with
    | none => simp
    | some e =>
      cases hp : e.2 f.type with
      | error e' => simp [hp, within]
      | ok p => simp [hp, within, ih]

theorem Value.planItems_isOk {s : Schema} {items : List Value} {elem : TypeId} {k n : Nat} {done : List Component} :
    (∃ p, planItems s items elem k n done = .ok p) ↔ ∀ v ∈ items, ∃ p, v.plan s elem = .ok p := by
  induction items generalizing k n done with
  | nil => simp [planItems]
  | cons v vs ih =>
    rw [planItems, List.forall_mem_cons]
    cases hp : v.plan s elem with
    | error e => simp [within]
    | ok p => simp [within, ih]

theorem planVariant_isOk {typeName name : Bytes} {plan : TypeId → Planned} :
    (∃ p, planVariant o typeName name plan = .ok p) ↔
      ∃ member, o.find? name = some member ∧ ∃ p, plan member.type = .ok p := by
  rw [planVariant]
  cases o.find? name with
  | none => simp
  | some member => cases hp : plan member.type <;> simp [within, hp]

/-- Where all fields are named, a name that no field has is found, though it is looked for only among more names than
fields: as many names as fields leave no room for another. -/
theorem SequenceType.stranger?_eq_none_iff {names : List Bytes} (hq : (q.fields.map Field.name).Nodup)
    (hall : q.fields.map Field.name ⊆ names) : q.stranger? names = none ↔ names ⊆ q.fields.map Field.name := by
  rw [stranger?]
  split_ifs with hlen
  · simp [List.find?_eq_none, SequenceType.find?, List.subset_def]
  · have hlen : names.length ≤ (q.fields.map Field.name).length := by simpa using hlen
    have hperm := (hq.subperm hall).perm_of_length_le hlen
    simpa using hperm.symm.subset

theorem exists_named?_iff {α : Type} {entries : List (Bytes × α)} {name : Bytes} :
    (∃ a, named? entries name = some a) ↔ name ∈ entries.map Prod.fst := by
  rw [← Option.isSome_iff_exists, named?, Option.isSome_map, List.find?_isSome]
  simp

theorem planRecord_isOk {entries : List (Bytes × (TypeId → Planned))} (hq : (q.fields.map Field.name).Nodup) :
    (∃ p, planRecord q entries = .ok p) ↔
      (∀ name, name ∈ entries.map Prod.fst ↔ name ∈ q.fields.map Field.name) ∧
      ∀ f ∈ q.fields, ∀ plan, named? entries f.name = some plan → ∃ p, plan f.type = .ok p := by
  rw [planRecord]
  constructor
  · rintro ⟨p, h⟩
    obtain ⟨out, hout, h⟩ := exists_of_bind h
    have hplanned := planFields_isOk.1 ⟨out, hout⟩
    have hall : q.fields.map Field.name ⊆ entries.map Prod.fst := by
      intro name hname
      obtain ⟨f, hf, rfl⟩ := List.mem_map.1 hname
      obtain ⟨plan, p, hplan, -⟩ := hplanned f hf
      exact exists_named?_iff.1 ⟨plan, hplan⟩
    have hnone : q.stranger? (entries.map Prod.fst) = none := by
      cases hs : q.stranger? (entries.map Prod.fst) with
      | none => rfl
      | some name => simp [hs] at h
    have hback := (SequenceType.stranger?_eq_none_iff hq hall).1 hnone
    refine ⟨fun name => ⟨fun h => hback h, fun h => hall h⟩, fun f hf plan hplan => ?_⟩
    obtain ⟨plan', p, hplan', hp⟩ := hplanned f hf
    rw [hplan] at hplan'
    cases hplan'
    exact ⟨p, hp⟩
  · rintro ⟨keys, hplan⟩
    have hall : ∀ f ∈ q.fields, ∃ plan p, named? entries f.name = some plan ∧ plan f.type = .ok p := by
      intro f hf
      obtain ⟨plan, hv⟩ := exists_named?_iff.2 ((keys f.name).2 (List.mem_map_of_mem hf))
      obtain ⟨p, hp⟩ := hplan f hf plan hv
      exact ⟨plan, p, hv, hp⟩
    obtain ⟨out, hout⟩ := planFields_isOk.2 hall
    have hnone := (SequenceType.stranger?_eq_none_iff hq fun name h => (keys name).2 h).2 fun name h => (keys name).1 h
    rw [hout, ok_bind, hnone]
    exact ⟨_, rfl⟩

theorem OneOfType.find?_eq_some_iff (ho : (o.variants.map Variant.name).Nodup) {name : Bytes} {member : Variant} :
    o.find? name = some member ↔ member ∈ o.variants ∧ member.name = name := by
  constructor
  · intro h
    exact ⟨List.mem_of_find?_eq_some h, by simpa using List.find?_some h⟩
  · rintro ⟨hm, rfl⟩
    exact find?_of_nodup ho hm

namespace Value

variable {s : Schema} {id : TypeId} {v : Value}

theorem plan_primitive_isOk (ht : s.type? id = some (.primitive k)) :
    (∃ p, v.plan s id = .ok p) ↔ ∃ c, k.component? v = some c := by
  rw [plan.eq_def, ht]
  cases hc : k.component? v <;> simp [hc]

theorem plan_enum_isOk (ht : s.type? id = some (.enum e)) : (∃ p, v.plan s id = .ok p) ↔ ∃ n, e.number? v = some n := by
  rw [plan.eq_def, ht]
  cases hn : e.number? v <;> simp [hn]

theorem plan_string_isOk (ht : s.type? id = some .string) :
    (∃ p, v.plan s id = .ok p) ↔ ∃ t, v = .text t ∧ 0 ∉ t := by
  rw [plan.eq_def, ht]
  cases v with
  | text t => by_cases h0 : 0 ∈ t <;> simp [h0]
  | _ => simp

theorem plan_list_isOk {elem : TypeId} (ht : s.type? id = some (.list elem)) :
    (∃ p, v.plan s id = .ok p) ↔
      (∃ items, v = .bytes items ∧ s.type? elem = some (.primitive .u8) ∧ items.length ≤ 65535) ∨
      (∃ items, v = .list items ∧ items.length ≤ 65535 ∧ ∀ w ∈ items, ∃ p, w.plan s elem = .ok p) := by
  rw [plan.eq_def, ht]
  cases v with
  | bytes items =>
    by_cases he : s.type? elem = some (.primitive .u8) <;> by_cases hl : items.length ≤ 65535 <;>
      simp [he, hl, maxListLength, ← Nat.not_le]
  | list items =>
    by_cases hl : items.length ≤ 65535 <;> simp [hl, maxListLength, ← Nat.not_le, planItems_isOk]
  | _ => simp

theorem plan_sequence_isOk (ht : s.type? id = some (.sequence q)) (hq : (q.fields.map Field.name).Nodup) :
    (∃ p, v.plan s id = .ok p) ↔
      ∃ fields, v = .record fields ∧ (∀ name, name ∈ fields.map Prod.fst ↔ name ∈ q.fields.map Field.name) ∧
        ∀ f ∈ q.fields, ∀ w, named? fields f.name = some w → ∃ p, w.plan s f.type = .ok p := by
  rw [plan.eq_def, ht]
  cases v with
  | record fields =>
    have hnamed : ∀ name, named? (planEntries s fields) name = (named? fields name).map fun w id => w.plan s id := by
      intro name
      rw [planEntries_eq, named?_map fun (w : Value) id => w.plan s id]
    have hkeys : (planEntries s fields).map Prod.fst = fields.map Prod.fst := by simp [planEntries_eq]
    simp [planRecord_isOk hq, hnamed, hkeys]
  | _ => simp

theorem plan_oneOf_isOk (ht : s.type? id = some (.oneOf o)) (ho : (o.variants.map Variant.name).Nodup) :
    (∃ p, v.plan s id = .ok p) ↔
      ∃ member ∈ o.variants, ∃ value, (v = .variant member.name value ∨ v = .variantRef member.name value) ∧
        ∃ p, value.plan s member.type = .ok p := by
  rw [plan.eq_def, ht]
  cases v with
  | variant name value | variantRef name value =>
    simp [planVariant_isOk, OneOfType.find?_eq_some_iff ho, and_assoc, @eq_comm _ name]
  | _ => simp

theorem fits_primitive_iff : v.Fits s (.primitive k) ↔ ∃ c, k.component? v = some c := by
  rw [PrimitiveKind.component?_isSome_iff]
  constructor
  · rintro (hn | ⟨hk, hv⟩ | _)
    · exact .inl ⟨_, rfl, hn⟩
    · exact .inr (.inl ⟨hk, hv⟩)
    · exact .inr (.inr ⟨rfl, _, rfl⟩)
  · rintro (⟨x, rfl, hx⟩ | ⟨hk, hv⟩ | ⟨rfl, b, rfl⟩)
    · exact .integer hx
    · exact .float hk hv
    · exact .bool

theorem fits_enum_iff : v.Fits s (.enum e) ↔ ∃ n, e.number? v = some n := by
  rw [EnumType.number?_isSome_iff]
  constructor
  · rintro (_ | _ | _ | hn | hn)
    · exact .inl ⟨_, rfl, hn⟩
    · exact .inr ⟨_, rfl, hn⟩
  · rintro (⟨name, rfl, hn⟩ | ⟨x, rfl, hn⟩)
    · exact .enumName hn
    · exact .enumNumber hn

theorem conforms_iff {t : TypeDef} (ht : s.type? id = some t) : v.Conforms s id ↔ v.Fits s t := by
  refine ⟨?_, .intro ht⟩
  rintro ⟨ht', h⟩
  cases ht.symm.trans ht'
  exact h

theorem plan_isOk_iff (hs : s.Lawful) (v : Value) : ∀ id, (∃ p, v.plan s id = .ok p) ↔ v.Conforms s id := by
  -- on the value and not on the type: types may refer to themselves through lists and unions
  induction v using parts_induction with
  | step v ih =>
    intro id
    cases ht : s.type? id with
    | none =>
      constructor
      · rintro ⟨p, h⟩
        simp [plan.eq_def, ht] at h
      · rintro ⟨ht', -⟩
        cases ht.symm.trans ht'
    | some t =>
      rw [conforms_iff ht]
      cases t with
      | primitive k => rw [plan_primitive_isOk ht, fits_primitive_iff]
      | enum e => rw [plan_enum_isOk ht, fits_enum_iff]
      | string =>
        rw [plan_string_isOk ht]
        constructor
        · rintro ⟨t, rfl, h0⟩
          exact .text h0
        · intro h
          cases h with
          | text h0 => exact ⟨_, rfl, h0⟩
      | list elem =>
        rw [plan_list_isOk ht]
        constructor
        · rintro (⟨items, rfl, he, hl⟩ | ⟨items, rfl, hl, hi⟩)
          · exact .bytes he hl
          · exact .list hl fun w hw => (ih w hw elem).1 (hi w hw)
        · intro h
          cases h with
          | bytes he hl => exact .inl ⟨_, rfl, he, hl⟩
          | list hl hi => exact .inr ⟨_, rfl, hl, fun w hw => (ih w hw elem).2 (hi w hw)⟩
      | sequence q =>
        rw [plan_sequence_isOk ht (hs.distinct id _ ht)]
        have hpart : ∀ fields, v = .record fields → ∀ name w, named? fields name = some w → w ∈ v.parts := by
          rintro fields rfl name w hw
          obtain ⟨e, he, rfl⟩ := named?_mem hw
          exact List.mem_map_of_mem he
        constructor
        · rintro ⟨fields, rfl, keys, hf⟩
          exact .record keys fun f hm w hw => (ih w (hpart _ rfl _ w hw) f.type).1 (hf f hm w hw)
        · intro h
          cases h with
          | record keys hf =>
            exact ⟨_, rfl, keys, fun f hm w hw => (ih w (hpart _ rfl _ w hw) f.type).2 (hf f hm w hw)⟩
      | oneOf o =>
        rw [plan_oneOf_isOk ht (hs.distinct id _ ht).1]
        have hpart : ∀ name value, v = .variant name value ∨ v = .variantRef name value → value ∈ v.parts := by
          rintro name value (rfl | rfl) <;> simp [parts]
        constructor
        · rintro ⟨member, hm, value, hv, hp⟩
          exact .oneOf hm hv ((ih value (hpart _ _ hv) member.type).1 hp)
        · intro h
          cases h with
          | oneOf hm hv hc => exact ⟨_, hm, _, hv, (ih _ (hpart _ _ hv) _).2 hc⟩

end Value

end Flatwire

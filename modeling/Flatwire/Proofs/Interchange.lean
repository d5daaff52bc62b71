import Flatwire.Proofs.JsonText
import Flatwire.Proofs.Memory
import Flatwire.Schema.Json

/-! Schemas as JSON. A schema whose names are valid texts and whose references have 32 bits and lie in its arena is read
back from its text as it was, although what says nothing is left out and the list of unions is not written at all. Every
schema that is read is such a schema. -/

namespace Flatwire

variable {size : Nat} {s : Schema} {t : TypeDef}

/-! ### What can be written -/

/-- A reference that fits into 32 bits and lies in an arena of the given size. -/
def IsRef (size id : Nat) : Prop := id < size ∧ id < 0x100000000

namespace TypeDef

/-- Names are valid texts, references are in order, and an enum has the width that its values ask for. -/
def Portable (size : Nat) : TypeDef → Prop
  | primitive _ | string => True
  | list elem => IsRef size elem
  | enum e => Utf8.valid e.name = true ∧ (∀ v ∈ e.variants, Utf8.valid v.name = true) ∧
      e.width = enumWidth (maxValue e.variants)
  | sequence q => Utf8.valid q.name = true ∧ ∀ f ∈ q.fields, Utf8.valid f.name = true ∧ IsRef size f.type
  | oneOf o => (∀ n ∈ o.path, Utf8.valid n = true) ∧ ∀ v ∈ o.variants, Utf8.valid v.name = true ∧ IsRef size v.type

end TypeDef

structure Schema.Portable (s : Schema) : Prop where
  name : Utf8.valid s.name = true
  types : ∀ t ∈ s.types.toList, t.Portable s.types.size
  refs : ∀ id ∈ s.decls, id < 0x100000000
  decls : SchemaJson.checkDecls s.types [] s.decls = .ok ()
  oneOfs : s.oneOfs = SchemaJson.oneOfIds s.types

namespace SchemaJson

open Json

/-! ### The document of a schema -/

/-- The keys are valid texts and the documents behind them plain. -/
def Members (d : Nat) (ms : List (Bytes × Json)) : Prop := ∀ m ∈ ms, Utf8.valid m.1 = true ∧ Plain d m.2

section Plain

variable {d : Nat} {j : Json} {ms ns : List (Bytes × Json)}

theorem Members.append (h : Members d ms) (h' : Members d ns) : Members d (ms ++ ns) :=
  List.forall_mem_append.2 ⟨h, h'⟩

theorem valid_ofString (s : String) : Utf8.valid (Bytes.ofString s) = true := Utf8.valid_iff.2 ⟨s, rfl⟩

theorem members_member (key : String) (h : Plain d j) : Members d (member key j) :=
  List.forall_mem_singleton.2 ⟨valid_ofString key, h⟩

theorem members_unless {absent : Bool} (key : String) (h : Plain d j) : Members d (memberUnless absent key j) := by
  unfold memberUnless
  split_ifs
  · simp [Members]
  · exact members_member key h

theorem Members.plain (h : Members d ms) : Plain (d + 1) (.obj ms) :=
  .obj (fun m hm => (h m hm).1) fun m hm => (h m hm).2

theorem plain_map {α : Type} {xs : List α} {f : α → Json} (h : ∀ x ∈ xs, Plain d (f x)) :
    Plain (d + 1) (.arr (xs.map f)) :=
  .arr (List.forall_mem_map.2 h)

theorem plain_typeMembers (h : t.Portable size) : Members 2 (typeMembers t) := by
  cases t with
  | primitive k => exact members_member _ (.str (valid_ofString _))
  | string => simp [Members, typeMembers]
  | list elem => exact members_member _ (.nat elem)
  | enum e =>
    obtain ⟨hname, hvariants, -⟩ := h
    refine ((members_unless _ (.str hname)).append (members_unless _ (.nat _))).append (members_unless _ ?_)
    exact plain_map fun v hv => ((members_member _ (.str (hvariants v hv))).append (members_member _ (.nat _))).plain
  | sequence q =>
    obtain ⟨hname, hfields⟩ := h
    refine ((members_unless _ (.str hname)).append (members_unless _ (.nat _))).append (members_unless _ ?_)
    exact plain_map fun f hf => (((members_member _ (.str (hfields f hf).1)).append (members_member _ (.nat _))).append
      (members_member _ (.nat _))).plain
  | oneOf o =>
    obtain ⟨hpath, hvariants⟩ := h
    refine (members_unless _ (plain_map fun n hn => .str (hpath n hn))).append (members_unless _ ?_)
    exact plain_map fun v hv => (((members_member _ (.str (hvariants v hv).1)).append
      (members_member _ (.nat _))).append (members_member _ (.nat _))).plain

theorem plain_decls (ids : List TypeId) : Plain (d + 1) (decls ids) := by
  unfold decls
  split_ifs
  · exact .null
  · exact plain_map fun id _ => .nat id

end Plain

end SchemaJson

theorem Schema.Portable.plain (h : s.Portable) : Json.Plain 5 s.toJson := by
  refine (((SchemaJson.members_member _ (.str h.name)).append (SchemaJson.members_member _ ?_)).append
    (SchemaJson.members_member _ (SchemaJson.plain_decls _))).plain
  refine SchemaJson.plain_map fun t ht => ?_
  exact ((SchemaJson.members_member _ (.str (SchemaJson.valid_ofString _))).append
    (SchemaJson.plain_typeMembers (h.types t ht))).plain

namespace SchemaJson

open Json

variable {size : Nat}

/-! ### Reading a document back -/

theorem readNat_nat {limit n : Nat} (h : n < limit) (old : Nat) : readNat limit old (.nat n) = .ok n := by
  rw [nat, readNat, natOfDigits?_decimal]
  exact if_pos h

section Members

variable {α β : Type} {slots : List (Slot α Misfit)} {key name : String} {get : α → β} {set : α → β → α}
  {part : Reader β} {old : α} {x : β} {j : Json} {ms : List (Bytes × Json)}
  (hfind : (slots.find? fun slot => foldKey slot.key = foldKey key) = some (slot name get set part))

include hfind

theorem readMembers_member (hread : part (get old) j = .ok x) :
    readMembers slots old (member key j ++ ms) = readMembers slots (set old x) ms := by
  rw [member, List.singleton_append, readMembers, hfind]
  simp only [slot, hread, Except.map]

theorem readMembers_unless {absent : Bool} (hread : absent = false → part (get old) j = .ok x)
    (habsent : absent = true → set old x = old) :
    readMembers slots old (memberUnless absent key j ++ ms) = readMembers slots (set old x) ms := by
  cases absent with
  | true =>
    rw [habsent rfl]
    rfl
  | false => exact readMembers_member hfind (hread rfl)

end Members

theorem readEnumVariant_enumVariant (old v : EnumVariant) : readEnumVariant old (enumVariant v) = .ok v := by
  rw [readEnumVariant, enumVariant, readRecord, readMembers_member rfl rfl, ← List.append_nil (member _ _),
    readMembers_member rfl (readNat_nat v.value.toNat_lt _), UInt64.ofNat_toNat]
  rfl

theorem readField_field (old : Field) {f : Field} (h : IsRef size f.type) : readField old (field f) = .ok f := by
  rw [readField, field, readRecord, List.append_assoc, readMembers_member rfl rfl,
    readMembers_member rfl (readNat_nat f.offset.toNat_lt _), ← List.append_nil (member _ _),
    readMembers_member rfl (readNat_nat h.2 _), UInt16.ofNat_toNat]
  rfl

theorem readVariant_variant (old : Variant) {v : Variant} (h : IsRef size v.type) :
    readVariant old (variant v) = .ok v := by
  rw [readVariant, variant, readRecord, List.append_assoc, readMembers_member rfl rfl,
    readMembers_member rfl (readNat_nat v.tag.toNat_lt _), ← List.append_nil (member _ _),
    readMembers_member rfl (readNat_nat h.2 _), UInt8.ofNat_toNat]
  rfl

section Lists

variable {α β : Type} {zero : α} {item : Reader α} {f : β → Json} {g : β → α} {ys : List β}

theorem readItems_map (h : ∀ y ∈ ys, item zero (f y) = .ok (g y)) :
    readItems zero item [] (ys.map f) = .ok (ys.map g) := by
  induction ys with
  | nil => rfl
  | cons y ys ih =>
    have hy : item (([] : List α).headD zero) (f y) = .ok (g y) := h y List.mem_cons_self
    rw [List.map_cons, readItems, hy, List.tail_nil, ih fun z hz => h z (List.mem_cons_of_mem y hz)]
    rfl

theorem readList_map (h : ∀ y ∈ ys, item zero (f y) = .ok (g y)) :
    readList zero item {} (.arr (ys.map f)) = .ok ⟨some (ys.map g), []⟩ := by
  cases ys with
  | nil => rfl
  | cons y ys =>
    have hlist : readList zero item {} (.arr ((y :: ys).map f)) =
        (readItems zero item [] ((y :: ys).map f) >>= fun xs => .ok ⟨some xs, []⟩) := rfl
    rw [hlist, readItems_map h]
    rfl

/-- The items of a list that is left out when it is empty. -/
def itemsOf (xs : List α) : Items α := ⟨if xs.isEmpty then none else some xs, []⟩

variable {xs : List α}

theorem toList_itemsOf (xs : List α) : (itemsOf xs).toList = xs := by
  cases xs <;> rfl

theorem readList_of_nonempty {f : α → Json} (h : ∀ x ∈ xs, item zero (f x) = .ok x) (hne : xs.isEmpty = false) :
    readList zero item {} (.arr (xs.map f)) = .ok (itemsOf xs) := by
  rw [readList_map (g := id) h, List.map_id, itemsOf, hne]
  rfl

theorem itemsOf_of_empty (h : xs.isEmpty = true) : itemsOf xs = {} := by
  rw [itemsOf, h]
  rfl

end Lists

/-- What the document of a type is read as. -/
def raw : TypeDef → RawType
  | .primitive k => { kind := Bytes.ofString "primitive", primitive := k.name }
  | .string => { kind := Bytes.ofString "string" }
  | .list elem => { kind := Bytes.ofString "list", elem := some elem }
  | .enum e => { kind := Bytes.ofString "enum", name := e.name, width := e.width.toNat, values := itemsOf e.variants }
  | .sequence q =>
    { kind := Bytes.ofString "sequence", name := q.name, size := q.size.toNat, fields := itemsOf q.fields }
  | .oneOf o => { kind := Bytes.ofString "oneof", path := itemsOf o.path, variants := itemsOf o.variants }

theorem readType_type (h : t.Portable size) : readType {} (type t) = .ok (raw t) := by
  rw [readType, type, readRecord, readMembers_member rfl rfl]
  cases t with
  | primitive k => rfl
  | string => rfl
  | list elem =>
    have hid : readOption 0 readId none (.nat elem) = .ok (some elem) :=
      congrArg (Except.map some) (readNat_nat h.2 0)
    rw [typeMembers, ← List.append_nil (member _ _), readMembers_member rfl hid]
    rfl
  | enum e =>
    rw [typeMembers, List.append_assoc, ← List.append_nil (memberUnless e.variants.isEmpty _ _)]
    refine Eq.trans (readMembers_unless rfl (fun _ => rfl) fun hempty => ?_) ?_
    · rw [List.isEmpty_iff.1 hempty]
    refine Eq.trans (readMembers_unless rfl (fun _ => readNat_nat e.width.toNat_lt _) fun hzero => ?_) ?_
    · rw [of_decide_eq_true hzero]
      rfl
    refine Eq.trans (readMembers_unless rfl (readList_of_nonempty ?_) fun hempty => ?_) ?_
    · exact fun v _ => readEnumVariant_enumVariant _ v
    · rw [itemsOf_of_empty hempty]
    · rfl
  | sequence q =>
    rw [typeMembers, List.append_assoc, ← List.append_nil (memberUnless q.fields.isEmpty _ _)]
    refine Eq.trans (readMembers_unless rfl (fun _ => rfl) fun hempty => ?_) ?_
    · rw [List.isEmpty_iff.1 hempty]
    refine Eq.trans (readMembers_unless rfl (fun _ => readNat_nat q.size.toNat_lt _) fun hzero => ?_) ?_
    · rw [of_decide_eq_true hzero]
      rfl
    refine Eq.trans (readMembers_unless rfl (readList_of_nonempty ?_) fun hempty => ?_) ?_
    · exact fun f hf => readField_field _ (h.2 f hf).2
    · rw [itemsOf_of_empty hempty]
    · rfl
  | oneOf o =>
    rw [typeMembers, ← List.append_nil (memberUnless o.variants.isEmpty _ _)]
    refine Eq.trans (readMembers_unless rfl (readList_of_nonempty fun _ _ => rfl) fun hempty => ?_) ?_
    · rw [itemsOf_of_empty hempty]
    refine Eq.trans (readMembers_unless rfl (readList_of_nonempty ?_) fun hempty => ?_) ?_
    · exact fun v hv => readVariant_variant _ (h.2 v hv).2
    · rw [itemsOf_of_empty hempty]
    · rfl

/-! ### Checking what was read -/

theorem checkRefs_eq_ok {ids : List TypeId} : checkRefs size ids = .ok () ↔ ∀ id ∈ ids, id < size := by
  induction ids with
  | nil => simp [checkRefs]
  | cons id ids ih =>
    rw [checkRefs, checkRef, List.forall_mem_cons, ← ih]
    split_ifs with hid
    · simp [hid]
    · simp [hid, error_bind]

theorem ofName?_name (k : PrimitiveKind) : PrimitiveKind.ofName? k.name = some k := by
  cases k <;> decide +kernel

theorem check_raw (h : t.Portable size) (id : TypeId) : (raw t).check size id = .ok t := by
  cases t with
  | primitive k =>
    have hk := ofName?_name k
    rw [raw, RawType.check, if_pos rfl, hk]
  | string => rfl
  | list elem =>
    have hlist : (raw (.list elem)).check size id = (checkRef size elem >>= fun _ => .ok (.list elem)) := rfl
    rw [hlist, checkRef, if_pos h.1]
    rfl
  | enum e =>
    have henum : (raw (.enum e)).check size id =
        if e.width.toNat = (enumWidth (maxValue (itemsOf e.variants).toList)).toNat
        then .ok (.enum ⟨e.name, enumWidth (maxValue (itemsOf e.variants).toList), (itemsOf e.variants).toList⟩)
        else .error (.wrongWidth e.name e.width.toNat (enumWidth (maxValue (itemsOf e.variants).toList)).toNat) := rfl
    rw [henum, toList_itemsOf, if_pos (congrArg UInt8.toNat h.2.2), ← h.2.2]
  | sequence q =>
    have hsequence : (raw (.sequence q)).check size id = (checkRefs size ((itemsOf q.fields).toList.map Field.type) >>=
        fun _ => .ok (.sequence ⟨q.name, UInt16.ofNat q.size.toNat, (itemsOf q.fields).toList⟩)) := rfl
    have hrefs : checkRefs size (q.fields.map Field.type) = .ok () :=
      checkRefs_eq_ok.2 (List.forall_mem_map.2 fun f hf => (h.2 f hf).2.1)
    rw [hsequence, toList_itemsOf, hrefs, UInt16.ofNat_toNat]
    rfl
  | oneOf o =>
    have honeOf : (raw (.oneOf o)).check size id = (checkRefs size ((itemsOf o.variants).toList.map Variant.type) >>=
        fun _ => .ok (.oneOf ⟨(itemsOf o.path).toList, (itemsOf o.variants).toList⟩)) := rfl
    have hrefs : checkRefs size (o.variants.map Variant.type) = .ok () :=
      checkRefs_eq_ok.2 (List.forall_mem_map.2 fun v hv => (h.2 v hv).2.1)
    rw [honeOf, toList_itemsOf, toList_itemsOf, hrefs]
    rfl

theorem checkTypes_raw {types : List TypeDef} (h : ∀ t ∈ types, t.Portable size) (id : TypeId) :
    checkTypes size id (types.map raw) = .ok types := by
  induction types generalizing id with
  | nil => rfl
  | cons t types ih =>
    rw [List.map_cons, checkTypes, check_raw (h t List.mem_cons_self),
      ih (fun u hu => h u (List.mem_cons_of_mem t hu))]
    rfl

theorem readList_decls {ids : List TypeId} (h : ∀ id ∈ ids, id < 0x100000000) :
    readList 0 readId {} (decls ids) = .ok (itemsOf ids) := by
  unfold decls
  split_ifs with hempty
  · rw [itemsOf_of_empty hempty]
    rfl
  · exact readList_of_nonempty (fun id hid => readNat_nat (h id hid) 0) (by simpa using hempty)

end SchemaJson

namespace Schema

open Json SchemaJson

theorem Portable.readSchema_toJson (h : s.Portable) :
    readSchema {} s.toJson = .ok ⟨s.name, ⟨some (s.types.toList.map raw), []⟩, itemsOf s.decls⟩ := by
  rw [readSchema, toJson, readRecord, List.append_assoc, ← List.append_nil (member "decls" _)]
  refine Eq.trans (readMembers_member rfl rfl) ?_
  refine Eq.trans (readMembers_member rfl (readList_map fun t ht => readType_type (h.types t ht))) ?_
  refine Eq.trans (readMembers_member rfl (readList_decls h.refs)) ?_
  rfl

theorem Portable.parseJson_printJson (h : s.Portable) : parseJson s.printJson = .ok s := by
  rw [printJson, parseJson, parse?_print h.plain (by decide)]
  have hraws : (⟨some (s.types.toList.map raw), []⟩ : Items RawType).toList = s.types.toList.map raw := rfl
  simp only [ofJson, h.readSchema_toJson, RawSchema.check, hraws, toList_itemsOf, List.length_map, Array.length_toList,
    checkTypes_raw h.types, ok_bind, Array.toArray_toList, h.decls, ← h.oneOfs]
  rfl

end Schema

/-! ### Schemas that are read -/

namespace SchemaJson

open Json

/-- Starting from what has the property, the reader makes of every well spelled document what has it. -/
def Keeps {α : Type} (P : α → Prop) (read : Reader α) : Prop :=
  ∀ old j new, P old → WellSpelled j → read old j = .ok new → P new

section Keeps

variable {α β : Type} {P : α → Prop} {Q : β → Prop} {zero : α} {item : Reader α}

theorem readText_keeps : Keeps (fun t => Utf8.valid t = true) readText := by
  intro old j new hold hj h
  unfold readText at h
  split at h
  · cases h
    exact hold
  · cases h
    cases hj with
    | str ht => exact ht
  · cases h

theorem readNat_keeps (limit : Nat) : Keeps (fun n => n < limit) (readNat limit) := by
  intro old j new hold _ h
  unfold readNat at h
  split at h
  · cases h
    exact hold
  · split at h
    · split_ifs at h with hlt
      cases h
      exact hlt
    · cases h
  · cases h

theorem readItems_keeps (hzero : P zero) (hitem : Keeps P item) {olds : List α} {js : List Json} {ys : List α}
    (holds : ∀ x ∈ olds, P x) (hjs : ∀ j ∈ js, WellSpelled j) (h : readItems zero item olds js = .ok ys) :
    ∀ y ∈ ys, P y := by
  induction js generalizing olds ys with
  | nil =>
    cases h
    simp
  | cons j js ih =>
    obtain ⟨y, hy, h⟩ := exists_of_bind h
    obtain ⟨zs, hzs, h⟩ := exists_of_bind h
    cases h
    have hhead : P (olds.headD zero) := by
      cases olds with
      | nil => exact hzero
      | cons x xs => exact holds x List.mem_cons_self
    refine List.forall_mem_cons.2 ⟨hitem _ _ _ hhead (hjs j List.mem_cons_self) hy, ?_⟩
    exact ih (fun x hx => holds x (List.mem_of_mem_tail hx)) (fun k hk => hjs k (List.mem_cons_of_mem j hk)) hzs

/-- Also the items behind the end, which a later list can bring back. -/
def AllItems (P : α → Prop) (xs : Items α) : Prop := ∀ x ∈ xs.toList ++ xs.spare, P x

theorem readList_keeps (hzero : P zero) (hitem : Keeps P item) : Keeps (AllItems P) (readList zero item) := by
  intro old j new hold hj h
  unfold readList at h
  split at h
  · cases h
    simp [AllItems, Items.toList]
  · cases h
    simp [AllItems, Items.toList]
  · obtain ⟨ys, hys, h⟩ := exists_of_bind h
    cases h
    cases hj with
    | arr hxs =>
      refine List.forall_mem_append.2 ⟨readItems_keeps hzero hitem hold hxs hys, fun x hx => ?_⟩
      exact hold x (List.mem_of_mem_drop hx)
  · cases h

theorem readOption_keeps (hzero : P zero) (hitem : Keeps P item) :
    Keeps (fun x => ∀ a ∈ x, P a) (readOption zero item) := by
  intro old j new hold hj h
  unfold readOption at h
  split at h
  · cases h
    simp
  · cases hread : item (old.getD zero) j with
    | error e =>
      rw [hread] at h
      cases h
    | ok a =>
      rw [hread] at h
      cases h
      have hstart : P (old.getD zero) := by
        cases old with
        | none => exact hzero
        | some b => exact hold b rfl
      rintro _ ⟨⟩
      exact hitem _ _ _ hstart hj hread

theorem slot_keeps {get : α → β} {set : α → β → α} {part : Reader β} (key : String) (hpart : Keeps Q part)
    (hget : ∀ a, P a → Q (get a)) (hset : ∀ a b, P a → Q b → P (set a b)) : Keeps P (slot key get set part).read := by
  intro old j new hold hj h
  cases hread : part (get old) j with
  | error e =>
    simp only [slot, hread] at h
    cases h
  | ok b =>
    simp only [slot, hread] at h
    cases h
    exact hset old b hold (hpart _ _ _ (hget old hold) hj hread)

theorem readMembers_keeps {slots : List (Slot α Misfit)} (h : ∀ slot ∈ slots, Keeps P slot.read) {old new : α}
    {ms : List (Bytes × Json)} (hold : P old) (hms : ∀ m ∈ ms, WellSpelled m.2)
    (hread : readMembers slots old ms = .ok new) : P new := by
  induction ms generalizing old with
  | nil =>
    cases hread
    exact hold
  | cons m ms ih =>
    obtain ⟨k, j⟩ := m
    have hrest : ∀ m ∈ ms, WellSpelled m.2 := fun m hm => hms m (List.mem_cons_of_mem _ hm)
    rw [readMembers] at hread
    split at hread
    · rename_i slot hslot
      split at hread
      · rename_i mid hmid
        exact ih (h slot (List.mem_of_find?_eq_some hslot) old j mid hold (hms _ List.mem_cons_self) hmid) hrest hread
      · cases hread
    · exact ih hold hrest hread

theorem readRecord_keeps {slots : List (Slot α Misfit)} (misfit : Misfit) (h : ∀ slot ∈ slots, Keeps P slot.read) :
    Keeps P (readRecord misfit slots) := by
  intro old j new hold hj hread
  cases hj with
  | null =>
    cases hread
    exact hold
  | obj hms => exact readMembers_keeps h hold hms hread
  | _ => cases hread

end Keeps

/-- Names and references that may stand in a schema, before it is known whether they stand for anything. -/
structure RawType.Sound (t : RawType) : Prop where
  name : Utf8.valid t.name = true
  elem : ∀ id ∈ t.elem, id < 0x100000000
  path : AllItems (fun n => Utf8.valid n = true) t.path
  values : AllItems (fun v => Utf8.valid v.name = true) t.values
  fields : AllItems (fun f => Utf8.valid f.name = true ∧ f.type < 0x100000000) t.fields
  variants : AllItems (fun v => Utf8.valid v.name = true ∧ v.type < 0x100000000) t.variants

structure RawSchema.Sound (s : RawSchema) : Prop where
  name : Utf8.valid s.name = true
  types : AllItems RawType.Sound s.types
  decls : AllItems (fun id => id < 0x100000000) s.decls

theorem allItems_empty {α : Type} (P : α → Prop) : AllItems P {} := by
  simp [AllItems, Items.toList]

theorem keeps_any {α : Type} (read : Reader α) : Keeps (fun _ => True) read := fun _ _ _ _ _ _ => trivial

theorem readEnumVariant_keeps : Keeps (fun v : EnumVariant => Utf8.valid v.name = true) readEnumVariant := by
  refine readRecord_keeps _ ?_
  simp only [List.forall_mem_cons, List.not_mem_nil, false_implies, implies_true, and_true]
  exact ⟨slot_keeps _ readText_keeps (fun _ h => h) fun _ _ _ h => h,
    slot_keeps _ (keeps_any _) (fun _ _ => trivial) fun _ _ h _ => h⟩

theorem readField_keeps :
    Keeps (fun f : Field => Utf8.valid f.name = true ∧ f.type < 0x100000000) readField := by
  refine readRecord_keeps _ ?_
  simp only [List.forall_mem_cons, List.not_mem_nil, false_implies, implies_true, and_true]
  exact ⟨slot_keeps _ readText_keeps (fun _ h => h.1) fun _ _ h hn => ⟨hn, h.2⟩,
    slot_keeps _ (keeps_any _) (fun _ _ => trivial) fun _ _ h _ => h,
    slot_keeps _ (readNat_keeps _) (fun _ h => h.2) fun _ _ h hid => ⟨h.1, hid⟩⟩

theorem readVariant_keeps :
    Keeps (fun v : Variant => Utf8.valid v.name = true ∧ v.type < 0x100000000) readVariant := by
  refine readRecord_keeps _ ?_
  simp only [List.forall_mem_cons, List.not_mem_nil, false_implies, implies_true, and_true]
  exact ⟨slot_keeps _ readText_keeps (fun _ h => h.1) fun _ _ h hn => ⟨hn, h.2⟩,
    slot_keeps _ (keeps_any _) (fun _ _ => trivial) fun _ _ h _ => h,
    slot_keeps _ (readNat_keeps _) (fun _ h => h.2) fun _ _ h hid => ⟨h.1, hid⟩⟩

theorem readType_keeps : Keeps RawType.Sound readType := by
  have hzero : (0 : Nat) < 0x100000000 := by decide
  have hpath : Keeps (AllItems fun n => Utf8.valid n = true) (readList [] readText) :=
    readList_keeps rfl readText_keeps
  have hvalues : Keeps (AllItems fun v : EnumVariant => Utf8.valid v.name = true) (readList ⟨[], 0⟩ readEnumVariant) :=
    readList_keeps rfl readEnumVariant_keeps
  refine readRecord_keeps _ ?_
  simp only [List.forall_mem_cons, List.not_mem_nil, false_implies, implies_true, and_true]
  refine ⟨slot_keeps _ (keeps_any _) (fun _ _ => trivial) fun _ _ h _ => { h with },
    slot_keeps _ (keeps_any _) (fun _ _ => trivial) fun _ _ h _ => { h with },
    slot_keeps _ (readOption_keeps hzero (readNat_keeps _)) (fun _ h => h.elem) fun _ _ h hx => { h with elem := hx },
    slot_keeps _ readText_keeps (fun _ h => h.name) fun _ _ h hx => { h with name := hx },
    slot_keeps _ (keeps_any _) (fun _ _ => trivial) fun _ _ h _ => { h with },
    slot_keeps _ (keeps_any _) (fun _ _ => trivial) fun _ _ h _ => { h with },
    slot_keeps _ hpath (fun _ h => h.path) fun _ _ h hx => { h with path := hx },
    slot_keeps _ hvalues (fun _ h => h.values) fun _ _ h hx => { h with values := hx },
    slot_keeps _ (readList_keeps ⟨rfl, hzero⟩ readField_keeps) (fun _ h => h.fields)
      fun _ _ h hx => { h with fields := hx },
    slot_keeps _ (readList_keeps ⟨rfl, hzero⟩ readVariant_keeps) (fun _ h => h.variants)
      fun _ _ h hx => { h with variants := hx }⟩

theorem sound_empty : RawType.Sound {} :=
  ⟨rfl, by simp, allItems_empty _, allItems_empty _, allItems_empty _, allItems_empty _⟩

theorem readSchema_keeps : Keeps RawSchema.Sound readSchema := by
  have hzero : (0 : Nat) < 0x100000000 := by decide
  refine readRecord_keeps _ ?_
  simp only [List.forall_mem_cons, List.not_mem_nil, false_implies, implies_true, and_true]
  exact ⟨slot_keeps _ readText_keeps (fun _ h => h.name) fun _ _ h hx => { h with name := hx },
    slot_keeps _ (readList_keeps sound_empty readType_keeps) (fun _ h => h.types)
      fun _ _ h hx => { h with types := hx },
    slot_keeps _ (readList_keeps hzero (readNat_keeps _)) (fun _ h => h.decls) fun _ _ h hx => { h with decls := hx }⟩

theorem portable_of_check {id : TypeId} {t : RawType} {d : TypeDef} (h : t.Sound) (hcheck : t.check size id = .ok d) :
    d.Portable size := by
  have hitems : ∀ {α : Type} {P : α → Prop} {xs : Items α}, AllItems P xs → ∀ x ∈ xs.toList, P x :=
    fun hall x hx => hall x (List.mem_append_left _ hx)
  unfold RawType.check at hcheck
  split_ifs at hcheck
  · split at hcheck
    · cases hcheck
      trivial
    · cases hcheck
  · cases hcheck
    trivial
  · split at hcheck
    · cases hcheck
    · rename_i elem helem
      obtain ⟨_, href, hcheck⟩ := exists_of_bind hcheck
      cases hcheck
      unfold checkRef at href
      split_ifs at href with hlt
      exact ⟨hlt, h.elem elem helem⟩
  · dsimp only at hcheck
    split_ifs at hcheck
    cases hcheck
    exact ⟨h.name, hitems h.values, rfl⟩
  · obtain ⟨_, hrefs, hcheck⟩ := exists_of_bind hcheck
    cases hcheck
    have hlt := List.forall_mem_map.1 (checkRefs_eq_ok.1 hrefs)
    exact ⟨h.name, fun f hf => ⟨(hitems h.fields f hf).1, hlt f hf, (hitems h.fields f hf).2⟩⟩
  · obtain ⟨_, hrefs, hcheck⟩ := exists_of_bind hcheck
    cases hcheck
    have hlt := List.forall_mem_map.1 (checkRefs_eq_ok.1 hrefs)
    exact ⟨hitems h.path, fun v hv => ⟨(hitems h.variants v hv).1, hlt v hv, (hitems h.variants v hv).2⟩⟩

theorem portable_of_checkTypes {id : TypeId} {raws : List RawType} {types : List TypeDef} (h : ∀ t ∈ raws, t.Sound)
    (hcheck : checkTypes size id raws = .ok types) : types.length = raws.length ∧ ∀ t ∈ types, t.Portable size := by
  induction raws generalizing id types with
  | nil =>
    cases hcheck
    simp
  | cons t raws ih =>
    obtain ⟨d, hd, hcheck⟩ := exists_of_bind hcheck
    obtain ⟨ds, hds, hcheck⟩ := exists_of_bind hcheck
    cases hcheck
    obtain ⟨hlen, hall⟩ := ih (fun u hu => h u (List.mem_cons_of_mem t hu)) hds
    exact ⟨by simp [hlen], List.forall_mem_cons.2 ⟨portable_of_check (h t List.mem_cons_self) hd, hall⟩⟩

end SchemaJson

theorem Schema.portable_of_parseJson {text : Bytes} (h : Schema.parseJson text = .ok s) : s.Portable := by
  unfold Schema.parseJson at h
  split at h
  · cases h
  rename_i j hj
  unfold Schema.ofJson at h
  split at h
  · cases h
  rename_i raw hraw
  have hsound : raw.Sound := SchemaJson.readSchema_keeps {} j raw
    ⟨rfl, SchemaJson.allItems_empty _, SchemaJson.allItems_empty _⟩ (Json.parse?_wellSpelled hj) hraw
  obtain ⟨types, htypes, h⟩ := exists_of_bind h
  obtain ⟨_, hdecls, h⟩ := exists_of_bind h
  cases h
  obtain ⟨hlen, hportable⟩ := SchemaJson.portable_of_checkTypes
    (fun t ht => hsound.types t (List.mem_append_left _ ht)) htypes
  refine ⟨hsound.name, fun t ht => ?_, fun id hid => hsound.decls id (List.mem_append_left _ hid), hdecls, rfl⟩
  rw [List.size_toArray, hlen]
  exact hportable t (by simpa using ht)

end Flatwire

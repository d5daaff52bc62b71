import Flatwire.Compile
import Flatwire.Proofs.Conformance
import Flatwire.Proofs.Grammar
import Flatwire.Proofs.Numbers
import Flatwire.Static.Pixel

/-! Pixels written by fixed code and through their schema. A value of the schema denotes a pixel if it says the same, in
whatever integer types, with enum values by name or by number, fields in any order and data as bytes or as a list. The
pixel and every value that denotes it draw one image, so that every buffer is filled alike or is too small for both. -/

namespace Flatwire

variable {α : Type}

namespace Value

variable {k : PrimitiveKind} {elem : TypeId}

/-- The integer, in whatever type. -/
def IsInt (n : Int) (v : Value) : Prop := ∃ x, v = .int x ∧ x.value = n

/-- A list of values, each for one of the elements. -/
def ListOf {α : Type} (P : α → Value → Prop) (xs : List α) (v : Value) : Prop :=
  ∃ items, v = .list items ∧ List.Forall₂ P xs items

/-- The variant of the name, as a value or by reference. -/
def IsVariant (name : Bytes) (P : Value → Prop) (v : Value) : Prop :=
  ∃ value, (v = .variant name value ∨ v = .variantRef name value) ∧ P value

/-- A record with these fields and no others. -/
def HasFields (parts : List (Bytes × (Value → Prop))) (v : Value) : Prop :=
  ∃ fields, v = .record fields ∧ (∀ name, name ∈ fields.map Prod.fst ↔ name ∈ parts.map Prod.fst) ∧
    ∀ part ∈ parts, ∃ w, named? fields part.1 = some w ∧ part.2 w

/-- The value conforms to the type and has the image. -/
structure Encodes (s : Schema) (id : TypeId) (v : Value) (i : Image) : Prop where
  conforms : v.Conforms s id
  image : v.image? s id = some i

variable {s : Schema} {id : TypeId} {v : Value}

theorem encodes_integer {n : Int} (ht : s.type? id = some (.primitive k)) (hn : k.Admits n) (h : v.IsInt n) :
    v.Encodes s id (.number k.size (unsigned k.size n)) := by
  obtain ⟨x, rfl, rfl⟩ := h
  have hnumber : k.number? (.int x) = some (unsigned k.size x.value) := by
    cases k <;> simp_all [PrimitiveKind.number?, PrimitiveKind.Admits, PrimitiveKind.range, PrimitiveKind.isSigned,
      PrimitiveKind.size, Value.between?]
  exact ⟨.intro ht (.integer hn), image?_of_draws ht (.primitive hnumber)⟩

theorem encodes_natural {n : Nat} (ht : s.type? id = some (.primitive k)) (hn : k.Admits n) (h : v.IsInt n) :
    v.Encodes s id (.number k.size n) := by
  have hlt : (n : Int) < Nat.pow 2 (8 * k.size) := by
    cases k <;> simp only [PrimitiveKind.Admits] at hn <;> simp [PrimitiveKind.size] <;> omega
  have hsame : unsigned k.size n = n := Int.ofNat_inj.1 (unsigned_of_nonneg (Int.natCast_nonneg n) hlt)
  have hinteger := encodes_integer ht hn h
  rwa [hsame] at hinteger

theorem encodes_enum {e : EnumType} {n : UInt64} (ht : s.type? id = some (.enum e)) (hn : e.number? v = some n) :
    v.Encodes s id (.number e.width.toNat n.toNat) :=
  ⟨.intro ht (fits_enum_iff.2 ⟨n, hn⟩), image?_of_draws ht (.enum hn)⟩

theorem encodes_text {t : Bytes} (ht : s.type? id = some .string) (h0 : 0 ∉ t) : (text t).Encodes s id (.text t) :=
  ⟨.intro ht (.text h0), image?_of_draws ht (.text h0)⟩

theorem encodes_bytes {items : Bytes} (ht : s.type? id = some (.list elem))
    (he : s.type? elem = some (.primitive .u8)) (hl : items.length ≤ maxListLength) :
    (bytes items).Encodes s id (.ofBytes items) :=
  ⟨.intro ht (.bytes he hl), image?_of_draws ht (.bytes he hl)⟩

theorem encodes_list {P : α → Value → Prop} {image : α → Image} {xs : List α} (ht : s.type? id = some (.list elem))
    (hl : xs.length ≤ maxListLength) (hx : ∀ x ∈ xs, ∀ w, P x w → w.Encodes s elem (image x)) (h : v.ListOf P xs) :
    v.Encodes s id (.list (xs.map image)) := by
  obtain ⟨items, rfl, hitems⟩ := h
  have hlen : items.length ≤ maxListLength := hitems.length_eq ▸ hl
  have hdrawn : List.Forall₂ (fun w x => w.Encodes s elem (image x)) items xs :=
    (((List.forall₂_and_left _ _).2 ⟨hx, hitems⟩).imp fun x w h => h.1 w h.2).flip
  have hconforms : ∀ w ∈ items, w.Conforms s elem :=
    ((List.forall₂_and_left _ _).1 (hdrawn.imp fun _ _ h => ⟨h.conforms, h⟩)).1
  refine ⟨.intro ht (.list hlen hconforms), image?_of_draws ht (.list hlen ?_)⟩
  exact List.forall₂_map_right_iff.2 (hdrawn.imp fun _ _ h => h.image)

theorem encodes_oneOf {o : OneOfType} (member : Variant) {P : Value → Prop} {i : Image}
    (ht : s.type? id = some (.oneOf o)) (hm : o.find? member.name = some member)
    (hp : ∀ w, P w → w.Encodes s member.type i) (h : v.IsVariant member.name P) :
    v.Encodes s id (.oneOf member.tag i) := by
  obtain ⟨value, hv, hvalue⟩ := h
  have hpart := hp value hvalue
  exact ⟨.intro ht (.oneOf (List.mem_of_find?_eq_some hm) hv hpart.conforms),
    image?_of_draws ht (.oneOf hv hm hpart.image)⟩

/-- The parts bear the names of the fields, in order, and what is a part encodes its image. -/
inductive EncodesFields (s : Schema) : List Field → List (Bytes × (Value → Prop)) → List Image → Prop
  | nil : EncodesFields s [] [] []
  | cons {f : Field} {P : Value → Prop} {i : Image} {fs : List Field} {parts : List (Bytes × (Value → Prop))}
      {is : List Image} (hp : ∀ w, P w → w.Encodes s f.type i) (hf : EncodesFields s fs parts is) :
      EncodesFields s (f :: fs) ((f.name, P) :: parts) (i :: is)

section Fields

variable {fs : List Field} {parts : List (Bytes × (Value → Prop))} {is : List Image}

theorem EncodesFields.names (h : EncodesFields s fs parts is) : parts.map Prod.fst = fs.map Field.name := by
  induction h with
  | nil => rfl
  | cons _ _ ih => rw [List.map_cons, List.map_cons, ih]

theorem EncodesFields.images {fields : List (Bytes × Value)} (h : EncodesFields s fs parts is)
    (hparts : ∀ part ∈ parts, ∃ w, named? fields part.1 = some w ∧ part.2 w) :
    List.Forall₂ (fun f i => ∃ w, named? fields f.name = some w ∧ w.Encodes s f.type i) fs is := by
  induction h with
  | nil => exact .nil
  | cons hp _ ih =>
    rw [List.forall_mem_cons] at hparts
    obtain ⟨⟨w, hw, hpw⟩, hrest⟩ := hparts
    exact .cons ⟨w, hw, hp w hpw⟩ (ih hrest)

theorem encodes_record {q : SequenceType} (ht : s.type? id = some (.sequence q)) (hf : EncodesFields s q.fields parts is)
    (h : v.HasFields parts) : v.Encodes s id (.concat is) := by
  obtain ⟨fields, rfl, keys, hparts⟩ := h
  rw [hf.names] at keys
  have himages := hf.images hparts
  have hconforms : ∀ f ∈ q.fields, ∀ w, named? fields f.name = some w → w.Conforms s f.type := by
    refine ((List.forall₂_and_left _ _).1 (himages.imp fun f i h => ⟨fun w hw => ?_, h⟩)).1
    obtain ⟨w', hw', hi⟩ := h
    cases hw.symm.trans hw'
    exact hi.conforms
  refine ⟨.intro ht (.record keys hconforms), image?_of_draws ht (.record (himages.imp ?_))⟩
  rintro f i ⟨w, hw, hi⟩
  exact ⟨w, hw, hi.image⟩

end Fields

theorem exists_fields_of_conforms {q : SequenceType} (ht : s.type? id = some (.sequence q)) (h : v.Conforms s id) :
    ∃ fields, v = .record fields ∧ (∀ name, name ∈ fields.map Prod.fst ↔ name ∈ q.fields.map Field.name) ∧
      ∀ f ∈ q.fields, ∃ w, named? fields f.name = some w ∧ w.Conforms s f.type := by
  rw [conforms_iff ht] at h
  cases h with
  | record keys hf =>
    refine ⟨_, rfl, keys, fun f hm => ?_⟩
    obtain ⟨w, hw⟩ := exists_named?_iff.2 ((keys f.name).2 (List.mem_map_of_mem hm))
    exact ⟨w, hw, hf f hm w hw⟩

theorem exists_int_of_conforms (ht : s.type? id = some (.primitive k)) (hk : k ≠ .f32 ∧ k ≠ .f64 ∧ k ≠ .bool)
    (h : v.Conforms s id) : ∃ n, k.Admits n ∧ v.IsInt n := by
  rw [conforms_iff ht] at h
  cases h with
  | @integer _ x hx => exact ⟨_, hx, x, rfl, rfl⟩
  | float hfloat _ => exact absurd hfloat (not_or.2 ⟨hk.1, hk.2.1⟩)
  | bool => exact absurd rfl hk.2.2

theorem exists_listOf {P : α → Value → Prop} {items : List Value} (hl : items.length ≤ maxListLength)
    (h : ∀ w ∈ items, ∃ x, P x w) : ∃ xs, xs.length ≤ maxListLength ∧ (list items).ListOf P xs := by
  have hxs : ∃ xs, List.Forall₂ P xs items := by
    clear hl
    induction items with
    | nil => exact ⟨[], .nil⟩
    | cons w items ih =>
      obtain ⟨⟨x, hx⟩, hrest⟩ := List.forall_mem_cons.1 h
      obtain ⟨xs, hxs⟩ := ih hrest
      exact ⟨x :: xs, .cons hx hxs⟩
  obtain ⟨xs, hxs⟩ := hxs
  exact ⟨xs, hxs.length_eq ▸ hl, items, rfl, hxs⟩

theorem exists_listOf_of_conforms {P : α → Value → Prop} (ht : s.type? id = some (.list elem))
    (he : s.type? elem ≠ some (.primitive .u8)) (hx : ∀ w, w.Conforms s elem → ∃ x, P x w) (h : v.Conforms s id) :
    ∃ xs, xs.length ≤ maxListLength ∧ v.ListOf P xs := by
  rw [conforms_iff ht] at h
  cases h with
  | bytes hu _ => exact absurd hu he
  | list hl hi => exact exists_listOf hl fun w hw => hx w (hi w hw)

end Value

namespace Static

variable {v : Value}

/-- The schema of pixels, compiled. -/
def pixelSchema : Schema where
  name := "pixel"
  types := #[
    .enum ⟨"Color", 2, [⟨"red", 0⟩, ⟨"green", 1⟩, ⟨"blue", 300⟩]⟩,
    .sequence ⟨"Point", 4, [⟨"x", 0, 3⟩, ⟨"y", 2, 3⟩]⟩,
    .sequence ⟨"Pixel", 23, [⟨"color", 0, 0⟩, ⟨"label", 2, 4⟩, ⟨"origin", 4, 1⟩, ⟨"tags", 8, 5⟩, ⟨"data", 12, 7⟩,
      ⟨"points", 16, 8⟩, ⟨"body", 20, 9⟩]⟩,
    .primitive .i16, .string, .list 4, .primitive .u8, .list 6, .list 1,
    .oneOf ⟨["Pixel", "body"], [⟨"id", 0, 10⟩, ⟨"name", 1, 4⟩, ⟨"at", 2, 1⟩]⟩,
    .primitive .u32]
  decls := [0, 1, 2]
  oneOfs := [9]

theorem compile_pixelSource :
    ∃ tree, SchemaTree.parse pixelSource = .ok tree ∧ (compile tree "pixel").schema = some pixelSchema :=
  SchemaTree.exists_parse (by decide +kernel)

theorem pixelSchema_lawful : pixelSchema.Lawful where
  refs id t h := (by decide : ∀ t ∈ pixelSchema.types.toList, ∀ ref ∈ t.refs, ref < pixelSchema.types.size) t
    (Schema.type?_mem h)
  acyclic := by
    apply Schema.not_transGen_of_rank fun id => if id = 2 then 2 else if id = 1 then 1 else 0
    rintro a b ⟨q, hq, f, hf, rfl⟩
    have ha : a < 11 := Schema.type?_lt hq
    interval_cases a <;> cases hq
    all_goals
      revert f
      decide
  contiguous id t h := (by decide : ∀ t ∈ pixelSchema.types.toList, t.Contiguous pixelSchema) t (Schema.type?_mem h)
  lists := by
    -- no element of a list is a list
    have hlt : ∀ a b, pixelSchema.Lists a b →
        (if b = 5 ∨ b = 7 ∨ b = 8 then 1 else 0) < if a = 5 ∨ a = 7 ∨ a = 8 then 1 else 0 := by
      intro a b h
      have ha : a < 11 := Schema.type?_lt h
      unfold Schema.Lists at h
      interval_cases a <;> cases h <;> decide
    exact Subrelation.wf (fun {b a} h => hlt a b h)
      (measure fun id : TypeId => if id = 5 ∨ id = 7 ∨ id = 8 then 1 else 0).wf
  distinct id t h := (by decide : ∀ t ∈ pixelSchema.types.toList, t.Distinct) t (Schema.type?_mem h)

/-- The colour is one of those that have a name. -/
def Color.Declared (c : Color) : Prop := c.value = 0 ∨ c.value = 1 ∨ c.value = 300

instance (c : Color) : Decidable c.Declared := inferInstanceAs (Decidable (_ ∨ _ ∨ _))

def Color.DenotedBy (c : Color) (v : Value) : Prop := v = .text c.name ∨ v.IsInt c.value.toNat

def Point.DenotedBy (p : Point) : Value → Prop :=
  Value.HasFields [("x", Value.IsInt p.x.toInt), ("y", Value.IsInt p.y.toInt)]

def Body.DenotedBy : Body → Value → Prop
  | id n => Value.IsVariant "id" (Value.IsInt n.toNat)
  | name t => Value.IsVariant "name" (· = .text t)
  | point p => Value.IsVariant "at" p.DenotedBy

/-- Bytes, or a list of their numbers. -/
def DataDenotedBy (data : Bytes) (v : Value) : Prop :=
  v = .bytes data ∨ Value.ListOf (fun b => Value.IsInt b.toNat) data v

/-- The value says of each part what the pixel does. -/
def Pixel.DenotedBy (p : Pixel) : Value → Prop :=
  Value.HasFields [("color", p.color.DenotedBy), ("label", (· = .text p.label)), ("origin", p.origin.DenotedBy),
    ("tags", Value.ListOf (fun t v => v = .text t) p.tags), ("data", DataDenotedBy p.data),
    ("points", Value.ListOf Point.DenotedBy p.points), ("body", fun v => ∃ b, p.body = some b ∧ b.DenotedBy v)]

/-- The pixel can be written: a declared colour, no zero bytes in texts, lists that can be counted, and a body. -/
structure Pixel.WellFormed (p : Pixel) : Prop where
  color : p.color.Declared
  label : 0 ∉ p.label
  tags : ∀ t ∈ p.tags, 0 ∉ t
  tagCount : p.tags.length ≤ maxListLength
  dataLength : p.data.length ≤ maxListLength
  pointCount : p.points.length ≤ maxListLength
  body : p.body.isSome
  bodyName : ∀ t, p.body = some (.name t) → 0 ∉ t

/-! ### Images -/

def Color.image (c : Color) : Image := .number 2 c.value.toNat

def Point.image (p : Point) : Image := .concat [.number 2 (unsigned 2 p.x.toInt), .number 2 (unsigned 2 p.y.toInt)]

def Body.image : Body → Image
  | id n => .oneOf 0 (.number 4 n.toNat)
  | name t => .oneOf 1 (.text t)
  | point p => .oneOf 2 p.image

def Pixel.image (p : Pixel) (b : Body) : Image :=
  .concat [p.color.image, .text p.label, p.origin.image, .list (p.tags.map .text), .ofBytes p.data,
    .list (p.points.map Point.image), b.image]

open Component

/-! ### Fixed code and components

The code writes what components with the same offsets do, field by field. -/

def Point.component (p : Point) : Component := .record 4 [(0, .int 2 p.x.toInt), (2, .int 2 p.y.toInt)]

def Body.component : Option Body → Component
  | none => .oneOf 0 none
  | some (id n) => .oneOf 0 (some (.scalar 4 n.toNat))
  | some (name s) => .oneOf 1 (some (.text s))
  | some (point p) => .oneOf 2 (some p.component)

def Pixel.component (p : Pixel) : Component :=
  .record 23
    [(0, .scalar 2 p.color.value.toNat), (2, .text p.label), (4, p.origin.component), (8, .list (p.tags.map .text)),
      (12, .bytes p.data), (16, .list (p.points.map Point.component)), (20, Body.component p.body)]

theorem write_scalar (buf : Buffer) (dest cursor : Int) (width v : Nat) :
    Component.write buf dest cursor (.scalar width v) =
      inBuffer (buf.putNat? dest width v) >>= fun b => pure (b, cursor) := by
  rw [Component.write]

theorem write_record (buf : Buffer) (dest cursor : Int) (size : UInt16) (fs : List (UInt16 × Component)) :
    Component.write buf dest cursor (.record size fs) = writeFields fs buf dest cursor := by
  rw [Component.write]

theorem writeFields_cons (offset : UInt16) (c : Component) (fs : List (UInt16 × Component)) (buf : Buffer)
    (dest cursor : Int) : writeFields ((offset, c) :: fs) buf dest cursor =
      c.write buf (dest + offset.toNat) cursor >>= fun r => writeFields fs r.1 dest r.2 := by
  rw [writeFields]
  cases c.write buf (dest + offset.toNat) cursor <;> rfl

theorem writeItems_writer (size : Nat) (cs : List Component) (buf : Buffer) (dest cursor : Int) :
    Writer.writeItems size (cs.map Component.writer) buf dest cursor = writeItems size cs buf dest cursor := by
  induction cs generalizing buf dest cursor with
  | nil => rfl
  | cons c cs ih =>
    rw [List.map_cons, Writer.writeItems, writeItems]
    change (c.write buf dest cursor >>= _) = _
    cases hw : c.write buf dest cursor with
    | error e => rfl
    | ok r => exact ih r.1 (dest + size) r.2

theorem writer_list (cs : List Component) : Writer.list (cs.map Component.writer) = (Component.list cs).writer := by
  refine congrArg (Writer.mk 4) (funext fun buf => funext fun dest => funext fun cursor => ?_)
  cases cs with
  | nil =>
    rw [Component.write]
    rfl
  | cons c cs =>
    simp only [List.map_cons, List.length_cons, List.length_map, Component.write, Writer.writeItems, writeItems_writer]
    rfl

theorem writer_oneOf (tag : UInt8) (c : Component) :
    Writer.oneOf tag c.writer = (Component.oneOf tag (some c)).writer := by
  refine congrArg (Writer.mk 3) (funext fun buf => funext fun dest => funext fun cursor => ?_)
  rw [Component.write]
  rfl

theorem Point.writer_eq (p : Point) : p.writer = p.component.writer := by
  refine congrArg (Writer.mk 4) (funext fun buf => funext fun dest => funext fun cursor => ?_)
  have hfirst : dest + ((0 : UInt16).toNat : Int) = dest := Int.add_zero dest
  simp only [Point.component, write_record, writeFields_cons, Component.int, write_scalar, bind_assoc, pure_bind, hfirst]
  simp only [writeFields]
  rfl

theorem Body.writer_eq (b : Option Body) : Body.writer b = (Body.component b).writer := by
  match b with
  | none =>
    refine congrArg (Writer.mk 3) (funext fun buf => funext fun dest => funext fun cursor => ?_)
    rw [Body.component, Component.write]
  | some (.id n) => exact writer_oneOf 0 (.scalar 4 n.toNat)
  | some (.name s) => exact writer_oneOf 1 (.text s)
  | some (.point p) => rw [Body.writer, p.writer_eq, writer_oneOf, Body.component]

theorem Pixel.writer_eq (p : Pixel) : p.writer = p.component.writer := by
  have hpoints : p.points.map Point.writer = (p.points.map Point.component).map Component.writer := by
    rw [List.map_map]
    exact List.map_congr_left fun q _ => q.writer_eq
  have horigin : p.origin.write = p.origin.component.writer.write := congrArg Writer.write p.origin.writer_eq
  refine congrArg (Writer.mk 23) (funext fun buf => funext fun dest => funext fun cursor => ?_)
  have hfirst : dest + ((0 : UInt16).toNat : Int) = dest := Int.add_zero dest
  simp only [Pixel.component, write_record, writeFields_cons, write_scalar, bind_assoc, pure_bind, hfirst]
  simp only [Pixel.write, hpoints, writer_list, Body.writer_eq, horigin, writeFields]
  rfl

theorem Point.writes (p : Point) : p.component.Writes p.image :=
  writes_record (.cons rfl (writes_scalar 2 _) (.cons rfl (writes_scalar 2 _) (.nil _))) rfl

theorem Body.writes (b : Body) : (Body.component (some b)).Writes b.image := by
  cases b with
  | id n => exact writes_oneOf (writes_scalar 4 n.toNat) 0
  | name t => exact writes_oneOf (writes_text t) 1
  | point p => exact writes_oneOf p.writes 2

theorem writes_items {component : α → Component} {image : α → Image} (size : Nat) (xs : List α)
    (hw : ∀ x, (component x).Writes (image x)) (hsize : ∀ x, (image x).size = size) (hl : xs.length ≤ maxListLength) :
    (Component.list (xs.map component)).Writes (.list (xs.map image)) := by
  refine writes_list size ?_ ?_ (by rwa [List.length_map])
  · rw [List.forall₂_map_left_iff, List.forall₂_map_right_iff, List.forall₂_same]
    exact fun x _ => hw x
  · intro i hi
    obtain ⟨x, -, rfl⟩ := List.mem_map.1 hi
    exact hsize x

theorem Pixel.writes {p : Pixel} {b : Body} (hp : p.WellFormed) (hb : p.body = some b) :
    p.component.Writes (p.image b) := by
  have hbody : (Body.component p.body).Writes b.image := hb ▸ b.writes
  have hbodySize : b.image.size = 3 := by cases b <;> rfl
  refine writes_record ?_ (by simp [Image.concat, Image.append, hbodySize]; rfl)
  refine .cons rfl (writes_scalar 2 _) <| .cons rfl (writes_text _) <| .cons rfl p.origin.writes <| .cons rfl ?_ <|
    .cons rfl (writes_bytes _ hp.dataLength) <| .cons rfl ?_ <| .cons rfl hbody (.nil _)
  · exact writes_items 2 p.tags writes_text (fun _ => rfl) hp.tagCount
  · exact writes_items 4 p.points Point.writes (fun _ => rfl) hp.pointCount

/-! ### Values that denote pixels -/

open Value

theorem Color.encodes {c : Color} (hc : c.Declared) (h : c.DenotedBy v) : v.Encodes pixelSchema 0 c.image := by
  have hnumber : EnumType.number? ⟨"Color", 2, [⟨"red", 0⟩, ⟨"green", 1⟩, ⟨"blue", 300⟩]⟩ v = some c.value.toUInt64 := by
    obtain ⟨n⟩ := c
    rcases h with rfl | ⟨x, rfl, hx⟩
    · rcases hc with rfl | rfl | rfl <;> rfl
    · have huint : x.toUInt64? = some n.toUInt64 := Integer.toUInt64?_eq_some_iff.2 (by simpa using hx.symm)
      rcases hc with rfl | rfl | rfl <;> simp only [EnumType.number?, Value.uint?, huint] <;> rfl
  rw [Color.image, ← UInt16.toNat_toUInt64]
  exact encodes_enum rfl hnumber

theorem Point.encodes {p : Point} (h : p.DenotedBy v) : v.Encodes pixelSchema 1 p.image := by
  have hx : PrimitiveKind.Admits .i16 p.x.toInt := ⟨p.x.le_toInt, Int.le_of_lt_add_one p.x.toInt_lt⟩
  have hy : PrimitiveKind.Admits .i16 p.y.toInt := ⟨p.y.le_toInt, Int.le_of_lt_add_one p.y.toInt_lt⟩
  refine encodes_record rfl ?_ h
  exact .cons (fun _ => encodes_integer rfl hx) (.cons (fun _ => encodes_integer rfl hy) .nil)

theorem Body.encodes {b : Body} (hname : ∀ t, b = .name t → 0 ∉ t) (h : b.DenotedBy v) :
    v.Encodes pixelSchema 9 b.image := by
  cases b with
  | id n =>
    have hn : PrimitiveKind.Admits .u32 n.toNat := ⟨Int.natCast_nonneg _, by have := n.toNat_lt; omega⟩
    exact encodes_oneOf ⟨"id", 0, 10⟩ rfl rfl (fun w => encodes_natural rfl hn) h
  | name t =>
    refine encodes_oneOf ⟨"name", 1, 4⟩ rfl rfl ?_ h
    rintro w rfl
    exact encodes_text rfl (hname t rfl)
  | point p => exact encodes_oneOf ⟨"at", 2, 1⟩ rfl rfl (fun w => Point.encodes) h

theorem encodes_data {data : Bytes} (hl : data.length ≤ maxListLength) (h : DataDenotedBy data v) :
    v.Encodes pixelSchema 7 (.ofBytes data) := by
  rcases h with rfl | h
  · exact encodes_bytes rfl rfl hl
  · have hbyte : ∀ b : UInt8, PrimitiveKind.Admits .u8 b.toNat :=
      fun b => ⟨Int.natCast_nonneg _, by have := b.toNat_lt; omega⟩
    exact encodes_list rfl hl (fun b _ w => encodes_natural (k := .u8) rfl (hbyte b)) h

theorem Pixel.encodes {p : Pixel} {b : Body} (hp : p.WellFormed) (hb : p.body = some b) (h : p.DenotedBy v) :
    v.Encodes pixelSchema 2 (p.image b) := by
  refine encodes_record rfl ?_ h
  refine .cons (fun _ => Color.encodes hp.color) <| .cons ?_ <| .cons (fun _ => Point.encodes) <| .cons (fun _ => ?_) <|
    .cons (fun _ => encodes_data hp.dataLength) <| .cons (fun _ => ?_) <| .cons ?_ .nil
  · rintro w rfl
    exact encodes_text rfl hp.label
  · refine encodes_list rfl hp.tagCount ?_
    rintro t ht w rfl
    exact encodes_text rfl (hp.tags t ht)
  · exact encodes_list rfl hp.pointCount fun q _ w => Point.encodes
  · rintro w ⟨b', hb', hw⟩
    cases hb.symm.trans hb'
    exact Body.encodes (fun t ht => hp.bodyName t (ht ▸ hb)) hw

theorem exists_color (h : v.Conforms pixelSchema 0) : ∃ c : Color, c.Declared ∧ c.DenotedBy v := by
  rw [conforms_iff rfl] at h
  cases h with
  | enumName hn =>
    simp only [List.map_cons, List.map_nil, List.mem_cons, List.not_mem_nil, or_false] at hn
    rcases hn with rfl | rfl | rfl
    · exact ⟨⟨0⟩, .inl rfl, .inl rfl⟩
    · exact ⟨⟨1⟩, .inr (.inl rfl), .inl rfl⟩
    · exact ⟨⟨300⟩, .inr (.inr rfl), .inl rfl⟩
  | @enumNumber _ x hx =>
    simp only [List.map_cons, List.map_nil, List.mem_cons, List.not_mem_nil, or_false] at hx
    rcases hx with hx | hx | hx
    · exact ⟨⟨0⟩, .inl rfl, .inr ⟨x, rfl, hx⟩⟩
    · exact ⟨⟨1⟩, .inr (.inl rfl), .inr ⟨x, rfl, hx⟩⟩
    · exact ⟨⟨300⟩, .inr (.inr rfl), .inr ⟨x, rfl, hx⟩⟩

theorem exists_text (h : v.Conforms pixelSchema 4) : ∃ t, 0 ∉ t ∧ v = .text t := by
  rw [conforms_iff rfl] at h
  cases h with
  | text h0 => exact ⟨_, h0, rfl⟩

theorem exists_coordinate (h : v.Conforms pixelSchema 3) : ∃ x : Int16, v.IsInt x.toInt := by
  obtain ⟨n, hn, hv⟩ := exists_int_of_conforms rfl (by decide) h
  refine ⟨Int16.ofInt n, ?_⟩
  rwa [Int16.toInt_ofInt_of_le hn.1 (Int.lt_add_one_of_le hn.2)]

theorem exists_point (h : v.Conforms pixelSchema 1) : ∃ p : Point, p.DenotedBy v := by
  obtain ⟨fields, rfl, keys, hparts⟩ := exists_fields_of_conforms rfl h
  simp only [List.forall_mem_cons] at hparts
  obtain ⟨⟨wx, hwx, hx⟩, ⟨wy, hwy, hy⟩, -⟩ := hparts
  obtain ⟨x, hx⟩ := exists_coordinate hx
  obtain ⟨y, hy⟩ := exists_coordinate hy
  refine ⟨⟨x, y⟩, fields, rfl, keys, ?_⟩
  simp only [List.forall_mem_cons]
  exact ⟨⟨wx, hwx, hx⟩, ⟨wy, hwy, hy⟩, nofun⟩

theorem exists_body (h : v.Conforms pixelSchema 9) : ∃ b : Body, (∀ t, b = .name t → 0 ∉ t) ∧ b.DenotedBy v := by
  rw [conforms_iff rfl] at h
  cases h with
  | @oneOf _ member _ value hm hv hc =>
    simp only [List.mem_cons, List.not_mem_nil, or_false] at hm
    rcases hm with rfl | rfl | rfl
    · obtain ⟨n, hn, hvalue⟩ := exists_int_of_conforms rfl (by decide) hc
      obtain ⟨m, rfl⟩ := Int.eq_ofNat_of_zero_le hn.1
      have hm : (m : Int) ≤ 4294967295 := hn.2
      refine ⟨.id (UInt32.ofNat m), nofun, value, hv, ?_⟩
      rwa [UInt32.toNat_ofNat_of_lt' (Nat.lt_succ_of_le (Int.ofNat_le.1 hm))]
    · obtain ⟨t, h0, ht⟩ := exists_text hc
      refine ⟨.name t, ?_, value, hv, ht⟩
      rintro _ ⟨⟩
      exact h0
    · obtain ⟨p, hp⟩ := exists_point hc
      exact ⟨.point p, nofun, value, hv, hp⟩

theorem exists_data (h : v.Conforms pixelSchema 7) :
    ∃ data : Bytes, data.length ≤ maxListLength ∧ DataDenotedBy data v := by
  rw [conforms_iff rfl] at h
  cases h with
  | bytes _ hl => exact ⟨_, hl, .inl rfl⟩
  | @list _ items hl hi =>
    have hbytes : ∀ w ∈ items, ∃ b : UInt8, w.IsInt b.toNat := by
      intro w hw
      obtain ⟨n, hn, hv⟩ := exists_int_of_conforms rfl (by decide) (hi w hw)
      obtain ⟨m, rfl⟩ := Int.eq_ofNat_of_zero_le hn.1
      have hm : (m : Int) ≤ 255 := hn.2
      refine ⟨UInt8.ofNat m, ?_⟩
      rwa [UInt8.toNat_ofNat_of_lt' (Nat.lt_succ_of_le (Int.ofNat_le.1 hm))]
    obtain ⟨data, hl, hdata⟩ := exists_listOf hl hbytes
    exact ⟨data, hl, .inr hdata⟩

theorem exists_pixel (h : v.Conforms pixelSchema 2) : ∃ p : Pixel, p.WellFormed ∧ p.DenotedBy v := by
  obtain ⟨fields, rfl, keys, hparts⟩ := exists_fields_of_conforms rfl h
  simp only [List.forall_mem_cons] at hparts
  obtain ⟨⟨wc, hwc, hc⟩, ⟨wl, hwl, hl⟩, ⟨wo, hwo, ho⟩, ⟨wt, hwt, ht⟩, ⟨wd, hwd, hd⟩, ⟨wp, hwp, hp⟩, ⟨wb, hwb, hb⟩, -⟩ :=
    hparts
  obtain ⟨color, hcolor, hc⟩ := exists_color hc
  obtain ⟨label, hlabel, hl⟩ := exists_text hl
  obtain ⟨origin, ho⟩ := exists_point ho
  obtain ⟨tags, htags, ht⟩ := exists_listOf_of_conforms (P := fun t v => 0 ∉ t ∧ v = .text t) rfl (by decide)
    (fun w => exists_text) ht
  obtain ⟨data, hdata, hd⟩ := exists_data hd
  obtain ⟨points, hpoints, hp⟩ := exists_listOf_of_conforms rfl (by decide) (fun w => exists_point) hp
  obtain ⟨body, hbody, hb⟩ := exists_body hb
  obtain ⟨items, rfl, hitems⟩ := ht
  obtain ⟨hzero, hitems⟩ := (List.forall₂_and_left _ _).1 hitems
  refine ⟨⟨color, label, origin, tags, data, points, some body⟩, ⟨hcolor, hlabel, hzero, htags, hdata, hpoints, rfl, ?_⟩,
    fields, rfl, keys, ?_⟩
  · rintro t ⟨⟩
    exact hbody t rfl
  · simp only [List.forall_mem_cons]
    exact ⟨⟨wc, hwc, hc⟩, ⟨wl, hwl, hl⟩, ⟨wo, hwo, ho⟩, ⟨_, hwt, items, rfl, hitems⟩, ⟨wd, hwd, hd⟩, ⟨wp, hwp, hp⟩,
      ⟨wb, hwb, body, rfl, hb⟩, nofun⟩

/-- What conforms to the schema of pixels is what denotes a pixel that can be written. The fixed code for the
pixel and the planned value then fill every buffer with the same bytes, to the size that was planned, or find it too
small alike. -/
theorem Pixel.writeTo_agrees_with_schema :
    (∃ tree, SchemaTree.parse pixelSource = .ok tree ∧ (compile tree "pixel").schema = some pixelSchema) ∧
    pixelSchema.lookup "Pixel" = some 2 ∧
    (∀ v : Value, v.Conforms pixelSchema 2 ↔ ∃ p : Pixel, p.WellFormed ∧ p.DenotedBy v) ∧
    ∀ (p : Pixel) (v : Value), p.WellFormed → p.DenotedBy v →
      ∃ (plan : Plan) (bytes : Bytes), v.plan pixelSchema 2 = .ok plan ∧ bytes.length = plan.size ∧ ∀ buf : Buffer,
        p.writer.writeTo buf = plan.component.writeTo buf ∧
        (bytes.length ≤ min buf.size Buffer.maxSize → ∃ out : Buffer,
          p.writer.writeTo buf = .ok (out, bytes.length) ∧ out.toList.take bytes.length = bytes) ∧
        (min buf.size Buffer.maxSize < bytes.length → p.writer.writeTo buf = .error .insufficientCapacity) := by
  refine ⟨compile_pixelSource, by decide, fun v => ⟨exists_pixel, ?_⟩, fun p v hp hv => ?_⟩
  · rintro ⟨p, hp, hv⟩
    obtain ⟨b, hb⟩ := Option.isSome_iff_exists.1 hp.body
    exact (Pixel.encodes hp hb hv).conforms
  · obtain ⟨b, hb⟩ := Option.isSome_iff_exists.1 hp.body
    have hencodes := Pixel.encodes hp hb hv
    obtain ⟨plan, hplan⟩ := (v.plan_isOk_iff pixelSchema_lawful 2).2 hencodes.conforms
    obtain ⟨i, hi, hdraws⟩ := v.plan_draws pixelSchema_lawful.toLaidOut 2 plan hplan
    cases hi.symm.trans hencodes.image
    refine ⟨plan, (p.image b).bytes, hplan, hdraws.size.symm, fun buf => ?_⟩
    have hcode : p.writer.writeTo buf = p.component.writeTo buf := by rw [p.writer_eq, Component.writeTo]
    rw [hcode, hdraws.writes.writeTo, (Pixel.writes hp hb).writeTo]
    refine ⟨rfl, fun hfit => ⟨_, if_pos hfit, List.take_left⟩, fun hshort => if_neg (Nat.not_le.2 hshort)⟩

/-- The body of the pixel is a point. -/
def samplePixel : Pixel :=
  ⟨⟨300⟩, "hello", ⟨-3, 4⟩, ["a", "bc"], [1, 2, 3], [⟨1, 2⟩, ⟨-5, 6⟩], some (.point ⟨7, -8⟩)⟩

/-- A point whose coordinates come in the other order. -/
def samplePoint (p : Point) : Value := .record [("y", .int (.int p.y.toInt64)), ("x", .int (.i16 p.x))]

/-- The sample with its body in front, its colour by name and its data as a list. -/
def sampleValue : Value :=
  .record [("body", .variantRef "at" (samplePoint ⟨7, -8⟩)), ("color", .text "blue"), ("label", .text "hello"),
    ("origin", samplePoint ⟨-3, 4⟩), ("tags", .list [.text "a", .text "bc"]),
    ("data", .list [.int (.int 1), .int (.u16 2), .int (.i64 3)]),
    ("points", .list [samplePoint ⟨1, 2⟩, samplePoint ⟨-5, 6⟩])]

theorem denotedBy_samplePoint (p : Point) : p.DenotedBy (samplePoint p) := by
  refine ⟨_, rfl, fun _ => (List.Perm.swap _ _ _).mem_iff, ?_⟩
  simp only [List.forall_mem_cons]
  exact ⟨⟨_, rfl, _, rfl, rfl⟩, ⟨_, rfl, _, rfl, Int16.toInt_toInt64 p.y⟩, nofun⟩

theorem Pixel.writeTo_agrees_with_schema_sample : samplePixel.WellFormed ∧ samplePixel.DenotedBy sampleValue ∧
    ∃ plan, sampleValue.plan pixelSchema 2 = .ok plan ∧ plan.size = 53 ∧
      (∀ buf, samplePixel.writer.writeTo buf = plan.component.writeTo buf) ∧
      samplePixel.writer.writeTo (Array.replicate 52 0) = .error .insufficientCapacity := by
  have hp : samplePixel.WellFormed :=
    ⟨by decide, by decide, by decide, by decide, by decide, by decide, rfl, nofun⟩
  have hv : samplePixel.DenotedBy sampleValue := by
    have hkeys := List.perm_append_singleton ("body" : Bytes) ["color", "label", "origin", "tags", "data", "points"]
    refine ⟨_, rfl, fun _ => hkeys.symm.mem_iff, ?_⟩
    simp only [List.forall_mem_cons]
    refine ⟨⟨_, rfl, .inl rfl⟩, ⟨_, rfl, rfl⟩, ⟨_, rfl, denotedBy_samplePoint _⟩,
      ⟨_, rfl, _, rfl, .cons rfl (.cons rfl .nil)⟩,
      ⟨_, rfl, .inr ⟨_, rfl, .cons ⟨_, rfl, rfl⟩ (.cons ⟨_, rfl, rfl⟩ (.cons ⟨_, rfl, rfl⟩ .nil))⟩⟩,
      ⟨_, rfl, _, rfl, .cons (denotedBy_samplePoint _) (.cons (denotedBy_samplePoint _) .nil)⟩,
      ⟨_, rfl, _, rfl, _, .inr rfl, denotedBy_samplePoint _⟩, nofun⟩
  obtain ⟨plan, bytes, hplan, hlen, hbuf⟩ := Pixel.writeTo_agrees_with_schema.2.2.2 _ _ hp hv
  have hmap : (sampleValue.plan pixelSchema 2).map Plan.size = .ok 53 := by decide +kernel
  have hsize : plan.size = 53 := by simpa [hplan, Except.map] using hmap
  refine ⟨hp, hv, plan, hplan, hsize, fun buf => (hbuf buf).1, (hbuf _).2.2 ?_⟩
  rw [hlen, hsize]
  decide

end Static

end Flatwire

import Mathlib.Data.List.Forall2
import Flatwire.Dynamic.Encode
import Flatwire.Proofs.Image
import Flatwire.Proofs.Integers
import Flatwire.Proofs.Lawful

/-! The reference encoding: the image of a value as a type of a schema, by recursion on the value. It knows no buffer and
no cursor, and takes neither offsets nor sizes from the schema. -/

namespace Flatwire

/-- The number that is stored for a value of the kind. -/
def PrimitiveKind.number? (k : PrimitiveKind) (v : Value) : Option Nat :=
  match k, v with
  | .bool, .bool b => some b.toNat
  | .bool, _ => none
  | .f32, v => v.toFloat?.map fun bits => FloatFormat.convert .double .single bits
  | .f64, v => v.toFloat?
  | k, v => (v.between? k.range.1 k.range.2).map (unsigned k.size)

/-- What stands under a name. -/
def named? {α : Type} (entries : List (Bytes × α)) (name : Bytes) : Option α :=
  (entries.find? fun e => e.1 = name).map Prod.snd

theorem named?_map {α β : Type} (g : α → β) (entries : List (Bytes × α)) (name : Bytes) :
    named? (entries.map fun e => (e.1, g e.2)) name = (named? entries name).map g := by
  rw [named?, named?, List.find?_map, Option.map_map, Option.map_map]
  rfl

theorem named?_mem {α : Type} {entries : List (Bytes × α)} {name : Bytes} {a : α} (h : named? entries name = some a) :
    ∃ e ∈ entries, e.2 = a := by
  obtain ⟨e, he, ha⟩ := Option.map_eq_some_iff.1 h
  exact ⟨e, List.mem_of_find?_eq_some he, ha⟩

theorem find?_of_nodup {α : Type} {name : α → Bytes} {xs : List α} (hnodup : (xs.map name).Nodup) {x : α}
    (hx : x ∈ xs) : (xs.find? fun y => name y = name x) = some x := by
  induction xs with
  | nil => cases hx
  | cons y xs ih =>
    rw [List.map_cons, List.nodup_cons] at hnodup
    rcases List.mem_cons.1 hx with rfl | hx
    · simp
    · have hne : name y ≠ name x := fun heq => hnodup.1 (heq ▸ List.mem_map_of_mem hx)
      rw [List.find?_cons_of_neg (by simpa using hne)]
      exact ih hnodup.2 hx

namespace Value

variable {s : Schema} {is : List Image}

/-- The values that a value is made of. -/
def parts : Value → List Value
  | list items => items
  | record fields => fields.map Prod.snd
  | variant _ value => [value]
  | variantRef _ value => [value]
  | _ => []

mutual

theorem parts_induction {P : Value → Prop} (step : ∀ v : Value, (∀ w ∈ v.parts, P w) → P v) : ∀ v : Value, P v
  | .nil | .bool _ | .int _ | .f32 _ | .f64 _ | .text _ | .bytes _ | .foreign _ _ =>
    step _ fun _ hw => nomatch hw
  | .list items => step _ (items_induction step items)
  | .record fields => step _ (fields_induction step fields)
  | .variant _ value | .variantRef _ value => step _ fun _ hw => List.mem_singleton.1 hw ▸ parts_induction step value

theorem items_induction {P : Value → Prop} (step : ∀ v : Value, (∀ w ∈ v.parts, P w) → P v) :
    ∀ items : List Value, ∀ w ∈ items, P w
  | [], _, hw => nomatch hw
  | v :: vs, w, hw => by
    rcases List.mem_cons.1 hw with h | h
    · exact h ▸ parts_induction step v
    · exact items_induction step vs w h

theorem fields_induction {P : Value → Prop} (step : ∀ v : Value, (∀ w ∈ v.parts, P w) → P v) :
    ∀ fields : List (Bytes × Value), ∀ w ∈ fields.map Prod.snd, P w
  | [], _, hw => nomatch hw
  | (_, v) :: fs, w, hw => by
    rcases List.mem_cons.1 hw with h | h
    · exact h ▸ parts_induction step v
    · exact fields_induction step fs w h

end

/-- The images of a sequence's fields, each drawn from the value under its name. -/
def fieldImages? (entries : List (Bytes × (TypeId → Option Image))) : List Field → Option (List Image)
  | [] => some []
  | f :: fs => do
    let image ← named? entries f.name
    let i ← image f.type
    return i :: (← fieldImages? entries fs)

mutual

/-- The image of a value as a type of the schema. -/
def image? (s : Schema) (v : Value) (id : TypeId) : Option Image :=
  match s.type? id with
  | none => none
  | some (.primitive k) => (k.number? v).map fun n => .number k.size n
  | some (.enum e) => (e.number? v).map fun n => .number e.width.toNat n.toNat
  | some .string =>
    match v with
    | .text t => if t.contains 0 then none else some (.text t)
    | _ => none
  | some (.list elem) =>
    match v with
    | .bytes items =>
      if s.type? elem = some (.primitive .u8) ∧ items.length ≤ maxListLength then some (.ofBytes items) else none
    | .list items => if items.length ≤ maxListLength then (itemImages? s items elem).map .list else none
    | _ => none
  | some (.sequence q) =>
    match v with
    | .record fields => (fieldImages? (entryImages s fields) q.fields).map .concat
    | _ => none
  | some (.oneOf o) =>
    match v with
    | .variant name value | .variantRef name value => do
      let member ← o.find? name
      return .oneOf member.tag (← value.image? s member.type)
    | _ => none
  termination_by structural v

def itemImages? (s : Schema) (items : List Value) (elem : TypeId) : Option (List Image) :=
  match items with
  | [] => some []
  | v :: vs => do
    let i ← v.image? s elem
    return i :: (← itemImages? s vs elem)
  termination_by structural items

def entryImages (s : Schema) (fields : List (Bytes × Value)) : List (Bytes × (TypeId → Option Image)) :=
  match fields with
  | [] => []
  | (name, v) :: fs => (name, fun id => v.image? s id) :: entryImages s fs
  termination_by structural fields

end

theorem itemImages?_eq_some {items : List Value} {elem : TypeId} :
    itemImages? s items elem = some is ↔ List.Forall₂ (fun v i => v.image? s elem = some i) items is := by
  induction items generalizing is with
  | nil => simp [itemImages?, eq_comm]
  | cons v vs ih =>
    rw [itemImages?]
    constructor
    · intro h
      obtain ⟨i, hi, h⟩ := Option.bind_eq_some_iff.1 h
      obtain ⟨js, hjs, h⟩ := Option.bind_eq_some_iff.1 h
      cases h
      exact .cons hi (ih.1 hjs)
    · rintro (_ | ⟨hi, hjs⟩)
      simp [hi, ih.2 hjs]

theorem entryImages_eq (s : Schema) (fields : List (Bytes × Value)) :
    entryImages s fields = fields.map fun f => (f.1, fun id => f.2.image? s id) := by
  induction fields with
  | nil => rw [entryImages]; rfl
  | cons f fs ih => rw [entryImages, ih, List.map_cons]

theorem fieldImages?_eq_some {fields : List (Bytes × Value)} {fs : List Field} :
    fieldImages? (entryImages s fields) fs = some is ↔
      List.Forall₂ (fun f i => ∃ v, named? fields f.name = some v ∧ v.image? s f.type = some i) fs is := by
  induction fs generalizing is with
  | nil => simp [fieldImages?, eq_comm]
  | cons f fs ih =>
    have he : named? (entryImages s fields) f.name = (named? fields f.name).map fun v id => v.image? s id := by
      rw [entryImages_eq, named?_map fun (v : Value) id => v.image? s id]
    rw [fieldImages?, he]
    constructor
    · intro h
      obtain ⟨image, himage, h⟩ := Option.bind_eq_some_iff.1 h
      obtain ⟨v, hv, rfl⟩ := Option.map_eq_some_iff.1 himage
      obtain ⟨i, hi, h⟩ := Option.bind_eq_some_iff.1 h
      obtain ⟨js, hjs, h⟩ := Option.bind_eq_some_iff.1 h
      cases h
      exact .cons ⟨v, hv, hi⟩ (ih.1 hjs)
    · rintro (_ | ⟨⟨v, hv, hi⟩, hjs⟩)
      simp [hv, hi, ih.2 hjs]

/-- How an image comes about, one level deep. -/
inductive Draws (s : Schema) : TypeDef → Value → Image → Prop
  | primitive {k : PrimitiveKind} {v : Value} {n : Nat} (h : k.number? v = some n) :
      Draws s (.primitive k) v (.number k.size n)
  | enum {e : EnumType} {v : Value} {n : UInt64} (h : e.number? v = some n) :
      Draws s (.enum e) v (.number e.width.toNat n.toNat)
  | text {t : Bytes} (h : 0 ∉ t) : Draws s .string (.text t) (.text t)
  | bytes {elem : TypeId} {items : Bytes} (h : s.type? elem = some (.primitive .u8))
      (hl : items.length ≤ maxListLength) : Draws s (.list elem) (.bytes items) (.ofBytes items)
  | list {elem : TypeId} {items : List Value} {is : List Image} (hl : items.length ≤ maxListLength)
      (h : List.Forall₂ (fun v i => v.image? s elem = some i) items is) : Draws s (.list elem) (.list items) (.list is)
  | record {q : SequenceType} {fields : List (Bytes × Value)} {is : List Image}
      (h : List.Forall₂ (fun f i => ∃ v, named? fields f.name = some v ∧ v.image? s f.type = some i) q.fields is) :
      Draws s (.sequence q) (.record fields) (.concat is)
  | oneOf {o : OneOfType} {v : Value} {name : Bytes} {value : Value} {member : Variant} {i : Image}
      (hv : v = .variant name value ∨ v = .variantRef name value) (hm : o.find? name = some member)
      (hi : value.image? s member.type = some i) : Draws s (.oneOf o) v (.oneOf member.tag i)

theorem image?_draws {v : Value} {id : TypeId} {i : Image} (h : v.image? s id = some i) :
    ∃ t, s.type? id = some t ∧ Draws s t v i := by
  rw [image?.eq_def] at h
  cases ht : s.type? id with
  | none => simp [ht] at h
  | some t =>
    refine ⟨t, rfl, ?_⟩
    cases t with
    | primitive k =>
      simp only [ht] at h
      obtain ⟨n, hn, rfl⟩ := Option.map_eq_some_iff.1 h
      exact .primitive hn
    | enum e =>
      simp only [ht] at h
      obtain ⟨n, hn, rfl⟩ := Option.map_eq_some_iff.1 h
      exact .enum hn
    | string =>
      cases v <;> simp [ht] at h
      obtain ⟨h0, rfl⟩ := h
      exact .text h0
    | list elem =>
      cases v <;> simp [ht] at h
      · obtain ⟨⟨hu, hl⟩, rfl⟩ := h
        exact .bytes hu hl
      · obtain ⟨hl, is, his, rfl⟩ := h
        exact .list hl (itemImages?_eq_some.1 his)
    | sequence q =>
      cases v <;> simp [ht] at h
      obtain ⟨is, his, rfl⟩ := h
      exact .record (fieldImages?_eq_some.1 his)
    | oneOf o =>
      cases v <;> simp [ht, Option.bind_eq_some_iff] at h
      · obtain ⟨m, hm, i, hi, rfl⟩ := h
        exact .oneOf (.inl rfl) hm hi
      · obtain ⟨m, hm, i, hi, rfl⟩ := h
        exact .oneOf (.inr rfl) hm hi

theorem image?_of_draws {v : Value} {id : TypeId} {t : TypeDef} {i : Image} (ht : s.type? id = some t)
    (h : Draws s t v i) : v.image? s id = some i := by
  rw [image?.eq_def]
  cases h with
  | primitive h => simp [ht, h]
  | enum h => simp [ht, h]
  | text h => simp [ht, h]
  | bytes h hl => simp [ht, h, hl]
  | list hl h => simp [ht, hl, itemImages?_eq_some.2 h]
  | record h => simp [ht, fieldImages?_eq_some.2 h]
  | oneOf hv hm hi => rcases hv with rfl | rfl <;> simp [ht, hm, hi]

theorem size_concat_fields {fs : List Field} (h : List.Forall₂ (fun f i => i.size = s.staticSize f.type) fs is) :
    (Image.concat is).size = s.total fs := by
  induction h with
  | nil => rfl
  | @cons f i fs is hfi _ ih =>
    have hc : (Image.concat (i :: is)).size = i.size + (Image.concat is).size := rfl
    rw [hc, hfi, ih, Schema.total_cons]

theorem size_image? (hs : s.LaidOut) (v : Value) :
    ∀ (id : TypeId) (i : Image), v.image? s id = some i → i.size = s.staticSize id := by
  induction v using parts_induction with
  | step v ih =>
    intro id i h
    obtain ⟨t, ht, hd⟩ := image?_draws h
    rw [Schema.staticSize_eq ht]
    cases hd with
    | @record q fields is hf =>
      have hsize : List.Forall₂ (fun f i => i.size = s.staticSize f.type) q.fields is := by
        refine hf.imp ?_
        rintro f i ⟨w, hw, hi⟩
        obtain ⟨e, he, rfl⟩ := named?_mem hw
        exact ih e.2 (List.mem_map_of_mem he) f.type i hi
      rw [size_concat_fields hsize]
      exact (hs.contiguous id _ ht).2.symm
    | primitive _ | enum _ | text _ | bytes _ _ | list _ _ | oneOf _ _ _ => rfl

theorem size_items (hs : s.LaidOut) {elem : TypeId} {items : List Value}
    (h : List.Forall₂ (fun v i => v.image? s elem = some i) items is) : ∀ i ∈ is, i.size = s.staticSize elem := by
  induction h with
  | nil => simp
  | @cons v i _ is hv _ ih =>
    intro j hj
    rcases List.mem_cons.1 hj with rfl | hj
    · exact size_image? hs v elem _ hv
    · exact ih j hj

end Value

end Flatwire

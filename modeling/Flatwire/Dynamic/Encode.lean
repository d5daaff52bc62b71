import Flatwire.Dynamic.Value
import Flatwire.Schema
import Flatwire.Text.Quoted
import Flatwire.Wire.Component

/-! Encoding of a value as a type of a schema. First the value is checked against the type and planned as a component,
with the exact size of its payloads; then the component is written into a buffer of just that size. -/

namespace Flatwire

inductive EncodeError where
  | notValid (shape typeName : Bytes)
  | notPrimitive (value shape : Bytes) (kind : PrimitiveKind) (typeName : Bytes)
  | notMember (value enumName : Bytes)
  | zeroByte
  | missingField (sequence field : Bytes)
  | unknownField (sequence field : Bytes)
  | unknownVariant (typeName variant : Bytes)
  | tooLarge (size : Nat)
  | write (e : WriteError)
  /-- The schema has no type of the given number. -/
  | noType (id : TypeId)
deriving DecidableEq, Repr

namespace EncodeError

def kind? : EncodeError → Option FailureKind
  | notValid .. | notPrimitive .. | notMember .. | zeroByte => some .typeMismatch
  | _ => none

def detail : EncodeError → Bytes
  | notValid shape typeName => shape ++ " is not a valid " ++ typeName
  | notPrimitive value shape kind typeName =>
    value ++ " (" ++ shape ++ ") is not a valid " ++ kind.name ++ " (" ++ typeName ++ ")"
  | notMember value enumName => value ++ " is not a variant of enum " ++ enumName
  | zeroByte => "string contains NUL"
  | missingField sequence field => "sbbin: sequence " ++ sequence ++ " is missing field " ++ Text.quote field
  | unknownField sequence field => "sbbin: sequence " ++ sequence ++ " has no field " ++ Text.quote field
  | unknownVariant typeName variant => "sbbin: oneof " ++ typeName ++ " has no variant " ++ Text.quote variant
  | tooLarge size => "sbbin: encoded size " ++ Bytes.decimal size ++ " exceeds maximum " ++ Bytes.decimal Buffer.maxSize ++
      ": " ++ WriteError.insufficientCapacity.message
  | write e => e.message
  | noType id => "sbbin: no type " ++ Bytes.decimal id

def message (e : EncodeError) : Bytes :=
  match e.kind? with
  | some k => k.text ++ ": " ++ e.detail
  | none => e.detail

end EncodeError

namespace PrimitiveKind

/-- The largest number of an unsigned kind. -/
def limit : PrimitiveKind → UInt64
  | u8 => 0xFF
  | u16 => 0xFFFF
  | u32 => 0xFFFFFFFF
  | _ => 0xFFFFFFFFFFFFFFFF

/-- The least and the greatest number of a signed kind. -/
def bounds : PrimitiveKind → Int64 × Int64
  | i8 => (-0x80, 0x7F)
  | i16 => (-0x8000, 0x7FFF)
  | i32 => (-0x80000000, 0x7FFFFFFF)
  | _ => (Int64.minValue, Int64.maxValue)

/-- The component of a primitive: integers in range, any number for a float, and booleans. -/
def component? (k : PrimitiveKind) (v : Value) : Option Component :=
  match k, v with
  | .bool, .bool b => some (.bool b)
  | .bool, _ => none
  | .f32, v => v.toFloat?.map fun bits => .scalar 4 (FloatFormat.convert .double .single bits)
  | .f64, v => v.toFloat?.map fun bits => .scalar 8 bits
  | k, v =>
    if k.isSigned then (v.int? k.bounds.1 k.bounds.2).map fun n => .int k.size n.toInt
    else (v.uint? k.limit).map fun n => .int k.size n.toNat

end PrimitiveKind

/-- The number of an enum's variant that is given by its name, or by the number in an integer of any type. -/
def EnumType.number? (e : EnumType) : Value → Option UInt64
  | .text name => (e.variants.find? fun v => v.name = name).map EnumVariant.value
  | v => (v.uint? 0xFFFFFFFFFFFFFFFF).filter fun n => e.variants.any fun v => v.value = n

def OneOfType.find? (o : OneOfType) (name : Bytes) : Option Variant := o.variants.find? fun v => v.name = name

def SequenceType.find? (q : SequenceType) (name : Bytes) : Option Field := q.fields.find? fun f => f.name = name

structure Plan where
  component : Component
  payloads : Nat
deriving Repr

def Plan.size (p : Plan) : Nat := p.component.staticSize + p.payloads

abbrev Planned := Except (Located EncodeError) Plan

/-- Plans the fields of a sequence in order, each by the planner that stands under its name. -/
def planFields (q : SequenceType) (entries : List (Bytes × (TypeId → Planned))) :
    List Field → Nat → List (UInt16 × Component) → Except (Located EncodeError) (List (UInt16 × Component) × Nat)
  | [], payloads, done => .ok (done.reverse, payloads)
  | f :: fs, payloads, done =>
    match entries.find? fun e => e.1 = f.name with
    | none => .error (.here (.missingField q.name f.name))
    | some (_, plan) =>
      match within (.field q.name f.name) (plan f.type) with
      | .error e => .error e
      | .ok p => planFields q entries fs (payloads + p.payloads) ((f.offset, p.component) :: done)

/-- The first name, in order, that no field has; it is looked for only among more names than fields. -/
def SequenceType.stranger? (q : SequenceType) (names : List Bytes) : Option Bytes :=
  if names.length > q.fields.length then
    (names.mergeSort fun a b => !Bytes.lt b a).find? fun n => (q.find? n).isNone
  else none

def planRecord (q : SequenceType) (entries : List (Bytes × (TypeId → Planned))) : Planned := do
  let (fields, payloads) ← planFields q entries q.fields 0 []
  match q.stranger? (entries.map (·.1)) with
  | some name => throw (.here (.unknownField q.name name))
  | none => return ⟨.record q.size fields, payloads⟩

def planVariant (o : OneOfType) (typeName name : Bytes) (plan : TypeId → Planned) : Planned :=
  match o.find? name with
  | none => .error (.here (.unknownVariant typeName name))
  | some member =>
    match within (.variant name) (plan member.type) with
    | .error e => .error e
    | .ok p => .ok ⟨.oneOf member.tag (some p.component), p.payloads + p.component.staticSize⟩

namespace Value

mutual

def plan (s : Schema) (v : Value) (id : TypeId) : Planned :=
  match s.type? id with
  | none => .error (.here (.noType id))
  | some (.primitive k) =>
    match k.component? v with
    | some c => .ok ⟨c, 0⟩
    | none => .error (.here (.notPrimitive v.display v.shape k (s.typeName id)))
  | some (.enum e) =>
    match e.number? v with
    | some n => .ok ⟨.scalar e.width.toNat n.toNat, 0⟩
    | none => .error (.here (.notMember v.display e.name))
  | some .string =>
    match v with
    | .text t => if t.contains 0 then .error (.here .zeroByte) else .ok ⟨.text t, t.length + 1⟩
    | v => .error (.here (.notValid v.shape (s.typeName id)))
  | some (.list elem) =>
    match v with
    | .bytes items =>
      if s.type? elem = some (.primitive .u8) then
        if items.length > maxListLength then .error (.here (.write .listTooLong)) else .ok ⟨.bytes items, items.length⟩
      else .error (.here (.notValid (Value.bytes items).shape (s.typeName id)))
    | .list items =>
      if items.length > maxListLength then .error (.here (.write .listTooLong))
      else planItems s items elem 0 (items.length * s.staticSize elem) []
    | v => .error (.here (.notValid v.shape (s.typeName id)))
  | some (.sequence q) =>
    match v with
    | .record fields => planRecord q (planEntries s fields)
    | v => .error (.here (.notValid v.shape (s.typeName id)))
  | some (.oneOf o) =>
    match v with
    | .variant name value => planVariant o (s.typeName id) name (fun id => value.plan s id)
    | .variantRef name value => planVariant o (s.typeName id) name (fun id => value.plan s id)
    | v => .error (.here (.notValid v.shape (s.typeName id)))
  termination_by structural v

/-- Plans the elements of a list from number `i` on. -/
def planItems (s : Schema) (items : List Value) (elem : TypeId) (i payloads : Nat) (done : List Component) : Planned :=
  match items with
  | [] => .ok ⟨.list done.reverse, payloads⟩
  | v :: vs =>
    match within (.item i) (v.plan s elem) with
    | .error e => .error e
    | .ok p => planItems s vs elem (i + 1) (payloads + p.payloads) (p.component :: done)
  termination_by structural items

def planEntries (s : Schema) (fields : List (Bytes × Value)) : List (Bytes × (TypeId → Planned)) :=
  match fields with
  | [] => []
  | (name, v) :: fs => (name, fun id => v.plan s id) :: planEntries s fs
  termination_by structural fields

end

end Value

def Schema.encode (s : Schema) (id : TypeId) (v : Value) : Except (Located EncodeError) Bytes := do
  let p ← v.plan s id
  if p.size > Buffer.maxSize then throw (.here (.tooLarge p.size))
  match p.component.writeTo (Array.replicate p.size 0) with
  | .error e => throw (.here (.write e))
  | .ok (buf, n) => return (buf.extract 0 n).toList

end Flatwire

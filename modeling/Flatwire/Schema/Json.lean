import Flatwire.Json.Read
import Flatwire.Schema
import Flatwire.Text.Quoted

/-! Schemas as JSON. What is zero or empty is left out; what is left out reads as zero or empty. -/

namespace Flatwire

namespace SchemaJson

def member (key : String) (j : Json) : List (Bytes × Json) := [(Bytes.ofString key, j)]

def texts (ts : List Bytes) : Json := .arr (ts.map .str)

/-- Members that are left out when they say nothing. -/
def memberUnless (absent : Bool) (key : String) (j : Json) : List (Bytes × Json) := if absent then [] else member key j

def enumVariant (v : EnumVariant) : Json := .obj (member "name" (.str v.name) ++ member "value" (.nat v.value.toNat))

def field (f : Field) : Json :=
  .obj (member "name" (.str f.name) ++ member "offset" (.nat f.offset.toNat) ++ member "type" (.nat f.type))

def variant (v : Variant) : Json :=
  .obj (member "name" (.str v.name) ++ member "tag" (.nat v.tag.toNat) ++ member "type" (.nat v.type))

def typeMembers : TypeDef → List (Bytes × Json)
  | .primitive k => member "primitive" (.str k.name)
  | .string => []
  | .list elem => member "elem" (.nat elem)
  | .enum e =>
    memberUnless e.name.isEmpty "name" (.str e.name) ++ memberUnless (e.width = 0) "width" (.nat e.width.toNat) ++
      memberUnless e.variants.isEmpty "values" (.arr (e.variants.map enumVariant))
  | .sequence q =>
    memberUnless q.name.isEmpty "name" (.str q.name) ++ memberUnless (q.size = 0) "size" (.nat q.size.toNat) ++
      memberUnless q.fields.isEmpty "fields" (.arr (q.fields.map field))
  | .oneOf o =>
    memberUnless o.path.isEmpty "path" (texts o.path) ++
      memberUnless o.variants.isEmpty "variants" (.arr (o.variants.map variant))

def type (t : TypeDef) : Json := .obj (member "kind" (.str t.kindName) ++ typeMembers t)

/-- Without declarations their list is `null`. -/
def decls (ids : List TypeId) : Json := if ids.isEmpty then .null else .arr (ids.map .nat)

/-! ### Reading -/

open Json

structure RawType where
  kind : Bytes := []
  primitive : Bytes := []
  elem : Option Nat := none
  name : Bytes := []
  width : Nat := 0
  size : Nat := 0
  path : Items Bytes := {}
  values : Items EnumVariant := {}
  fields : Items Field := {}
  variants : Items Variant := {}

structure RawSchema where
  name : Bytes := []
  types : Items RawType := {}
  decls : Items Nat := {}

/-- Type references have 32 bits. -/
def readId : Reader Nat := readNat 0x100000000

def readTexts : Reader (Items Bytes) := readList [] readText

def readEnumVariant : Reader EnumVariant := readRecord ⟨⟩ [
  slot "name" (·.name) (fun v n => { v with name := n }) readText,
  slot "value" (·.value.toNat) (fun v n => { v with value := UInt64.ofNat n }) (readNat 0x10000000000000000)]

def readField : Reader Field := readRecord ⟨⟩ [
  slot "name" (·.name) (fun f n => { f with name := n }) readText,
  slot "offset" (·.offset.toNat) (fun f n => { f with offset := UInt16.ofNat n }) (readNat 0x10000),
  slot "type" (·.type) (fun f n => { f with type := n }) readId]

def readVariant : Reader Variant := readRecord ⟨⟩ [
  slot "name" (·.name) (fun v n => { v with name := n }) readText,
  slot "tag" (·.tag.toNat) (fun v n => { v with tag := UInt8.ofNat n }) (readNat 0x100),
  slot "type" (·.type) (fun v n => { v with type := n }) readId]

def readType : Reader RawType := readRecord ⟨⟩ [
  slot "kind" (·.kind) (fun t x => { t with kind := x }) readText,
  slot "primitive" (·.primitive) (fun t x => { t with primitive := x }) readText,
  slot "elem" (·.elem) (fun t x => { t with elem := x }) (readOption 0 readId),
  slot "name" (·.name) (fun t x => { t with name := x }) readText,
  slot "width" (·.width) (fun t x => { t with width := x }) (readNat 0x100),
  slot "size" (·.size) (fun t x => { t with size := x }) (readNat 0x10000),
  slot "path" (·.path) (fun t x => { t with path := x }) readTexts,
  slot "values" (·.values) (fun t x => { t with values := x }) (readList ⟨[], 0⟩ readEnumVariant),
  slot "fields" (·.fields) (fun t x => { t with fields := x }) (readList ⟨[], 0, 0⟩ readField),
  slot "variants" (·.variants) (fun t x => { t with variants := x }) (readList ⟨[], 0, 0⟩ readVariant)]

def readSchema : Reader RawSchema := readRecord ⟨⟩ [
  slot "name" (·.name) (fun s x => { s with name := x }) readText,
  slot "types" (·.types) (fun s x => { s with types := x }) (readList {} readType),
  slot "decls" (·.decls) (fun s x => { s with decls := x }) (readList 0 readId)]

/-- Why a document is no schema. -/
inductive Failure where
  /-- It is not JSON, or has a part of a wrong shape. -/
  | misfit
  | unknownPrimitive (name : Bytes)
  | noElem (id : TypeId)
  | outOfRange (id : TypeId)
  | wrongWidth (name : Bytes) (width want : Nat)
  | unknownKind (kind : Bytes)
  | notDeclarable (id : TypeId) (kind : String)
  | duplicate (name : Bytes)
deriving DecidableEq, Repr

def Failure.message : Failure → Bytes
  | misfit => "malformed JSON"
  | unknownPrimitive name => "schema: unknown primitive " ++ Text.quote name
  | noElem id => "schema: list type " ++ Bytes.decimal id ++ " has no element type"
  | outOfRange id => "schema: type reference " ++ Bytes.decimal id ++ " out of range"
  | wrongWidth name width want =>
    "schema: enum " ++ Text.quote name ++ " has width " ++ Bytes.decimal width ++ ", want " ++ Bytes.decimal want
  | unknownKind kind => "schema: unknown type kind " ++ Text.quote kind
  | notDeclarable id kind => "schema: declaration " ++ Bytes.decimal id ++ " is a " ++ kind
  | duplicate name => "schema: duplicate declaration " ++ Text.quote name

/-- A reference has to lie inside the arena. -/
def checkRef (size : Nat) (id : TypeId) : Except Failure Unit := if id < size then .ok () else .error (.outOfRange id)

def checkRefs (size : Nat) : List TypeId → Except Failure Unit
  | [] => .ok ()
  | id :: ids => do
    checkRef size id
    checkRefs size ids

/-- The type at place `id` of an arena of `size` types. -/
def RawType.check (size : Nat) (id : TypeId) (t : RawType) : Except Failure TypeDef :=
  if t.kind = Bytes.ofString "primitive" then
    match PrimitiveKind.ofName? t.primitive with
    | some k => .ok (.primitive k)
    | none => .error (.unknownPrimitive t.primitive)
  else if t.kind = Bytes.ofString "string" then .ok .string
  else if t.kind = Bytes.ofString "list" then
    match t.elem with
    | none => .error (.noElem id)
    | some elem => do
      checkRef size elem
      return .list elem
  else if t.kind = Bytes.ofString "enum" then
    let variants := t.values.toList
    let want := enumWidth (maxValue variants)
    if t.width = want.toNat then .ok (.enum ⟨t.name, want, variants⟩)
    else .error (.wrongWidth t.name t.width want.toNat)
  else if t.kind = Bytes.ofString "sequence" then do
    let fields := t.fields.toList
    checkRefs size (fields.map (·.type))
    return .sequence ⟨t.name, UInt16.ofNat t.size, fields⟩
  else if t.kind = Bytes.ofString "oneof" then do
    let variants := t.variants.toList
    checkRefs size (variants.map (·.type))
    return .oneOf ⟨t.path.toList, variants⟩
  else .error (.unknownKind t.kind)

def checkTypes (size : Nat) : TypeId → List RawType → Except Failure (List TypeDef)
  | _, [] => .ok []
  | id, t :: ts => do
    let d ← t.check size id
    return d :: (← checkTypes size (id + 1) ts)

/-- Declarations refer to enums and sequences of different names. -/
def checkDecls (types : Array TypeDef) : List Bytes → List TypeId → Except Failure Unit
  | _, [] => .ok ()
  | seen, id :: ids =>
    match types[id]? with
    | none => .error (.outOfRange id)
    | some t =>
      match t.declName? with
      | none => .error (.notDeclarable id t.kindName)
      | some name => if seen.contains name then .error (.duplicate name) else checkDecls types (name :: seen) ids

def isOneOf : TypeDef → Bool
  | .oneOf _ => true
  | _ => false

def oneOfIds (types : Array TypeDef) : List TypeId :=
  (List.range types.size).filter fun id => (types[id]?.map isOneOf).getD false

def RawSchema.check (r : RawSchema) : Except Failure Schema := do
  let raws := r.types.toList
  let types := (← checkTypes raws.length 0 raws).toArray
  let ids := r.decls.toList
  checkDecls types [] ids
  return ⟨r.name, types, ids, oneOfIds types⟩

end SchemaJson

namespace Schema

def toJson (s : Schema) : Json :=
  .obj (SchemaJson.member "name" (.str s.name) ++
    SchemaJson.member "types" (.arr (s.types.toList.map SchemaJson.type)) ++
    SchemaJson.member "decls" (SchemaJson.decls s.decls))

def ofJson (j : Json) : Except SchemaJson.Failure Schema :=
  match SchemaJson.readSchema {} j with
  | .error _ => .error .misfit
  | .ok raw => raw.check

def printJson (s : Schema) : Bytes := s.toJson.print

def parseJson (text : Bytes) : Except SchemaJson.Failure Schema :=
  match Json.parse? text with
  | none => .error .misfit
  | some j => ofJson j

end Schema

end Flatwire

import Flatwire.Bytes

/-! Compiled schemas. A schema owns an arena of types, and a field, a variant, a list or a declaration refers to a type
by its place in the arena, so that types may refer to each other in cycles. -/

namespace Flatwire

abbrev TypeId := Nat

inductive PrimitiveKind where
  | u8 | u16 | u32 | u64 | i8 | i16 | i32 | i64 | f32 | f64 | bool
deriving DecidableEq, Repr

namespace PrimitiveKind

def name : PrimitiveKind → String
  | u8 => "u8"
  | u16 => "u16"
  | u32 => "u32"
  | u64 => "u64"
  | i8 => "i8"
  | i16 => "i16"
  | i32 => "i32"
  | i64 => "i64"
  | f32 => "f32"
  | f64 => "f64"
  | bool => "bool"

def size : PrimitiveKind → Nat
  | u8 | i8 | bool => 1
  | u16 | i16 => 2
  | u32 | i32 | f32 => 4
  | u64 | i64 | f64 => 8

def isSigned : PrimitiveKind → Bool
  | i8 | i16 | i32 | i64 => true
  | _ => false

def isFloat : PrimitiveKind → Bool
  | f32 | f64 => true
  | _ => false

def all : List PrimitiveKind := [u8, u16, u32, u64, i8, i16, i32, i64, f32, f64, bool]

def ofName? (name : Bytes) : Option PrimitiveKind := all.find? fun k => Bytes.ofString k.name = name

/-- Name, size, signedness and floatness of the kind with the given number; an unknown one counts as eight bytes. -/
def describe (n : Nat) : Bytes × Nat × Bool × Bool :=
  match all[n]? with
  | some k => (k.name, k.size, k.isSigned, k.isFloat)
  | none => ("PrimitiveKind(" ++ Bytes.decimal n ++ ")", 8, false, false)

end PrimitiveKind

def stringTypeName : Bytes := "str"

/-- Whether the name stands for a type that no declaration gives. -/
def isBuiltin (name : Bytes) : Bool := name = stringTypeName || (PrimitiveKind.ofName? name).isSome

structure EnumVariant where
  name : Bytes
  value : UInt64
deriving DecidableEq, Repr

structure EnumType where
  name : Bytes
  width : UInt8
  variants : List EnumVariant
deriving DecidableEq, Repr

/-- The least of 1, 2, 4 and 8 bytes that hold the number. -/
def enumWidth (max : UInt64) : UInt8 :=
  if max < 0x100 then 1 else if max < 0x10000 then 2 else if max < 0x100000000 then 4 else 8

/-- The largest declared value, zero when there is none. -/
def maxValue (variants : List EnumVariant) : UInt64 := variants.foldl (fun m v => max m v.value) 0

structure Field where
  name : Bytes
  offset : UInt16
  type : TypeId
deriving DecidableEq, Repr

structure SequenceType where
  name : Bytes
  size : UInt16
  fields : List Field
deriving DecidableEq, Repr

structure Variant where
  name : Bytes
  tag : UInt8
  type : TypeId
deriving DecidableEq, Repr

/-- A tagged union. Its path names the declaration and the members that lead to it. -/
structure OneOfType where
  path : List Bytes
  variants : List Variant
deriving DecidableEq, Repr

inductive TypeDef where
  | primitive (kind : PrimitiveKind)
  | string
  | list (elem : TypeId)
  | enum (e : EnumType)
  | sequence (q : SequenceType)
  | oneOf (o : OneOfType)
deriving DecidableEq, Repr

namespace TypeDef

def kindName : TypeDef → String
  | primitive _ => "primitive"
  | string => "string"
  | list _ => "list"
  | enum _ => "enum"
  | sequence _ => "sequence"
  | oneOf _ => "oneof"

def kindNameOfNumber (n : Nat) : Bytes :=
  match ["primitive", "string", "list", "enum", "sequence", "oneof"][n]? with
  | some name => name
  | none => "Kind(" ++ Bytes.decimal n ++ ")"

/-- The bytes that a value takes in place; strings, lists and unions keep the rest of it elsewhere. -/
def staticSize : TypeDef → Nat
  | primitive k => k.size
  | string => 2
  | list _ => 4
  | enum e => e.width.toNat
  | sequence q => q.size.toNat
  | oneOf _ => 3

def declName? : TypeDef → Option Bytes
  | enum e => some e.name
  | sequence q => some q.name
  | _ => none

end TypeDef

/-- A path as it is written. -/
def pathName (path : List Bytes) : Bytes := Bytes.join "::" path

structure Schema where
  name : Bytes
  types : Array TypeDef
  decls : List TypeId
  oneOfs : List TypeId
deriving DecidableEq, Repr

namespace Schema

def type? (s : Schema) (id : TypeId) : Option TypeDef := s.types[id]?

def lookup (s : Schema) (name : Bytes) : Option TypeId :=
  s.decls.find? fun id => (s.type? id).bind TypeDef.declName? = some name

def enums (s : Schema) : List (TypeId × EnumType) :=
  s.decls.filterMap fun id => match s.type? id with
    | some (.enum e) => some (id, e)
    | _ => none

def sequences (s : Schema) : List (TypeId × SequenceType) :=
  s.decls.filterMap fun id => match s.type? id with
    | some (.sequence q) => some (id, q)
    | _ => none

def unions (s : Schema) : List (TypeId × OneOfType) :=
  s.oneOfs.filterMap fun id => match s.type? id with
    | some (.oneOf o) => some (id, o)
    | _ => none

def declTypes (s : Schema) : List TypeDef := s.decls.filterMap s.type?

def typeNameAux (s : Schema) : Nat → TypeId → Option Bytes
  | 0, _ => none
  | fuel + 1, id =>
    match s.type? id with
    | none => none
    | some (.primitive k) => some k.name
    | some .string => some stringTypeName
    | some (.list elem) => (typeNameAux s fuel elem).map fun n => "[" ++ n ++ "]"
    | some (.enum e) => some e.name
    | some (.sequence q) => some q.name
    | some (.oneOf o) => some ("oneof " ++ pathName o.path)

/-- A type as it is written in source. There is none for a list whose elements lead back to itself. -/
def typeName? (s : Schema) (id : TypeId) : Option Bytes := s.typeNameAux (s.types.size + 1) id

def typeName (s : Schema) (id : TypeId) : Bytes := (s.typeName? id).getD []

def findTypeName (s : Schema) (name : Bytes) : Option TypeId :=
  (List.range s.types.size).find? fun id => s.typeName? id = some name

def staticSize (s : Schema) (id : TypeId) : Nat := ((s.type? id).map TypeDef.staticSize).getD 0

end Schema

end Flatwire

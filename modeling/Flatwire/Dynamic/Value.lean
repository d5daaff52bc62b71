import Flatwire.Number.Shortest

/-! Values that are encoded and decoded through a schema rather than by generated code. -/

namespace Flatwire

/-- An integer of one of the types that values may come in. -/
inductive Integer where
  | int (n : Int64)
  | i8 (n : Int8)
  | i16 (n : Int16)
  | i32 (n : Int32)
  | i64 (n : Int64)
  | uint (n : UInt64)
  | u8 (n : UInt8)
  | u16 (n : UInt16)
  | u32 (n : UInt32)
  | u64 (n : UInt64)
deriving DecidableEq, Repr

namespace Integer

def typeName : Integer → String
  | int _ => "int"
  | i8 _ => "int8"
  | i16 _ => "int16"
  | i32 _ => "int32"
  | i64 _ => "int64"
  | uint _ => "uint"
  | u8 _ => "uint8"
  | u16 _ => "uint16"
  | u32 _ => "uint32"
  | u64 _ => "uint64"

def value : Integer → Int
  | int n | i64 n => n.toInt
  | i8 n => n.toInt
  | i16 n => n.toInt
  | i32 n => n.toInt
  | uint n | u64 n => n.toNat
  | u8 n => n.toNat
  | u16 n => n.toNat
  | u32 n => n.toNat

/-- The signed conversion. Unsigned integers go through the unsigned one, and are refused if they do not fit. -/
def signedBy (unsigned : Integer → Option UInt64) : Integer → Option Int64
  | int n => some n
  | i8 n => some n.toInt64
  | i16 n => some n.toInt64
  | i32 n => some n.toInt64
  | i64 n => some n
  | x => (unsigned x).bind fun n => if n > 0x7FFFFFFFFFFFFFFF then none else some n.toInt64

/-- The unsigned conversion. Signed integers go through the signed one, and are refused if they are negative. -/
def unsignedBy (signed : Integer → Option Int64) : Integer → Option UInt64
  | uint n => some n
  | u8 n => some n.toUInt64
  | u16 n => some n.toUInt64
  | u32 n => some n.toUInt64
  | u64 n => some n
  | x => (signed x).bind fun n => if n < 0 then none else some n.toUInt64

-- each conversion asks the other one only about types that the other converts by itself
def toInt64? : Integer → Option Int64 := signedBy (unsignedBy fun _ => none)

def toUInt64? : Integer → Option UInt64 := unsignedBy (signedBy fun _ => none)

end Integer

inductive Value where
  | nil
  | bool (b : Bool)
  | int (x : Integer)
  /-- Floats are kept as their bit patterns. -/
  | f32 (bits : Nat)
  | f64 (bits : Nat)
  | text (s : Bytes)
  | bytes (items : Bytes)
  | list (items : List Value)
  /-- Fields by name; no name occurs twice. -/
  | record (fields : List (Bytes × Value))
  | variant (name : Bytes) (value : Value)
  | variantRef (name : Bytes) (value : Value)
  /-- A value of any other type, such as a pointer or a number of a named type: no conversion knows it. -/
  | foreign (typeName shown : Bytes)
deriving Inhabited, Repr

namespace Value

def shape : Value → Bytes
  | nil => "<nil>"
  | bool _ => "bool"
  | int x => x.typeName
  | f32 _ => "float32"
  | f64 _ => "float64"
  | text _ => "string"
  | bytes _ => "[]uint8"
  | list _ => "[]interface \x7b\x7d"
  | record _ => "map[string]interface \x7b\x7d"
  | variant .. => "sbbin.Variant"
  | variantRef .. => "*sbbin.Variant"
  | foreign typeName _ => typeName

def bracketed (items : List Bytes) : Bytes := "[" ++ Bytes.join " " items ++ "]"

def sortByName {α : Type} (entries : List (Bytes × α)) : List (Bytes × α) :=
  entries.mergeSort fun a b => !Bytes.lt b.1 a.1

mutual

def display : Value → Bytes
  | nil => "<nil>"
  | bool b => if b then "true" else "false"
  | int x => Bytes.decimalInt x.value
  | f32 bits => FloatFormat.single.text bits
  | f64 bits => FloatFormat.double.text bits
  | text s => s
  | bytes items => bracketed (items.map fun b => Bytes.decimal b.toNat)
  | list items => bracketed (displayItems items)
  | record fields => "map" ++ bracketed ((sortByName (displayFields fields)).map fun (name, t) => name ++ ":" ++ t)
  | variant name value => "\x7b" ++ name ++ " " ++ value.display ++ "\x7d"
  | variantRef name value => "&\x7b" ++ name ++ " " ++ value.display ++ "\x7d"
  | foreign _ shown => shown

def displayItems : List Value → List Bytes
  | [] => []
  | v :: vs => v.display :: displayItems vs

def displayFields : List (Bytes × Value) → List (Bytes × Bytes)
  | [] => []
  | (name, v) :: fs => (name, v.display) :: displayFields fs

end

def u64 (n : Nat) : Value := int (.u64 (.ofNat n))

def i64 (n : Int) : Value := int (.i64 (.ofInt n))

def uint? (v : Value) (limit : UInt64) : Option UInt64 :=
  match v with
  | int x => x.toUInt64?.filter (· ≤ limit)
  | _ => none

def int? (v : Value) (lo hi : Int64) : Option Int64 :=
  match v with
  | int x => x.toInt64?.filter fun n => lo ≤ n ∧ n ≤ hi
  | _ => none

/-- Floats as they are, in double precision, and integers that either conversion takes. -/
def toFloat? : Value → Option Nat
  | f32 bits => some (FloatFormat.convert .single .double bits)
  | f64 bits => some bits
  | v =>
    match v.int? Int64.minValue Int64.maxValue with
    | some n => some (FloatFormat.double.ofInt n.toInt)
    | none => (v.uint? 0xFFFFFFFFFFFFFFFF).map fun n => FloatFormat.double.ofInt n.toNat

end Value

/-- One step on the way to a part of a value. -/
inductive Place where
  | item (i : Nat)
  | field (sequence name : Bytes)
  | variant (name : Bytes)
deriving DecidableEq, Repr

def Place.text : Place → Bytes
  | item i => "[" ++ Bytes.decimal i ++ "]: "
  | field sequence name => sequence ++ "." ++ name ++ ": "
  | variant name => name ++ ": "

structure Located (ε : Type) where
  path : List Place
  cause : ε
deriving DecidableEq, Repr

def Located.here {ε : Type} (cause : ε) : Located ε := ⟨[], cause⟩

def within {ε α : Type} (p : Place) : Except (Located ε) α → Except (Located ε) α
  | .ok a => .ok a
  | .error e => .error { e with path := p :: e.path }

def Located.message {ε : Type} (e : Located ε) (text : ε → Bytes) : Bytes := e.path.flatMap Place.text ++ text e.cause

inductive FailureKind where
  | typeMismatch | outOfBounds | overlap | unknownTag
deriving DecidableEq, Repr

def FailureKind.text : FailureKind → String
  | typeMismatch => "sbbin: type mismatch"
  | outOfBounds => "sbbin: address out of bounds"
  | overlap => "sbbin: overlapping payloads"
  | unknownTag => "sbbin: unknown oneof tag"

end Flatwire

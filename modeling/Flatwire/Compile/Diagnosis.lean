import Flatwire.Schema
import Flatwire.Source.Span

/-! What the compiler finds wrong in a schema that parses: errors, which forbid the schema, and warnings. -/

namespace Flatwire

/-- The most variants that a union may have. -/
def maxVariants : Nat := 255

def maxStaticSize : Nat := 65535

namespace CompileError

inductive Cause where
  | declConflict (kind : String) (name : Bytes) (prevKind : String) (prevName : Bytes)
  | typeNotFound (name : Bytes)
  | valueConflict (value : UInt64) (item prev enum : Bytes)
  | itemConflict (item enum : Bytes)
  | fieldConflict (field sequence : Bytes)
  | variantConflict (variant : Bytes) (path : List Bytes)
  | tooManyVariants (path : List Bytes) (count : Nat)
  | cyclicLayout (cycle : List Bytes)
  | tooLarge (sequence : Bytes) (size : Nat)
  | reservedName (name : Bytes) (kind : String)
  | noVariants (path : List Bytes)
deriving DecidableEq, Repr

def Cause.code : Cause → Nat
  | declConflict .. => 3000
  | typeNotFound .. => 3001
  | valueConflict .. => 3002
  | itemConflict .. => 3003
  | fieldConflict .. => 3004
  | variantConflict .. => 3005
  | tooManyVariants .. => 3006
  | cyclicLayout .. => 3007
  | tooLarge .. => 3008
  | reservedName .. => 3009
  | noVariants .. => 3010

def Cause.message : Cause → Bytes
  | declConflict kind name prevKind prevName =>
    "Declaration of " ++ kind ++ " '" ++ name ++ "' conflicts with earlier declaration of " ++ prevKind ++ " '" ++
      prevName ++ "'"
  | typeNotFound name => "Type '" ++ name ++ "' not found"
  | valueConflict value item prev enum =>
    "Value " ++ Bytes.decimal value.toNat ++ " of enum item '" ++ item ++ "' conflicts with earlier item '" ++ prev ++
      "' in enum '" ++ enum ++ "'"
  | itemConflict item enum => "Enum item '" ++ item ++ "' conflicts with earlier item in enum '" ++ enum ++ "'"
  | fieldConflict field sequence =>
    "Field '" ++ field ++ "' conflicts with earlier field in sequence '" ++ sequence ++ "'"
  | variantConflict variant path =>
    "Variant '" ++ variant ++ "' conflicts with earlier variant in oneof " ++ pathName path
  | tooManyVariants path count =>
    "OneOf " ++ pathName path ++ " has " ++ Bytes.decimal count ++ " variants (maximum " ++ Bytes.decimal maxVariants ++ ")"
  | cyclicLayout cycle => "Sequence '" ++ cycle.headD [] ++ "' embeds itself: " ++ Bytes.join " -> " cycle
  | tooLarge sequence size =>
    "Static size of sequence '" ++ sequence ++ "' (" ++ Bytes.decimal size ++ " bytes) exceeds maximum (" ++
      Bytes.decimal maxStaticSize ++ " bytes)"
  | reservedName name kind => "Name '" ++ name ++ "' of " ++ kind ++ " is reserved for a builtin type"
  | noVariants path => "OneOf " ++ pathName path ++ " has no variants"

end CompileError

structure CompileError where
  cause : CompileError.Cause
  span : Span
deriving DecidableEq, Repr

namespace CompileError

def code (e : CompileError) : Nat := e.cause.code

def message (e : CompileError) : Bytes := e.cause.message

def line (e : CompileError) : Bytes := "E" ++ Bytes.decimal e.code ++ ": " ++ e.message

end CompileError

inductive CompileWarning.Cause where
  | emptySequence (name : Bytes)
  | emptyEnum (name : Bytes)
deriving DecidableEq, Repr

structure CompileWarning where
  cause : CompileWarning.Cause
  span : Span
deriving DecidableEq, Repr

namespace CompileWarning

def code (w : CompileWarning) : Nat :=
  match w.cause with
  | .emptySequence _ => 4000
  | .emptyEnum _ => 4001

def message (w : CompileWarning) : Bytes :=
  match w.cause with
  | .emptySequence name => "Sequence '" ++ name ++ "' has no fields"
  | .emptyEnum name => "Enum '" ++ name ++ "' has no items"

def line (w : CompileWarning) : Bytes := "W" ++ Bytes.decimal w.code ++ ": " ++ w.message

end CompileWarning

end Flatwire

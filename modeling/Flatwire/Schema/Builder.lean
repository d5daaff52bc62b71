import Flatwire.Schema
import Flatwire.Text.Quoted

/-! Assembling a schema. Declarations and unions get their places first, so that types can refer to each other before
their layout is known, and are filled in later. Primitive, string and list types have one place each. -/

namespace Flatwire

structure Builder where
  /-- The schema as it stands; it goes on changing when a part is filled in again. -/
  schema : Schema
  /-- The declarations by name. -/
  byName : List (Bytes × TypeId)
  primitives : List (PrimitiveKind × TypeId)
  string? : Option TypeId
  /-- The list types by their elements. -/
  lists : List (TypeId × TypeId)
  filled : List TypeId
  built : Bool

namespace Builder

inductive Failure where
  | duplicate (name : Bytes)
  | unset (id : TypeId) (kind : String)
  /-- A new type after the schema was finished. -/
  | frozen
  /-- A setter at a place that does not hold its kind of type. -/
  | wrongKind
deriving DecidableEq, Repr

def Failure.message : Failure → Bytes
  | duplicate name => "schema: duplicate declaration " ++ Text.quote name
  | unset id kind => "schema: type " ++ Bytes.decimal id ++ " (" ++ kind ++ ") was declared but never set"
  | frozen => "schema.Builder: modified after Build"
  | wrongKind => []

/-- What an operation answers, and the builder that it leaves, be it with an answer or without. -/
abbrev Reply (α : Type) := Except Failure α × Builder

def new (name : Bytes) : Builder := ⟨⟨name, #[], [], []⟩, [], [], none, [], [], false⟩

def push (b : Builder) (t : TypeDef) : Reply TypeId :=
  if b.built then (.error .frozen, b)
  else (.ok b.schema.types.size, { b with schema.types := b.schema.types.push t })

/-- Adds a type, and enters its place into an index. -/
def add (b : Builder) (t : TypeDef) (enter : TypeId → Builder → Builder) : Reply TypeId :=
  match b.push t with
  | (.ok id, b) => (.ok id, enter id b)
  | (.error e, b) => (.error e, b)

/-- The place that an index has for a type, or else a new one. -/
def intern (b : Builder) (known : Option TypeId) (t : TypeDef) (enter : TypeId → Builder → Builder) : Reply TypeId :=
  match known with
  | some id => (.ok id, b)
  | none => b.add t enter

def primitive (b : Builder) (k : PrimitiveKind) : Reply TypeId :=
  b.intern (b.primitives.lookup k) (.primitive k) fun id b => { b with primitives := (k, id) :: b.primitives }

def str (b : Builder) : Reply TypeId := b.intern b.string? .string fun id b => { b with string? := some id }

def list (b : Builder) (elem : TypeId) : Reply TypeId :=
  b.intern (b.lists.lookup elem) (.list elem) fun id b => { b with lists := (elem, id) :: b.lists }

def lookup (b : Builder) (name : Bytes) : Option TypeId := b.byName.lookup name

def declare (b : Builder) (name : Bytes) (t : TypeDef) : Reply TypeId :=
  match b.lookup name with
  | some _ => (.error (.duplicate name), b)
  | none =>
    b.add t fun id b => { b with byName := (name, id) :: b.byName, schema.decls := b.schema.decls ++ [id] }

def declareEnum (b : Builder) (name : Bytes) : Reply TypeId := b.declare name (.enum ⟨name, 0, []⟩)

def declareSequence (b : Builder) (name : Bytes) : Reply TypeId := b.declare name (.sequence ⟨name, 0, []⟩)

def declareOneOf (b : Builder) (path : List Bytes) : Reply TypeId :=
  b.add (.oneOf ⟨path, []⟩) fun id b => { b with schema.oneOfs := b.schema.oneOfs ++ [id] }

def fill (b : Builder) (id : TypeId) (t : TypeDef) : Builder :=
  { b with schema.types := b.schema.types.setIfInBounds id t, filled := id :: b.filled }

/-- Sets the variants of an enum; its width follows from the largest value. -/
def setEnum (b : Builder) (id : TypeId) (variants : List EnumVariant) : Reply Unit :=
  match b.schema.type? id with
  | some (.enum e) => (.ok (), b.fill id (.enum ⟨e.name, enumWidth (maxValue variants), variants⟩))
  | _ => (.error .wrongKind, b)

def setSequence (b : Builder) (id : TypeId) (fields : List Field) (size : UInt16) : Reply Unit :=
  match b.schema.type? id with
  | some (.sequence q) => (.ok (), b.fill id (.sequence ⟨q.name, size, fields⟩))
  | _ => (.error .wrongKind, b)

def setOneOf (b : Builder) (id : TypeId) (variants : List Variant) : Reply Unit :=
  match b.schema.type? id with
  | some (.oneOf o) => (.ok (), b.fill id (.oneOf ⟨o.path, variants⟩))
  | _ => (.error .wrongKind, b)

def needsFilling : TypeDef → Bool
  | .enum _ | .sequence _ | .oneOf _ => true
  | _ => false

/-- The lowest place that was declared but not filled in. -/
def firstUnset (b : Builder) : Option (TypeId × TypeDef) :=
  (List.range b.schema.types.size).findSome? fun id =>
    match b.schema.type? id with
    | some t => if needsFilling t && !b.filled.contains id then some (id, t) else none
    | none => none

/-- Finishes the schema, after which no place can be added. -/
def build (b : Builder) : Reply Unit :=
  match b.firstUnset with
  | some (id, t) => (.error (.unset id t.kindName), b)
  | none => (.ok (), { b with built := true })

/-! ### Operation by operation -/

inductive Op where
  | primitive (kind : PrimitiveKind)
  | str
  | list (elem : TypeId)
  | declareEnum (name : Bytes)
  | declareSequence (name : Bytes)
  | declareOneOf (path : List Bytes)
  | setEnum (id : TypeId) (variants : List EnumVariant)
  | setSequence (id : TypeId) (fields : List Field) (size : UInt16)
  | setOneOf (id : TypeId) (variants : List Variant)
  | build
deriving DecidableEq, Repr

def Reply.granted (r : Reply TypeId) : Reply (Option TypeId) := (r.1.map some, r.2)

def Reply.done (r : Reply Unit) : Reply (Option TypeId) := (r.1.map fun _ => none, r.2)

def perform (b : Builder) : Op → Reply (Option TypeId)
  | .primitive kind => (b.primitive kind).granted
  | .str => b.str.granted
  | .list elem => (b.list elem).granted
  | .declareEnum name => (b.declareEnum name).granted
  | .declareSequence name => (b.declareSequence name).granted
  | .declareOneOf path => (b.declareOneOf path).granted
  | .setEnum place variants => (b.setEnum place variants).done
  | .setSequence place fields size => (b.setSequence place fields size).done
  | .setOneOf place variants => (b.setOneOf place variants).done
  | .build => b.build.done

def after (b : Builder) (op : Op) : Builder := (b.perform op).2

def run (b : Builder) (ops : List Op) : Builder := ops.foldl after b

end Builder

end Flatwire

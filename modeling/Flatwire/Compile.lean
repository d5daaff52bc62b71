import Flatwire.Compile.Diagnosis
import Flatwire.Compile.NameSet
import Flatwire.Schema.Builder
import Flatwire.Tree

/-! Compiling a syntax tree into a schema: names are resolved and every type gets its size, every field its offset and
every variant its tag. Compilation goes on behind an error, so that all errors are reported. -/

namespace Flatwire

def EnumDecl.variants (d : EnumDecl) : List EnumVariant := d.items.map fun i => ⟨i.name.text, i.value.value⟩

def EnumDecl.width (d : EnumDecl) : Nat := (enumWidth (maxValue d.variants)).toNat

namespace Compile

/-- How far the layout of a declaration is known. -/
inductive LayoutState where
  | pending
  | visiting
  | done (size : Nat)
deriving DecidableEq, Repr

structure DeclInfo where
  decl : Decl
  /-- The place of the declared type; a declaration whose name is taken has none. -/
  id : Option TypeId
  state : LayoutState

inductive Step where
  | compiledEnum (decl : Bytes) (width : Nat)
  | laidOut (decl : Bytes) (size fields : Nat)
  | failed (errors : Nat)
deriving DecidableEq, Repr

structure State where
  builder : Builder
  errors : List CompileError
  warnings : List CompileWarning
  steps : List Step
  infos : Array DeclInfo
  /-- The declarations whose layout is being computed, innermost first. -/
  stack : List Nat
  /-- The builder's first refusal. Compilation gives it no cause for any. -/
  fault : Option Builder.Failure

abbrev CompileM := StateM State

def State.report (es : List CompileError) (st : State) : State := { st with errors := st.errors ++ es }

def report (es : List CompileError) : CompileM Unit := modify (·.report es)

def errorIf (found : Bool) (cause : CompileError.Cause) (span : Span) : List CompileError :=
  if found then [⟨cause, span⟩] else []

def warnIf (found : Bool) (cause : CompileWarning.Cause) (span : Span) : CompileM Unit :=
  modify fun st => { st with warnings := st.warnings ++ if found then [⟨cause, span⟩] else [] }

def note (step : Step) : CompileM Unit := modify fun st => { st with steps := st.steps ++ [step] }

def State.withFault (st : State) (e : Builder.Failure) : State := { st with fault := st.fault.or (some e) }

def place (op : Builder → Builder.Reply TypeId) : CompileM TypeId := fun st =>
  match op st.builder with
  | (.ok id, b) => (id, { st with builder := b })
  | (.error e, b) => (0, { st with builder := b }.withFault e)

def fill (op : Builder → Builder.Reply Unit) : CompileM Unit := fun st =>
  match op st.builder with
  | (.ok _, b) => ((), { st with builder := b })
  | (.error e, b) => ((), { st with builder := b }.withFault e)

def fillAt (id : Option TypeId) (op : TypeId → Builder → Builder.Reply Unit) : CompileM Unit :=
  match id with
  | some id => fill (op id)
  | none => pure ()

def findDecl (infos : Array DeclInfo) (name : Bytes) : Option Nat := infos.findIdx? fun i => i.decl.name.text = name

def declInfo? (infos : Array DeclInfo) (name : Bytes) : Option DeclInfo := (findDecl infos name).bind (infos[·]?)

def oneofKeyword : Bytes := "oneof"

def declare (d : Decl) (b : Builder) : Builder.Reply TypeId :=
  match d with
  | .enum d => b.declareEnum d.name.text
  | .sequence d => b.declareSequence d.name.text

def State.addDecl (d : Decl) (id : Option TypeId) (st : State) : State :=
  { st with infos := st.infos.push ⟨d, id, .pending⟩ }

/-- Gives a declaration its place, unless its name is taken. -/
def register (d : Decl) : CompileM Unit := do
  let name := d.name.text
  report (errorIf (isBuiltin name || name = oneofKeyword) (.reservedName name d.kindName) d.name.span)
  match declInfo? (← get).infos name with
  | some prev =>
    report [⟨.declConflict d.kindName name prev.decl.kindName prev.decl.name.text, d.name.span⟩]
    modify (·.addDecl d none)
  | none =>
    let id ← place (declare d)
    modify (·.addDecl d (some id))

def State.setState (i : Nat) (s : LayoutState) (st : State) : State :=
  { st with infos := st.infos.modify i fun info => { info with state := s } }

/-- An error for each item whose name, and one for each whose value, an earlier item has. -/
def itemErrors (enum : Bytes) : List EnumItem → List EnumItem → List CompileError
  | _, [] => []
  | before, item :: items =>
    let name := item.name.text
    let value := item.value.value
    errorIf (before.any fun b => b.name.text = name) (.itemConflict name enum) item.name.span ++
      (match before.find? fun b => b.value.value = value with
        | some prev => [⟨.valueConflict value name prev.name.text enum, item.value.lexeme.span⟩]
        | none => []) ++
      itemErrors enum (before ++ [item]) items

def compileEnum (i : Nat) (info : DeclInfo) (d : EnumDecl) : CompileM Unit := do
  let name := d.name.text
  warnIf d.items.isEmpty (.emptyEnum name) d.name.span
  report (itemErrors name [] d.items)
  modify (·.setState i (.done d.width))
  fillAt info.id fun id b => b.setEnum id d.variants
  note (.compiledEnum name d.width)

/-- A union has at least one variant and at most 255. -/
def countErrors (path : List Bytes) (span : Span) (count : Nat) : List CompileError :=
  if count = 0 then [⟨.noVariants path, span⟩]
  else if maxVariants < count then [⟨.tooManyVariants path count, span⟩]
  else []

mutual

/-- The place of a type that is not stored inside its owner; there is none when a name is not found. -/
def resolve (path : List Bytes) : TypeExpr → CompileM (Option TypeId)
  | .name ident => do
    let name := ident.text
    match PrimitiveKind.ofName? name with
    | some k => return some (← place (·.primitive k))
    | none =>
      if name = stringTypeName then return some (← place (·.str))
      else
        match declInfo? (← get).infos name with
        | some info => return some (info.id.getD 0)
        | none =>
          report [⟨.typeNotFound name, ident.span⟩]
          return none
  | .list _ _ _ elem _ _ => do
    match ← resolve path elem with
    | some id => return some (← place (·.list id))
    | none => return none
  | .oneOf _ keyword _ _ _ variants _ => do
    let id ← place (·.declareOneOf path)
    report (countErrors path keyword.span variants.toList.length)
    let vs ← resolveVariants path [] variants
    fill (·.setOneOf id vs)
    return some id

def resolveVariants (path : List Bytes) (before : List Variant) : FieldList → CompileM (List Variant)
  | .nil => return before
  | .cons (.mk _ name _ _ _ type _ _) _ rest => do
    report (errorIf (before.any fun v => v.name = name.text) (.variantConflict name.text path) name.span)
    let id ← resolve (path ++ [name.text]) type
    resolveVariants path (before ++ [⟨name.text, UInt8.ofNat before.length, id.getD 0⟩]) rest

end

/-- From the target's place among the layouts in progress to the innermost one, and the target again. -/
def cyclePath (infos : Array DeclInfo) (stack : List Nat) (target : Nat) : List Bytes :=
  let name (i : Nat) : Bytes := (infos[i]?.map (·.decl.name.text)).getD []
  ((stack.takeWhile (· ≠ target)).reverse.map name |> (name target :: ·)) ++ [name target]

/-- The sizes that do not depend on a declaration. A name that stands for nothing takes no room. -/
def ownSize : TypeExpr → Nat
  | .name ident =>
    match PrimitiveKind.ofName? ident.text with
    | some k => k.size
    | none => if ident.text = stringTypeName then 2 else 0
  | .list .. => 4
  | .oneOf .. => 3

/-- The declaration whose values a member of the type holds in place. -/
def target? (infos : Array DeclInfo) : TypeExpr → Option Nat
  | .name ident => if isBuiltin ident.text then none else findDecl infos ident.text
  | _ => none

structure Partial where
  fields : Array Field
  names : NameSet
  /-- Where the next field begins, in 32 bits. -/
  offset : Nat
  names_eq : ∀ name, names.contains name = fields.any fun f => f.name = name

namespace Partial

def empty : Partial := ⟨#[], .empty, 0, by simp [NameSet.contains_empty]⟩

def add (part : Partial) (name : Bytes) (type : TypeId) (size : Nat) : Partial where
  fields := part.fields.push ⟨name, UInt16.ofNat (min part.offset maxStaticSize), type⟩
  names := part.names.insert name
  offset := (part.offset + size) % 0x100000000
  names_eq n := by
    rw [NameSet.contains_insert, part.names_eq, Array.any_push, Bool.or_comm]
    simp [eq_comm]

/-- The size of a sequence of these fields; a size that is too large is reported and cut off. -/
def size (part : Partial) : Nat := min part.offset maxStaticSize

end Partial

/-- Place and size of a type that is stored inside its owner, where `layoutOf` gives the size of a sequence. -/
def embed (layoutOf : Nat → CompileM Nat) (path : List Bytes) (type : TypeExpr) : CompileM (TypeId × Nat) := do
  let infos := (← get).infos
  match (target? infos type).bind fun i => infos[i]?.map (i, ·) with
  | none => return ((← resolve path type).getD 0, ownSize type)
  | some (i, info) =>
    let id := info.id.getD 0
    match info.state with
    | .done size => return (id, size)
    | .visiting =>
      report [⟨.cyclicLayout (cyclePath infos (← get).stack i), type.span⟩]
      return (id, 0)
    | .pending => return (id, ← layoutOf i)

def layoutFields (layoutOf : Nat → CompileM Nat) (sequence : Bytes) (part : Partial) : FieldList → CompileM Partial
  | .nil => return part
  | .cons (.mk _ name _ _ _ type _ _) _ rest => do
    report (errorIf (part.names.contains name.text) (.fieldConflict name.text sequence) name.span)
    let (id, size) ← embed layoutOf [sequence, name.text] type
    layoutFields layoutOf sequence (part.add name.text id size) rest

def State.enter (i : Nat) (st : State) : State :=
  { st.setState i .visiting with stack := i :: st.stack }

def State.leave (i : Nat) (size : Nat) (st : State) : State :=
  { st.setState i (.done size) with stack := st.stack.tail }

def finish (i : Nat) (d : SequenceDecl) (id : Option TypeId) (part : Partial) : CompileM Nat := do
  let name := d.name.text
  warnIf d.fields.isEmpty (.emptySequence name) d.name.span
  report (errorIf (maxStaticSize < part.offset) (.tooLarge name part.offset) d.name.span)
  modify (·.leave i part.size)
  fillAt id fun id b => b.setSequence id part.fields.toList (UInt16.ofNat part.size)
  note (.laidOut name part.size part.fields.size)
  return part.size

/-- Lays out a sequence, where `layoutOf` lays out those inside it. -/
def layoutStep (layoutOf : Nat → CompileM Nat) (i : Nat) : CompileM Nat := do
  match (← get).infos[i]? with
  | some ⟨.sequence d, id, .pending⟩ =>
    modify (·.enter i)
    let part ← layoutFields layoutOf d.name.text .empty d.fieldList
    finish i d id part
  | some ⟨_, _, .done size⟩ => return size
  | _ => return 0

/-- Lays out a sequence, those inside it first, down to a depth below which `stop` is asked. -/
def layoutWithin (stop : Nat → CompileM Nat) : Nat → Nat → CompileM Nat
  | 0 => stop
  | depth + 1 => layoutStep (layoutWithin stop depth)

def compileEnums : Nat → List Decl → CompileM Unit
  | _, [] => pure ()
  | i, d :: ds => do
    match d, (← get).infos[i]? with
    | .enum e, some info => compileEnum i info e
    | _, _ => pure ()
    compileEnums (i + 1) ds

def layoutSequences (layoutOf : Nat → CompileM Nat) : Nat → List Decl → CompileM Unit
  | _, [] => pure ()
  | i, d :: ds => do
    match d with
    | .sequence _ => let _ ← layoutOf i
    | .enum _ => pure ()
    layoutSequences layoutOf (i + 1) ds

def registerAll : List Decl → CompileM Unit
  | [] => pure ()
  | d :: ds => do
    register d
    registerAll ds

def compileDeclsWith (layoutOf : Nat → CompileM Nat) (decls : List Decl) : CompileM Unit := do
  registerAll decls
  compileEnums 0 decls
  layoutSequences layoutOf 0 decls

/-- A layout in progress is never entered again, so layouts are never nested deeper than there are declarations. -/
def compileDecls (decls : List Decl) : CompileM Unit :=
  compileDeclsWith (layoutWithin (fun _ => return 0) decls.length) decls

def start (name : Bytes) : State := ⟨Builder.new name, [], [], [], #[], [], none⟩

/-- By place in the source, and by code at one place. -/
def before (s₁ : Span) (c₁ : Nat) (s₂ : Span) (c₂ : Nat) : Bool :=
  s₁.start < s₂.start || (s₁.start == s₂.start && c₁ ≤ c₂)

end Compile

structure CompileResult where
  /-- The schema, if there are no errors. -/
  schema : Option Schema
  errors : List CompileError
  warnings : List CompileWarning
  steps : List Compile.Step
  /-- Set if the schema could not be assembled for another reason than an error. -/
  fault : Option Builder.Failure

def defaultSchemaName : Bytes := "schema"

def compile (tree : SchemaTree) (name : Bytes) : CompileResult :=
  let (_, st) := Compile.compileDecls tree.decls (Compile.start name)
  let errors := st.errors.mergeSort fun a b => Compile.before a.span a.code b.span b.code
  let warnings := st.warnings.mergeSort fun a b => Compile.before a.span a.code b.span b.code
  if errors.isEmpty then
    match st.builder.build with
    | (.ok _, b) => ⟨some b.schema, [], warnings, st.steps, st.fault⟩
    | (.error e, _) => ⟨none, [], warnings, st.steps, st.fault.or (some e)⟩
  else ⟨none, errors, warnings, st.steps ++ [.failed errors.length], st.fault⟩

end Flatwire

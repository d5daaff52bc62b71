import Flatwire.Generate.Accessors
import Flatwire.Generate.Output
import Flatwire.Generate.Reserved
import Flatwire.Schema.LayoutText

/-! Generators: what they reserve, which arguments they take, and the files that they make of a schema. -/

namespace Flatwire

structure GenerateParams where
  /-- The name of the schema file without directory and extension. -/
  fileName : Bytes
  destDir : Bytes
  args : List Bytes
deriving DecidableEq, Repr

inductive Generator where
  | go | sanitycheck
deriving DecidableEq, Repr

inductive GenerateError where
  | flags (g : Generator) (message : Bytes)
  | arguments (g : Generator) (args : List Bytes)
  | packageName (name : Bytes)
  | noRuntime
  | source (e : Generate.SourceError)
deriving DecidableEq, Repr

namespace Generator

def name : Generator → String
  | go => "go"
  | sanitycheck => "sanitycheck"

def all : List Generator := [go, sanitycheck]

def ofName? (name : Bytes) : Option Generator := all.find? fun g => Bytes.ofString g.name = name

/-- Words that no name of a schema may match. -/
def reserved : Generator → List Bytes
  | go => Generate.reservedWords
  | sanitycheck => []

/-- Why another generator cannot be registered under a name. -/
inductive NameRefusal where
  | empty
  | taken (name : Bytes)

def NameRefusal.message : NameRefusal → Bytes
  | empty => "codegen: generator has an empty name"
  | taken name => "codegen: generator " ++ Text.quote name ++ " already registered"

def refusal? (name : Bytes) : Option NameRefusal :=
  if name.isEmpty then some .empty else if (ofName? name).isSome then some (.taken name) else none

end Generator

def GenerateError.message : GenerateError → Bytes
  | flags g message => g.name ++ " generator: " ++ message
  | arguments g args => g.name ++ " generator: unexpected arguments " ++ Text.quoteList args
  | packageName name => "go generator: invalid package name " ++ Text.quote name
  | noRuntime => "go generator: empty runtime import path"
  | source e => e.message

namespace Generate

variable [Libraries]

/-- The flags of a generator's arguments, which may hold nothing else. -/
def flagsOnly (g : Generator) (flags : List Flag) (args : List Bytes) : Except GenerateError FlagValues :=
  match Libraries.readFlags flags args with
  | .error message => .error (.flags g message)
  | .ok v => if v.args.isEmpty then .ok v else .error (.arguments g v.args)

def defaultRuntime : Bytes := "github.com/ZachDaChampion/simple-buffers"

def sourceFlags : List Flag :=
  [⟨"package", .text, "package name of the generated file", none, []⟩,
    ⟨"runtime", .text, "import path of the runtime library", none, defaultRuntime⟩]

def layoutFlags : List Flag := [⟨"stdout", .switch, "also print the layout", none, []⟩]

/-- The options of generated source. A package name that is given must already have the form of one. -/
def sourceOptions (p : GenerateParams) : Except GenerateError SourceOptions :=
  match flagsOnly .go sourceFlags p.args with
  | .error e => .error e
  | .ok v =>
    let given := (v.last? "package").getD []
    let runtime := (v.last? "runtime").getD defaultRuntime
    if given ≠ [] ∧ packageName given ≠ given then .error (.packageName given)
    else if Text.isBlank runtime then .error .noRuntime
    else .ok ⟨if given = [] then packageName p.fileName else given, runtime, p.fileName ++ ".sb"⟩

end Generate

structure Generated where
  files : List OutputFile
  printed : Bytes
deriving DecidableEq, Repr

def Generator.generate [Libraries] (g : Generator) (s : Schema) (p : GenerateParams) : Except GenerateError Generated :=
  match g with
  | .go => do
    let options ← Generate.sourceOptions p
    match Generate.accessors s options with
    | .error e => throw (.source e)
    | .ok source => return ⟨[⟨[p.fileName ++ ".sb.go"], source⟩], []⟩
  | .sanitycheck => do
    let v ← Generate.flagsOnly .sanitycheck Generate.layoutFlags p.args
    let layout := s.layoutText
    return ⟨[⟨[p.fileName ++ ".layout.txt"], layout⟩], if v.isOn "stdout" then layout else []⟩

end Flatwire

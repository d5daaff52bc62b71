import Flatwire.Config
import Flatwire.Generate
import Flatwire.Plugin.Host
import Flatwire.Report

/-! The command that compiles a schema and runs a generator on it. All that can go wrong before files are written is
found first, so a run that stops there has changed nothing. -/

namespace Flatwire.Command

open Plugin (Event Loader Session)

/-! ### Options -/

def form : CommandForm where
  usage := "sbc [options] GENERATOR SCHEMA_FILE [GENERATOR_ARGS...]"
  summary := "Compile a SimpleBuffers schema and generate code for it"
  version := "devel"
  flags :=
    [⟨"lib", .texts, "load a generator plugin (`.wasm`), may be repeated", some 0x6C, []⟩,
      ⟨"srcdir", .text, "directory to resolve SCHEMA_FILE against", some 0x73, []⟩,
      ⟨"dstdir", .text, "directory to write generated files to", some 0x64, "."⟩,
      ⟨"config", .text, "config file (default ./" ++ Config.defaultPath ++ " if present)", some 0x63, []⟩,
      ⟨"verbose", .switch, "log debug output", some 0x76, []⟩,
      ⟨"color", .text, "color diagnostics: auto, always, or never", none, "auto"⟩,
      ⟨"list", .switch, "list available generators and exit", none, []⟩]

/-- What the flags and the configuration say together; flags win. -/
structure Options where
  srcDir : Bytes
  dstDir : Bytes
  color : Bytes
  libs : List Bytes
deriving DecidableEq, Repr

/-- The value of a flag, or else the configured one, or else the default. -/
def choose (given : Option Bytes) (configured fallback : Bytes) : Bytes :=
  given.getD (if configured.isEmpty then fallback else configured)

def options (v : FlagValues) (c : Config) : Options where
  srcDir := choose (v.last? "srcdir") c.srcDir []
  dstDir := choose (v.last? "dstdir") c.dstDir "."
  color := choose (v.last? "color") c.color "auto"
  libs := c.libs ++ v.all "lib"

def configPath (v : FlagValues) : Bytes × Bool :=
  let given := (v.last? "config").getD []
  if given.isEmpty then (Config.defaultPath, false) else (given, true)

def Options.schemaPath (o : Options) (given : Bytes) : Bytes :=
  if o.srcDir.isEmpty || given.head? = some Path.slash then given else (Path.join [o.srcDir, given]).text

/-! ### Output -/

structure Console where
  stdout : Bytes := []
  stderr : Bytes := []
deriving DecidableEq, Repr

/-- Why a run goes no further. -/
inductive Stop where
  | exit (code : Nat)
  | fault
deriving DecidableEq, Repr

/-- Steps that print and may stop. -/
abbrev Task := ExceptT Stop (StateM Console)

def print (text : Bytes) : Task Unit := modify fun c => { c with stdout := c.stdout ++ text }

def complain (text : Bytes) : Task Unit := modify fun c => { c with stderr := c.stderr ++ text }

def misused {α : Type} (message : Bytes) : Task α := do
  complain ("sbc: " ++ message ++ "\n")
  throw (.exit 2)

/-- How this run shows what it does. -/
structure Display where
  colored : Bool
  verbose : Bool
deriving DecidableEq, Repr

variable [Libraries]

/-- What is shown of an event. The log is shown only on request, what guests print always. -/
def Display.event (d : Display) : Event → Bytes
  | .printed text => text
  | .logged entry => if d.verbose then Libraries.logLine entry else []
  | _ => []

def Display.log (d : Display) (level : LogLevel) (message : String) (fields : List (String × LogValue)) : Bytes :=
  d.event (.logged ⟨level, message, fields⟩)

def Display.error (d : Display) (file message : Bytes) : Bytes := Report.plain d.colored .error file message

def failed {α : Type} (d : Display) (file message : Bytes) : Task α := do
  complain (d.error file message)
  throw (.exit 1)

/-! ### Generators -/

variable {σ : Type}

/-- A plugin and its guest, as it was left by the last call. -/
structure Loaded (σ : Type) where
  plugin : Plugin σ
  state : σ

/-- Loads plugins one after another. No two may provide the same generator. -/
def loadPlugins (d : Display) (tree : FileTree) (loader : Loader σ) :
    List (Loaded σ) → List Bytes → Task (List (Loaded σ))
  | done, [] => return done
  | done, path :: paths => do
    match Plugin.load tree loader path with
    | .error e => failed d [] e.message
    | .ok (p, s) =>
      complain (s.events.flatMap d.event)
      match done.find? fun l => l.plugin.name = p.name with
      | some l =>
        failed d [] ("plugins " ++ l.plugin.path ++ " and " ++ path ++ " both provide generator " ++ Text.quote p.name)
      | none =>
        if (Generator.ofName? p.name).isSome then
          complain (d.log .warn "plugin replaces built-in generator" [("name", .text p.name)])
        loadPlugins d tree loader (done ++ [⟨p, s.state⟩]) paths

/-- The list of generators: the built-in ones that no plugin replaces, then the plugins by name. -/
def generatorList (plugins : List (Loaded σ)) : Bytes :=
  let builtIn := Generator.all.filter fun g => plugins.all fun l => l.plugin.name ≠ g.name
  let sorted := plugins.mergeSort fun a b => !Bytes.lt b.plugin.name a.plugin.name
  let line (name origin : Bytes) : Bytes := name ++ "\t" ++ origin
  Bytes.unlines (builtIn.map (fun g => line g.name "built-in") ++ sorted.map fun l => line l.plugin.name l.plugin.path)

inductive Source (σ : Type) where
  | builtIn (g : Generator)
  | plugin (l : Loaded σ)

/-- The generator of a name; plugins come first. -/
def findGenerator (plugins : List (Loaded σ)) (name : Bytes) : Option (Source σ) :=
  match plugins.find? fun l => l.plugin.name = name with
  | some l => some (.plugin l)
  | none => (Generator.ofName? name).map .builtIn

def messageParams (p : GenerateParams) : Plugin.Params :=
  ⟨p.fileName, p.destDir, if p.args.isEmpty then none else some p.args⟩

def outputFile (f : Plugin.ResponseFile) : OutputFile := ⟨f.path.getD [], f.content.getD []⟩

def settle {α : Type} (d : Display) (name : Bytes) (context : Bytes) (r : Except Plugin.HostError α × Session σ) :
    Task (α × σ) := do
  complain (r.2.events.flatMap d.event)
  match r.1 with
  | .ok a => return (a, r.2.state)
  | .error .noMemory => throw .fault
  | .error e => failed d [] (context ++ e.message name)

/-- The files that a generator makes of a schema, unless the schema uses a word that it reserves. -/
def generate (d : Display) (source : Source σ) (path name : Bytes) (s : Schema) (params : GenerateParams) :
    Task (List OutputFile) := do
  let context := "generator " ++ name ++ ": "
  let check (words : List Bytes) : Task Unit :=
    match s.checkReserved? words with
    | none => throw .fault
    | some none => pure ()
    | some (some r) => failed d path r.message
  match source with
  | .builtIn g =>
    check g.reserved
    match g.generate s params with
    | .error e => failed d [] (context ++ e.message)
    | .ok r =>
      print r.printed
      return r.files
  | .plugin ⟨p, state⟩ =>
    let (words, state) ← settle d p.name [] (p.reservedWords (messageParams params) ⟨state, [], none⟩)
    check (words.getD [])
    let (files, _) ← settle d p.name context (p.generateFiles (some s) (messageParams params) ⟨state, [], none⟩)
    return files.map outputFile

/-! ### Schemas -/

def stepLog (d : Display) (fields : List (String × LogValue)) : Compile.Step → Bytes
  | .compiledEnum decl width => d.log .debug "compiled enum" (fields ++ [("decl", .text decl), ("width", .number width)])
  | .laidOut decl size count => d.log .debug "laid out sequence"
      (fields ++ [("decl", .text decl), ("size", .number size), ("fields", .number count)])
  | .failed count => d.log .debug "compilation failed" (fields ++ [("errors", .number count)])

def readSchema (d : Display) (tree : FileTree) (fields : List (String × LogValue)) (path : Bytes) : Task Schema := do
  match tree.readFile path with
  | .error e => failed d [] e.message
  | .ok src =>
    match SchemaTree.parse src with
    | .error e =>
      complain ((Notice.ofSyntaxError path src e).text d.colored)
      throw (.exit 1)
    | .ok parsed =>
      let r := compile parsed (Path.stem path)
      complain (r.steps.flatMap (stepLog d (fields ++ [("schema", .text (Path.stem path))])))
      complain ((Notice.ofResult path src r).flatMap (·.text d.colored))
      match r.schema, r.fault with
      | some s, none => return s
      | _, some _ => throw .fault
      | none, none => throw (.exit 1)

/-! ### Runs -/

structure Job where
  display : Display
  dstDir : Bytes
  generator : Bytes
  fields : List (String × LogValue)
  files : List OutputFile

/-- Prints what was asked for and is done; a run that did not ask goes on. -/
def answer (asked : Bool) (text : Bytes) : Task Unit := do
  if asked then
    print text
    throw (.exit 0)

def readFlags (argv : List Bytes) : Task FlagValues := do
  match Libraries.dispatch form argv with
  | .run v => return v
  | .answered out err =>
    print out
    complain err
    throw (.exit 0)
  | .refused message usage =>
    complain ("sbc: " ++ message ++ "\n" ++ usage)
    throw (.exit 2)
  | .failed message =>
    complain ("sbc: " ++ message ++ "\n")
    throw (.exit 1)

def readConfig (tree : FileTree) (v : FlagValues) : Task Config :=
  let (path, required) := configPath v
  match Config.load tree path required with
  | .ok c => pure c
  | .error e => misused ("config: " ++ e.message)

def chooseDisplay (terminal : Bool) (v : FlagValues) (color : Bytes) : Task Display :=
  match ColorMode.ofName? color with
  | some m => pure ⟨m.enabled terminal, v.isOn "verbose"⟩
  | none => misused (ColorMode.unknownMessage color)

def chooseGenerator (plugins : List (Loaded σ)) (name : Bytes) : Task (Source σ) :=
  match findGenerator plugins name with
  | some g => pure g
  | none => misused ("unknown generator " ++ Text.quote name ++ " (see --list)")

def plan (tree : FileTree) (loader : Loader σ) (terminal : Bool) (argv : List Bytes) : Task Job := do
  let v ← readFlags argv
  let config ← readConfig tree v
  let o := options v config
  let d ← chooseDisplay terminal v o.color
  let plugins ← loadPlugins d tree loader [] o.libs
  answer (v.isOn "list") (generatorList plugins)
  match v.args with
  | name :: schemaPath :: args =>
    let source ← chooseGenerator plugins name
    let schemaPath := o.schemaPath schemaPath
    let fields := [("generator", LogValue.text name), ("schema", .text schemaPath)]
    let s ← readSchema d tree fields schemaPath
    let files ← generate d source schemaPath name s ⟨Path.stem schemaPath, o.dstDir, config.args name ++ args⟩
    return ⟨d, o.dstDir, name, fields, files⟩
  | _ => misused "expected GENERATOR and SCHEMA_FILE"

def inputs (tree : FileTree) (argv : List Bytes) : List Bytes :=
  match Libraries.dispatch form argv with
  | .run v =>
    let (path, required) := configPath v
    match Config.load tree path required with
    | .error _ => [path]
    | .ok c =>
      let o := options v c
      path :: o.libs ++ ((v.args.drop 1).take 1).map o.schemaPath
  | _ => []

/-- How a run ended. -/
structure Outcome where
  /-- Nothing if the program broke down. -/
  exit : Option Nat
  console : Console
  tree : FileTree

def Stop.code? : Stop → Option Nat
  | exit code => some code
  | fault => none

def Job.wrote (j : Job) (f : OutputFile) : Bytes :=
  j.display.log .debug "wrote file"
    (j.fields ++ [("path", .text (Bytes.join [Path.slash] f.path)), ("size", .number f.content.length)])

def Job.run (j : Job) (tree : FileTree) (c : Console) : Outcome :=
  match writeOutputs tree j.dstDir j.files with
  | (some e, tree) =>
    ⟨some 1, { c with stderr := c.stderr ++ j.display.error [] ("generator " ++ j.generator ++ ": " ++ e.message) }, tree⟩
  | (none, tree) => ⟨some 0, { c with stderr := c.stderr ++ j.files.flatMap j.wrote }, tree⟩

def run (tree : FileTree) (loader : Loader σ) (terminal : Bool) (argv : List Bytes) : Outcome :=
  match plan tree loader terminal argv |>.run.run {} with
  | (.ok job, c) => job.run tree c
  | (.error stop, c) => ⟨stop.code?, c, tree⟩

end Flatwire.Command

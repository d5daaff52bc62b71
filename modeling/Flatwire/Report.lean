import Flatwire.Compile
import Flatwire.Libraries
import Flatwire.Source.Position
import Flatwire.Tree.Parse

/-! Reports on a source: where something is wrong, the line it is in, and carets under the place. -/

namespace Flatwire

inductive ColorMode where
  | auto | always | never
deriving DecidableEq, Repr

namespace ColorMode

def name : ColorMode → String
  | auto => "auto"
  | always => "always"
  | never => "never"

def ofName? (name : Bytes) : Option ColorMode :=
  if name.isEmpty then some auto else [auto, always, never].find? fun m => Bytes.ofString m.name = name

/-- The complaint about a name that no mode has. -/
def unknownMessage (name : Bytes) : Bytes :=
  "invalid color mode " ++ Text.quote name ++ " (want auto, always, or never)"

/-- Whether output is coloured, by default only on a terminal. -/
def enabled (m : ColorMode) (terminal : Bool) : Bool :=
  match m with
  | auto => terminal
  | always => true
  | never => false

end ColorMode

inductive Severity where
  | error | warning
deriving DecidableEq, Repr

def Severity.label : Severity → String
  | error => "error:"
  | warning => "warning:"

namespace Report

inductive Part where
  | label (s : Severity)
  | location
  | gutter
  | carets

def Part.style : Part → Style
  | label .error => ⟨true, some 9⟩
  | label .warning => ⟨true, some 11⟩
  | location => ⟨true, none⟩
  | gutter => ⟨false, some 12⟩
  | carets => ⟨true, some 10⟩

/-- The line that holds an offset, without its line end, and the offset at which it starts. -/
def lineAt (src : Bytes) (offset : Nat) : Nat × Bytes :=
  let head := lastLine (src.take offset)
  let line := head ++ (src.drop offset).takeWhile (· != lineFeed)
  (offset - head.length, Bytes.dropSuffix [0x0D] line)

/-- As many blanks as characters; tabs stay tabs. -/
def padding (bs : Bytes) : Bytes :=
  (Utf8.units bs).map fun
    | .char '\t' => 0x09
    | _ => 0x20

/-- The number of carets under a span: one for each of its characters in the line, and at least one. -/
def caretCount (src : Bytes) (span : Span) : Nat :=
  let (start, line) := lineAt src span.start
  let stop := min span.stop (start + line.length)
  max 1 (Utf8.count ((src.take stop).drop span.start))

section Text

variable [Libraries]

def paint (colored : Bool) (part : Part) (text : Bytes) : Bytes := Libraries.paint colored part.style text

/-- A message with no place in the source. -/
def plain (colored : Bool) (severity : Severity) (file message : Bytes) : Bytes :=
  let label := paint colored (.label severity) severity.label
  let place : Bytes := if file.isEmpty then [] else paint colored .location file ++ ": "
  place ++ label ++ " " ++ message ++ "\n"

def located (colored : Bool) (severity : Severity) (file src message : Bytes) (span : Span) : Bytes :=
  let pos := Position.ofOffset src span.start
  let number := Bytes.decimal pos.line
  let (_, line) := lineAt src span.start
  let place := file ++ ":" ++ number ++ ":" ++ Bytes.decimal pos.column
  let gutter (text : Bytes) : Bytes := "  " ++ paint colored .gutter (text ++ " |") ++ " "
  Bytes.unlines
    [paint colored .location place ++ ": " ++ paint colored (.label severity) severity.label ++ " " ++ message,
      gutter number ++ line,
      gutter (List.replicate number.length 0x20) ++ padding (lastLine (src.take span.start)) ++
        paint colored .carets (List.replicate (caretCount src span) 0x5E)]

end Text

end Report

/-- Something to tell about a file. -/
structure Notice where
  severity : Severity
  file : Bytes
  src : Bytes
  message : Bytes
  span : Option Span
deriving DecidableEq, Repr

/-- The report of a notice; a span that starts behind the source has no place in it. -/
def Notice.text [Libraries] (n : Notice) (colored : Bool) : Bytes :=
  match n.span with
  | none => Report.plain colored n.severity n.file n.message
  | some span =>
    if span.start > n.src.length then Report.plain colored n.severity n.file n.message
    else Report.located colored n.severity n.file n.src n.message span

namespace Notice

def ofSyntaxError (file src : Bytes) (e : SyntaxError) : Notice := ⟨.error, file, src, e.line, some e.span⟩

def ofCompileError (file src : Bytes) (e : CompileError) : Notice := ⟨.error, file, src, e.line, some e.span⟩

def ofWarning (file src : Bytes) (w : CompileWarning) : Notice := ⟨.warning, file, src, w.line, some w.span⟩

/-- What compiling gives rise to: the warnings, then the errors. -/
def ofResult (file src : Bytes) (r : CompileResult) : List Notice :=
  r.warnings.map (ofWarning file src) ++ r.errors.map (ofCompileError file src)

def ofSource (file src : Bytes) : List Notice :=
  match SchemaTree.parse src with
  | .error e => [ofSyntaxError file src e]
  | .ok tree => ofResult file src (compile tree defaultSchemaName)

end Notice

/-- How many errors and warnings were reported. -/
structure Tally where
  errors : Nat
  warnings : Nat
deriving DecidableEq, Repr

def Tally.add (t : Tally) (n : Notice) : Tally :=
  match n.severity with
  | .error => { t with errors := t.errors + 1 }
  | .warning => { t with warnings := t.warnings + 1 }

end Flatwire

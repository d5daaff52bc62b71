import Flatwire.Libraries
import Flatwire.Text.Case
import Flatwire.Text.Utf8

/-! Identifiers of generated Go source, made from the names of a schema, and package names, made from file names. -/

namespace Flatwire.Generate

section Exported

variable [Libraries]

/-- The exported identifier of a name: its words, divided by underscores, are capitalized and joined. -/
def exportedName (name : Bytes) : Bytes :=
  let words := (Bytes.splitOn 0x5F (Libraries.compose name)).filter fun w => !w.isEmpty
  let joined := words.flatMap Libraries.title
  if joined.isEmpty then "X" else joined

/-- The identifier of a union, made from all names on its path. -/
def unionName (path : List Bytes) : Bytes := path.flatMap exportedName

end Exported

def keywords : List Bytes := List.map Bytes.ofString
  ["break", "case", "chan", "const", "continue", "default", "defer", "else", "fallthrough", "for", "func", "go", "goto",
    "if", "import", "interface", "map", "package", "range", "return", "select", "struct", "switch", "type", "var"]

def predeclared : List Bytes := List.map Bytes.ofString
  ["any", "bool", "byte", "comparable", "complex64", "complex128", "error", "float32", "float64", "int", "int8", "int16",
    "int32", "int64", "rune", "string", "uint", "uint8", "uint16", "uint32", "uint64", "uintptr", "true", "false", "iota",
    "nil", "append", "cap", "clear", "close", "complex", "copy", "delete", "imag", "len", "make", "max", "min", "new",
    "panic", "print", "println", "real", "recover"]

def generatedNames : List Bytes := ["Addr", "Write", "StaticSize", "WriteComponent"]

def reservedWords : List Bytes := keywords ++ predeclared ++ generatedNames

/-- Whether a character may stand in a package name. -/
def isPackageChar (c : Char) : Bool := Text.isAscii c && c.isAlphanum

/-- A package name for a file: never empty, never a keyword, and with a letter at the start. -/
def packageName [Libraries] (name : Bytes) : Bytes :=
  let chars := (Utf8.units (Libraries.compose name)).map Utf8.Unit.toChar
  match (chars.map Text.lowerChar).filter isPackageChar with
  | [] => "schema"
  | c :: cs =>
    let stem : Bytes := String.ofList (if c.isDigit then 's' :: 'b' :: c :: cs else c :: cs)
    if keywords.contains stem then stem ++ "_" else stem

end Flatwire.Generate

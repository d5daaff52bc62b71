import Flatwire.Bytes

/-! What the program takes from other libraries: Unicode composition and case, colours, flags, configuration files and
log lines. All else is the same whatever these functions do; a statement that relies on one of them says so. -/

namespace Flatwire

/-! ### Flags -/

/-- The values that a flag takes. All texts given for a list are kept, of other values the last counts. -/
inductive FlagKind where
  | text | texts | switch
deriving DecidableEq, Repr

structure Flag where
  name : Bytes
  kind : FlagKind
  about : Bytes
  letter : Option UInt8 := none
  /-- The value of a flag that is not set. -/
  standard : Bytes := []
deriving DecidableEq, Repr

/-- The values that were set, in their order, and the remaining arguments. -/
structure FlagValues where
  values : List (Bytes × Bytes)
  args : List Bytes
deriving DecidableEq, Repr

namespace FlagValues

def last? (v : FlagValues) (name : Bytes) : Option Bytes := (v.values.reverse.find? fun p => p.1 = name).map (·.2)

def all (v : FlagValues) (name : Bytes) : List Bytes := (v.values.filter fun p => p.1 = name).map (·.2)

def trueWords : List Bytes := ["1", "t", "T", "TRUE", "true", "True"]

def isOn (v : FlagValues) (name : Bytes) : Bool := ((v.last? name).map trueWords.contains).getD false

end FlagValues

/-- A command as it is described to the library that reads its arguments. -/
structure CommandForm where
  usage : Bytes
  summary : Bytes
  version : Bytes
  flags : List Flag

/-- What becomes of the arguments of a command. -/
inductive Dispatch where
  /-- The command is run. -/
  | run (v : FlagValues)
  /-- Help, the version or the like was asked for, and is told. -/
  | answered (stdout stderr : Bytes)
  /-- The flags are wrong. -/
  | refused (message usage : Bytes)
  | failed (message : Bytes)
deriving DecidableEq, Repr

/-! ### Configuration files -/

structure Config where
  srcDir : Bytes := []
  dstDir : Bytes := []
  libs : List Bytes := []
  color : Bytes := []
  generators : List (Bytes × List Bytes) := []
deriving DecidableEq, Repr

/-! ### Terminals and logs -/

/-- How a text is set off; colours go by their numbers. -/
structure Style where
  bold : Bool
  color : Option Nat
deriving DecidableEq, Repr

inductive LogLevel where
  | debug | warn | error
deriving DecidableEq, Repr

inductive LogValue where
  | text (bs : Bytes)
  | number (n : Nat)
deriving DecidableEq, Repr

/-- Fields may repeat a key. -/
structure LogEntry where
  level : LogLevel
  message : String
  fields : List (String × LogValue)
deriving DecidableEq, Repr

/-! ### The functions -/

class Libraries where
  /-- A text with letters and the marks behind them composed. -/
  compose : Bytes → Bytes
  lower : List Char → List Char
  /-- A word with its first letter in upper case. -/
  title : Bytes → Bytes
  /-- A text in a style, with colours or without. -/
  paint : Bool → Style → Bytes → Bytes
  /-- The flags among arguments, or else the message why they are wrong. -/
  readFlags : List Flag → List Bytes → Except Bytes FlagValues
  dispatch : CommandForm → List Bytes → Dispatch
  /-- The configuration in a file, of which the content is given or the reason why it cannot be read. -/
  readConfig : Except Bytes Bytes → Except Bytes Config
  logLine : LogEntry → Bytes

end Flatwire

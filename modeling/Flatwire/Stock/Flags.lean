import Flatwire.Libraries
import Flatwire.Text.Quoted

/-! Command-line flags. A flag is `--name=value` or `--name value`, or a letter after a single dash; letters may be run
together, and what follows a letter that takes a value is its value. Switches take a value only behind an equals sign. -/

namespace Flatwire.Stock

def isSwitch (f : Flag) : Bool := f.kind == .switch

inductive FlagError where
  | badForm (arg : Bytes)
  | unknownName (name : Bytes)
  | unknownLetter (letter : UInt8) (cluster : Bytes)
  | missingValue (arg : Bytes)
  | missingLetterValue (letter : UInt8) (cluster : Bytes)
  | helpWanted
  | badSwitch (value : Bytes) (flag : Flag)
deriving DecidableEq, Repr

namespace FlagError

def quoteLetter (b : UInt8) : Bytes :=
  let inner : Bytes := if b = 39 then "\\'" else if b = 34 then "\"" else Text.quoteChar (Char.ofNat b.toNat)
  "'" ++ inner ++ "'"

def flagTitle (f : Flag) : Bytes :=
  match f.letter with
  | some l => "-" ++ [l] ++ ", --" ++ f.name
  | none => "--" ++ f.name

def message : FlagError → Bytes
  | badForm arg => "bad flag syntax: " ++ arg
  | unknownName name => "unknown flag: --" ++ name
  | unknownLetter letter cluster => "unknown shorthand flag: " ++ quoteLetter letter ++ " in -" ++ cluster
  | missingValue arg => "flag needs an argument: " ++ arg
  | missingLetterValue letter cluster => "flag needs an argument: " ++ quoteLetter letter ++ " in -" ++ cluster
  | helpWanted => "pflag: help requested"
  | badSwitch value flag => "invalid argument " ++ Text.quote value ++ " for " ++ Text.quote (flagTitle flag) ++
      " flag: strconv.ParseBool: parsing " ++ Text.quote value ++ ": invalid syntax"

end FlagError

namespace Flags

def falseWords : List Bytes := ["0", "f", "F", "FALSE", "false", "False"]

/-- A flag that still waits for its value, with the error that stands if there is none. -/
structure Waiting where
  flag : Flag
  missing : FlagError

/-- Adds a value, which for a switch must be a truth value. -/
def assign (values : List (Bytes × Bytes)) (f : Flag) (v : Bytes) : Except FlagError (List (Bytes × Bytes)) :=
  if isSwitch f && !(FlagValues.trueWords.contains v || falseWords.contains v) then .error (.badSwitch v f)
  else .ok (values ++ [(f.name, v)])

def letters (flags : List Flag) (values : List (Bytes × Bytes)) :
    Bytes → Except FlagError (List (Bytes × Bytes) × Option Waiting)
  | [] => .ok (values, none)
  | c :: cs =>
    match flags.find? fun f => f.letter = some c with
    | none => .error (if c = 104 then .helpWanted else .unknownLetter c (c :: cs))
    | some f =>
      match cs with
      | 61 :: b :: bs => do return (← assign values f (b :: bs), none)
      | _ =>
        if isSwitch f then
          match assign values f "true" with
          | .error e => .error e
          | .ok values => letters flags values cs
        else if cs.isEmpty then .ok (values, some ⟨f, .missingLetterValue c [c]⟩)
        else do return (← assign values f cs, none)

/-- Reads a flag given by name; `body` is what follows the two dashes. -/
def named (flags : List Flag) (values : List (Bytes × Bytes)) (arg body : Bytes) :
    Except FlagError (List (Bytes × Bytes) × Option Waiting) :=
  if body.head? = some 45 ∨ body.head? = some 61 then .error (.badForm arg)
  else
    let name := body.takeWhile (· != 61)
    match flags.find? fun f => f.name = name, body.drop name.length with
    | none, _ => .error (if name = "help" then .helpWanted else .unknownName name)
    | some f, _ :: v => do return (← assign values f v, none)
    | some f, [] => if isSwitch f then do return (← assign values f "true", none) else .ok (values, some ⟨f, .missingValue arg⟩)

/-- Reads the arguments from the left. With `interspersed`, flags are read behind other arguments too; two dashes end
them in any case. -/
def parseAux (flags : List Flag) (interspersed : Bool) :
    Option Waiting → List (Bytes × Bytes) → List Bytes → List Bytes → Except FlagError FlagValues
  | none, values, args, [] => .ok ⟨values, args⟩
  | some w, _, _, [] => .error w.missing
  | some w, values, args, a :: rest =>
    match assign values w.flag a with
    | .error e => .error e
    | .ok values => parseAux flags interspersed none values args rest
  | none, values, args, a :: rest =>
    match a with
    | 45 :: 45 :: [] => .ok ⟨values, args ++ rest⟩
    | 45 :: 45 :: body =>
      match named flags values a body with
      | .error e => .error e
      | .ok (values, waiting) => parseAux flags interspersed waiting values args rest
    | 45 :: c :: cs =>
      match letters flags values (c :: cs) with
      | .error e => .error e
      | .ok (values, waiting) => parseAux flags interspersed waiting values args rest
    | _ =>
      if interspersed then parseAux flags interspersed none values (args ++ [a]) rest
      else .ok ⟨values, args ++ a :: rest⟩

def parse (flags : List Flag) (interspersed : Bool) (args : List Bytes) : Except FlagError FlagValues :=
  parseAux flags interspersed none [] [] args

end Flags

end Flatwire.Stock

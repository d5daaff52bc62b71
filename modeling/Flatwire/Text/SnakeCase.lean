import Flatwire.Libraries
import Flatwire.Text.Case
import Flatwire.Text.Utf8

/-! Names in lower_snake_case. Names are compared in this form, whatever style they are written in. -/

namespace Flatwire.Text

def isSeparator (c : Char) : Bool := c == '-' || c == ' ' || c == '_'

/-- Whether a word is under way: the output is neither empty nor at a separator. -/
def midWord : List Char → Bool
  | [] => false
  | c :: _ => c != '_'

/-- Whether a capital starts a word: after a small letter or digit, or as the last capital before a small letter. -/
def startsWord (prev : Option Char) (c : Char) (next : Option Char) : Bool :=
  isUpper c && match prev with
    | none => false
    | some p => isLower p || isDigit p || (isUpper p && (next.map isLower).getD false)

/-- Puts an underscore for each run of separators and before each new word; the output is kept in reverse. -/
def splitWords : Option Char → List Char → List Char → List Char
  | _, out, [] => out.reverse
  | prev, out, c :: cs =>
    if isSeparator c then splitWords (some c) (if midWord out then '_' :: out else out) cs
    else if midWord out && startsWord prev c cs.head? then splitWords (some c) (c :: '_' :: out) cs
    else splitWords (some c) (c :: out) cs

def snakeChars [Libraries] (cs : List Char) : List Char :=
  let l := Libraries.lower (splitWords none [] cs)
  if l.getLast? = some '_' then l.dropLast else l

def snakeCase [Libraries] (name : Bytes) : Bytes :=
  String.ofList (snakeChars ((Utf8.units name).map Utf8.Unit.toChar))

end Flatwire.Text

import Flatwire.Text.Utf8

/-! JSON documents and their compact text. -/

namespace Flatwire

inductive Json where
  | null
  | bool (b : Bool)
  /-- A number keeps its spelling. -/
  | num (literal : Bytes)
  | str (text : Bytes)
  | arr (items : List Json)
  | obj (members : List (Bytes × Json))

namespace Json

def nat (n : Nat) : Json := num (Bytes.decimal n)

/-- Four hexadecimal digits behind a backslash and a `u`. -/
def unicodeEscape (n : Nat) : Bytes := "\\u" ++ Bytes.padLeft 48 4 (Bytes.radix 16 n)

/-- Quotes, backslashes, controls, the three characters that matter in markup, and the two separators that end lines
in scripts are escaped. -/
def escapeChar (c : Char) : Bytes :=
  match c.toNat with
  | 0x22 => "\\\""
  | 0x5C => "\\\\"
  | 0x08 => "\\b"
  | 0x0C => "\\f"
  | 0x0A => "\\n"
  | 0x0D => "\\r"
  | 0x09 => "\\t"
  | n =>
    if n < 0x20 || n = 0x3C || n = 0x3E || n = 0x26 || n = 0x2028 || n = 0x2029 then unicodeEscape n
    else Bytes.ofString (String.singleton c)

/-- A bad byte is written as the replacement character. -/
def escapeUnit : Utf8.Unit → Bytes
  | .char c => escapeChar c
  | .bad _ => unicodeEscape 0xFFFD

def printString (bs : Bytes) : Bytes := "\"" ++ (Utf8.units bs).flatMap escapeUnit ++ "\""

mutual

/-- The document without blanks. -/
def print : Json → Bytes
  | null => "null"
  | bool true => "true"
  | bool false => "false"
  | num l => l
  | str t => printString t
  | arr xs => "[" ++ printItems xs ++ "]"
  | obj ms => "\x7b" ++ printMembers ms ++ "\x7d"

def printItems : List Json → Bytes
  | [] => []
  | [x] => x.print
  | x :: y :: xs => x.print ++ "," ++ printItems (y :: xs)

def printMembers : List (Bytes × Json) → Bytes
  | [] => []
  | [(k, x)] => printString k ++ ":" ++ x.print
  | (k, x) :: m :: ms => printString k ++ ":" ++ x.print ++ "," ++ printMembers (m :: ms)

end

end Json

end Flatwire

import Flatwire.Text.Printable
import Flatwire.Text.Utf8

/-! Quoted text as it stands in messages. Printable characters are written as they are; quotes, backslashes, controls,
unprintable characters and bad bytes are escaped, so that different texts have different quoted forms. -/

namespace Flatwire.Text

/-- At least `n` hexadecimal digits. -/
def hexPad (n v : Nat) : Bytes := Bytes.padLeft 48 n (Bytes.radix 16 v)

def quoteByte (b : UInt8) : Bytes := "\\x" ++ hexPad 2 b.toNat

def quoteChar (c : Char) : Bytes :=
  if c = '"' then "\\\""
  else if c = '\\' then "\\\\"
  else if isPrintable c then Bytes.ofString (String.singleton c)
  else
    match c.toNat with
    | 7 => "\\a"
    | 8 => "\\b"
    | 9 => "\\t"
    | 10 => "\\n"
    | 11 => "\\v"
    | 12 => "\\f"
    | 13 => "\\r"
    | n =>
      if n < 0x20 || n = 0x7F then quoteByte (UInt8.ofNat n)
      else if n < 0x10000 then "\\u" ++ hexPad 4 n
      else "\\U" ++ hexPad 8 n

def quoteUnit : Utf8.Unit → Bytes
  | .char c => quoteChar c
  | .bad b => quoteByte b

def quote (bs : Bytes) : Bytes := "\"" ++ (Utf8.units bs).flatMap quoteUnit ++ "\""

def quoteList (bss : List Bytes) : Bytes := "[" ++ Bytes.join " " (bss.map quote) ++ "]"

/-- The number of a character as `U+` and at least four upper-case digits. -/
def codePoint (n : Nat) : Bytes :=
  "U+" ++ (hexPad 4 n).map fun b => if 97 ≤ b then b - 32 else b

end Flatwire.Text

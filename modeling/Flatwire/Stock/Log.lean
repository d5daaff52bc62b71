import Flatwire.Json
import Flatwire.Libraries

/-! Log lines: a level, a message and fields, with tabs between. -/

namespace Flatwire.Stock.Log

def levelName : LogLevel → String
  | .debug => "DEBUG"
  | .warn => "WARN"
  | .error => "ERROR"

/-- Quotes, backslashes and controls are escaped; a bad byte is written as the replacement character. -/
def escapeUnit : Utf8.Unit → Bytes
  | .char c =>
    match c.toNat with
    | 0x22 => "\\\""
    | 0x5C => "\\\\"
    | 0x0A => "\\n"
    | 0x0D => "\\r"
    | 0x09 => "\\t"
    | n => if n < 0x20 then Json.unicodeEscape n else Bytes.ofString (String.singleton c)
  | .bad _ => Json.unicodeEscape 0xFFFD

def quote (bs : Bytes) : Bytes := "\"" ++ (Utf8.units bs).flatMap escapeUnit ++ "\""

def printValue : LogValue → Bytes
  | .text bs => quote bs
  | .number n => Bytes.decimal n

def line (e : LogEntry) : Bytes :=
  let field (f : String × LogValue) : Bytes := quote f.1 ++ ": " ++ printValue f.2
  let fields : Bytes :=
    if e.fields.isEmpty then [] else "\t\x7b" ++ Bytes.join ", " (e.fields.map field) ++ "\x7d"
  levelName e.level ++ "\t" ++ e.message ++ fields ++ "\n"

end Flatwire.Stock.Log

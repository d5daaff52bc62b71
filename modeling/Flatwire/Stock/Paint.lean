import Flatwire.Libraries
import Flatwire.Text.Utf8

/-! Texts in colour on a terminal. -/

namespace Flatwire.Stock

/-- Four blanks stand for a tab. -/
def expandTabs (bs : Bytes) : Bytes := bs.flatMap fun b => if b = 0x09 then List.replicate 4 0x20 else [b]

/-- Line ends without carriage returns. -/
def plainEnds : Bytes → Bytes
  | 0x0D :: 0x0A :: r => 0x0A :: plainEnds r
  | b :: r => b :: plainEnds r
  | [] => []

def wideRanges : List (Nat × Nat) :=
  [(0x1100, 0x115F), (0x2E80, 0x303E), (0x3041, 0xA4CF), (0xA960, 0xA97C), (0xAC00, 0xD7A3), (0xF900, 0xFAFF),
    (0xFE30, 0xFE6B), (0xFF01, 0xFF60), (0xFFE0, 0xFFE6), (0x1F300, 0x1F64F), (0x1F680, 0x1F6FC), (0x1F90C, 0x1F9FF),
    (0x20000, 0x3FFFD)]

/-- The columns of a character. Controls have none. -/
def columns : Utf8.Unit → Nat
  | .char c =>
    if c.toNat < 0x20 || (0x7F ≤ c.toNat && c.toNat < 0xA0) then 0
    else if wideRanges.any fun r => r.1 ≤ c.toNat && c.toNat ≤ r.2 then 2
    else 1
  | _ => 1

def width (line : Bytes) : Nat := (Utf8.units line).foldl (fun n u => n + columns u) 0

/-- The bright colours go by 90 and so on. -/
def styleCode (s : Style) : Bytes :=
  let bold : List Bytes := if s.bold then ["1"] else []
  Bytes.join ";" (bold ++ s.color.toList.map fun n => Bytes.decimal (82 + n))

/-- A line in the colours of a style, if they are on; an empty line has none. -/
def paintLine (colored : Bool) (style : Style) (line : Bytes) : Bytes :=
  if colored && !line.isEmpty then "\x1b[" ++ styleCode style ++ "m" ++ line ++ "\x1b[0m" else line

/-- A text in a style. Its lines are filled with blanks to the width of the widest. -/
def paint (colored : Bool) (style : Style) (text : Bytes) : Bytes :=
  let lines := Bytes.splitOn 0x0A (plainEnds (expandTabs text))
  let widest := lines.foldl (fun n l => max n (width l)) 0
  Bytes.join [0x0A] (lines.map fun l => paintLine colored style l ++ List.replicate (widest - width l) 0x20)

end Flatwire.Stock

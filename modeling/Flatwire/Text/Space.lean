import Flatwire.Text.Utf8

/-! White space. -/

namespace Flatwire.Text

def isSpace (c : Char) : Bool :=
  let n := c.toNat
  (9 ≤ n && n ≤ 13) || n == 0x20 || n == 0x85 || n == 0xA0 || n == 0x1680 || (0x2000 ≤ n && n ≤ 0x200A) ||
    n == 0x2028 || n == 0x2029 || n == 0x202F || n == 0x205F || n == 0x3000

def isSpaceUnit : Utf8.Unit → Bool
  | .char c => isSpace c
  | .bad _ => false

/-- Whether a text has nothing but white space. -/
def isBlank (bs : Bytes) : Bool := (Utf8.units bs).all isSpaceUnit

end Flatwire.Text

import Flatwire.Text.Utf8

/-! Line and column of a byte offset. Lines end at a line feed; columns count characters, a bad byte as one. -/

namespace Flatwire

structure Position where
  line : Nat
  column : Nat
deriving DecidableEq, Repr

def lineFeed : UInt8 := 0x0A

def lastLine (bs : Bytes) : Bytes := (bs.reverse.takeWhile (· ≠ lineFeed)).reverse

/-- Line and column count from one; an offset behind the end stands for the end. -/
def Position.ofOffset (src : Bytes) (offset : Nat) : Position :=
  let before := src.take offset
  { line := 1 + before.count lineFeed, column := 1 + Utf8.count (lastLine before) }

end Flatwire

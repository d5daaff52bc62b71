/-! Places in a source text: byte spans, and line and column numbers. -/

namespace Flatwire

structure Span where
  start : Nat
  len : Nat
deriving DecidableEq, Repr

/-- The end of the span, kept in 32 bits. -/
def Span.stop (s : Span) : Nat := (s.start + s.len) % 0x100000000

end Flatwire

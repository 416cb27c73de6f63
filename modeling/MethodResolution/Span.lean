/-
  Method resolution — positions in a source text.

  Declarations and calls carry the place they were read from; every diagnostic
  begins with it.
-/

namespace MethodResolution

/-- A stretch of source text: where it starts and how long it is. -/
structure Span where
  line : Nat := 0
  col : Nat := 0
  len : Nat := 0
  deriving DecidableEq, Inhabited, Repr

namespace Span

def isEmpty (s : Span) : Bool := s.len == 0

/-- A span is written as its start. -/
def text (s : Span) : String := Nat.repr s.line ++ ":" ++ Nat.repr s.col

end Span

end MethodResolution

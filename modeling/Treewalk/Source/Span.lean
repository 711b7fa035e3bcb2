/-!
# Spans

A span is a range of bytes of a source text, from `start` up to and without `stop`.
-/

namespace Treewalk

structure Span where
  start : Nat
  stop : Nat
deriving DecidableEq, Repr

namespace Span

/-- A span whose ends are the wrong way round has length 0. -/
def length (s : Span) : Nat := s.stop - s.start

def isEmpty (s : Span) : Bool := s.length = 0

end Span

end Treewalk

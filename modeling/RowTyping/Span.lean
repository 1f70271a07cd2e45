/-!
# Spans

Errors point into the source text of a program by offsets.
-/

namespace RowTyping

/-- A stretch of the source text, by offsets. -/
structure Span where
  start : Nat := 0
  stop : Nat := 0
  deriving DecidableEq, Repr

/-- The smallest span that holds both. -/
def Span.merge (a b : Span) : Span := ⟨min a.start b.start, max a.stop b.stop⟩

end RowTyping

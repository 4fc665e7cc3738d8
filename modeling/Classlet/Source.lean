/-!
# Positions and names in the source text
-/

namespace Classlet

/-- The line and column at which a construct starts, both counted from 1. Line 0 stands for a construct
that is not in the source text. -/
structure Span where
  line : Nat
  column : Nat
deriving DecidableEq

namespace Span

def synthetic : Span := ⟨0, 0⟩

def isSynthetic (s : Span) : Bool := s.line == 0

/-- The first column of a line. -/
def startOf (line : Nat) : Span := ⟨line, 1⟩

def text (s : Span) : String := toString s.line ++ ":" ++ toString s.column

end Span

/-- A name and where it is written. -/
structure Name where
  text : String
  span : Span
deriving DecidableEq

end Classlet

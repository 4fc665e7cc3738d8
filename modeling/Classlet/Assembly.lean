import Classlet.Code
/-!
# Assembly

A complete program: the main block, then the blocks of functions and methods.
-/

namespace Classlet

structure Assembly where
  main : Code
  functions : List Code
deriving DecidableEq

namespace Assembly

/-- All instructions in output order. -/
def instructions (a : Assembly) : Code := a.main ++ a.functions.flatten

/-- The number of lines. -/
def length (a : Assembly) : Nat := a.functions.foldl (· + ·.length) a.main.length

def text (a : Assembly) : String := a.main.text ++ String.join (a.functions.map Code.text)

/-- The first block that starts with `label`. -/
def function? (a : Assembly) (label : Label) : Option Code := a.functions.find? (·.entryLabel? = some label)

end Assembly

end Classlet

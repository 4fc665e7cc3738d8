/-!
# Abandoned computations

Some computations have no answer: the result of an arithmetic operation is not a machine word, or an
offset has the wrong sign for the kind of member it is read as. `Abort` names the reason.
-/

namespace Classlet

/-- The arithmetic operations of the language and of the machine. -/
inductive Arith where
  | add
  | sub
  | mul
  | div
deriving DecidableEq

namespace Arith

/-- The exact result. Division goes toward zero. -/
def eval : Arith → Int → Int → Int
  | add, a, b => a + b
  | sub, a, b => a - b
  | mul, a, b => a * b
  | div, a, b => a.tdiv b

def verb : Arith → String
  | add => "add"
  | sub => "subtract"
  | mul => "multiply"
  | div => "divide"

end Arith

/-- Why a computation was abandoned. -/
inductive Abort where
  | overflow (op : Arith)
  | notFieldOffset (offset : Int)
  | notMethodOffset (offset : Int)
  | notClassOffset (offset : Int)
deriving DecidableEq

def Abort.message : Abort → String
  | overflow op => "attempt to " ++ op.verb ++ " with overflow"
  | notFieldOffset o => "not a field offset: " ++ toString o
  | notMethodOffset o => "not a method offset: " ++ toString o
  | notClassOffset o => "not a class offset: " ++ toString o

end Classlet

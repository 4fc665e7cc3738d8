import Classlet.Abort
/-!
# Binary operators

Operators fall into four classes, which decide the operand and result types. The connectives are
determined by the operand value that settles them.
-/

namespace Classlet

inductive Connective where
  | or
  | and
deriving DecidableEq

/-- The operand that settles the connective: true for `||`, false for `&&`. -/
def Connective.decisive : Connective → Bool
  | or => true
  | and => false

inductive BinaryOp where
  | arith (op : Arith)
  | equal
  | lessEqual
  | greaterEqual
  | logic (op : Connective)
deriving DecidableEq

inductive OpClass where
  | arithmetic
  | comparison
  | equality
  | logical
deriving DecidableEq

namespace BinaryOp

def opClass : BinaryOp → OpClass
  | arith _ => .arithmetic
  | equal => .equality
  | lessEqual | greaterEqual => .comparison
  | logic _ => .logical

def isComparison (op : BinaryOp) : Bool :=
  op.opClass = .comparison || op.opClass = .equality

def text : BinaryOp → String
  | arith .add => "+"
  | arith .sub => "-"
  | arith .mul => "*"
  | arith .div => "/"
  | equal => "=="
  | lessEqual => "<="
  | greaterEqual => ">="
  | logic .or => "||"
  | logic .and => "&&"

end BinaryOp

/-- How the negation operator is written. -/
def notText : String := "!"

end Classlet

import Classlet.Code
import Classlet.Dispatch
import Classlet.Layout
import Classlet.Tree
/-!
# Code for expressions

The code of an expression leaves exactly one word on the stack. Branch labels are numbered in the order in
which the code is generated, so generation takes the next free number and returns the one after the numbers it
used.
-/

namespace Classlet

/-- Why no code was generated. -/
inductive CodeError where
  | unresolved (name : Name)
  | missingDispatchTable (cls : String) (span : Span)
  | dispatch (cls : String) (span : Span) (cause : DispatchError)
  | abort (a : Abort)
deriving DecidableEq

def CodeError.message : CodeError → String
  | unresolved name => "at " ++ name.span.text ++ ": '" ++ name.text ++ "' was never resolved"
  | missingDispatchTable cls span =>
    "at " ++ span.text ++ ": no dispatch table for the superclass of '" ++ cls ++ "'"
  | dispatch cls span cause =>
    "at " ++ span.text ++ ": bad dispatch table for '" ++ cls ++ "': " ++ cause.message
  | abort a => a.message

/-- The annotation of a use, without which there is no code. -/
def required {α : Type} (name : Name) : Option α → Except CodeError α
  | some a => .ok a
  | none => .error (.unresolved name)

/-- Code and the next free branch number. -/
abbrev Generated := Except CodeError (Code × Nat)

/-- Code for an operator between the code of its operands, with the branch numbers `n` and `n + 1` free for
it. -/
def BinaryOp.code (op : BinaryOp) (left right : Code) (n : Nat) : Code :=
  match op with
  | .arith op => left ++ right ++ [.arith op]
  | .equal => left ++ right ++ [.branchEqual (.branch n)] ++ Code.select (.branch n) (.branch (n + 1)) false true
  | .lessEqual =>
    left ++ right ++ [.branchLessEqual (.branch n)] ++ Code.select (.branch n) (.branch (n + 1)) false true
  -- `left ≤ right - 1` means `left < right`
  | .greaterEqual =>
    left ++ right ++ [.push (.ofInt 1), .arith .sub, .branchLessEqual (.branch n)] ++
      Code.select (.branch n) (.branch (n + 1)) true false
  | .logic op =>
    left ++ [Code.pushBool op.decisive, .branchEqual (.branch n)] ++
      right ++ [Code.pushBool op.decisive, .branchEqual (.branch n)] ++
      Code.select (.branch n) (.branch (n + 1)) (!op.decisive) op.decisive

/-- How many branch numbers an operator uses. -/
def BinaryOp.branches : BinaryOp → Nat
  | .arith _ => 0
  | _ => 2

namespace Code

/-- Calls a function. The access link stays on the stack and is used to find the target, for a method through
the dispatch pointer of the object. -/
def call (args : Code) (r : Resolution) : Code :=
  [.load .fp] ++ args ++ frameAt r.hops ++ duplicate ++
    (if r.entry.type.isMethod then [.loadWord] else []) ++ loadAt r.entry.offset ++ [.jumpSubroutine]

/-- Calls a method of an object, whose address becomes the access link. -/
def callMethod (args : Code) (receiver : Resolution) (method : Entry) : Code :=
  [.load .fp] ++ args ++ frameAt receiver.hops ++ loadAt receiver.entry.offset ++ duplicate ++ [.loadWord] ++
    loadAt method.offset ++ [.jumpSubroutine]

/-- Moves `count` arguments to the heap, adds the dispatch pointer found at address `table` and leaves the
address of that word. -/
def construct (args : Code) (count : Nat) (table : Word) : Code :=
  args ++ (List.replicate count storeOnHeap).flatten ++
    [.push table, .loadWord, .load .hp, .storeWord, .load .hp] ++ bumpHeap

/-- Evaluates the condition, then the branch it chooses. -/
def conditional (cond thenBranch elseBranch : Code) (n : Nat) : Code :=
  cond ++ [pushBool true, .branchEqual (.branch n)] ++ elseBranch ++
    [.branch (.branch (n + 1)), .define (.branch n)] ++ thenBranch ++ [.define (.branch (n + 1))]

def negation (operand : Code) (n : Nat) : Code :=
  operand ++ [pushBool false, .branchEqual (.branch n)] ++ select (.branch n) (.branch (n + 1)) false true

end Code

/-- The address of a class's dispatch pointer. Classes live in the outermost frame, whose `fp` is the size of
memory. -/
def classAddress (memory : Word) (entry : Entry) : Except CodeError Word :=
  (Word.checked .add (memory.val + entry.offset)).mapError .abort

mutual
/-- Code for an annotated expression, for a machine with `memory` words. -/
def Expr.code (memory : Word) : Expr → Nat → Generated
  | .int value _, n => .ok ([.push value], n)
  | .bool value _, n => .ok ([Code.pushBool value], n)
  | .null _, n => .ok ([.push (.ofInt Layout.nullAddress)], n)
  | .ident name target, n => do
    let r ← required name target
    return (Code.frameAt r.hops ++ Code.loadAt r.entry.offset, n)
  | .call callee args _ target, n => do
    let r ← required callee target
    let (args, n) ← Expr.codeReversed memory args n
    return (Code.call args r, n)
  | .methodCall object method args _ receiver target, n => do
    let r ← required object receiver
    let entry ← required method target
    let (args, n) ← Expr.codeReversed memory args n
    return (Code.callMethod args r entry, n)
  | .new cls args _ target, n => do
    let entry ← required cls target
    let (code, n) ← Expr.codeAll memory args n
    let address ← classAddress memory entry
    return (Code.construct code args.length address, n)
  | .ite c t e _, n => do
    let (cond, m) ← c.code memory (n + 2)
    let (elseBranch, m) ← e.code memory m
    let (thenBranch, m) ← t.code memory m
    return (Code.conditional cond thenBranch elseBranch n, m)
  | .binary op l r _, n => do
    let (left, n) ← l.code memory n
    let (right, m) ← r.code memory (n + op.branches)
    return (op.code left right n, m)
  | .not e _, n => do
    let (operand, m) ← e.code memory (n + 2)
    return (Code.negation operand n, m)
  | .print e _, n => do
    let (value, n) ← e.code memory n
    return (value ++ [.print], n)

/-- Code for expressions from the first to the last. -/
def Expr.codeAll (memory : Word) : List Expr → Nat → Generated
  | [], n => .ok ([], n)
  | e :: es, n => do
    let (first, n) ← e.code memory n
    let (rest, n) ← Expr.codeAll memory es n
    return (first ++ rest, n)

/-- Code for expressions from the last to the first. -/
def Expr.codeReversed (memory : Word) : List Expr → Nat → Generated
  | [], n => .ok ([], n)
  | e :: es, n => do
    let (rest, n) ← Expr.codeReversed memory es n
    let (first, n) ← e.code memory n
    return (rest ++ first, n)
end

end Classlet

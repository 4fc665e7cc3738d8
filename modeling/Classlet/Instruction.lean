import Classlet.Word
/-!
# Instructions of the stack machine

The machine is word-addressed. It has a frame pointer `fp`, a return address register `ra`, a scratch register
`tm` and a heap pointer `hp`. The stack grows down from the top of memory and the heap grows up from address 0.
-/

namespace Classlet

/-- Branch targets and function entries are numbered apart. -/
inductive Label where
  | branch (n : Nat)
  | function (n : Nat)
deriving DecidableEq

def Label.text : Label → String
  | branch n => "label" ++ toString n
  | function n => "function" ++ toString n

inductive Register where
  | ra
  | tm
  | fp
  | hp
deriving DecidableEq

def Register.text : Register → String
  | ra => "ra"
  | tm => "tm"
  | fp => "fp"
  | hp => "hp"

/-- One line of assembly. -/
inductive Instruction where
  | push (n : Word)
  /-- Pushes the code address of a label. -/
  | pushLabel (label : Label)
  | pop
  /-- Pops `v1`, pops `v2`, pushes `v2 op v1`. -/
  | arith (op : Arith)
  /-- Pops an address, pops a value and stores the value at the address. -/
  | storeWord
  /-- Pops an address and pushes the word stored there. -/
  | loadWord
  | branch (label : Label)
  /-- Pops `v1`, pops `v2` and branches if `v2 = v1`. -/
  | branchEqual (label : Label)
  /-- Pops `v1`, pops `v2` and branches if `v2 ≤ v1`. -/
  | branchLessEqual (label : Label)
  /-- Pops an address, saves the address of the next instruction in `ra` and jumps. -/
  | jumpSubroutine
  /-- Pushes a register. -/
  | load (r : Register)
  /-- Pops into a register. -/
  | store (r : Register)
  /-- Copies the stack pointer into `fp`. -/
  | copyFp
  /-- Prints the top of the stack, which stays. -/
  | print
  | halt
  | define (label : Label)
deriving DecidableEq

namespace Instruction

/-- The first word of the line. A label definition has none. -/
def mnemonic : Instruction → String
  | push _ | pushLabel _ => "push"
  | pop => "pop"
  | arith .add => "add"
  | arith .sub => "sub"
  | arith .mul => "mult"
  | arith .div => "div"
  | storeWord => "sw"
  | loadWord => "lw"
  | branch _ => "b"
  | branchEqual _ => "beq"
  | branchLessEqual _ => "bleq"
  | jumpSubroutine => "js"
  | load r => "l" ++ r.text
  | store r => "s" ++ r.text
  | copyFp => "cfp"
  | print => "print"
  | halt => "halt"
  | define _ => ""

/-- The label the instruction refers to. -/
def target? : Instruction → Option Label
  | pushLabel l | branch l | branchEqual l | branchLessEqual l => some l
  | _ => none

def text (i : Instruction) : String :=
  match i with
  | push n => "push " ++ n.text
  | define l => l.text ++ ":"
  | _ =>
    match i.target? with
    | some l => i.mnemonic ++ " " ++ l.text
    | none => i.mnemonic

end Instruction

end Classlet

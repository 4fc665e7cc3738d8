import Classlet.Instruction
/-!
# Code and the sequences it is built from

Code is a list of instructions. The sequences below are those of the calling convention: static chain walks,
heap stores, opening and closing a frame, and the common tail of the boolean operators.

A call pushes the caller's `fp`, the arguments in reverse order and the access link; the callee then copies
the stack pointer into `fp`, saves `ra` and pushes its local declarations. Relative to `fp` the access link is
at `0`, the saved `ra` at `-1`, locals are at `-2` and below, and parameters at `1` and above.
-/

namespace Classlet

abbrev Code := List Instruction

namespace Code

def text (c : Code) : String := String.join (c.map (·.text ++ "\n"))

/-- The label that the first instruction defines. -/
def entryLabel? (c : Code) : Option Label :=
  match c with
  | .define l :: _ => some l
  | _ => none

def pushBool (b : Bool) : Instruction := .push (.ofBool b)

def pops (n : Nat) : Code := List.replicate n .pop

/-! ## Frames -/

/-- Pushes the address of the frame `hops` access links up. -/
def frameAt (hops : Nat) : Code := .load .fp :: List.replicate hops .loadWord

/-- Replaces the address on top of the stack by the word `offset` words away from it. -/
def loadAt (offset : Int) : Code := [.push (.ofInt offset), .arith .add, .loadWord]

/-- Duplicates the top of the stack through `tm`. -/
def duplicate : Code := [.store .tm, .load .tm, .load .tm]

/-- Opens the frame of the function that starts at `label`. -/
def enterFrame (label : Label) : Code := [.define label, .copyFp, .load .ra]

/-- Closes the frame and returns, with the result on top of the caller's stack: locals, return address, access
link, parameters and control link are popped. -/
def leaveFrame (locals params : Nat) : Code :=
  [.store .tm] ++ pops locals ++ [.store .ra, .pop] ++ pops params ++
    [.store .fp, .load .tm, .load .ra, .jumpSubroutine]

/-! ## Heap -/

/-- Adds one to `hp`. -/
def bumpHeap : Code := [.load .hp, .push (.ofInt 1), .arith .add, .store .hp]

/-- Pops the top of the stack into the next heap word. -/
def storeOnHeap : Code := [.load .hp, .storeWord] ++ bumpHeap

/-! ## Booleans -/

/-- Leaves `fallthrough`, or `whenTaken` after a jump to `taken`. -/
def select (taken ending : Label) (fallthrough whenTaken : Bool) : Code :=
  [pushBool fallthrough, .branch ending, .define taken, pushBool whenTaken, .define ending]

end Code

end Classlet

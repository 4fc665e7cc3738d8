import Classlet.Instruction
/-!
# Reading instructions

The inverse of `Instruction.text`. The operand of `push` is a number if it reads as one, else a label.
-/

namespace Classlet

namespace Reader

/-- The number with the given decimal digits, of which there is at least one. -/
def natural? (cs : List Char) : Option Nat :=
  if !cs.isEmpty && cs.all Char.isDigit then
    some (cs.foldl (fun n c => 10 * n + (c.toNat - '0'.toNat)) 0)
  else none

/-- A number with an optional sign. -/
def integer? : List Char → Option Int
  | '-' :: cs => (natural? cs).map fun n => -(n : Int)
  | '+' :: cs => (natural? cs).map Int.ofNat
  | cs => (natural? cs).map Int.ofNat

/-- A number in the range of a word. -/
def word? (cs : List Char) : Option Word := (integer? cs).bind Word.ofInt?

/-- What follows `start`, if `cs` starts so. -/
def after? (start cs : List Char) : Option (List Char) :=
  if start.isPrefixOf cs then some (cs.drop start.length) else none

def label? (cs : List Char) : Option Label :=
  match after? "label".toList cs, after? "function".toList cs with
  | some rest, _ => (natural? rest).map .branch
  | none, some rest => (natural? rest).map .function
  | none, none => none

/-- Instructions that are one word. -/
def plain? : String → Option Instruction
  | "pop" => some .pop
  | "add" => some (.arith .add)
  | "sub" => some (.arith .sub)
  | "mult" => some (.arith .mul)
  | "div" => some (.arith .div)
  | "sw" => some .storeWord
  | "lw" => some .loadWord
  | "js" => some .jumpSubroutine
  | "lra" => some (.load .ra)
  | "sra" => some (.store .ra)
  | "ltm" => some (.load .tm)
  | "stm" => some (.store .tm)
  | "lfp" => some (.load .fp)
  | "sfp" => some (.store .fp)
  | "lhp" => some (.load .hp)
  | "shp" => some (.store .hp)
  | "cfp" => some .copyFp
  | "print" => some .print
  | "halt" => some .halt
  | _ => none

/-- Instructions with an operand. -/
def withOperand? (mnemonic : String) (operand : List Char) : Option Instruction :=
  match mnemonic with
  | "push" => ((word? operand).map Instruction.push).or ((label? operand).map .pushLabel)
  | "b" => (label? operand).map .branch
  | "beq" => (label? operand).map .branchEqual
  | "bleq" => (label? operand).map .branchLessEqual
  | _ => none

end Reader

open Reader

def Label.ofText? (s : String) : Option Label := label? s.toList

def Instruction.ofText? (s : String) : Option Instruction :=
  match s.toList.span (· ≠ ' ') with
  | (first, _ :: operand) => withOperand? (String.ofList first) operand
  | (line, []) =>
    if line.getLast? = some ':' then (label? line.dropLast).map .define else plain? s

end Classlet

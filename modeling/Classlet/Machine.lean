import Classlet.Assembly
/-!
# The stack machine

`step` executes one instruction and `run` at most `stepLimit` of them. A run halts, ends in a fault, or is
abandoned because a word or the stack pointer left its range.

A push faults where the stack would meet the heap. Addresses read from memory may be anything, so every access
through one is checked.
-/

namespace Classlet.Machine

inductive Fault where
  | undefinedLabel (label : Label)
  | badAddress (address : Word) (ip : Nat)
  | stackUnderflow (ip : Nat)
  | stackOverflow (ip : Nat)
  | divisionByZero (ip : Nat)
  | ranOffEnd
  | stepLimit
deriving DecidableEq

def Fault.text : Fault → String
  | undefinedLabel (.branch n) => "UndefinedLabel(Branch(" ++ toString n ++ "))"
  | undefinedLabel (.function n) => "UndefinedLabel(Function(" ++ toString n ++ "))"
  | badAddress address ip =>
    "BadAddress \x7b address: " ++ address.text ++ ", ip: " ++ toString ip ++ " \x7d"
  | stackUnderflow ip => "StackUnderflow \x7b ip: " ++ toString ip ++ " \x7d"
  | stackOverflow ip => "StackOverflow \x7b ip: " ++ toString ip ++ " \x7d"
  | divisionByZero ip => "DivisionByZero \x7b ip: " ++ toString ip ++ " \x7d"
  | ranOffEnd => "RanOffEnd"
  | stepLimit => "StepLimit"

/-- How a run ends. -/
inductive Stop where
  /-- What was printed, in order, and the top of the stack. -/
  | halted (printed : List Word) (result : Option Word)
  | fault (f : Fault)
  | abort (a : Abort)
deriving DecidableEq

/-- The address of the last definition of `label`. -/
def addressOf? (label : Label) : Code → Option Nat
  | [] => none
  | i :: rest =>
    match addressOf? label rest with
    | some n => some (n + 1)
    | none => if i = .define label then some 0 else none

/-- Code ready to run: each instruction with the address of the label it refers to. -/
structure Image where
  lines : Array (Instruction × Option Nat)

def Image.ofCode (code : Code) : Image :=
  ⟨(code.map fun i => (i, i.target?.bind (addressOf? · code))).toArray⟩

structure State where
  ip : Nat
  sp : Nat
  ra : Word
  tm : Word
  fp : Word
  hp : Word
  memory : Array Word
  printed : Array Word

namespace State

/-- A machine with `size` words of memory, all 0, and an empty stack. -/
def initial (size : Nat) : State where
  ip := 0
  sp := size
  ra := .ofInt 0
  tm := .ofInt 0
  fp := .ofInt size
  hp := .ofInt 0
  memory := Array.replicate size (.ofInt 0)
  printed := #[]

def get (s : State) : Register → Word
  | .ra => s.ra
  | .tm => s.tm
  | .fp => s.fp
  | .hp => s.hp

def set (s : State) (r : Register) (w : Word) : State :=
  match r with
  | .ra => { s with ra := w }
  | .tm => { s with tm := w }
  | .fp => { s with fp := w }
  | .hp => { s with hp := w }

def top? (s : State) : Option Word := s.memory[s.sp]?

/-- The stack has to stay above the heap. A heap pointer below 0 lets it reach address 0, from where it cannot
go further down. -/
def push (s : State) (w : Word) : Except Stop State :=
  if (s.sp : Int) ≤ s.hp.val then .error (.fault (.stackOverflow s.ip))
  else if s.sp = 0 then .error (.abort (.overflow .sub))
  else .ok { s with sp := s.sp - 1, memory := s.memory.setIfInBounds (s.sp - 1) w }

def pop (s : State) : Except Stop (Word × State) :=
  match s.top? with
  | some w => .ok (w, { s with sp := s.sp + 1 })
  | none => .error (.fault (.stackUnderflow s.ip))

/-- The position in memory of an address. -/
def cell (s : State) (address : Word) : Except Stop Nat :=
  if 0 ≤ address.val ∧ address.val < s.memory.size then .ok address.val.toNat
  else .error (.fault (.badAddress address s.ip))

def jump (s : State) (label : Label) (address : Option Nat) : Except Stop State :=
  match address with
  | some a => .ok { s with ip := a }
  | none => .error (.fault (.undefinedLabel label))

/-- Executes an instruction whose label, if it has one, is at `address`. The instruction pointer is already past
it. -/
def exec (s : State) (address : Option Nat) : Instruction → Except Stop State
  | .push n => s.push n
  | .pushLabel label =>
    match address with
    | some a => s.push (.ofInt a)
    | none => .error (.fault (.undefinedLabel label))
  | .pop => do
    let (_, s) ← s.pop
    return s
  | .arith op => do
    let (v1, s) ← s.pop
    let (v2, s) ← s.pop
    if op = .div ∧ v1.val = 0 then .error (.fault (.divisionByZero (s.ip - 1)))
    else
      match op.apply v2 v1 with
      | .ok w => s.push w
      | .error a => .error (.abort a)
  | .storeWord => do
    let (target, s) ← s.pop
    let (value, s) ← s.pop
    let i ← s.cell target
    return { s with memory := s.memory.setIfInBounds i value }
  | .loadWord => do
    let (source, s) ← s.pop
    let i ← s.cell source
    s.push (s.memory.getD i (.ofInt 0))
  | .branch label => s.jump label address
  | .branchEqual label => do
    let (v1, s) ← s.pop
    let (v2, s) ← s.pop
    if v2.val = v1.val then s.jump label address else .ok s
  | .branchLessEqual label => do
    let (v1, s) ← s.pop
    let (v2, s) ← s.pop
    if v2.val ≤ v1.val then s.jump label address else .ok s
  | .jumpSubroutine => do
    let (target, s) ← s.pop
    if target.val < 0 then .error (.fault (.badAddress target s.ip))
    else .ok { s with ra := .ofInt s.ip, ip := target.val.toNat }
  | .load r => s.push (s.get r)
  | .store r => do
    let (w, s) ← s.pop
    return s.set r w
  | .copyFp => .ok { s with fp := .ofInt s.sp }
  | .print =>
    match s.top? with
    | some w => .ok { s with printed := s.printed.push w }
    | none => .error (.fault (.stackUnderflow s.ip))
  | .halt => .error (.halted s.printed.toList s.top?)
  | .define _ => .ok s

/-- Executes the instruction at the instruction pointer. -/
def step (image : Image) (s : State) : Except Stop State :=
  match image.lines[s.ip]? with
  | some (i, address) => { s with ip := s.ip + 1 }.exec address i
  | none => .error (.fault .ranOffEnd)

/-- Executes at most `n` instructions. -/
def run (image : Image) : Nat → State → Stop
  | 0, _ => .fault .stepLimit
  | n + 1, s =>
    match s.step image with
    | .ok s' => run image n s'
    | .error stop => stop

end State

/-- The number of instructions after which a run is given up. -/
def stepLimit : Nat := 1000000

/-- Runs the assembly on a machine with `size` words of memory. -/
def run (a : Assembly) (size : Nat) : Stop :=
  (State.initial size).run (.ofCode a.instructions) stepLimit

end Classlet.Machine

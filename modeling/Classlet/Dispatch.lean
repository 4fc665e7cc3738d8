import Classlet.Instruction
/-!
# Dispatch tables

The dispatch table of a class lists the entry labels of its methods by offset. It starts as its superclass's
table; an override replaces a label and a new method adds one. The tables themselves are kept by class, in
declaration order.
-/

namespace Classlet

/-- Replaces the element at `i`, or adds one at the end if `i` is the length. -/
def putAt? {α : Type} (l : List α) (i : Nat) (a : α) : Option (List α) :=
  if i < l.length then some (l.set i a)
  else if i = l.length then some (l ++ [a])
  else none

abbrev DispatchTable := List Label

/-- Why a dispatch table could not be recorded: a method offset past the end of its table, or a class past the
tables recorded so far. -/
inductive DispatchError where
  | gap (offset length : Nat)
  | slotOutOfOrder (slot length : Nat)
deriving DecidableEq

def DispatchError.message : DispatchError → String
  | gap offset length =>
    "method offset " ++ toString offset ++ " past the end of a " ++ toString length ++ "-entry dispatch table"
  | slotOutOfOrder slot length =>
    "dispatch slot " ++ toString slot ++ " out of order (" ++ toString length ++ " tables recorded)"

/-- Puts a method's label at its offset. -/
def DispatchTable.place (t : DispatchTable) (offset : Nat) (label : Label) :
    Except DispatchError DispatchTable :=
  match putAt? t offset label with
  | some t' => .ok t'
  | none => .error (.gap offset t.length)

/-- Records the table of the class at `slot`: a new one, or a redeclared one in place of the earlier. -/
def DispatchTable.record (tables : List DispatchTable) (slot : Nat) (t : DispatchTable) :
    Except DispatchError (List DispatchTable) :=
  match putAt? tables slot t with
  | some tables' => .ok tables'
  | none => .error (.slotOutOfOrder slot tables.length)

end Classlet

import Classlet.Table
import Classlet.Ty
/-!
# Class hierarchies and subtyping

A hierarchy gives each class at most one direct superclass. `isSubtype` is reflexive on `int`, `bool` and
class references, has `bool` below `int`, a class reference below its superclasses and `null` below every
class reference. A function type is below another of the same arity when its return type is below the
other's and its parameter types are above the other's.
-/

namespace Classlet

/-- The direct superclass of each class that has one. -/
structure Hierarchy where
  supers : Table String

namespace Hierarchy

def empty : Hierarchy := ⟨.empty⟩

/-- Makes `superclass` the direct superclass of `cls`, in place of any earlier one. -/
def extend (h : Hierarchy) (cls superclass : String) : Hierarchy := ⟨h.supers.set cls superclass⟩

def superclass? (h : Hierarchy) (cls : String) : Option String := h.supers.get? cls

/-- The number of classes with a superclass. -/
def size (h : Hierarchy) : Nat := h.supers.size

/-- At most `n` strict ancestors of `cls`, nearest first. -/
def chain (h : Hierarchy) : Nat → String → List String
  | 0, _ => []
  | n + 1, cls =>
    match h.superclass? cls with
    | none => []
    | some d => d :: h.chain n d

/-- Strict ancestors of `cls`, nearest first. As many names as there are edges are enough to meet every
ancestor, and the walk ends also where the edges form a cycle. -/
def ancestors (h : Hierarchy) (cls : String) : List String := h.chain h.size cls

/-- Whether `cls` is `ancestor` or extends it, directly or not. -/
def isSubclass (h : Hierarchy) (cls ancestor : String) : Bool :=
  cls == ancestor || (h.ancestors cls).contains ancestor

/-- Subtyping between types that are not function types. -/
def isAtomSubtype (h : Hierarchy) : Ty → Ty → Bool
  | .int, .int => true
  | .bool, .bool => true
  | .bool, .int => true
  | .ref a, .ref b => h.isSubclass a b
  | .empty, .ref _ => true
  | _, _ => false

end Hierarchy

/-- Which of two types is asked to be below the other: the first, or the second. -/
inductive Variance where
  | co
  | contra
deriving DecidableEq

def Variance.flip : Variance → Variance
  | co => contra
  | contra => co

mutual
/-- Whether the first type is below the second (`co`) or the second below the first (`contra`). -/
def Ty.isBelow (h : Hierarchy) (v : Variance) : Ty → Ty → Bool
  | .arrow s, b =>
    match b with
    | .arrow s' => s.isBelow h v s'
    | _ => false
  | a, b =>
    match v with
    | .co => h.isAtomSubtype a b
    | .contra => h.isAtomSubtype b a

def Signature.isBelow (h : Hierarchy) (v : Variance) : Signature → Signature → Bool
  | ⟨ps, r⟩, s => ps.length == s.params.length && r.isBelow h v s.ret && Ty.areBelow h v.flip ps s.params

def Ty.areBelow (h : Hierarchy) (v : Variance) : List Ty → List Ty → Bool
  | a :: as, b :: bs => a.isBelow h v b && Ty.areBelow h v as bs
  | _, _ => true
end

namespace Hierarchy

/-- `a <: b`. -/
def isSubtype (h : Hierarchy) (a b : Ty) : Bool := a.isBelow h .co b

/-- Same arity, covariant return type, contravariant parameter types. -/
def isArrowSubtype (h : Hierarchy) (a b : Signature) : Bool := a.isBelow h .co b

/-- The most specific type above both `a` and `b`, if there is one. -/
def lowestCommonAncestor? (h : Hierarchy) (a b : Ty) : Option Ty :=
  if h.isSubtype a b then some b
  else if h.isSubtype b a then some a
  else
    match a with
    | .ref c => ((h.ancestors c).map Ty.ref).find? (h.isSubtype b)
    | _ => none

end Hierarchy

end Classlet

import Classlet.Layout
import Classlet.Typing.Decl
/-!
# Types of classes

The methods of a class are checked like functions, except that problems of their local declarations are
warnings. Every member that takes an inherited offset has to have a type below the inherited one.
-/

namespace Classlet

/-- The hierarchy after a class whose superclass was found. -/
def Class.extendHierarchy (h : Hierarchy) (c : Class) : Hierarchy :=
  match c.name, c.superclass, c.superEntry with
  | some name, some superclass, some _ => h.extend name.text superclass.text
  | _, _, _ => h

/-- Only methods with an offset are checked. -/
def Method.typeReports (h : Hierarchy) (d : Method) : List Diagnostic :=
  if d.offset.isSome then d.function.typeReports h .method .warning .error else []

/-- Whether the element at `i` of `own` is below the element there of `inherited`, where both have one. -/
def overrides {α : Type} (isBelow : α → α → Bool) (own inherited : List α) (i : Nat) : Bool :=
  match own[i]?, inherited[i]? with
  | some a, some b => isBelow a b
  | _, _ => true

def Field.overrideReports (h : Hierarchy) (own inherited : List Ty) (f : Field) :
    Except Abort (List Diagnostic) :=
  match f.name, f.offset with
  | some name, some offset => do
    let i ← Layout.fieldIndex offset
    if overrides h.isSubtype own inherited i then return []
    else return [.error (.incompatibleOverride .field name.text) f.span]
  | _, _ => .ok []

def Method.overrideReports (h : Hierarchy) (own inherited : List Signature) (d : Method) :
    Except Abort (List Diagnostic) :=
  match d.function.name, d.offset with
  | some name, some offset => do
    let i ← Layout.methodIndex offset
    if overrides h.isArrowSubtype own inherited i then return []
    else return [.error (.incompatibleOverride .method name.text) d.function.span]
  | _, _ => .ok []

/-- Compares the members with those of the superclass. -/
def Class.overrideReports (h : Hierarchy) (c : Class) : Except Abort (List Diagnostic) :=
  match c.entry.bind (·.type.members?), c.superEntry.bind (·.type.members?) with
  | some (fields, methods), some (inheritedFields, inheritedMethods) => do
    let fieldReports ← c.fields.mapM (·.overrideReports h fields inheritedFields)
    let methodReports ← c.methods.mapM (·.overrideReports h methods inheritedMethods)
    return fieldReports.flatten ++ methodReports.flatten
  | _, _ => .ok []

/-- Checks a class with a name in the hierarchy that has it. -/
def Class.typeReports (h : Hierarchy) (c : Class) : Except Abort (List Diagnostic) :=
  match c.name with
  | none => .ok []
  | some _ => do
    let overriding ← c.overrideReports h
    return c.methods.flatMap (·.typeReports h) ++ overriding

/-- Checks classes in order, each in the hierarchy of those up to it. -/
def Class.checkAll (h : Hierarchy) : List Class → Except Abort (Hierarchy × List Diagnostic)
  | [] => .ok (h, [])
  | c :: cs => do
    let reports ← c.typeReports (c.extendHierarchy h)
    let (last, rest) ← Class.checkAll (c.extendHierarchy h) cs
    return (last, reports ++ rest)

end Classlet

import Classlet.Resolution.Expr
/-!
# Members of classes

The members of a class start as those of its superclass. A declared member whose name is inherited overrides
the inherited one and takes its offset, provided both are fields or both are methods; any other member is
added after the ones there are. Of two members that one class declares under the same name the first counts.
-/

namespace Classlet

/-- The members of a class while they are collected: layouts, virtual table, and the names declared so far. -/
structure Members where
  fields : List Ty
  methods : List Signature
  table : VirtualTable
  own : List String

namespace Members

/-- No members, as where nothing is inherited. -/
def empty : Members := ⟨[], [], .empty, []⟩

/-- The type of the name of a class with these members. -/
def type (m : Members) : Ty := .cls m.fields m.methods

/-- What becomes of a declared member. -/
inductive Verdict where
  /-- The class already declares a member of that name. -/
  | repeated
  /-- A field would override a method, or a method a field. -/
  | clash
  | placed (offset : Int)
deriving DecidableEq

def fieldVerdict (m : Members) (name : String) : Verdict :=
  if m.own.contains name then .repeated
  else
    match m.table.get? name with
    | some entry => if entry.type.isMethod then .clash else .placed entry.offset
    | none => .placed (Layout.fieldOffset m.fields.length)

def methodVerdict (m : Members) (name : String) : Verdict :=
  if m.own.contains name then .repeated
  else
    match m.table.get? name with
    | some entry => if entry.type.isMethod then .placed entry.offset else .clash
    | none => .placed (Layout.methodOffset m.methods.length)

/-- Replaces the element at `i`, or adds one at the end. -/
def putAt {α : Type} (l : List α) (i : Nat) (a : α) : List α :=
  if i < l.length then l.set i a else l ++ [a]

def addField (m : Members) (level : Nat) (name : String) (type : Ty) (offset : Int) : Except Abort Members := do
  let i ← Layout.fieldIndex offset
  return { m with fields := putAt m.fields i type, table := m.table.set name ⟨level, type, offset⟩ }

def addMethod (m : Members) (level : Nat) (name : String) (signature : Signature) (offset : Int) :
    Except Abort Members := do
  let i ← Layout.methodIndex offset
  return { m with
    methods := putAt m.methods i signature, table := m.table.set name ⟨level, .method signature, offset⟩ }

/-- Adds a name to those the class declares. -/
def declare (m : Members) (name : String) : Members := { m with own := name :: m.own }

/-- Gives a field its place among the members. -/
def placeField (level : Nat) (m : Members) (f : Field) : Except Abort (Field × Members × List Diagnostic) :=
  match f.declared? with
  | none => .ok (f, m, [])
  | some (name, type) =>
    match m.fieldVerdict name.text with
    | .repeated => .ok (f, m, [.warning (.duplicateDeclaration .field name.text) name.span])
    | .clash => .ok (f, m.declare name.text, [.error (.invalidOverride .field .method name.text) name.span])
    | .placed offset => do
      let m ← m.addField level name.text type offset
      return ({ f with offset := f.offset.or (some offset) }, m.declare name.text, [])

/-- Gives a method its place among the members. -/
def placeMethod (level : Nat) (m : Members) (d : Method) : Except Abort (Method × Members × List Diagnostic) :=
  match d.function.declared? with
  | none => .ok (d, m, [])
  | some (name, signature) =>
    match m.methodVerdict name.text with
    | .repeated => .ok (d, m, [.warning (.duplicateDeclaration .method name.text) name.span])
    | .clash => .ok (d, m.declare name.text, [.error (.invalidOverride .method .field name.text) name.span])
    | .placed offset => do
      let m ← m.addMethod level name.text signature offset
      return ({ d with offset := d.offset.or (some offset) }, m.declare name.text, [])

def placeFields (level : Nat) (m : Members) :
    List Field → Except Abort (List Field × Members × List Diagnostic)
  | [] => .ok ([], m, [])
  | f :: fs => do
    let (f, m, reports) ← m.placeField level f
    let (fs, m, reports') ← m.placeFields level fs
    return (f :: fs, m, reports ++ reports')

def placeMethods (level : Nat) (m : Members) :
    List Method → Except Abort (List Method × Members × List Diagnostic)
  | [] => .ok ([], m, [])
  | d :: ds => do
    let (d, m, reports) ← m.placeMethod level d
    let (ds, m, reports') ← m.placeMethods level ds
    return (d :: ds, m, reports ++ reports')

end Members

end Classlet

import Classlet.Resolution.Decl
import Classlet.Resolution.Members
/-!
# Names in classes

A class is bound in the outermost scope, with its complete layout, before its method bodies are looked at, so
methods may construct objects of their own class. The bodies see the members of the class, and the types of
members may name it.
-/

namespace Classlet

/-- Entry and members of a class that can be extended. -/
def Env.extensible? (env : Env) (name : String) : Option (Entry × Members) :=
  match env.class? name, env.classes.get? name with
  | some (entry, fields, methods), some table => some (entry, ⟨fields, methods, table, []⟩)
  | _, _ => none

/-- Entry and members of the superclass, if there is one that can be extended. -/
def Class.inherited (env : Env) (c : Class) : Option Entry × Members :=
  match c.superclass.bind (env.extensible? ·.text) with
  | some (entry, members) => (some entry, members)
  | none => (none, .empty)

def Class.superclassProblems (env : Env) (c : Class) : List Problem :=
  match c.superclass with
  | some name =>
    if (env.extensible? name.text).isSome then [] else [⟨.undeclaredSuperclass name.text, name.span⟩]
  | none => []

/-- The entry that a class gets where it is declared. -/
def Env.classEntry (env : Env) (m : Members) : Entry := ⟨env.scopes.level, m.type, env.scopes.nextOffset⟩

/-- Binds a class in the outermost scope. The virtual table is recorded unless the name was taken. -/
def Env.declareClass (env : Env) (name : String) (m : Members) : Env :=
  { scopes := env.scopes.takeOffset.bindGlobal name (env.classEntry m)
    classes :=
      if (env.scopes.lookupGlobal? name).isSome then env.classes else env.classes.set name m.table }

/-- The scopes of a class body, which binds the members. -/
def Env.enterClass (env : Env) (m : Members) : Env :=
  { env with scopes := env.scopes.push (.opened .cls m.table) }

def Env.classDuplicates (env : Env) (name : Name) : List Problem :=
  if (env.scopes.lookupGlobal? name.text).isSome then
    [⟨.duplicateDeclaration .cls name.text, name.span⟩]
  else []

def Field.typeProblems (env : Env) (f : Field) : List Problem :=
  match f.type with
  | some type => type.problems env f.span
  | none => []

/-- Only methods with an offset are looked at. -/
def Method.annotate (env : Env) (d : Method) : Method :=
  if d.offset.isSome then { d with function := d.function.annotate env.classes env.scopes } else d

def Method.nameProblems (env : Env) (d : Method) : List Problem :=
  if d.offset.isSome then
    (match d.function.signature? with
      | some signature => signature.problems env d.function.span
      | none => []) ++ d.function.nameProblems env.classes env.scopes
  else []

/-- The declared members of a class with their offsets, all its members, and what was reported. -/
structure PlacedMembers where
  fields : List Field
  methods : List Method
  members : Members
  reports : List Diagnostic

/-- Adds the declared members of a class to the inherited ones: first the fields, then the methods. -/
def Class.place (env : Env) (c : Class) : Except Abort PlacedMembers := do
  let (fields, members, fieldReports) ← (c.inherited env).2.placeFields (env.scopes.level + 1) c.fields
  let (methods, members, methodReports) ← members.placeMethods (env.scopes.level + 1) c.methods
  return ⟨fields, methods, members, fieldReports ++ methodReports⟩

/-- A class after its names were resolved. -/
structure ResolvedClass where
  tree : Class
  env : Env
  reports : List Diagnostic

/-- Resolves a class with the given name, whose members are placed. -/
def Class.resolvePlaced (env : Env) (c : Class) (name : Name) (p : PlacedMembers) : ResolvedClass :=
  let outer := env.declareClass name.text p.members
  let inner := outer.enterClass p.members
  { tree := { c with
      fields := p.fields
      methods := p.methods.map (·.annotate inner)
      entry := c.entry.or (some (env.classEntry p.members))
      superEntry := c.superEntry.or (c.inherited env).1 }
    env := outer
    reports :=
      Diagnostic.errors (c.superclassProblems env) ++ p.reports ++
        Diagnostic.errors (env.classDuplicates name ++ p.fields.flatMap (·.typeProblems outer) ++
          p.methods.flatMap (·.nameProblems inner)) }

/-- Resolves a class. One without a name is passed over. -/
def Class.resolve (env : Env) (c : Class) : Except Abort ResolvedClass :=
  match c.name with
  | some name => do
    let placed ← c.place env
    return c.resolvePlaced env name placed
  | none => .ok ⟨c, env, []⟩

end Classlet

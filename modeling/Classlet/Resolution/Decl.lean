import Classlet.Resolution.Expr
/-!
# Names in declarations

A complete declaration takes the next offset of its scope and binds its name there, unless the name is taken.
The initializer of a variable does not see the variable; the body of a function sees the function. Incomplete
declarations change nothing and nothing in them is looked at.
-/

namespace Classlet

/-- The scopes after a declaration. -/
def Decl.bind (s : Scopes) (d : Decl) : Scopes :=
  match d.declared? with
  | some (name, type) => s.declareLocal name.text type
  | none => s

def Decl.bindAll (s : Scopes) (ds : List Decl) : Scopes := ds.foldl Decl.bind s

/-- A name that the current scope binds already. -/
def Scopes.duplicates (s : Scopes) (kind : DeclKind) (name : Name) : List Problem :=
  if (s.lookupCurrent? name.text).isSome then [⟨.duplicateDeclaration kind name.text, name.span⟩] else []

/-- The scopes after the parameters from position `i` on. -/
def Scopes.bindParams (s : Scopes) (i : Nat) : List Param → Scopes
  | [] => s
  | p :: ps =>
    match p.name, p.type with
    | some name, some type => (s.bind name.text ⟨s.level, type, Layout.paramOffset i⟩).bindParams (i + 1) ps
    | _, _ => s.bindParams (i + 1) ps

/-- Parameters whose names are taken. -/
def Scopes.paramProblems (s : Scopes) (i : Nat) : List Param → List Problem
  | [] => []
  | p :: ps =>
    match p.name, p.type with
    | some name, some type =>
      s.duplicates .param name ++
        (s.bind name.text ⟨s.level, type, Layout.paramOffset i⟩).paramProblems (i + 1) ps
    | _, _ => s.paramProblems (i + 1) ps

/-- The scopes inside a function, before its local declarations. -/
def Scopes.enter (s : Scopes) (params : List Param) : Scopes :=
  (s.push (.opened .function .empty)).bindParams 0 params

mutual
/-- Fills the empty annotations of a declaration made in the scopes `s`. -/
def Decl.annotate (classes : Table VirtualTable) (s : Scopes) : Decl → Decl
  | .var v =>
    match v.declared? with
    | some _ => .var { v with init := v.init.annotate ⟨s, classes⟩ }
    | none => .var v
  | .function f =>
    match f.declared? with
    | some (name, signature) => .function (f.annotate classes (s.declareLocal name.text (.arrow signature)))
    | none => .function f

/-- Fills the empty annotations of a function, where `s` are the scopes around its body. -/
def Function.annotate (classes : Table VirtualTable) (s : Scopes) : Function → Function
  | ⟨name, params, ret, locals, body, span⟩ =>
    ⟨name, params, ret, Decl.annotateAll classes (s.enter params) locals,
      body.annotate ⟨Decl.bindAll (s.enter params) locals, classes⟩, span⟩

def Decl.annotateAll (classes : Table VirtualTable) (s : Scopes) : List Decl → List Decl
  | [] => []
  | d :: ds => d.annotate classes s :: Decl.annotateAll classes (d.bind s) ds
end

mutual
/-- What is wrong with the names of a declaration made in the scopes `s`. -/
def Decl.nameProblems (classes : Table VirtualTable) (s : Scopes) : Decl → List Problem
  | .var v =>
    match v.declared? with
    | some (name, type) =>
      v.init.nameProblems ⟨s, classes⟩ ++ type.problems ⟨s, classes⟩ v.span ++ s.duplicates .var name
    | none => []
  | .function f =>
    match f.declared? with
    | some (name, signature) =>
      signature.problems ⟨s, classes⟩ f.span ++ s.duplicates .function name ++
        f.nameProblems classes (s.declareLocal name.text (.arrow signature))
    | none => []

/-- What is wrong with the names inside a function, where `s` are the scopes around its body. -/
def Function.nameProblems (classes : Table VirtualTable) (s : Scopes) : Function → List Problem
  | ⟨_, params, _, locals, body, _⟩ =>
    (s.push (.opened .function .empty)).paramProblems 0 params ++
      Decl.allNameProblems classes (s.enter params) locals ++
      body.nameProblems ⟨Decl.bindAll (s.enter params) locals, classes⟩

def Decl.allNameProblems (classes : Table VirtualTable) (s : Scopes) : List Decl → List Problem
  | [] => []
  | d :: ds => d.nameProblems classes s ++ Decl.allNameProblems classes (d.bind s) ds
end

end Classlet

import Classlet.Diagnostic
import Classlet.Scopes
import Classlet.Tree
/-!
# Names in expressions

The scopes and the virtual tables of the classes decide what every name in an expression refers to. `annotate`
records it at the use, in annotations that are still empty, and `nameProblems` lists the names that refer to
nothing.
-/

namespace Classlet

/-- The members of a class by name, with their offsets. -/
abbrev VirtualTable := Table Entry

/-- What names can refer to: the open scopes and the virtual table of each class. -/
structure Env where
  scopes : Scopes
  classes : Table VirtualTable

namespace Env

/-- What a name refers to, as seen from the current scope. -/
def resolve? (env : Env) (name : String) : Option Resolution :=
  (env.scopes.lookup? name).map (⟨·, env.scopes.level⟩)

/-- The method of that name in a class. -/
def method? (env : Env) (cls method : String) : Option Entry :=
  match (env.classes.get? cls).bind (·.get? method) with
  | some entry => if entry.type.isMethod then some entry else none
  | none => none

/-- The method that a call on `object` refers to: a method of the class that the type of `object` names. -/
def receiverMethod? (env : Env) (object method : String) : Option Entry :=
  match (env.scopes.lookup? object).bind (·.type.ref?) with
  | some cls => env.method? cls method
  | none => none

/-- The entry and members of a declared class. -/
def class? (env : Env) (name : String) : Option (Entry × List Ty × List Signature) :=
  match env.scopes.lookupGlobal? name with
  | some entry => entry.type.members?.map (entry, ·)
  | none => none

def identProblems (env : Env) (name : Name) : List Problem :=
  if (env.scopes.lookup? name.text).isSome then [] else [⟨.undeclaredIdentifier name.text, name.span⟩]

def receiverProblems (env : Env) (object method : Name) : List Problem :=
  match env.scopes.lookup? object.text with
  | none => [⟨.undeclaredIdentifier object.text, object.span⟩]
  | some entry =>
    match entry.type.ref? with
    | none => [⟨.notAnObject object.text, object.span⟩]
    | some cls =>
      if (env.method? cls method.text).isSome then []
      else [⟨.undeclaredMethod cls method.text, method.span⟩]

def newProblems (env : Env) (cls : Name) : List Problem :=
  if (env.scopes.lookup? cls.text).isSome then [] else [⟨.undeclaredClass cls.text, cls.span⟩]

end Env

mutual
/-- Fills the empty annotations of an expression. -/
def Expr.annotate (env : Env) : Expr → Expr
  | .int value span => .int value span
  | .bool value span => .bool value span
  | .null span => .null span
  | .ident name target => .ident name (target.or (env.resolve? name.text))
  | .call callee args span target =>
    .call callee (Expr.annotateAll env args) span (target.or (env.resolve? callee.text))
  | .methodCall object method args span receiver target =>
    .methodCall object method (Expr.annotateAll env args) span (receiver.or (env.resolve? object.text))
      (target.or (env.receiverMethod? object.text method.text))
  | .new cls args span target =>
    .new cls (Expr.annotateAll env args) span (target.or (env.scopes.lookup? cls.text))
  | .ite c t e span => .ite (c.annotate env) (t.annotate env) (e.annotate env) span
  | .binary op l r span => .binary op (l.annotate env) (r.annotate env) span
  | .not e span => .not (e.annotate env) span
  | .print e span => .print (e.annotate env) span

def Expr.annotateAll (env : Env) : List Expr → List Expr
  | [] => []
  | e :: es => e.annotate env :: Expr.annotateAll env es
end

mutual
/-- The names in an expression that refer to nothing, parent first. -/
def Expr.nameProblems (env : Env) : Expr → List Problem
  | .int .. | .bool .. | .null _ => []
  | .ident name _ => env.identProblems name
  | .call callee args _ _ => env.identProblems callee ++ Expr.allNameProblems env args
  | .methodCall object method args _ _ _ =>
    env.receiverProblems object method ++ Expr.allNameProblems env args
  | .new cls args _ _ => env.newProblems cls ++ Expr.allNameProblems env args
  | .ite c t e _ => c.nameProblems env ++ t.nameProblems env ++ e.nameProblems env
  | .binary _ l r _ => l.nameProblems env ++ r.nameProblems env
  | .not e _ | .print e _ => e.nameProblems env

def Expr.allNameProblems (env : Env) : List Expr → List Problem
  | [] => []
  | e :: es => e.nameProblems env ++ Expr.allNameProblems env es
end

mutual
/-- The class references in a type that name no declared class, reported at `span`. -/
def Ty.problems (env : Env) (span : Span) : Ty → List Problem
  | .ref cls => if (env.class? cls).isSome then [] else [⟨.undeclaredClass cls, span⟩]
  | .arrow s | .method s => s.problems env span
  | .int | .bool | .cls .. | .empty => []

def Signature.problems (env : Env) (span : Span) : Signature → List Problem
  | ⟨params, ret⟩ => Ty.allProblems env span params ++ ret.problems env span

def Ty.allProblems (env : Env) (span : Span) : List Ty → List Problem
  | [] => []
  | t :: ts => t.problems env span ++ Ty.allProblems env span ts
end

end Classlet

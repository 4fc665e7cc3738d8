import Classlet.Resolution.Class
/-!
# Names in programs

Classes are resolved in order, then declarations, then the body.
-/

namespace Classlet

namespace Env

/-- No class declared and nothing bound. -/
def initial : Env := ⟨.initial, .empty⟩

end Env

/-- Classes after their names were resolved. -/
structure ResolvedClasses where
  trees : List Class
  env : Env
  reports : List Diagnostic

def Class.resolveAll (env : Env) : List Class → Except Abort ResolvedClasses
  | [] => .ok ⟨[], env, []⟩
  | c :: cs => do
    let first ← c.resolve env
    let rest ← Class.resolveAll first.env cs
    return ⟨first.tree :: rest.trees, rest.env, first.reports ++ rest.reports⟩

/-- A program after its names were resolved: the annotated tree, what was reported, and the virtual tables. -/
structure Resolved where
  tree : Program
  reports : List Diagnostic
  classes : Table VirtualTable

def Program.resolve : Program → Except Abort Resolved
  | .letIn classes decls body span => do
    let resolved ← Class.resolveAll .initial classes
    let env := resolved.env
    let inner : Env := { env with scopes := Decl.bindAll env.scopes decls }
    return {
      tree := .letIn resolved.trees (Decl.annotateAll env.classes env.scopes decls) (body.annotate inner) span
      reports := resolved.reports ++
        Diagnostic.errors (Decl.allNameProblems env.classes env.scopes decls ++ body.nameProblems inner)
      classes := env.classes }
  | .expr body span =>
    .ok ⟨.expr (body.annotate .initial) span, Diagnostic.errors (body.nameProblems .initial), .empty⟩

end Classlet

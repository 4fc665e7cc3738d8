import Classlet.Diagnostic
import Classlet.Typing.Expr
/-!
# Types of declarations

A declaration has at most one problem of its own: the initializer or the body does not check, or its type is
not below the declared one. The problem is reported and checking goes on with the next declaration. The local
declarations of a function come before the function's own problem.
-/

namespace Classlet

def Variable.typeProblem? (h : Hierarchy) (v : Variable) : Option Problem :=
  match v.declared? with
  | none => none
  | some (name, type) =>
    match v.init.typeOf h with
    | .error p => some p
    | .ok init => if h.isSubtype init type then none else some ⟨.incompatibleInitializer name.text, v.span⟩

/-- The problem of a body that has to return `ret`. -/
def Expr.returnProblem? (h : Hierarchy) (kind : DeclKind) (name : String) (ret : Ty) (span : Span)
    (body : Expr) : Option Problem :=
  match body.typeOf h with
  | .error p => some p
  | .ok type => if h.isSubtype type ret then none else some ⟨.wrongReturnType kind name, span⟩

mutual
/-- Checks a declaration, whose own problem is reported with the given severity. -/
def Decl.typeReports (h : Hierarchy) (severity : Severity) : Decl → List Diagnostic
  | .var v => (v.typeProblem? h).toList.map (⟨severity, ·⟩)
  | .function f => f.typeReports h .function .error severity

/-- Checks a complete function: first its local declarations, then its body. -/
def Function.typeReports (h : Hierarchy) (kind : DeclKind) (localSeverity severity : Severity) :
    Function → List Diagnostic
  | f@⟨_, _, _, locals, body, span⟩ =>
    match f.declared? with
    | none => []
    | some (name, signature) =>
      Decl.allTypeReports h localSeverity locals ++
        (body.returnProblem? h kind name.text signature.ret span).toList.map (⟨severity, ·⟩)

def Decl.allTypeReports (h : Hierarchy) (severity : Severity) : List Decl → List Diagnostic
  | [] => []
  | d :: ds => d.typeReports h severity ++ Decl.allTypeReports h severity ds
end

end Classlet

import Classlet.Typing.Class
/-!
# Types of programs
-/

namespace Classlet

/-- A checked program: the type of its body if that has one, what was reported, and the hierarchy of its
classes. -/
structure Checked where
  type : Option Ty
  reports : List Diagnostic
  hierarchy : Hierarchy

/-- Checks an annotated program, adding its classes to a hierarchy. -/
def Program.check (h : Hierarchy) (p : Program) : Except Abort Checked := do
  let (h, classReports) ← Class.checkAll h p.classes
  let reports := classReports ++ Decl.allTypeReports h .error p.decls
  match p.body.typeOf h with
  | .ok type => return ⟨some type, reports, h⟩
  | .error problem => return ⟨none, reports ++ [⟨.error, problem⟩], h⟩

end Classlet

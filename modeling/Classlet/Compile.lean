import Classlet.Generation.Program
import Classlet.Resolution.Program
import Classlet.Typing.Program
/-!
# Compilation

Names are resolved, types are checked and code is generated, in this order. Problems with types always stop
before code generation; problems with names stop before the type check or, if so chosen, after it.
-/

namespace Classlet

structure Options where
  /-- The words of memory of the machine that the code is for. -/
  memorySize : Word := .ofInt 10000
  stopAfterScopeErrors : Bool := true

inductive CompileError where
  /-- The number of problems with names. -/
  | scope (count : Nat)
  /-- The number of problems with types. -/
  | type (count : Nat)
  | code (cause : CodeError)
deriving DecidableEq

def CompileError.message : CompileError → String
  | scope n => toString n ++ " scope error(s)"
  | type n => toString n ++ " type error(s)"
  | code cause => cause.message

/-- A compiled program. -/
structure Executable where
  type : Ty
  assembly : Assembly
deriving DecidableEq

/-- What compilation leaves: the result, what was reported, and the annotated tree. -/
structure Compilation where
  result : Except CompileError Executable
  reports : List Diagnostic
  tree : Program

/-- A compiler keeps what its last compilation reported. -/
structure Compiler where
  options : Options
  reports : List Diagnostic

/-- Generates code for a program whose body has the given type. -/
def Options.finish (options : Options) (tree : Program) (type : Ty) :
    Except Abort (Except CompileError Executable) :=
  match tree.generate options.memorySize with
  | .ok assembly => .ok (.ok ⟨type, assembly⟩)
  | .error (.abort a) => .error a
  | .error cause => .ok (.error (.code cause))

def Options.compile (options : Options) (p : Program) : Except Abort Compilation := do
  let resolved ← p.resolve
  let scopeErrors := resolved.reports.length
  if 0 < scopeErrors ∧ options.stopAfterScopeErrors then
    return ⟨.error (.scope scopeErrors), resolved.reports, resolved.tree⟩
  else
    let checked ← resolved.tree.check .empty
    let reports := resolved.reports ++ checked.reports
    match checked.type, checked.reports with
    | some type, [] =>
      if 0 < scopeErrors then return ⟨.error (.scope scopeErrors), reports, resolved.tree⟩
      else
        let result ← options.finish resolved.tree type
        return ⟨result, reports, resolved.tree⟩
    | _, found => return ⟨.error (.type found.length), reports, resolved.tree⟩

def Compiler.compile (c : Compiler) (p : Program) : Except Abort (Compilation × Compiler) := do
  let compilation ← c.options.compile p
  return (compilation, { c with reports := compilation.reports })

end Classlet

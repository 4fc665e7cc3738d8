import Classlet.Problem
/-!
# Diagnostics

What an analysis reports, in the order of reporting. Warnings count like errors when it is decided whether a
program may go on to the next stage.
-/

namespace Classlet

inductive Severity where
  | error
  | warning
deriving DecidableEq

def Severity.text : Severity → String
  | error => "error"
  | warning => "warning"

structure Diagnostic where
  severity : Severity
  problem : Problem
deriving DecidableEq

namespace Diagnostic

def error (cause : Cause) (span : Span) : Diagnostic := ⟨.error, cause, span⟩

def warning (cause : Cause) (span : Span) : Diagnostic := ⟨.warning, cause, span⟩

/-- Problems reported as errors. -/
def errors (ps : List Problem) : List Diagnostic := ps.map (⟨.error, ·⟩)

def line (d : Diagnostic) : Nat := d.problem.span.line

def text (d : Diagnostic) : String := d.severity.text ++ ": " ++ d.problem.message

/-- How many diagnostics have the given severity. -/
def count (severity : Severity) (ds : List Diagnostic) : Nat := ds.countP (·.severity = severity)

/-- One line for each diagnostic. -/
def report (ds : List Diagnostic) : String := String.join (ds.map (·.text ++ "\n"))

end Diagnostic

end Classlet

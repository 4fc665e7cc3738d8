import Classlet.Source
/-!
# Problems of a program

A problem is a cause and the place it is reported at. `Cause.text` is the one place where problems are worded.
-/

namespace Classlet

/-- What kind of declaration bound a name. -/
inductive DeclKind where
  | var
  | param
  | function
  | cls
  | field
  | method
deriving DecidableEq

def DeclKind.text : DeclKind → String
  | var => "variable"
  | param => "parameter"
  | function => "function"
  | cls => "class"
  | field => "field"
  | method => "method"

inductive Cause where
  | duplicateDeclaration (kind : DeclKind) (name : String)
  | undeclaredIdentifier (name : String)
  | undeclaredSuperclass (name : String)
  | undeclaredClass (name : String)
  | undeclaredMethod (cls method : String)
  | notAnObject (name : String)
  | invalidOverride (kind inherited : DeclKind) (name : String)
  | incompatibleOverride (kind : DeclKind) (name : String)
  | typeMismatch (message : String)
  | wrongArgumentCount (callee : String) (expected found : Nat)
  | wrongArgumentType (callee : String) (position : Nat)
  | notCallable (name : String)
  | notAClass (name : String)
  | notAValue (kind : DeclKind) (name : String)
  | noCommonType
  | wrongReturnType (kind : DeclKind) (name : String)
  | incompatibleInitializer (name : String)
  | unresolved (name : String)
deriving DecidableEq

/-- Problems with names, with overriding and with types. -/
inductive Category where
  | scope
  | overriding
  | type
deriving DecidableEq

namespace Cause

def category : Cause → Category
  | duplicateDeclaration .. | undeclaredIdentifier .. | undeclaredSuperclass .. | undeclaredClass ..
  | undeclaredMethod .. | notAnObject .. => .scope
  | invalidOverride .. | incompatibleOverride .. => .overriding
  | _ => .type

/-- `s` between single quotes. -/
def quoted (s : String) : String := "'" ++ s ++ "'"

def text : Cause → String
  | duplicateDeclaration kind name => kind.text ++ " " ++ quoted name ++ " is already declared in this scope"
  | undeclaredIdentifier name => quoted name ++ " is not declared"
  | undeclaredSuperclass name => "superclass " ++ quoted name ++ " is not declared"
  | undeclaredClass name => "class " ++ quoted name ++ " is not declared"
  | undeclaredMethod cls method => "class " ++ quoted cls ++ " has no method " ++ quoted method
  | notAnObject name => quoted name ++ " is not an object"
  | invalidOverride kind inherited name =>
    kind.text ++ " " ++ quoted name ++ " cannot override inherited " ++ inherited.text
  | incompatibleOverride kind name => "wrong type for overriding " ++ kind.text ++ " " ++ quoted name
  | typeMismatch message => message
  | wrongArgumentCount callee expected found =>
    "wrong number of arguments for " ++ quoted callee ++ ": expected " ++ toString expected ++ ", found " ++
      toString found
  | wrongArgumentType callee position =>
    "wrong type for argument " ++ toString position ++ " of " ++ quoted callee
  | notCallable name => "invocation of non-function " ++ quoted name
  | notAClass name => quoted name ++ " is not a class"
  | notAValue kind name => "wrong usage of " ++ kind.text ++ " identifier " ++ quoted name
  | noCommonType => "incompatible types in then-else branches"
  | wrongReturnType kind name => "wrong return type for " ++ kind.text ++ " " ++ quoted name
  | incompatibleInitializer name => "incompatible value for variable " ++ quoted name
  | unresolved name => quoted name ++ " was not resolved"

/-- The cause at a place. -/
def message (c : Cause) (span : Span) : String := "at " ++ span.text ++ ": " ++ c.text

end Cause

structure Problem where
  cause : Cause
  span : Span
deriving DecidableEq

def Problem.message (p : Problem) : String := p.cause.message p.span

end Classlet

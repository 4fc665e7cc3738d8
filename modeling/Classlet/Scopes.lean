import Classlet.Entry
import Classlet.Layout
import Classlet.Table
/-!
# Scopes

The open scopes are the outermost one and, innermost first, those nested in it. Each scope binds a name at most
once and hands out the offsets of its own local declarations, so closing a scope brings the counter of the
enclosing one back.
-/

namespace Classlet

/-- What opened a scope: the program, a function or method body, or a class body. -/
inductive ScopeKind where
  | outermost
  | function
  | cls
deriving DecidableEq

structure Scope where
  kind : ScopeKind
  bindings : Table Entry
  nextOffset : Int

namespace Scope

/-- A scope that starts with `bindings`, as a class body does with the members of the class. -/
def opened (kind : ScopeKind) (bindings : Table Entry) : Scope := ⟨kind, bindings, Layout.firstLocalOffset⟩

def get? (s : Scope) (name : String) : Option Entry := s.bindings.get? name

/-- Binds `name`. A name that is bound keeps its entry. -/
def bind (s : Scope) (name : String) (entry : Entry) : Scope :=
  if s.bindings.contains name then s else { s with bindings := s.bindings.set name entry }

/-- Passes over the next local offset. -/
def takeOffset (s : Scope) : Scope := { s with nextOffset := s.nextOffset - 1 }

end Scope

structure Scopes where
  nested : List Scope
  global : Scope

namespace Scopes

/-- Only the outermost scope, with nothing in it. -/
def initial : Scopes := ⟨[], .opened .outermost .empty⟩

/-- The nesting level of the current scope. The outermost one has level 0. -/
def level (s : Scopes) : Nat := s.nested.length

def current (s : Scopes) : Scope := s.nested.headD s.global

def modifyCurrent (s : Scopes) (f : Scope → Scope) : Scopes :=
  match s.nested with
  | [] => { s with global := f s.global }
  | scope :: rest => { s with nested := f scope :: rest }

def push (s : Scopes) (scope : Scope) : Scopes := { s with nested := scope :: s.nested }

/-- Closes the current scope. The outermost one stays open. -/
def pop? (s : Scopes) : Option (Scope × Scopes) :=
  match s.nested with
  | [] => none
  | scope :: rest => some (scope, { s with nested := rest })

/-- The innermost binding of `name`. -/
def lookup? (s : Scopes) (name : String) : Option Entry :=
  (s.nested.findSome? (·.get? name)).or (s.global.get? name)

def lookupGlobal? (s : Scopes) (name : String) : Option Entry := s.global.get? name

def lookupCurrent? (s : Scopes) (name : String) : Option Entry := s.current.get? name

/-- Binds `name` in the current scope, where a bound name keeps its entry. -/
def bind (s : Scopes) (name : String) (entry : Entry) : Scopes := s.modifyCurrent (·.bind name entry)

/-- Binds `name` in the outermost scope, where a bound name keeps its entry. -/
def bindGlobal (s : Scopes) (name : String) (entry : Entry) : Scopes :=
  { s with global := s.global.bind name entry }

/-- Binds `name` in the current scope, or returns the entry it already has there. -/
def insert (s : Scopes) (name : String) (entry : Entry) : Except Entry Scopes :=
  match s.lookupCurrent? name with
  | some old => .error old
  | none => .ok (s.bind name entry)

/-- Binds `name` in the outermost scope, or returns the entry it already has there. -/
def insertGlobal (s : Scopes) (name : String) (entry : Entry) : Except Entry Scopes :=
  match s.lookupGlobal? name with
  | some old => .error old
  | none => .ok (s.bindGlobal name entry)

/-- The offset of the next local declaration of the current scope. -/
def nextOffset (s : Scopes) : Int := s.current.nextOffset

def takeOffset (s : Scopes) : Scopes := s.modifyCurrent Scope.takeOffset

/-- Gives a local declaration the next offset and binds its name. -/
def declareLocal (s : Scopes) (name : String) (type : Ty) : Scopes :=
  s.takeOffset.bind name ⟨s.level, type, s.nextOffset⟩

end Scopes

end Classlet

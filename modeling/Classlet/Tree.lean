import Classlet.Entry
import Classlet.Operator
import Classlet.Source
import Classlet.Word
/-!
# Program trees

A program is an expression, or classes and declarations followed by an expression that may use them. Names and
types of declarations may be missing, as they are after a syntax error; such a declaration is *incomplete*.

A use of a name has room for what it refers to, a class for its own entry and its superclass's, and a
member for its offset. These annotations are optional, and the analyses fill only those that are empty.
-/

namespace Classlet

inductive Expr where
  | int (value : Word) (span : Span)
  | bool (value : Bool) (span : Span)
  | null (span : Span)
  | ident (name : Name) (target : Option Resolution)
  | call (callee : Name) (args : List Expr) (span : Span) (target : Option Resolution)
  | methodCall (object method : Name) (args : List Expr) (span : Span) (receiver : Option Resolution)
      (target : Option Entry)
  | new (cls : Name) (args : List Expr) (span : Span) (target : Option Entry)
  | ite (cond thenBranch elseBranch : Expr) (span : Span)
  | binary (op : BinaryOp) (left right : Expr) (span : Span)
  | not (operand : Expr) (span : Span)
  | print (value : Expr) (span : Span)

/-- Where an expression is written. An identifier is where its name is. -/
def Expr.span : Expr → Span
  | int _ s | bool _ s | null s | call _ _ s _ | methodCall _ _ _ s _ _ | new _ _ s _ | ite _ _ _ s
  | binary _ _ _ s | not _ s | print _ s => s
  | ident name _ => name.span

structure Variable where
  name : Option Name
  type : Option Ty
  init : Expr
  span : Span

/-- Name and type of a complete variable. -/
def Variable.declared? (v : Variable) : Option (Name × Ty) :=
  match v.name, v.type with
  | some name, some type => some (name, type)
  | _, _ => none

structure Param where
  name : Option Name
  type : Option Ty
  span : Span

def Param.isComplete (p : Param) : Bool := p.name.isSome && p.type.isSome

mutual
inductive Decl where
  | var (v : Variable)
  | function (f : Function)

structure Function where
  name : Option Name
  params : List Param
  ret : Option Ty
  locals : List Decl
  body : Expr
  span : Span
end

namespace Function

/-- The types of the parameters, if none is missing. -/
def paramTypes? (f : Function) : Option (List Ty) := f.params.mapM Param.type

/-- The signature, if no type is missing. -/
def signature? (f : Function) : Option Signature :=
  match f.paramTypes?, f.ret with
  | some params, some ret => some ⟨params, ret⟩
  | _, _ => none

def isComplete (f : Function) : Bool := f.name.isSome && f.ret.isSome && f.params.all Param.isComplete

/-- Name and signature of a complete function. -/
def declared? (f : Function) : Option (Name × Signature) :=
  if f.isComplete then
    match f.name, f.signature? with
    | some name, some signature => some (name, signature)
    | _, _ => none
  else none

end Function

/-- Name and type of a complete declaration. -/
def Decl.declared? : Decl → Option (Name × Ty)
  | var v => v.declared?
  | function f => f.declared?.map fun (name, signature) => (name, .arrow signature)

structure Field where
  name : Option Name
  type : Option Ty
  span : Span
  offset : Option Int

/-- Name and type of a complete field. -/
def Field.declared? (f : Field) : Option (Name × Ty) :=
  match f.name, f.type with
  | some name, some type => some (name, type)
  | _, _ => none

structure Method where
  function : Function
  offset : Option Int

structure Class where
  name : Option Name
  superclass : Option Name
  fields : List Field
  methods : List Method
  span : Span
  entry : Option Entry
  superEntry : Option Entry

inductive Program where
  | letIn (classes : List Class) (decls : List Decl) (body : Expr) (span : Span)
  | expr (body : Expr) (span : Span)

namespace Program

def classes : Program → List Class
  | letIn classes .. => classes
  | expr .. => []

def decls : Program → List Decl
  | letIn _ decls .. => decls
  | expr .. => []

def body : Program → Expr
  | letIn _ _ body _ => body
  | expr body _ => body

def span : Program → Span
  | letIn _ _ _ span => span
  | expr _ span => span

end Program

end Classlet

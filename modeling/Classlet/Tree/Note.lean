import Classlet.Tree
/-!
# The annotations of a tree

`Program.notes` lists every annotation of a program, filled or not, with the names it belongs to: classes with
their members and method bodies, then declarations, then the body. A use is listed before the uses inside its
arguments.
-/

namespace Classlet

/-- The annotations of one node. -/
inductive Note where
  | cls (name : Option String) (entry superEntry : Option Entry)
  | field (name : Option String) (offset : Option Int)
  | method (name : Option String) (offset : Option Int)
  | ident (name : String) (target : Option Resolution)
  | call (callee : String) (target : Option Resolution)
  | methodCall (object : String) (receiver : Option Resolution) (method : String) (target : Option Entry)
  | new (cls : String) (target : Option Entry)
deriving DecidableEq

mutual
def Expr.notes : Expr → List Note
  | .int .. | .bool .. | .null _ => []
  | .ident name target => [.ident name.text target]
  | .call callee args _ target => .call callee.text target :: Expr.listNotes args
  | .methodCall object method args _ receiver target =>
    .methodCall object.text receiver method.text target :: Expr.listNotes args
  | .new cls args _ target => .new cls.text target :: Expr.listNotes args
  | .ite c t e _ => c.notes ++ t.notes ++ e.notes
  | .binary _ l r _ => l.notes ++ r.notes
  | .not e _ | .print e _ => e.notes

def Expr.listNotes : List Expr → List Note
  | [] => []
  | e :: es => e.notes ++ Expr.listNotes es
end

mutual
def Decl.notes : Decl → List Note
  | .var v => v.init.notes
  | .function f => f.notes

def Function.notes : Function → List Note
  | ⟨_, _, _, locals, body, _⟩ => Decl.listNotes locals ++ body.notes

def Decl.listNotes : List Decl → List Note
  | [] => []
  | d :: ds => d.notes ++ Decl.listNotes ds
end

def Field.note (f : Field) : Note := .field (f.name.map Name.text) f.offset

def Method.notes (m : Method) : List Note :=
  .method (m.function.name.map Name.text) m.offset :: m.function.notes

def Class.notes (c : Class) : List Note :=
  .cls (c.name.map Name.text) c.entry c.superEntry ::
    (c.fields.map Field.note ++ c.methods.flatMap Method.notes)

def Program.notes (p : Program) : List Note :=
  p.classes.flatMap Class.notes ++ Decl.listNotes p.decls ++ p.body.notes

end Classlet

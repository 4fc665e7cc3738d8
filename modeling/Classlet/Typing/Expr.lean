import Classlet.Hierarchy
import Classlet.Problem
import Classlet.Tree
/-!
# Types of expressions

`typeOf` computes the type of an annotated expression, or the first problem on the way. Operands and arguments
are looked at from left to right, and an expression is looked at after its parts.
-/

namespace Classlet

/-- The type of a variable, parameter or field. Names of functions, methods and classes are not values. -/
def Entry.valueType (entry : Entry) (name : Name) : Except Problem Ty :=
  match entry.type with
  | .arrow _ => .error ⟨.notAValue .function name.text, name.span⟩
  | .method _ => .error ⟨.notAValue .method name.text, name.span⟩
  | .cls .. => .error ⟨.notAValue .cls name.text, name.span⟩
  | type => .ok type

/-- The annotation of a use, which has to be there. -/
def annotated {α : Type} (name : Name) : Option α → Except Problem α
  | some a => .ok a
  | none => .error ⟨.unresolved name.text, name.span⟩

/-- The type of an operator's result, from the types of its operands. -/
def BinaryOp.resultType (h : Hierarchy) (op : BinaryOp) (left right : Ty) (span : Span) : Except Problem Ty :=
  let both (operand result : Ty) (what : String) : Except Problem Ty :=
    if h.isSubtype left operand && h.isSubtype right operand then .ok result
    else .error ⟨.typeMismatch ("non " ++ what ++ " operands for '" ++ op.text ++ "'"), span⟩
  match op.opClass with
  | .equality =>
    if h.isSubtype left right || h.isSubtype right left then .ok .bool
    else
      .error ⟨.typeMismatch
        ("incompatible types " ++ left.text ++ " and " ++ right.text ++ " in '" ++ op.text ++ "'"), span⟩
  | .arithmetic => both .int .int "integer"
  | .comparison => both .int .bool "integer"
  | .logical => both .bool .bool "boolean"

/-- The parameter and return types of what is called with `found` arguments. -/
def Entry.callee (entry : Entry) (name : String) (found : Nat) (span : Span) : Except Problem Signature :=
  match entry.type.callable? with
  | none => .error ⟨.notCallable name, span⟩
  | some s =>
    if s.params.length = found then .ok s
    else .error ⟨.wrongArgumentCount name s.params.length found, span⟩

/-- The types of the fields of a class constructed with `found` arguments. -/
def Entry.constructor (entry : Entry) (name : String) (found : Nat) (span : Span) : Except Problem (List Ty) :=
  match entry.type.members? with
  | none => .error ⟨.notAClass name, span⟩
  | some (fields, _) =>
    if fields.length = found then .ok fields
    else .error ⟨.wrongArgumentCount name fields.length found, span⟩

mutual
def Expr.typeOf (h : Hierarchy) : Expr → Except Problem Ty
  | .int .. => .ok .int
  | .bool .. => .ok .bool
  | .null _ => .ok .empty
  | .ident name target => do
    let r ← annotated name target
    r.entry.valueType name
  | .call callee args span target => do
    let r ← annotated callee target
    let s ← r.entry.callee callee.text args.length span
    Expr.checkArgs h callee.text 1 args s.params
    return s.ret
  | .methodCall object method args span receiver target => do
    let _ ← annotated object receiver
    let entry ← annotated method target
    let s ← entry.callee method.text args.length span
    Expr.checkArgs h method.text 1 args s.params
    return s.ret
  | .new cls args span target => do
    let entry ← annotated cls target
    let fields ← entry.constructor cls.text args.length span
    Expr.checkArgs h cls.text 1 args fields
    return .ref cls.text
  | .ite c t e span => do
    let condition ← c.typeOf h
    if h.isSubtype condition .bool then
      let thenType ← t.typeOf h
      let elseType ← e.typeOf h
      match h.lowestCommonAncestor? thenType elseType with
      | some type => return type
      | none => .error ⟨.noCommonType, span⟩
    else .error ⟨.typeMismatch "non boolean condition in if", c.span⟩
  | .binary op l r span => do
    let left ← l.typeOf h
    let right ← r.typeOf h
    op.resultType h left right span
  | .not e span => do
    let operand ← e.typeOf h
    if h.isSubtype operand .bool then return .bool
    else .error ⟨.typeMismatch ("non boolean operand for '" ++ notText ++ "'"), span⟩
  | .print e _ => e.typeOf h

/-- Checks arguments against parameter types, counting the arguments from `position`. -/
def Expr.checkArgs (h : Hierarchy) (callee : String) (position : Nat) :
    List Expr → List Ty → Except Problem Unit
  | [], _ => .ok ()
  | arg :: args, params => do
    match params with
    | [] => .ok ()
    | param :: params =>
      let type ← arg.typeOf h
      if h.isSubtype type param then Expr.checkArgs h callee (position + 1) args params
      else .error ⟨.wrongArgumentType callee position, arg.span⟩
end

end Classlet

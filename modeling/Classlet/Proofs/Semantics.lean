import Classlet.Tree
/-!
# What programs mean

A big-step evaluator on program trees, which looks at no annotation. Names are scoped lexically: a context
lists what is bound, innermost first, and a function remembers the part of it that starts with its own
binding, so it can call itself. Inside a method the members of the class that declares it are in scope, on
the object the method was called on; which method body runs is decided by the class of that object.

Only calls use up fuel. A program *yields* a value when some amount of fuel is enough (`Program.Yields`).
-/

namespace Classlet

inductive Value where
  | int (value : Word)
  | bool (value : Bool)
  | null
  /-- The object at this position of the store. -/
  | object (id : Nat)
deriving DecidableEq

/-- An object never changes once it is made. -/
structure Object where
  cls : String
  fields : List (String × Value)

/-- What evaluation adds to: the objects made so far and the values printed so far. -/
structure World where
  store : List Object
  printed : List Value

/-- Nothing made and nothing printed. -/
def World.initial : World := ⟨[], []⟩

/-- Why evaluation yields no value. -/
inductive Trouble where
  /-- A method is called on `null`. -/
  | nullReceiver
  | divisionByZero
  /-- The result of a source operator is not a word. -/
  | overflow (op : Arith)
  /-- `>=` has the least word on its right, which has no predecessor. -/
  | noPredecessor
  /-- The operation has no meaning for its operands. -/
  | stuck
  /-- The fuel is used up. -/
  | timeout
deriving DecidableEq

/-! ## Operators -/

namespace Value

/-- The word of a number. Booleans count as 1 and 0. -/
def number? : Value → Option Word
  | int w => some w
  | bool b => some (.ofBool b)
  | null | object _ => none

/-- Equality of numbers, or of references. -/
def equals? : Value → Value → Option Bool
  | null, null => some true
  | object i, object j => some (i = j)
  | null, object _ | object _, null => some false
  | a, b =>
    match a.number?, b.number? with
    | some x, some y => some (x = y)
    | _, _ => none

end Value

/-- The least word. -/
def Word.least : Word := ⟨-9223372036854775808, by decide, by decide⟩

def Arith.evaluate (op : Arith) (a b : Word) : Except Trouble Value :=
  if op = .div ∧ b.val = 0 then .error .divisionByZero
  else
    match op.apply a b with
    | .ok w => .ok (.int w)
    | .error _ => .error (.overflow op)

/-- An operator other than a connective on numbers. `guarded` says whether `>=` fails where its right
operand has no predecessor. -/
def BinaryOp.onNumbers (guarded : Bool) (a b : Word) : BinaryOp → Except Trouble Value
  | .arith op => op.evaluate a b
  | .lessEqual => .ok (.bool (a.val ≤ b.val))
  | .greaterEqual => if guarded ∧ b = Word.least then .error .noPredecessor else .ok (.bool (b.val ≤ a.val))
  | .equal | .logic _ => .error .stuck

/-- An operator that evaluates both operands. -/
def BinaryOp.evaluate (guarded : Bool) (op : BinaryOp) (a b : Value) : Except Trouble Value :=
  if op = .equal then
    match a.equals? b with
    | some r => .ok (.bool r)
    | none => .error .stuck
  else
    match a.number?, b.number? with
    | some x, some y => op.onNumbers guarded x y
    | _, _ => .error .stuck

/-! ## Classes -/

/-- The names of the complete fields that a class declares. -/
def Class.ownFields (c : Class) : List String := c.fields.filterMap (·.declared?.map (·.1.text))

/-- The complete method of that name that a class declares. -/
def Class.ownMethod? (c : Class) (method : String) : Option Function :=
  (c.methods.find? (·.function.declared?.any (·.1.text = method))).map (·.function)

def Class.isNamed (c : Class) (name : String) : Bool := c.name.any (·.text = name)

namespace Classes

/-! Classes are listed latest first, so a superclass comes after the class that extends it. -/

/-- Whether a class of that name is declared. -/
def declare (cs : List Class) (cls : String) : Bool := cs.any (·.isNamed cls)

/-- The names of a class's fields in the order of its constructor: the inherited ones, then those it
adds. -/
def fieldNames : List Class → String → List String
  | [], _ => []
  | c :: earlier, cls =>
    if c.isNamed cls then
      let inherited := match c.superclass with
        | some s => fieldNames earlier s.text
        | none => []
      inherited ++ c.ownFields.filter (· ∉ inherited)
    else fieldNames earlier cls

/-- The method of that name that objects of a class have, with the class that declares it: the class itself,
or its nearest ancestor that does. -/
def method? : List Class → String → String → Option (String × Function)
  | [], _, _ => none
  | c :: earlier, cls, method =>
    if c.isNamed cls then
      match c.ownMethod? method, c.superclass with
      | some f, _ => some (cls, f)
      | none, some s => method? earlier s.text method
      | none, none => none
    else method? earlier cls method

end Classes

/-! ## Contexts -/

/-- One step of a context. -/
inductive Binding where
  | value (name : String) (v : Value)
  | function (name : String) (f : Function)
  /-- The members of a class, on an object. -/
  | members (cls : String) (object : Nat)

/-- What a name stands for. -/
inductive Meaning where
  | value (v : Value)
  /-- A function and the context of its declaration, itself included. -/
  | function (f : Function) (context : List Binding)
  /-- A method of an object. -/
  | method (object : Nat)

/-- The innermost meaning of a name. -/
def meaning? (cs : List Class) (store : List Object) (name : String) : List Binding → Option Meaning
  | [] => none
  | .value x v :: rest => if x = name then some (.value v) else meaning? cs store name rest
  | .function x f :: rest =>
    if x = name then some (.function f (.function x f :: rest)) else meaning? cs store name rest
  | .members cls o :: rest =>
    if name ∈ Classes.fieldNames cs cls then (store[o]?.bind (·.fields.lookup name)).map .value
    else if (Classes.method? cs cls name).isSome then some (.method o)
    else meaning? cs store name rest

/-- The context inside a function, before its local declarations. -/
def bindParams? (context : List Binding) : List Param → List Value → Option (List Binding)
  | [], [] => some context
  | p :: ps, v :: vs =>
    match p.name with
    | some name => bindParams? (.value name.text v :: context) ps vs
    | none => none
  | _, _ => none

/-! ## Evaluation -/

/-- The classes of a program, latest first, and whether `>=` is guarded. -/
structure Setting where
  classes : List Class
  guarded : Bool

/-- What a call of a function does, given the context of its declaration and the arguments. -/
abbrev Invoke := Function → List Binding → List Value → World → Except Trouble (Value × World)

namespace Setting

/-- Calls a method of an object. -/
def dispatch (st : Setting) (invoke : Invoke) (object : Nat) (method : String) (args : List Value)
    (w : World) :
    Except Trouble (Value × World) :=
  match w.store[object]?.bind (fun o => Classes.method? st.classes o.cls method) with
  | some (cls, f) => invoke f [.members cls object] args w
  | none => .error .stuck

/-- Calls what a name stands for. -/
def call (st : Setting) (invoke : Invoke) (context : List Binding) (name : String) (args : List Value)
    (w : World) :
    Except Trouble (Value × World) :=
  match meaning? st.classes w.store name context with
  | some (.function f declared) => invoke f declared args w
  | some (.method object) => st.dispatch invoke object name args w
  | _ => .error .stuck

/-- Calls a method of the object that a name stands for. -/
def callMethod (st : Setting) (invoke : Invoke) (context : List Binding) (object method : String)
    (args : List Value) (w : World) : Except Trouble (Value × World) :=
  match meaning? st.classes w.store object context with
  | some (.value (.object o)) => st.dispatch invoke o method args w
  | some (.value .null) => .error .nullReceiver
  | _ => .error .stuck

/-- Makes an object. -/
def construct (st : Setting) (cls : String) (args : List Value) (w : World) :
    Except Trouble (Value × World) :=
  if Classes.declare st.classes cls ∧ args.length = (Classes.fieldNames st.classes cls).length then
    .ok (.object w.store.length,
      { w with store := w.store ++ [⟨cls, (Classes.fieldNames st.classes cls).zip args⟩] })
  else .error .stuck

end Setting

mutual
def Expr.eval (st : Setting) (invoke : Invoke) (context : List Binding) :
    Expr → World → Except Trouble (Value × World)
  | .int value _, w => .ok (.int value, w)
  | .bool value _, w => .ok (.bool value, w)
  | .null _, w => .ok (.null, w)
  | .ident name _, w =>
    match meaning? st.classes w.store name.text context with
    | some (.value v) => .ok (v, w)
    | _ => .error .stuck
  | .call callee args _ _, w => do
    let (vs, w) ← Expr.evalReversed st invoke context args w
    st.call invoke context callee.text vs w
  | .methodCall object method args _ _ _, w => do
    let (vs, w) ← Expr.evalReversed st invoke context args w
    st.callMethod invoke context object.text method.text vs w
  | .new cls args _ _, w => do
    let (vs, w) ← Expr.evalAll st invoke context args w
    st.construct cls.text vs w
  | .ite c t e _, w => do
    match ← c.eval st invoke context w with
    | (.bool true, w) => t.eval st invoke context w
    | (.bool false, w) => e.eval st invoke context w
    | _ => .error .stuck
  | .binary (.logic op) l r _, w => do
    match ← l.eval st invoke context w with
    | (.bool a, w) =>
      if a = op.decisive then return (.bool a, w)
      else
        match ← r.eval st invoke context w with
        | (.bool b, w) => return (.bool b, w)
        | _ => .error .stuck
    | _ => .error .stuck
  | .binary op l r _, w => do
    let (a, w) ← l.eval st invoke context w
    let (b, w) ← r.eval st invoke context w
    let v ← op.evaluate st.guarded a b
    return (v, w)
  | .not e _, w => do
    match ← e.eval st invoke context w with
    | (.bool b, w) => return (.bool !b, w)
    | _ => .error .stuck
  | .print e _, w => do
    let (v, w) ← e.eval st invoke context w
    return (v, { w with printed := w.printed ++ [v] })

/-- Evaluates expressions from the first to the last. -/
def Expr.evalAll (st : Setting) (invoke : Invoke) (context : List Binding) :
    List Expr → World → Except Trouble (List Value × World)
  | [], w => .ok ([], w)
  | e :: es, w => do
    let (v, w) ← e.eval st invoke context w
    let (vs, w) ← Expr.evalAll st invoke context es w
    return (v :: vs, w)

/-- Evaluates expressions from the last to the first. -/
def Expr.evalReversed (st : Setting) (invoke : Invoke) (context : List Binding) :
    List Expr → World → Except Trouble (List Value × World)
  | [], w => .ok ([], w)
  | e :: es, w => do
    let (vs, w) ← Expr.evalReversed st invoke context es w
    let (v, w) ← e.eval st invoke context w
    return (v :: vs, w)
end

/-- Evaluates a declaration, which adds to the context if it is complete. -/
def Decl.eval (st : Setting) (invoke : Invoke) (context : List Binding) (w : World) :
    Decl → Except Trouble (List Binding × World)
  | .var v =>
    match v.declared? with
    | some (name, _) => do
      let (a, w) ← v.init.eval st invoke context w
      return (.value name.text a :: context, w)
    | none => .ok (context, w)
  | .function f =>
    match f.declared? with
    | some (name, _) => .ok (.function name.text f :: context, w)
    | none => .ok (context, w)

def Decl.evalAll (st : Setting) (invoke : Invoke) (context : List Binding) (w : World) :
    List Decl → Except Trouble (List Binding × World)
  | [] => .ok (context, w)
  | d :: ds => do
    let (context, w) ← d.eval st invoke context w
    Decl.evalAll st invoke context w ds

/-- Calls a function with enough fuel for calls nested `n` deep. -/
def Function.apply (st : Setting) : Nat → Invoke
  | 0, _, _, _, _ => .error .timeout
  | n + 1, f, context, args, w =>
    match bindParams? context f.params args with
    | some inner => do
      let (inner, w) ← Decl.evalAll st (Function.apply st n) inner w f.locals
      f.body.eval st (Function.apply st n) inner w
    | none => .error .stuck

namespace Program

/-- Evaluates a program with enough fuel for calls nested `n` deep. -/
def eval (guarded : Bool) (n : Nat) (p : Program) : Except Trouble (Value × World) := do
  let st : Setting := ⟨p.classes.reverse, guarded⟩
  let (context, w) ← Decl.evalAll st (Function.apply st n) [] .initial p.decls
  p.body.eval st (Function.apply st n) context w

/-- The program's value is `v`, and its objects and output are those of `w`. -/
def Yields (p : Program) (v : Value) (w : World) : Prop := ∃ n, p.eval false n = .ok (v, w)

end Program

end Classlet

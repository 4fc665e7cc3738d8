import Classlet.Proofs.Semantics
/-!
# Guarded evaluation

With its guard, `>=` fails where its right operand is the least word. Nothing else depends on the guard, so
a guarded evaluation ends as an unguarded one does, or for this reason (`Program.eval_agrees`).
-/

namespace Classlet

/-- The guarded outcome is the unguarded one, unless the guard failed. -/
def Agrees {α : Type} (guarded unguarded : Except Trouble α) : Prop :=
  guarded = unguarded ∨ guarded = .error .noPredecessor

namespace Agrees

variable {α β : Type} {x y : Except Trouble α} {f g : α → Except Trouble β}

theorem refl (x : Except Trouble α) : Agrees x x := .inl rfl

theorem bind (h : Agrees x y) (hf : ∀ a, Agrees (f a) (g a)) : Agrees (x >>= f) (y >>= g) := by
  rcases h with rfl | rfl
  · cases x with
    | error t => exact .refl _
    | ok a => exact hf a
  · exact .inr rfl

end Agrees

theorem BinaryOp.onNumbers_agrees (op : BinaryOp) (a b : Word) :
    Agrees (op.onNumbers true a b) (op.onNumbers false a b) := by
  cases op with
  | greaterEqual =>
    by_cases hb : b = Word.least
    · exact .inr (by simp [BinaryOp.onNumbers, hb])
    · exact .inl (by simp [BinaryOp.onNumbers, hb])
  | _ => exact .refl _

theorem BinaryOp.evaluate_agrees (op : BinaryOp) (a b : Value) :
    Agrees (op.evaluate true a b) (op.evaluate false a b) := by
  unfold BinaryOp.evaluate
  split
  · exact .refl _
  · split
    · exact op.onNumbers_agrees _ _
    · exact .refl _

/-- Calls agree, whatever is called. -/
def Invoke.Agree (invoke invoke' : Invoke) : Prop :=
  ∀ f context args w, Agrees (invoke f context args w) (invoke' f context args w)

namespace Setting

variable {cs : List Class} {invoke invoke' : Invoke} (h : invoke.Agree invoke')
include h

theorem dispatch_agrees (object : Nat) (method : String) (args : List Value) (w : World) :
    Agrees (dispatch ⟨cs, true⟩ invoke object method args w)
      (dispatch ⟨cs, false⟩ invoke' object method args w) := by
  simp only [dispatch]
  split
  · exact h _ _ _ _
  · exact .refl _

theorem call_agrees (context : List Binding) (name : String) (args : List Value) (w : World) :
    Agrees (call ⟨cs, true⟩ invoke context name args w) (call ⟨cs, false⟩ invoke' context name args w) := by
  simp only [call]
  split
  · exact h _ _ _ _
  · exact dispatch_agrees h _ _ _ _
  · exact .refl _

theorem callMethod_agrees (context : List Binding) (object method : String) (args : List Value)
    (w : World) :
    Agrees (callMethod ⟨cs, true⟩ invoke context object method args w)
      (callMethod ⟨cs, false⟩ invoke' context object method args w) := by
  simp only [callMethod]
  split
  · exact dispatch_agrees h _ _ _ _
  · exact .refl _
  · exact .refl _

end Setting

section Evaluation
variable {cs : List Class} {invoke invoke' : Invoke}

mutual
theorem Expr.eval_agrees (h : invoke.Agree invoke') (context : List Binding) :
    ∀ (e : Expr) (w : World), Agrees (e.eval ⟨cs, true⟩ invoke context w)
      (e.eval ⟨cs, false⟩ invoke' context w)
  | .int .., _ | .bool .., _ | .null _, _ | .ident .., _ => .refl _
  | .call callee args _ _, w => by
    simp only [Expr.eval]
    exact (Expr.evalReversed_agrees h context args w).bind fun _ => Setting.call_agrees h _ _ _ _
  | .methodCall object method args _ _ _, w => by
    simp only [Expr.eval]
    exact (Expr.evalReversed_agrees h context args w).bind fun _ => Setting.callMethod_agrees h _ _ _ _ _
  | .new cls args _ _, w => by
    simp only [Expr.eval]
    exact (Expr.evalAll_agrees h context args w).bind fun _ => .refl _
  | .ite c t e _, w => by
    simp only [Expr.eval]
    refine (c.eval_agrees h context w).bind fun a => ?_
    split
    · exact t.eval_agrees h context _
    · exact e.eval_agrees h context _
    · exact .refl _
  | .binary op l r _, w => by
    have hl := l.eval_agrees h context w
    have hr := r.eval_agrees h context
    cases op with
    | logic op =>
      simp only [Expr.eval]
      refine hl.bind fun a => ?_
      split
      · split
        · exact .refl _
        · exact (hr _).bind fun _ => .refl _
      · exact .refl _
    | arith _ | equal | lessEqual | greaterEqual =>
      simp only [Expr.eval]
      exact hl.bind fun _ => (hr _).bind fun _ => (BinaryOp.evaluate_agrees _ _ _).bind fun _ => .refl _
  | .not e _, w => by
    simp only [Expr.eval]
    exact (e.eval_agrees h context w).bind fun _ => .refl _
  | .print e _, w => by
    simp only [Expr.eval]
    exact (e.eval_agrees h context w).bind fun _ => .refl _

theorem Expr.evalAll_agrees (h : invoke.Agree invoke') (context : List Binding) :
    ∀ (es : List Expr) (w : World),
      Agrees (Expr.evalAll ⟨cs, true⟩ invoke context es w) (Expr.evalAll ⟨cs, false⟩ invoke' context es w)
  | [], _ => .refl _
  | e :: es, w => by
    simp only [Expr.evalAll]
    exact (e.eval_agrees h context w).bind fun _ =>
      (Expr.evalAll_agrees h context es _).bind fun _ => .refl _

theorem Expr.evalReversed_agrees (h : invoke.Agree invoke') (context : List Binding) :
    ∀ (es : List Expr) (w : World),
      Agrees (Expr.evalReversed ⟨cs, true⟩ invoke context es w)
        (Expr.evalReversed ⟨cs, false⟩ invoke' context es w)
  | [], _ => .refl _
  | e :: es, w => by
    simp only [Expr.evalReversed]
    exact (Expr.evalReversed_agrees h context es w).bind fun _ =>
      (e.eval_agrees h context _).bind fun _ => .refl _
end

theorem Decl.eval_agrees (h : invoke.Agree invoke') (context : List Binding) (w : World) (d : Decl) :
    Agrees (d.eval ⟨cs, true⟩ invoke context w) (d.eval ⟨cs, false⟩ invoke' context w) := by
  cases d with
  | var v =>
    simp only [Decl.eval]
    split
    · exact (v.init.eval_agrees h context w).bind fun _ => .refl _
    · exact .refl _
  | function f => exact .refl _

theorem Decl.evalAll_agrees (h : invoke.Agree invoke') (ds : List Decl) (context : List Binding)
    (w : World) :
    Agrees (Decl.evalAll ⟨cs, true⟩ invoke context w ds)
      (Decl.evalAll ⟨cs, false⟩ invoke' context w ds) := by
  induction ds generalizing context w with
  | nil => exact .refl _
  | cons d ds ih => exact (d.eval_agrees h context w).bind fun _ => ih _ _

end Evaluation

theorem Function.apply_agrees (cs : List Class) (n : Nat) :
    Invoke.Agree (Function.apply ⟨cs, true⟩ n) (Function.apply ⟨cs, false⟩ n) := by
  induction n with
  | zero => exact fun _ _ _ _ => .refl _
  | succ n ih =>
    intro f context args w
    simp only [Function.apply]
    split
    · exact (Decl.evalAll_agrees ih _ _ _).bind fun _ => f.body.eval_agrees ih _ _
    · exact .refl _

theorem Program.eval_agrees (n : Nat) (p : Program) : Agrees (p.eval true n) (p.eval false n) :=
  (Decl.evalAll_agrees (Function.apply_agrees _ n) _ _ _).bind fun _ =>
    p.body.eval_agrees (Function.apply_agrees _ n) _ _

end Classlet

import Classlet.Proofs.Headroom
import Classlet.Proofs.Preservation
/-!
# Operators

Expressions of literals, operators, conditionals and `print` need neither names nor objects. Their code
needs no more memory than the expression has nodes (`Expr.IsOperation.code_fits`) and runs straight to its
end, so there is exactly one way in which the compiled program ends: as evaluation does
(`Compiler.compile_operation`).
-/

namespace Classlet

open Machine Code

/-- Built from literals, operators and conditionals and, where `output` allows it, `print`. -/
inductive Expr.IsOperation (output : Bool) : Expr → Prop
  | int (value : Word) (span : Span) : IsOperation output (.int value span)
  | bool (value : Bool) (span : Span) : IsOperation output (.bool value span)
  | ite {c t e : Expr} (span : Span) :
    IsOperation output c → IsOperation output t → IsOperation output e →
    IsOperation output (.ite c t e span)
  | binary (op : BinaryOp) {l r : Expr} (span : Span) :
    IsOperation output l → IsOperation output r → IsOperation output (.binary op l r span)
  | not {e : Expr} (span : Span) : IsOperation output e → IsOperation output (.not e span)
  | print {e : Expr} (span : Span) : output = true → IsOperation output e →
      IsOperation output (.print e span)

/-! ## The code of operators -/

namespace Code

/-- Code of an expression with that many nodes: what it consists of, how long it is, and how high the stack
gets on the way. -/
structure Fits (nodes : Nat) (c : Code) : Prop where
  computes : ∀ i ∈ c, i.computes = true
  length : c.length < 9 * nodes
  peak {H : Nat → Nat} {h : Nat} {s : Option Nat} : Rises H c [] (some h) s →
    s = some (h + 1) ∧ peak H c (some h) ≤ h + nodes

section Shapes
variable {H : Nat → Nat} {h l l' : Nat} {s : Option Nat} {i : Instruction}

/-- After a test, the label that it goes to has the height that is left. -/
theorem Rises.of_test {b : Bool} (hr : Rises H [pushBool b, .branchEqual (.branch l)] [] (some (h + 1)) s) :
    H l = h ∧ s = some h ∧ Code.peak H [pushBool b, .branchEqual (.branch l)] (some (h + 1)) = h + 2 := by
  obtain ⟨n, hn, hs⟩ := hr.tail.jump rfl
  obtain rfl := Label.branch.inj hn
  have hheight : h + 1 + 1 = H l + 2 := Option.some.inj hs
  refine ⟨by omega, hr.last_eq, ?_⟩
  simp only [Code.peak, after, pushBool, Instruction.pops, Instruction.pushes, Option.map_some,
    Option.getD_some]
  omega

/-- A test and the choice between two values that depends on it. -/
theorem Rises.of_select {x y : Bool} (hi : i = .branchEqual (.branch l) ∨ i = .branchLessEqual (.branch l))
    (hr : Rises H (i :: Code.select (.branch l) (.branch l') x y) [] (some (h + 2)) s) :
    s = some (h + 1) ∧ Code.peak H (i :: Code.select (.branch l) (.branch l') x y) (some (h + 2)) =
      h + 2 := by
  have hjump : i.jump? = some (.branch l) := by rcases hi with rfl | rfl <;> rfl
  have hpops : i.pops = 2 := by rcases hi with rfl | rfl <;> rfl
  have hnext : after H i (some (h + 2)) = some h := by rcases hi with rfl | rfl <;> rfl
  have hl : H l = h := by
    obtain ⟨n, hn, hs⟩ := hr.jump hjump
    obtain rfl := Label.branch.inj hn
    have hheight := Option.some.inj hs
    omega
  have hrest := hr.tail
  rw [hnext] at hrest
  have hl' : H l' = h + 1 := by
    obtain ⟨n, hn, hs⟩ := hrest.tail.jump rfl
    obtain rfl := Label.branch.inj hn
    exact (Option.some.inj hs).symm
  refine ⟨hrest.last_eq.trans (congrArg some hl'), ?_⟩
  rw [Code.peak, hnext]
  simp only [Code.peak, Code.select, after, pushBool, Instruction.pops, Instruction.pushes, Option.map_some,
    Option.getD_some, Option.getD_none, hl, hl']
  omega

/-- A value is compared with another one, and what is left depends on the result. -/
theorem Rises.of_choice {b x y : Bool}
    (hr : Rises H (pushBool b :: .branchEqual (.branch l) :: Code.select (.branch l) (.branch l') x y) []
      (some (h + 1)) s) :
    s = some (h + 1) ∧
      Code.peak H (pushBool b :: .branchEqual (.branch l) :: Code.select (.branch l) (.branch l') x y)
        (some (h + 1)) = h + 2 := by
  obtain ⟨hlast, htop⟩ := Rises.of_select (h := h) (.inl rfl) hr.tail
  have hpush : after H (pushBool b) (some (h + 1)) = some (h + 2) := rfl
  refine ⟨hlast, ?_⟩
  rw [Code.peak, hpush, htop, Option.getD_some]
  omega

end Shapes

namespace Fits
variable {j k m : Nat} {a b c : Code}

theorem literal (w : Word) : Fits 1 [.push w] where
  computes := by simp [Instruction.computes]
  length := by simp
  peak hr := ⟨hr.last_eq, by simp [Code.peak, after, Instruction.pops, Instruction.pushes]⟩

theorem arith (ha : Fits j a) (hb : Fits k b) (op : Arith) : Fits (1 + j + k) (a ++ b ++ [.arith op]) where
  computes := by
    simp only [List.forall_mem_append]
    exact ⟨⟨ha.computes, hb.computes⟩, by simp [Instruction.computes]⟩
  length := by
    have hlength := ha.length
    have hlength' := hb.length
    simp only [List.length_append, List.length_singleton]
    omega
  peak hr := by
    have hlength := ha.length
    obtain ⟨_, hr, htail, hpeak₁⟩ := hr.split
    obtain ⟨_, hra, hrb, hpeak₂⟩ := hr.split
    obtain ⟨rfl, hpa⟩ := ha.peak hra
    obtain ⟨rfl, hpb⟩ := hb.peak hrb
    refine ⟨htail.last_eq, ?_⟩
    simp only [Code.peak, after, Instruction.pops, Instruction.pushes, Option.map_some,
      Option.getD_some] at hpeak₁
    omega

/-- Both operands are compared, maybe after one was taken from the second. -/
theorem compare {i : Instruction} (ha : Fits j a) (hb : Fits k b) (l l' : Nat)
    (hc : c = [] ∨ c = [.push (.ofInt 1), .arith .sub])
    (hi : i = .branchEqual (.branch l) ∨ i = .branchLessEqual (.branch l)) (x y : Bool) :
    Fits (1 + j + k) (a ++ b ++ (c ++ i :: select (.branch l) (.branch l') x y)) where
  computes := by
    simp only [List.forall_mem_append, List.forall_mem_cons]
    refine ⟨⟨ha.computes, hb.computes⟩, ?_, ?_, by simp [select, pushBool, Instruction.computes]⟩
    · rcases hc with rfl | rfl <;> simp [Instruction.computes]
    · rcases hi with rfl | rfl <;> rfl
  length := by
    have hlength := ha.length
    have hlength' := hb.length
    have hbetween : c.length ≤ 2 := by rcases hc with rfl | rfl <;> simp
    simp only [List.length_append, List.length_cons, select, List.length_nil]
    omega
  peak {H h s} hr := by
    have hlength := ha.length
    have hlength' := hb.length
    obtain ⟨_, hr, hrest, hpeak₁⟩ := hr.split
    obtain ⟨_, hra, hrb, hpeak₂⟩ := hr.split
    obtain ⟨rfl, hpa⟩ := ha.peak hra
    obtain ⟨rfl, hpb⟩ := hb.peak hrb
    obtain ⟨_, hrc, htail, hpeak₃⟩ := hrest.split
    have hpc : Code.peak H c (some (h + 1 + 1)) ≤ h + 3 := by
      rcases hc with rfl | rfl
      · exact Nat.le_succ _
      · simp only [Code.peak, after, Instruction.pops, Instruction.pushes, Option.map_some,
          Option.getD_some]
        omega
    have hsame : c.foldl (fun s i => after H i s) (some (h + 1 + 1)) = some (h + 2) := by
      rcases hc with rfl | rfl <;> rfl
    obtain rfl := hrc.last_eq.trans hsame
    obtain ⟨hlast, htop⟩ := htail.of_select hi
    exact ⟨hlast, by omega⟩

/-- The second operand is tested only if the first one does not decide. -/
theorem logic (ha : Fits j a) (hb : Fits k b) (l l' : Nat) (x y z : Bool) :
    Fits (1 + j + k) (a ++ [pushBool x, .branchEqual (.branch l)] ++
      (b ++ pushBool x :: .branchEqual (.branch l) :: select (.branch l) (.branch l') y z)) where
  computes := by
    simp only [List.forall_mem_append]
    refine ⟨⟨ha.computes, ?_⟩, hb.computes, ?_⟩
    all_goals simp [select, pushBool, Instruction.computes]
  length := by
    have hlength := ha.length
    have hlength' := hb.length
    simp only [List.length_append, List.length_cons, select, List.length_nil]
    omega
  peak {H h s} hr := by
    have hlength := ha.length
    have hlength' := hb.length
    obtain ⟨_, hr, hrest, hpeak₁⟩ := hr.split
    obtain ⟨_, hra, htest, hpeak₂⟩ := hr.split
    obtain ⟨rfl, hpa⟩ := ha.peak hra
    obtain ⟨-, rfl, htop⟩ := htest.of_test
    obtain ⟨_, hrb, hselect, hpeak₃⟩ := hrest.split
    obtain ⟨rfl, hpb⟩ := hb.peak hrb
    obtain ⟨hlast, htop'⟩ := hselect.of_choice
    exact ⟨hlast, by omega⟩

theorem negation (ha : Fits j a) (n : Nat) : Fits (1 + j) (negation a n) where
  computes := by
    simp only [Code.negation, List.forall_mem_append]
    refine ⟨⟨ha.computes, ?_⟩, ?_⟩
    all_goals simp [select, pushBool, Instruction.computes]
  length := by
    have hlength := ha.length
    simp only [Code.negation, List.length_append, List.length_cons, select, List.length_nil]
    omega
  peak {H h s} hr := by
    have hlength := ha.length
    rw [Code.negation, List.append_assoc, List.cons_append, List.cons_append, List.nil_append] at hr ⊢
    obtain ⟨_, hra, hchoice, hpeak⟩ := hr.split
    obtain ⟨rfl, hpa⟩ := ha.peak hra
    obtain ⟨hlast, htop⟩ := hchoice.of_choice
    exact ⟨hlast, by omega⟩

/-- Only one of the branches is executed, and both start where the condition did. -/
theorem conditional (hc : Fits j c) (ha : Fits k a) (hb : Fits m b) (n : Nat) :
    Fits (1 + j + k + m) (conditional c a b n) where
  computes := by
    simp only [Code.conditional, List.forall_mem_append]
    refine ⟨⟨⟨⟨⟨hc.computes, ?_⟩, hb.computes⟩, ?_⟩, ha.computes⟩, ?_⟩
    all_goals simp [pushBool, Instruction.computes]
  length := by
    have hlength := hc.length
    have hlength' := ha.length
    have hlength'' := hb.length
    simp only [Code.conditional, List.length_append, List.length_cons, List.length_nil]
    omega
  peak {H h s} hr := by
    have hlength := ha.length
    have hlength' := hb.length
    obtain ⟨_, hr, hend, hpeak₁⟩ := hr.split
    obtain ⟨_, hr, hra, hpeak₂⟩ := hr.split
    obtain ⟨_, hr, hjump, hpeak₃⟩ := hr.split
    obtain ⟨_, hr, hrb, hpeak₄⟩ := hr.split
    obtain ⟨_, hrc, htest, hpeak₅⟩ := hr.split
    obtain ⟨rfl, hpc⟩ := hc.peak hrc
    obtain ⟨hn, rfl, htop⟩ := htest.of_test
    obtain ⟨rfl, hpb⟩ := hb.peak hrb
    -- the then branch starts at its label, as high as the else branch
    obtain rfl := hjump.last_eq.trans (congrArg some hn)
    obtain ⟨rfl, hpa⟩ := ha.peak hra
    obtain ⟨l, hl, hs⟩ := hjump.jump rfl
    obtain rfl := Label.branch.inj hl
    have hlast : H (n + 1) = h + 1 := (Option.some.inj hs).symm
    refine ⟨hend.last_eq.trans (congrArg some hlast), ?_⟩
    rw [Code.conditional, hpeak₁, hpeak₂, hpeak₃, hpeak₄, hpeak₅, htop]
    simp only [Code.peak, after, hn, hlast, Option.getD_some, Option.getD_none, Nat.max_le]
    omega

theorem print (ha : Fits j a) : Fits (1 + j) (a ++ [.print]) where
  computes := by
    simp only [List.forall_mem_append]
    exact ⟨ha.computes, by simp [Instruction.computes]⟩
  length := by
    have hlength := ha.length
    simp only [List.length_append, List.length_singleton]
    omega
  peak hr := by
    obtain ⟨_, hra, htail, hpeak⟩ := hr.split
    obtain ⟨rfl, hpa⟩ := ha.peak hra
    refine ⟨htail.last_eq, ?_⟩
    simp only [Code.peak, after, Instruction.pops, Instruction.pushes, Option.map_some,
      Option.getD_some] at hpeak
    omega

end Fits

end Code

theorem BinaryOp.code_fits (op : BinaryOp) {j k : Nat} {left right : Code} (hl : left.Fits j)
    (hr : right.Fits k) (n : Nat) :
    (op.code left right n).Fits (1 + j + k) := by
  cases op with
  | arith op => exact hl.arith hr op
  | equal =>
    have hfits := hl.compare hr n (n + 1) (.inl rfl) (.inl rfl) false true
    simpa [BinaryOp.code] using hfits
  | lessEqual =>
    have hfits := hl.compare hr n (n + 1) (.inl rfl) (.inr rfl) false true
    simpa [BinaryOp.code] using hfits
  | greaterEqual =>
    have hfits := hl.compare hr n (n + 1) (.inr rfl) (.inr rfl) true false
    simpa [BinaryOp.code] using hfits
  | logic op =>
    have hfits := hl.logic hr n (n + 1) op.decisive (!op.decisive) op.decisive
    simpa [BinaryOp.code] using hfits

theorem Expr.IsOperation.code_fits {output : Bool} {e : Expr} (he : e.IsOperation output)
    (memory : Word) (n : Nat) :
    ∃ c n', e.code memory n = .ok (c, n') ∧ c.Fits e.nodes := by
  induction he generalizing n with
  | int value span => exact ⟨_, _, rfl, .literal value⟩
  | bool value span => exact ⟨_, _, rfl, .literal (.ofBool value)⟩
  | ite span _ _ _ ihc iht ihe =>
    obtain ⟨cond, n₁, hc, hfc⟩ := ihc (n + 2)
    obtain ⟨elseCode, n₂, he, hfe⟩ := ihe n₁
    obtain ⟨thenCode, n₃, ht, hft⟩ := iht n₂
    refine ⟨_, n₃, ?_, hfc.conditional hft hfe n⟩
    simp only [Expr.code, hc, he, ht, ok_bind]
    rfl
  | binary op span _ _ ihl ihr =>
    obtain ⟨left, n₁, hl, hfl⟩ := ihl n
    obtain ⟨right, n₂, hr, hfr⟩ := ihr (n₁ + op.branches)
    refine ⟨_, n₂, ?_, op.code_fits hfl hfr n₁⟩
    simp only [Expr.code, hl, hr, ok_bind]
    rfl
  | not span _ ih =>
    obtain ⟨operand, n₁, he, hf⟩ := ih (n + 2)
    refine ⟨_, n₁, ?_, hf.negation n⟩
    simp only [Expr.code, he, ok_bind]
    rfl
  | print span _ _ ih =>
    obtain ⟨value, n₁, he, hf⟩ := ih n
    refine ⟨_, n₁, ?_, hf.print⟩
    simp only [Expr.code, he, ok_bind]
    rfl

/-! ## What operators mean -/

/-- The expression uses no name, so it stays as it is. -/
structure Expr.IsNameless (e : Expr) : Prop where
  annotate (env : Env) : e.annotate env = e
  nameProblems (env : Env) : e.nameProblems env = []
  notes : e.notes = []
  arities : e.arities = []

theorem Expr.IsOperation.isNameless {output : Bool} {e : Expr} (he : e.IsOperation output) :
    e.IsNameless := by
  induction he with
  | int | bool => exact ⟨fun _ => rfl, fun _ => rfl, rfl, rfl⟩
  | ite span _ _ _ ihc iht ihe =>
    constructor
    · intro env
      rw [Expr.annotate, ihc.annotate, iht.annotate, ihe.annotate]
    · intro env
      rw [Expr.nameProblems, ihc.nameProblems, iht.nameProblems, ihe.nameProblems]
      rfl
    · rw [Expr.notes, ihc.notes, iht.notes, ihe.notes]
      rfl
    · rw [Expr.arities, ihc.arities, iht.arities, ihe.arities]
      rfl
  | binary op span _ _ ihl ihr =>
    constructor
    · intro env
      rw [Expr.annotate, ihl.annotate, ihr.annotate]
    · intro env
      rw [Expr.nameProblems, ihl.nameProblems, ihr.nameProblems]
      rfl
    · rw [Expr.notes, ihl.notes, ihr.notes]
      rfl
    · rw [Expr.arities, ihl.arities, ihr.arities]
      rfl
  | not span _ ih | print span _ _ ih =>
    constructor
    · intro env
      rw [Expr.annotate, ih.annotate]
    · intro env
      rw [Expr.nameProblems, ih.nameProblems]
    · rw [Expr.notes, ih.notes]
    · rw [Expr.arities, ih.arities]

/-- From `w` to `w'` numbers were printed, none if there is no output, and nothing else happened. -/
def World.Prints (output : Bool) (w w' : World) : Prop :=
  ∃ vs, w' = { w with printed := w.printed ++ vs } ∧ (∀ v ∈ vs, v.number?.isSome = true) ∧
    (output = false → vs = [])

section Evaluation
variable {output : Bool} {w w' w'' : World}

theorem World.Prints.refl (w : World) : Prints output w w :=
  ⟨[], by rw [List.append_nil], by simp, fun _ => rfl⟩

theorem World.Prints.trans (h : Prints output w w') (h' : Prints output w' w'') : Prints output w w'' := by
  obtain ⟨vs, rfl, hvs, hnone⟩ := h
  obtain ⟨vs', rfl, hvs', hnone'⟩ := h'
  refine ⟨vs ++ vs', by rw [List.append_assoc], List.forall_mem_append.2 ⟨hvs, hvs'⟩, fun houtput => ?_⟩
  rw [hnone houtput, hnone' houtput]
  rfl

/-- The outcomes that operators can have from `w` on. -/
def Operates (output : Bool) (w : World) : Except Trouble (Value × World) → Prop
  | .ok (v, w') => v.number?.isSome = true ∧ w.Prints output w'
  | .error t => t ≠ .nullReceiver ∧ t ≠ .timeout

theorem operates_stuck : Operates output w (.error .stuck) := ⟨by simp, by simp⟩

theorem Operates.bind {r : Except Trouble (Value × World)}
    {f : Value × World → Except Trouble (Value × World)} (h : Operates output w r)
    (hf : ∀ v w', v.number?.isSome = true → Operates output w' (f (v, w'))) :
    Operates output w (r >>= f) := by
  cases r with
  | error t => exact h
  | ok vw =>
    obtain ⟨v, w'⟩ := vw
    have hnext := hf v w' h.1
    rw [ok_bind]
    generalize f (v, w') = r' at hnext ⊢
    cases r' with
    | error t => exact hnext
    | ok vw' => exact ⟨hnext.1, h.2.trans hnext.2⟩

theorem BinaryOp.evaluate_operates (op : BinaryOp) (guarded : Bool) (a b : Value) (w : World) :
    Operates output w (op.evaluate guarded a b >>= fun v => pure (v, w)) := by
  have hok (v : Value) (hv : v.number?.isSome = true) : Operates output w (.ok (v, w)) := ⟨hv, .refl w⟩
  unfold BinaryOp.evaluate
  split
  · split
    · exact hok _ rfl
    · exact operates_stuck
  · split
    · cases op with
      | arith op =>
        simp only [BinaryOp.onNumbers, Arith.evaluate]
        split
        · exact ⟨by simp, by simp⟩
        · split
          · exact hok _ rfl
          · exact ⟨by simp, by simp⟩
      | lessEqual => exact hok _ rfl
      | greaterEqual =>
        simp only [BinaryOp.onNumbers]
        split
        · exact ⟨by simp, by simp⟩
        · exact hok _ rfl
      | equal | logic _ => exact operates_stuck
    · exact operates_stuck

theorem Expr.IsOperation.eval_operates {e : Expr} (he : e.IsOperation output) (st : Setting)
    (invoke : Invoke) (context : List Binding) (w : World) :
    Operates output w (e.eval st invoke context w) := by
  induction he generalizing w with
  | int value span | bool value span => exact ⟨rfl, .refl w⟩
  | ite span _ _ _ ihc iht ihe =>
    rw [Expr.eval]
    refine (ihc w).bind fun v w' _ => ?_
    cases v with
    | bool b =>
      cases b with
      | true => exact iht w'
      | false => exact ihe w'
    | int _ | null | object _ => exact operates_stuck
  | binary op span _ _ ihl ihr =>
    cases op with
    | logic op =>
      rw [Expr.eval]
      refine (ihl w).bind fun v w' _ => ?_
      cases v with
      | bool b =>
        simp only
        split
        · exact ⟨rfl, .refl w'⟩
        · refine (ihr w').bind fun v w'' _ => ?_
          cases v with
          | bool b => exact ⟨rfl, .refl w''⟩
          | int _ | null | object _ => exact operates_stuck
      | int _ | null | object _ => exact operates_stuck
    | arith _ | equal | lessEqual | greaterEqual =>
      rw [Expr.eval]
      · exact (ihl w).bind fun a w' _ => (ihr w').bind fun b w'' _ => BinaryOp.evaluate_operates _ _ a b w''
      · simp
  | not span _ ih =>
    rw [Expr.eval]
    refine (ih w).bind fun v w' _ => ?_
    cases v with
    | bool b => exact ⟨rfl, .refl w'⟩
    | int _ | null | object _ => exact operates_stuck
  | print span houtput _ ih =>
    rw [Expr.eval]
    refine (ih w).bind fun v w' hv => ⟨hv, [v], rfl, by simpa using hv, ?_⟩
    rw [houtput]
    simp

end Evaluation

/-! ## Compiled operators -/

/-- The machine stops as an outcome that operators can have: it halts with the numbers that were printed and
the number of the value, which is 1 or 0 if the type is that of booleans, or the same operation fails. -/
def Machine.Stop.Reports (stop : Stop) (t : Ty) : Except Trouble (Value × World) → Prop
  | .ok (v, w) => ∃ r ps, v.number? = some r ∧ List.Forall₂ (·.number? = some ·) w.printed ps ∧
      stop = .halted ps (some r) ∧ (t = .bool → r.val = 1 ∨ r.val = 0)
  | .error .divisionByZero => ∃ ip, stop = .fault (.divisionByZero ip)
  | .error (.overflow op) => stop = .abort (.overflow op)
  | .error _ => False

theorem Value.word?_eq_number? {v : Value} {start : Nat} {store : List Object} {x : Word}
    (hv : v.number?.isSome = true) (hx : v.word? start store = some x) : v.number? = some x := by
  obtain ⟨y, hy⟩ := Option.isSome_iff_exists.1 hv
  rw [hy, ← hx, word?_of_number hy]

theorem Value.numbers_of_words {vs : List Value} {xs : List Word} {start : Nat} {store : List Object}
    (h : List.Forall₂ (fun v x => v.word? start store = some x) vs xs)
    (hvs : ∀ v ∈ vs, v.number?.isSome = true) :
    List.Forall₂ (·.number? = some ·) vs xs := by
  induction h with
  | nil => exact .nil
  | cons hx _ ih =>
    obtain ⟨hv, hvs⟩ := List.forall_mem_cons.1 hvs
    exact .cons (word?_eq_number? hv hx) (ih hvs)

/-- Numbers are shown as they are. -/
theorem Linkage.Finishes.reports {L : Linkage} {t : Ty} {v : Value} {w : World} {c : Snapshot}
    (h : L.Finishes t v w c) (hv : v.number?.isSome = true)
    (hw : ∀ v ∈ w.printed, v.number?.isSome = true) :
    (Stop.halted c.printed c.stack.head?).Reports t (.ok (v, w)) := by
  obtain ⟨x, σ, hstack, hx⟩ := h.top
  refine ⟨x, c.printed, Value.word?_eq_number? hv hx,
    Value.numbers_of_words h.represents.printed hw, by rw [hstack]; rfl, ?_⟩
  rintro rfl
  obtain ⟨b, rfl⟩ := h.typed.bool
  obtain rfl := Option.some.inj (Value.word?_eq_number? hv hx)
  cases b with
  | true => exact .inl rfl
  | false => exact .inr rfl

/-- Evaluation that fails in an operator. -/
theorem Trouble.Stops.reports {trouble : Trouble} {stop : Stop} (h : trouble.Stops stop)
    (hnull : trouble ≠ .nullReceiver) (t : Ty) :
    (trouble = .noPredecessor ∧ stop = .abort (.overflow .sub)) ∨ stop.Reports t (.error trouble) := by
  cases trouble with
  | divisionByZero | overflow _ => exact .inr h
  | noPredecessor => exact .inl ⟨rfl, h⟩
  | nullReceiver => exact absurd rfl hnull
  | timeout | stuck => exact h.elim

theorem Assembly.instructions_main (code : Code) : Assembly.instructions ⟨code, []⟩ = code :=
  List.append_nil code

section Operations
variable {output : Bool} {e : Expr} {t : Ty} {memory : Word} {code : Code} {n' : Nat}
  (he : e.IsOperation output)
include he

theorem Expr.IsOperation.accepted (ht : e.typeOf .empty = .ok t) (hc : e.code memory 0 = .ok (code, n'))
    (span : Span) :
    (Program.expr e span).Accepted memory ⟨.expr e span, [], .empty⟩ t ⟨code ++ [.halt], []⟩ where
  resolved := by
    rw [Program.resolve, he.isNameless.annotate, he.isNameless.nameProblems]
    rfl
  names := rfl
  checked := by
    refine ⟨.empty, ?_⟩
    simp only [Program.check, Program.classes, Program.body, Class.checkAll, ok_bind, ht]
    rfl
  generated := by
    rw [Program.generate, hc]
    rfl

/-- What linked programs do, for operators. -/
theorem Expr.IsOperation.heeds (ht : e.typeOf .empty = .ok t) (hc : e.code memory 0 = .ok (code, n'))
    (hm : 0 ≤ memory.val) (hlen : code.length + 1 < 2 ^ 63) (span : Span) (n : Nat) :
    ∃ L : Linkage, L.code = code ++ [.halt] ∧
      Heeds (code ++ [.halt]) memory.val.toNat n ((Program.expr e span).eval true n)
        (fun (v, w) => L.Finishes t v w) (.initial memory.val.toNat) := by
  have hbare : Bare (Program.expr e span).notes := by
    intro note hnote
    rw [show (Program.expr e span).notes = e.notes from rfl, he.isNameless.notes] at hnote
    cases hnote
  obtain ⟨L, hL⟩ := Program.linked_expr (he.accepted ht hc span) hbare hm
    (by rw [Assembly.instructions_main, List.length_append, List.length_singleton]; omega)
  have hsize : L.size = memory.val.toNat := by rw [← hL.memory]; rfl
  have hcode : L.code = code ++ [.halt] := hL.code.trans (Assembly.instructions_main _)
  have hheeds := hL.follows n _ (shows_initial L.size)
  rw [hcode, hsize] at hheeds
  exact ⟨L, hcode, hheeds⟩

/-- Only the code for objects depends on the size of the memory. -/
theorem Expr.IsOperation.code_eq (memory' : Word) (n : Nat) : e.code memory n = e.code memory' n := by
  induction he generalizing n with
  | int | bool => rfl
  | ite span _ _ _ ihc iht ihe => simp only [Expr.code, ihc, iht, ihe]
  | binary op span _ _ ihl ihr => simp only [Expr.code, ihl, ihr]
  | not span _ ih | print span _ _ ih => simp only [Expr.code, ih]

/-- The machine may start on the code, and will need no more words than the expression has nodes. -/
theorem Expr.IsOperation.ready (hc : e.code memory 0 = .ok (code, n')) (size : Nat) :
    code.OneWay ∧ ∃ H, Ready H code size e.nodes (.initial size) := by
  obtain ⟨c, m, hcode, hfits⟩ := he.code_fits memory 0
  obtain ⟨rfl, rfl⟩ := Prod.mk.inj (Except.ok.inj (hc.symm.trans hcode))
  refine ⟨⟨hfits.computes, (e.code_closed memory hc).forward, (e.code_numbered memory 0 hc).nodup⟩, ?_⟩
  obtain ⟨H, hrises⟩ := (e.code_grows hc).rises 0
  have hstart := hrises H fun l _ _ => rfl
  rw [he.isNameless.arities] at hstart
  have hpeak := (hfits.peak hstart).2
  rw [Nat.zero_add] at hpeak
  exact ⟨H, ready_initial hstart hpeak size⟩

/-- The machine goes through the code once and then stops: because the memory is too small for the
expression, because of the least word, or as evaluation does. -/
theorem Expr.IsOperation.stops (ht : e.typeOf .empty = .ok t) (hc : e.code memory 0 = .ok (code, n'))
    (hlen : code.length + 1 < 2 ^ 63) (span : Span) (n : Nat) :
    ∃ k s stop, k ≤ code.length ∧ Steps (.ofCode (code ++ [.halt])) k (.initial memory.val.toNat) s ∧
      s.step (.ofCode (code ++ [.halt])) = .error stop ∧
      ((memory.val.toNat < e.nodes ∧ ∃ ip, stop = .fault (.stackOverflow ip)) ∨
        ((Program.expr e span).eval true n = .error .noPredecessor ∧ stop = .abort (.overflow .sub)) ∨
        stop.Reports t ((Program.expr e span).eval true n)) := by
  -- a negative size leaves no memory, as the size 0 does
  obtain ⟨size, hm, hsize⟩ : ∃ size : Word, 0 ≤ size.val ∧ size.val.toNat = memory.val.toNat := by
    rcases Int.le_total 0 memory.val with h | h
    · exact ⟨memory, h, rfl⟩
    · exact ⟨.ofInt 0, by decide, (Int.toNat_of_nonpos h).symm⟩
  rw [he.code_eq size] at hc
  rw [← hsize]
  obtain ⟨L, hcode, hheeds⟩ := he.heeds ht hc hm hlen span n
  obtain ⟨honeWay, H, hready⟩ := he.ready hc size.val.toNat
  rcases hheeds with ⟨k, s, hs, hrefuses | hoverwrites⟩ | hheeds
  · obtain ⟨ip, hstep⟩ := hrefuses.2
    refine ⟨k, s, _, hready.steps_le honeWay hs, hs, hstep, .inl ⟨?_, ip, rfl⟩⟩
    by_contra hroom
    exact (hready.run honeWay hs).1.not_refuses honeWay (by omega) hrefuses
  · exact absurd hoverwrites (not_overwrites honeWay s)
  have hoperates : Operates output .initial ((Program.expr e span).eval true n) :=
    he.eval_operates ⟨[], true⟩ (Function.apply ⟨[], true⟩ n) [] .initial
  generalize (Program.expr e span).eval true n = outcome at hheeds hoperates ⊢
  cases outcome with
  | ok vw =>
    obtain ⟨v, w⟩ := vw
    obtain ⟨c, k, s, hfinishes, hs, hshows⟩ := hheeds
    obtain ⟨hv, vs, rfl, hvs, -⟩ := hoperates
    have hhalts := hfinishes.halts
    rw [hcode] at hhalts
    exact ⟨k, s, _, hready.steps_le honeWay hs, hs, hshows.step_halt hhalts,
      .inr (.inr (hfinishes.reports hv hvs))⟩
  | error trouble =>
    obtain ⟨hnull, htime⟩ := hoperates
    rcases hheeds with ⟨htimeout, -⟩ | ⟨k, s, stop, hs, hstep, hstops⟩
    · exact absurd htimeout htime
    · refine ⟨k, s, stop, hready.steps_le honeWay hs, hs, hstep, .inr ?_⟩
      exact (hstops.reports hnull t).imp_left fun h => ⟨congrArg Except.error h.1, h.2⟩

end Operations

/-- Operators that were checked are compiled. With a word of memory for each node and as many steps as there
are instructions, the run ends as evaluation does, unless the least word was on the right of `>=`; then it
is abandoned because of the subtraction. -/
theorem Compiler.compile_operation {e : Expr} {t : Ty} (compiler : Compiler) (he : e.IsOperation true)
    (ht : e.typeOf .empty = .ok t) (hm : e.nodes ≤ compiler.options.memorySize.val) (span : Span) :
    ∃ c after x, compiler.compile (.expr e span) = .ok (c, after) ∧ c.result = .ok x ∧ x.type = t ∧
      (x.assembly.instructions.length ≤ stepLimit → ∀ n,
        ((Program.expr e span).eval true n ≠ .error .noPredecessor →
          (run x.assembly compiler.options.memorySize.val.toNat).Reports t
            ((Program.expr e span).eval false n)) ∧
        ((Program.expr e span).eval true n = .error .noPredecessor →
          run x.assembly compiler.options.memorySize.val.toNat = .abort (.overflow .sub))) := by
  obtain ⟨code, n', hcode, -⟩ := he.code_fits compiler.options.memorySize 0
  refine ⟨_, _, ⟨t, ⟨code ++ [.halt], []⟩⟩, compile_of_accepted (he.accepted ht hcode span), rfl, rfl,
    fun hlength n => ?_⟩
  rw [Assembly.instructions_main, List.length_append, List.length_singleton] at hlength
  have hlimit : stepLimit = 1000000 := rfl
  obtain ⟨k, s, stop, hk, hs, hstep, hstop⟩ := he.stops ht hcode (by omega) span n
  have hrun : run ⟨code ++ [.halt], []⟩ compiler.options.memorySize.val.toNat = stop := by
    rw [run, Assembly.instructions_main]
    exact hs.run_eq hstep (by omega)
  rw [hrun]
  rcases hstop with ⟨hroom, -⟩ | ⟨hleast, hstop⟩ | hreports
  · omega
  · exact ⟨fun hne => absurd hleast hne, fun _ => hstop⟩
  · refine ⟨fun hne => ?_, fun hleast => ?_⟩
    · rcases (Program.expr e span).eval_agrees n with hagree | hleast
      · rwa [← hagree]
      · exact absurd hleast hne
    · rw [hleast] at hreports
      exact hreports.elim

/-- Prints 7, 1 and 1 and divides 11 by -4. The branch that is not taken would divide by zero. -/
def medley : Expr :=
  .ite
    (.binary (.logic .and)
      (.binary .greaterEqual (.print (.number 7) .synthetic)
        (.print (.bool true .synthetic) .synthetic) .synthetic)
      (.not (.binary .equal (.number 3) (.bool false .synthetic) .synthetic) .synthetic) .synthetic)
    (.binary (.arith .div)
      (.binary (.arith .add) (.print (.binary .lessEqual (.number 2) (.number 5) .synthetic) .synthetic)
        (.number 10) .synthetic)
      (.binary (.arith .sub) (.number 0) (.number 4) .synthetic) .synthetic)
    (.binary (.arith .div) (.number 1) (.number 0) .synthetic) .synthetic

theorem isOperation_medley : medley.IsOperation true :=
  .ite _
    (.binary _ _ (.binary _ _ (.print _ rfl (.int _ _)) (.print _ rfl (.bool _ _)))
      (.not _ (.binary _ _ (.int _ _) (.bool _ _))))
    (.binary _ _ (.binary _ _ (.print _ rfl (.binary _ _ (.int _ _) (.int _ _))) (.int _ _))
      (.binary _ _ (.int _ _) (.int _ _)))
    (.binary _ _ (.int _ _) (.int _ _))

theorem medley_halts :
    medley.IsOperation true ∧ medley.typeOf .empty = .ok .int ∧ medley.nodes ≤ 24 ∧
      ∃ c after x, (⟨⟨.ofInt 24, true⟩, []⟩ : Compiler).compile (.expr medley .synthetic) = .ok (c, after) ∧
        c.result = .ok x ∧ x.type = .int ∧ x.assembly.instructions.length ≤ stepLimit ∧
        run x.assembly 24 = .halted [.ofInt 7, .ofInt 1, .ofInt 1] (some (.ofInt (-2))) := by
  have ht : medley.typeOf .empty = .ok .int := by rfl
  have hm : (medley.nodes : Int) ≤ (Word.ofInt 24).val := by decide
  obtain ⟨c, after, x, hc, hx, htype, hrun⟩ := Compiler.compile_operation ⟨⟨.ofInt 24, true⟩, []⟩
    isOperation_medley ht hm .synthetic
  have hlength : x.assembly.instructions.length ≤ stepLimit := by
    obtain ⟨c', after', x', hc', hx', hlength⟩ : ∃ c after x,
        (⟨⟨.ofInt 24, true⟩, []⟩ : Compiler).compile (.expr medley .synthetic) = .ok (c, after) ∧
          c.result = .ok x ∧
          x.assembly.instructions.length ≤ stepLimit := Compiler.exists_executable (by decide +kernel)
    obtain ⟨rfl, -⟩ := Prod.mk.inj (Except.ok.inj (hc.symm.trans hc'))
    obtain rfl := Except.ok.inj (hx.symm.trans hx')
    exact hlength
  have heval (guarded : Bool) : (Program.expr medley .synthetic).eval guarded 0 =
      .ok (.int (.ofInt (-2)), ⟨[], [.int (.ofInt 7), .bool true, .bool true]⟩) := by
    cases guarded <;> rfl
  have hreports := (hrun hlength 0).1 (by rw [heval]; simp)
  rw [heval] at hreports
  obtain ⟨r, ps, hr, hps, hhalts, -⟩ := hreports
  simp only [List.forall₂_cons_left_iff, List.forall₂_nil_left_iff, Value.number?,
    Option.some.injEq] at hr hps
  obtain ⟨_, _, rfl, ⟨_, _, rfl, ⟨_, _, rfl, rfl, rfl⟩, rfl⟩, rfl⟩ := hps
  obtain rfl := hr
  exact ⟨isOperation_medley, ht, by decide, c, after, x, hc, hx, htype, hlength, hhalts⟩

end Classlet

import Classlet.Proofs.Operations
/-!
# Comparisons

`a >= b` should be the mirror image of `b <= a`. Both are compiled to a test of `<=`, but `>=` first takes
one from its right operand, so it agrees with its mirror image on all pairs of words but those with the
least word on the right (`Compiler.greaterEqual_mirrors`). For these the run is abandoned, whatever is on
the left.
-/

namespace Classlet

open Machine

/-- Compiled and run for at most that many steps, the program ends like that. -/
def Compiler.EndsWith (compiler : Compiler) (p : Program) (steps : Nat) (stop : Stop) : Prop :=
  ∃ c after x, compiler.compile p = .ok (c, after) ∧ c.result = .ok x ∧
    (State.initial compiler.options.memorySize.val.toNat).run (.ofCode x.assembly.instructions) steps = stop

/-- With some amount of memory and of steps, the program that is only this expression halts with the result
`x`. -/
def Expr.RunsTo (e : Expr) (x : Word) : Prop :=
  ∃ compiler span steps printed, Compiler.EndsWith compiler (.expr e span) steps (.halted printed (some x))

section Operations
variable {output : Bool} {e : Expr} {t : Ty}

/-- Operators end as evaluation does, given enough memory and steps. -/
theorem Expr.IsOperation.endsWith (he : e.IsOperation output) (ht : e.typeOf .empty = .ok t)
    (compiler : Compiler) {steps : Nat} (hm : 9 * e.nodes ≤ compiler.options.memorySize.val)
    (hsteps : 9 * e.nodes ≤ steps) (span : Span) (n : Nat) :
    ∃ stop, compiler.EndsWith (.expr e span) steps stop ∧
      (((Program.expr e span).eval true n = .error .noPredecessor ∧ stop = .abort (.overflow .sub)) ∨
        stop.Reports t ((Program.expr e span).eval true n)) := by
  obtain ⟨code, n', hcode, hfits⟩ := he.code_fits compiler.options.memorySize 0
  have hlength := hfits.length
  have hupper := compiler.options.memorySize.upper
  obtain ⟨k, s, stop, hk, hs, hstep, hstop⟩ := he.stops ht hcode (by omega) span n
  refine ⟨stop, ⟨_, _, _, Compiler.compile_of_accepted (he.accepted ht hcode span), rfl, ?_⟩, ?_⟩
  · rw [Assembly.instructions_main]
    exact hs.run_eq hstep (by omega)
  · rcases hstop with ⟨hroom, -⟩ | hstop
    · omega
    · exact hstop

/-- An expression without output that runs to a number also evaluates to it. -/
theorem Expr.IsOperation.eval_of_runsTo (he : e.IsOperation false) (ht : e.typeOf .empty = .ok t)
    (hnodes : 9 * e.nodes < 2 ^ 63) {x : Word} (hx : e.RunsTo x) (n : Nat) :
    ∃ v, v.number? = some x ∧ e.eval ⟨[], true⟩ (Function.apply ⟨[], true⟩ n) [] .initial =
      .ok (v, .initial) := by
  obtain ⟨compiler, span, steps, printed, c, after, executable, hc, hexecutable, hrun⟩ := hx
  obtain ⟨code, n', hcode, hfits⟩ := he.code_fits compiler.options.memorySize 0
  have hlength := hfits.length
  rw [Compiler.compile_of_accepted (he.accepted ht hcode span)] at hc
  obtain ⟨rfl, -⟩ := Prod.mk.inj (Except.ok.inj hc)
  obtain rfl := Except.ok.inj hexecutable
  rw [Assembly.instructions_main] at hrun
  obtain ⟨k, s, stop, hk, hs, hstep, hstop⟩ := he.stops ht hcode (by omega) span n
  -- the run was not given up, so it ended where the machine stops
  have hended : k < steps := by
    by_contra hle
    rw [hs.run_le (Nat.not_lt.1 hle)] at hrun
    cases hrun
  obtain rfl := (hs.run_eq hstep hended).symm.trans hrun
  rcases hstop with ⟨-, ip, hstop⟩ | ⟨-, hstop⟩ | hreports
  · cases hstop
  · cases hstop
  have heval : (Program.expr e span).eval true n =
    e.eval ⟨[], true⟩ (Function.apply ⟨[], true⟩ n) [] .initial := rfl
  have hoperates := he.eval_operates ⟨[], true⟩ (Function.apply ⟨[], true⟩ n) [] .initial
  rw [heval] at hreports
  generalize e.eval ⟨[], true⟩ (Function.apply ⟨[], true⟩ n) [] .initial = outcome at hreports hoperates ⊢
  cases outcome with
  | ok vw =>
    obtain ⟨v, w⟩ := vw
    obtain ⟨r, ps, hr, -, hhalted, -⟩ := hreports
    obtain ⟨-, vs, rfl, -, hnone⟩ := hoperates
    obtain ⟨-, hresult⟩ := Stop.halted.inj hhalted
    obtain rfl := Option.some.inj hresult
    refine ⟨v, hr, ?_⟩
    rw [hnone rfl]
    rfl
  | error trouble =>
    cases trouble with
    | divisionByZero =>
      obtain ⟨ip, hfault⟩ := hreports
      cases hfault
    | overflow op => cases hreports
    | nullReceiver | noPredecessor | stuck | timeout => exact hreports.elim

end Operations

/-! ## Both ways to compare -/

theorem Machine.Stop.Reports.eq_halted {stop : Stop} {t : Ty} {b : Bool}
    (h : stop.Reports t (.ok (.bool b, .initial))) :
    stop = .halted [] (some (.ofBool b)) := by
  obtain ⟨r, ps, hr, hps, rfl, -⟩ := h
  obtain rfl := Option.some.inj hr
  cases hps
  rfl

section Comparisons
variable {op : BinaryOp} {a b : Expr} {t u : Ty} {x y : Word}

theorem BinaryOp.resultType_comparison {h : Hierarchy} (hop : op.opClass = .comparison)
    (ht : h.isSubtype t .int = true) (hu : h.isSubtype u .int = true) (span : Span) :
    op.resultType h t u span = .ok .bool := by
  simp only [BinaryOp.resultType, hop, ht, hu, Bool.and_self, if_true]

theorem BinaryOp.onNumbers_comparison (hop : op.opClass = .comparison) (x y : Word) :
    op.onNumbers true x y = .error .noPredecessor ∨ ∃ r, op.onNumbers true x y = .ok (.bool r) := by
  cases op with
  | lessEqual => exact .inr ⟨_, rfl⟩
  | greaterEqual =>
    rw [BinaryOp.onNumbers]
    split
    · exact .inl rfl
    · exact .inr ⟨_, rfl⟩
  | arith _ | equal | logic _ => cases hop

/-- Operands that evaluate to numbers and print nothing. -/
theorem Expr.eval_comparison {st : Setting} {invoke : Invoke} {context : List Binding} {w : World}
    {v v' : Value} (hop : op.opClass = .comparison) (ha : a.eval st invoke context w = .ok (v, w))
    (hb : b.eval st invoke context w = .ok (v', w)) (hv : v.number? = some x) (hv' : v'.number? = some y)
    (span : Span) :
    (Expr.binary op a b span).eval st invoke context w =
      (op.onNumbers st.guarded x y >>= fun r => pure (r, w)) := by
  have hne : op ≠ .equal := by
    rintro rfl
    cases hop
  have hlogic (c : Connective) : op ≠ .logic c := by
    rintro rfl
    cases hop
  rw [Expr.eval]
  · simp only [ha, hb, ok_bind, BinaryOp.evaluate, hne, if_false, hv, hv']
  · exact hlogic

/-- A comparison of two expressions that run to `x` and `y`. -/
theorem Expr.RunsTo.compare (hx : a.RunsTo x) (hy : b.RunsTo y) (op : BinaryOp)
    (hop : op.opClass = .comparison) (ha : a.IsOperation false) (hb : b.IsOperation false)
    (hat : a.typeOf .empty = .ok t) (hbt : b.typeOf .empty = .ok u)
    (hta : Hierarchy.empty.isSubtype t .int = true) (hub : Hierarchy.empty.isSubtype u .int = true)
    (compiler : Compiler) (steps : Nat) (hm : 9 * (1 + a.nodes + b.nodes) ≤ compiler.options.memorySize.val)
    (hsteps : 9 * (1 + a.nodes + b.nodes) ≤ steps) (span span' : Span) :
    ∃ stop, compiler.EndsWith (.expr (.binary op a b span) span') steps stop ∧
      ((op.onNumbers true x y = .error .noPredecessor ∧ stop = .abort (.overflow .sub)) ∨
        ∃ r, op.onNumbers true x y = .ok (.bool r) ∧ stop = .halted [] (some (.ofBool r))) := by
  have hupper := compiler.options.memorySize.upper
  have htype : (Expr.binary op a b span).typeOf .empty = .ok .bool := by
    rw [Expr.typeOf, hat, ok_bind, hbt, ok_bind]
    exact BinaryOp.resultType_comparison hop hta hub span
  have hnodes : (Expr.binary op a b span).nodes = 1 + a.nodes + b.nodes := rfl
  obtain ⟨v, hv, hva⟩ := ha.eval_of_runsTo hat (by omega) hx 0
  obtain ⟨v', hv', hvb⟩ := hb.eval_of_runsTo hbt (by omega) hy 0
  have heval : (Program.expr (.binary op a b span) span').eval true 0 =
      (op.onNumbers true x y >>= fun r => pure (r, .initial)) :=
      Expr.eval_comparison hop hva hvb hv hv' span
  rw [← hnodes] at hsteps
  obtain ⟨stop, hends, hstop⟩ :=
    (IsOperation.binary op span ha hb).endsWith htype compiler (by omega) hsteps span' 0
  refine ⟨stop, hends, ?_⟩
  rw [heval] at hstop
  rcases op.onNumbers_comparison hop x y with hleast | ⟨r, hr⟩
  · rw [hleast] at hstop ⊢
    rcases hstop with ⟨-, habort⟩ | hreports
    · exact .inl ⟨rfl, habort⟩
    · exact hreports.elim
  · rw [hr] at hstop ⊢
    rcases hstop with ⟨hleast, -⟩ | hreports
    · cases hleast
    · exact .inr ⟨r, rfl, Stop.Reports.eq_halted hreports⟩

/-- Whatever words the operands run to, `b <= a` halts with the result of the comparison, and so does
`a >= b` unless `b` runs to the least word. -/
theorem Compiler.greaterEqual_mirrors (ha : a.IsOperation false) (hb : b.IsOperation false)
    (hat : a.typeOf .empty = .ok t) (hbt : b.typeOf .empty = .ok u)
    (hta : Hierarchy.empty.isSubtype t .int = true) (hub : Hierarchy.empty.isSubtype u .int = true)
    (hx : a.RunsTo x) (hy : b.RunsTo y) (compiler : Compiler) (steps : Nat)
    (hm : 9 * (1 + a.nodes + b.nodes) ≤ compiler.options.memorySize.val)
    (hsteps : 9 * (1 + a.nodes + b.nodes) ≤ steps) (span span' : Span) :
    compiler.EndsWith (.expr (.binary .lessEqual b a span) span') steps
      (.halted [] (some (.ofBool (y.val ≤ x.val)))) ∧
      compiler.EndsWith (.expr (.binary .greaterEqual a b span) span') steps
        (if y = .least then .abort (.overflow .sub) else .halted [] (some (.ofBool (y.val ≤ x.val)))) := by
  constructor
  · obtain ⟨stop, hends, ⟨hleast, -⟩ | ⟨r, hr, rfl⟩⟩ :=
      hy.compare hx .lessEqual rfl hb ha hbt hat hub hta compiler steps
      (by omega) (by omega) span span'
    · cases hleast
    · obtain rfl := Value.bool.inj (Except.ok.inj hr)
      exact hends
  · obtain ⟨stop, hends, hstop⟩ :=
      hx.compare hy .greaterEqual rfl ha hb hat hbt hta hub compiler steps hm hsteps span span'
    rw [BinaryOp.onNumbers] at hstop
    by_cases hleast : y = .least
    · rw [if_pos ⟨rfl, hleast⟩] at hstop
      rw [if_pos hleast]
      obtain ⟨-, rfl⟩ | ⟨r, hr, -⟩ := hstop
      · exact hends
      · cases hr
    · rw [if_neg fun h => hleast h.2] at hstop
      rw [if_neg hleast]
      obtain ⟨habort, -⟩ | ⟨r, hr, rfl⟩ := hstop
      · cases habort
      · obtain rfl := Value.bool.inj (Except.ok.inj hr)
        exact hends

end Comparisons

/-- The least word. -/
def lowest : Expr := .int .least .synthetic

/-- The word after the least one. -/
def secondLowest : Expr := .binary (.arith .add) lowest (.number 1) .synthetic

/-- The greatest word. -/
def highest : Expr := .number 9223372036854775807

/-- Runs a program with that much memory. -/
theorem Compiler.endsWith_of_test {memory : Word} {p : Program} {steps : Nat} {stop : Stop}
    (h : ((⟨⟨memory, true⟩, []⟩ : Compiler).executable? p).any
      (fun x => decide ((State.initial memory.val.toNat).run (.ofCode x.assembly.instructions) steps =
        stop)) = true) :
    Compiler.EndsWith ⟨⟨memory, true⟩, []⟩ p steps stop := Compiler.exists_executable h

theorem highest_greaterEqual_secondLowest :
    highest.RunsTo (.ofInt 9223372036854775807) ∧ secondLowest.RunsTo (.ofInt (-9223372036854775807)) ∧
      Compiler.EndsWith ⟨⟨.ofInt 45, true⟩, []⟩
        (.expr (.binary .lessEqual secondLowest highest .synthetic) .synthetic) 45
        (.halted [] (some (.ofInt 1))) ∧
      Compiler.EndsWith ⟨⟨.ofInt 45, true⟩, []⟩
        (.expr (.binary .greaterEqual highest secondLowest .synthetic) .synthetic) 45
        (.halted [] (some (.ofInt 1))) := by
  have hx : highest.RunsTo (.ofInt 9223372036854775807) :=
    ⟨⟨⟨.ofInt 1, true⟩, []⟩, .synthetic, 2, [], Compiler.endsWith_of_test (by decide +kernel)⟩
  have hy : secondLowest.RunsTo (.ofInt (-9223372036854775807)) :=
    ⟨⟨⟨.ofInt 2, true⟩, []⟩, .synthetic, 4, [], Compiler.endsWith_of_test (by decide +kernel)⟩
  have hmirrors := Compiler.greaterEqual_mirrors (.int _ _) (.binary _ _ (.int _ _) (.int _ _)) rfl rfl
    (by decide) (by decide)
    hx hy ⟨⟨.ofInt 45, true⟩, []⟩ 45 (by decide) (by decide) .synthetic .synthetic
  exact ⟨hx, hy, hmirrors⟩

/-- Both operands run to the least word, so each is at least the other, but only one of the two comparisons
says so. -/
theorem lowest_greaterEqual_lowest_aborts :
    lowest.RunsTo .least ∧
      Compiler.EndsWith ⟨⟨.ofInt 27, true⟩, []⟩
        (.expr (.binary .lessEqual lowest lowest .synthetic) .synthetic) stepLimit
        (.halted [] (some (.ofInt 1))) ∧
      Compiler.EndsWith ⟨⟨.ofInt 27, true⟩, []⟩
        (.expr (.binary .greaterEqual lowest lowest .synthetic) .synthetic) stepLimit
        (.abort (.overflow .sub)) :=
  ⟨⟨⟨⟨.ofInt 1, true⟩, []⟩, .synthetic, 2, [], Compiler.endsWith_of_test (by decide +kernel)⟩,
    Compiler.endsWith_of_test (by decide +kernel), Compiler.endsWith_of_test (by decide +kernel)⟩

end Classlet

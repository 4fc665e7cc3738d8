import Classlet.Resolution.Program
import Classlet.Typing.Program
import Classlet.Proofs.Basic
/-!
# Uses of names

A program with no problem about names has an annotation at every use of a name that checking looks at, so
checking it does not report a use without one (`Program.check_resolves`). This holds although resolution and
checking each decide for themselves which declarations to pass over: both leave out incomplete declarations,
classes without a name and methods without an offset.
-/

namespace Classlet

/-- A use had no annotation. -/
def Problem.Unresolved (p : Problem) : Prop := ∃ x, p.cause = .unresolved x

/-! ## Computations -/

/-- Every use the computation looks at has an annotation. -/
structure Resolves {α : Type} (x : Except Problem α) : Prop where
  problem (p : Problem) : x = .error p → ¬p.Unresolved

section Computations
variable {α β : Type}

theorem resolves_ok (a : α) : Resolves (.ok a) := ⟨nofun⟩

theorem resolves_error {p : Problem} (h : ¬p.Unresolved) : Resolves (α := α) (.error p) := by
  constructor
  intro q hq
  obtain rfl := Except.error.inj hq
  exact h

theorem Resolves.bind {x : Except Problem α} {f : α → Except Problem β} (hx : Resolves x)
    (hf : ∀ a, Resolves (f a)) :
    Resolves (x >>= f) := by
  cases x with
  | error p => exact resolves_error (hx.problem p rfl)
  | ok a => exact hf a

theorem resolves_annotated {name : Name} {o : Option α} (h : o.isSome = true) :
    Resolves (annotated name o) := by
  obtain ⟨a, rfl⟩ := Option.isSome_iff_exists.1 h
  exact resolves_ok a

end Computations

theorem Entry.valueType_resolves (e : Entry) (name : Name) : Resolves (e.valueType name) := by
  unfold Entry.valueType
  split
  case h_4 => exact resolves_ok _
  all_goals exact resolves_error nofun

theorem Entry.callee_resolves (e : Entry) (name : String) (found : Nat) (span : Span) :
    Resolves (e.callee name found span) := by
  unfold Entry.callee
  split
  · exact resolves_error nofun
  · split
    · exact resolves_ok _
    · exact resolves_error nofun

theorem Entry.constructor_resolves (e : Entry) (name : String) (found : Nat) (span : Span) :
    Resolves (e.constructor name found span) := by
  unfold Entry.constructor
  split
  · exact resolves_error nofun
  · split
    · exact resolves_ok _
    · exact resolves_error nofun

theorem BinaryOp.resultType_resolves (h : Hierarchy) (op : BinaryOp) (left right : Ty) (span : Span) :
    Resolves (op.resultType h left right span) := by
  unfold BinaryOp.resultType
  cases op.opClass <;> simp only <;> split <;>
    first | exact resolves_ok _ | exact resolves_error nofun

/-! ## Expressions -/

section Expressions
variable {env : Env} {h : Hierarchy}

theorem Env.resolve?_isSome {x : Name} (hx : env.identProblems x = []) :
    (env.resolve? x.text).isSome = true := by
  unfold Env.identProblems at hx
  split at hx
  · next hsome => simpa [Env.resolve?] using hsome
  · cases hx

theorem Env.lookup?_isSome_of_new {x : Name} (hx : env.newProblems x = []) :
    (env.scopes.lookup? x.text).isSome = true := by
  unfold Env.newProblems at hx
  split at hx
  · assumption
  · cases hx

theorem Env.receiver_isSome {object method : Name} (hx : env.receiverProblems object method = []) :
    (env.resolve? object.text).isSome = true ∧
    (env.receiverMethod? object.text method.text).isSome = true := by
  unfold Env.receiverProblems at hx
  split at hx
  · cases hx
  · next e he =>
    split at hx
    · cases hx
    · next cls hcls =>
      split at hx
      · next hsome =>
        refine ⟨by simp [Env.resolve?, he], ?_⟩
        rw [Env.receiverMethod?, he, Option.bind_some, hcls]
        exact hsome
      · cases hx

theorem isSome_or_right {α : Type} (a : Option α) {b : Option α} (hb : b.isSome = true) :
    (a.or b).isSome = true := by
  rw [Option.isSome_or, hb, Bool.or_true]

mutual
theorem Expr.typeOf_resolves : ∀ e : Expr, e.nameProblems env = [] → Resolves ((e.annotate env).typeOf h)
  | .int .., _ | .bool .., _ | .null _, _ => resolves_ok _
  | .ident name target, hn =>
    (resolves_annotated (isSome_or_right target (Env.resolve?_isSome hn))).bind fun r =>
      r.entry.valueType_resolves name
  | .call callee args span target, hn => by
    obtain ⟨hcallee, hargs⟩ := List.append_eq_nil_iff.1 hn
    rw [Expr.annotate, Expr.typeOf]
    refine (resolves_annotated (isSome_or_right target (Env.resolve?_isSome hcallee))).bind fun r => ?_
    refine (r.entry.callee_resolves _ _ _).bind fun s => ?_
    exact (Expr.checkArgs_resolves args hargs _ _ _).bind fun _ => resolves_ok _
  | .methodCall object method args span receiver target, hn => by
    obtain ⟨hreceiver, hargs⟩ := List.append_eq_nil_iff.1 hn
    obtain ⟨hobject, hmethod⟩ := Env.receiver_isSome hreceiver
    rw [Expr.annotate, Expr.typeOf]
    refine (resolves_annotated (isSome_or_right receiver hobject)).bind fun _ => ?_
    refine (resolves_annotated (isSome_or_right target hmethod)).bind fun e => ?_
    refine (e.callee_resolves _ _ _).bind fun s => ?_
    exact (Expr.checkArgs_resolves args hargs _ _ _).bind fun _ => resolves_ok _
  | .new cls args span target, hn => by
    obtain ⟨hcls, hargs⟩ := List.append_eq_nil_iff.1 hn
    rw [Expr.annotate, Expr.typeOf]
    refine (resolves_annotated (isSome_or_right target (Env.lookup?_isSome_of_new hcls))).bind fun e => ?_
    refine (e.constructor_resolves _ _ _).bind fun fields => ?_
    exact (Expr.checkArgs_resolves args hargs _ _ _).bind fun _ => resolves_ok _
  | .ite c t e span, hn => by
    rw [Expr.nameProblems, List.append_eq_nil_iff, List.append_eq_nil_iff] at hn
    rw [Expr.annotate, Expr.typeOf]
    refine (c.typeOf_resolves hn.1.1).bind fun condition => ?_
    split
    · refine (t.typeOf_resolves hn.1.2).bind fun thenType =>
        (e.typeOf_resolves hn.2).bind fun elseType => ?_
      split
      · exact resolves_ok _
      · exact resolves_error nofun
    · exact resolves_error nofun
  | .binary op l r span, hn => by
    rw [Expr.nameProblems, List.append_eq_nil_iff] at hn
    rw [Expr.annotate, Expr.typeOf]
    exact (l.typeOf_resolves hn.1).bind fun _ => (r.typeOf_resolves hn.2).bind fun _ =>
      op.resultType_resolves h _ _ _
  | .not e span, hn => by
    rw [Expr.annotate, Expr.typeOf]
    refine (e.typeOf_resolves hn).bind fun operand => ?_
    split
    · exact resolves_ok _
    · exact resolves_error nofun
  | .print e _, hn => e.typeOf_resolves hn

theorem Expr.checkArgs_resolves : ∀ es : List Expr, Expr.allNameProblems env es = [] →
    ∀ callee position params, Resolves (Expr.checkArgs h callee position (Expr.annotateAll env es) params)
  | [], _, _, _, _ => resolves_ok _
  | _ :: _, _, _, _, [] => resolves_ok _
  | e :: es, hn, callee, position, t :: ts => by
    rw [Expr.allNameProblems, List.append_eq_nil_iff] at hn
    rw [Expr.annotateAll, Expr.checkArgs]
    refine (e.typeOf_resolves hn.1).bind fun type => ?_
    split
    · exact Expr.checkArgs_resolves es hn.2 _ _ _
    · exact resolves_error nofun
end

end Expressions

/-! ## Declarations -/

/-- No report is about a use without an annotation. -/
def AllResolved (reports : List Diagnostic) : Prop := ∀ d ∈ reports, ¬d.problem.Unresolved

theorem allResolved_nil : AllResolved [] := List.forall_mem_nil _

theorem allResolved_append {a b : List Diagnostic} : AllResolved (a ++ b) ↔ AllResolved a ∧ AllResolved b :=
  List.forall_mem_append

theorem allResolved_toList {o : Option Problem} {severity : Severity} (h : ∀ p ∈ o, ¬p.Unresolved) :
    AllResolved (o.toList.map (⟨severity, ·⟩)) := by
  intro d hd
  obtain ⟨p, hp, rfl⟩ := List.mem_map.1 hd
  exact h p (Option.mem_toList.1 hp)

section Declarations
variable {classes : Table VirtualTable} {h : Hierarchy}

theorem Variable.typeProblem?_resolves {v : Variable} {s : Scopes}
    (hn : v.init.nameProblems ⟨s, classes⟩ = []) :
    ∀ p ∈ Variable.typeProblem? h { v with init := v.init.annotate ⟨s, classes⟩ }, ¬p.Unresolved := by
  intro p hp
  have hinit := v.init.typeOf_resolves (h := h) hn
  rw [Option.mem_def, Variable.typeProblem?] at hp
  split at hp
  · cases hp
  · split at hp
    · next q hq =>
      obtain rfl := Option.some.inj hp
      exact hinit.problem _ hq
    · split at hp
      · cases hp
      · obtain rfl := Option.some.inj hp
        simp [Problem.Unresolved]

theorem Expr.returnProblem?_resolves {kind : DeclKind} {name : String} {ret : Ty} {span : Span}
    {body : Expr} {env : Env} (hn : body.nameProblems env = []) :
    ∀ p ∈ (body.annotate env).returnProblem? h kind name ret span, ¬p.Unresolved := by
  intro p hp
  have hbody := body.typeOf_resolves (h := h) hn
  rw [Option.mem_def, Expr.returnProblem?] at hp
  split at hp
  · next q hq =>
    obtain rfl := Option.some.inj hp
    exact hbody.problem _ hq
  · split at hp
    · cases hp
    · obtain rfl := Option.some.inj hp
      simp [Problem.Unresolved]

mutual
theorem Decl.typeReports_resolves :
    ∀ (d : Decl) {s : Scopes} {severity : Severity}, d.nameProblems classes s = [] →
    AllResolved ((d.annotate classes s).typeReports h severity)
  | .var v, s, severity, hn => by
    rw [Decl.nameProblems] at hn
    rw [Decl.annotate]
    split
    · next hd =>
      rw [hd, List.append_eq_nil_iff, List.append_eq_nil_iff] at hn
      exact allResolved_toList (Variable.typeProblem?_resolves hn.1.1)
    · next hd =>
      rw [Decl.typeReports, Variable.typeProblem?, hd]
      exact allResolved_nil
  | .function f, s, severity, hn => by
    rw [Decl.nameProblems] at hn
    rw [Decl.annotate]
    split
    · next name signature hd =>
      rw [hd, List.append_eq_nil_iff] at hn
      exact f.typeReports_resolves hn.2
    · next hd =>
      obtain ⟨name, params, ret, locals, body, span⟩ := f
      rw [Decl.typeReports, Function.typeReports, hd]
      exact allResolved_nil

theorem Function.typeReports_resolves : ∀ (f : Function) {s : Scopes} {kind : DeclKind} {a b : Severity},
    f.nameProblems classes s = [] → AllResolved ((f.annotate classes s).typeReports h kind a b)
  | ⟨name, params, ret, locals, body, span⟩, s, kind, a, b, hn => by
    rw [Function.nameProblems, List.append_eq_nil_iff, List.append_eq_nil_iff] at hn
    rw [Function.annotate, Function.typeReports]
    split
    · exact allResolved_nil
    · exact allResolved_append.2 ⟨Decl.allTypeReports_resolves locals hn.1.2,
        allResolved_toList (Expr.returnProblem?_resolves hn.2)⟩

theorem Decl.allTypeReports_resolves : ∀ (ds : List Decl) {s : Scopes} {severity : Severity},
    Decl.allNameProblems classes s ds = [] →
    AllResolved (Decl.allTypeReports h severity (Decl.annotateAll classes s ds))
  | [], _, _, _ => allResolved_nil
  | d :: ds, s, severity, hn => by
    rw [Decl.allNameProblems, List.append_eq_nil_iff] at hn
    rw [Decl.annotateAll, Decl.allTypeReports, allResolved_append]
    exact ⟨d.typeReports_resolves hn.1, Decl.allTypeReports_resolves ds hn.2⟩
end

end Declarations

/-! ## Classes -/

section Classes
variable {h : Hierarchy}

theorem Method.typeReports_resolves {env : Env} {d : Method} (hn : d.nameProblems env = []) :
    AllResolved ((d.annotate env).typeReports h) := by
  unfold Method.nameProblems at hn
  unfold Method.annotate
  split
  · next ho =>
    rw [if_pos ho, List.append_eq_nil_iff] at hn
    rw [Method.typeReports, if_pos ho]
    exact d.function.typeReports_resolves hn.2
  · next ho =>
    rw [Method.typeReports, if_neg ho]
    exact allResolved_nil

theorem Field.overrideReports_resolves {own inherited : List Ty} {f : Field} {reports : List Diagnostic}
    (hf : f.overrideReports h own inherited = .ok reports) : AllResolved reports := by
  unfold Field.overrideReports at hf
  split at hf
  · obtain ⟨i, -, hf⟩ := bind_eq_ok.1 hf
    split at hf <;> obtain rfl := pure_eq_ok.1 hf <;> simp [AllResolved, Problem.Unresolved,
      Diagnostic.error]
  · obtain rfl := Except.ok.inj hf
    exact allResolved_nil

theorem Method.overrideReports_resolves {own inherited : List Signature} {d : Method}
    {reports : List Diagnostic} (hd : d.overrideReports h own inherited = .ok reports) :
    AllResolved reports := by
  unfold Method.overrideReports at hd
  split at hd
  · obtain ⟨i, -, hd⟩ := bind_eq_ok.1 hd
    split at hd <;> obtain rfl := pure_eq_ok.1 hd <;> simp [AllResolved, Problem.Unresolved,
      Diagnostic.error]
  · obtain rfl := Except.ok.inj hd
    exact allResolved_nil

theorem Class.overrideReports_resolves {c : Class} {reports : List Diagnostic}
    (hc : c.overrideReports h = .ok reports) :
    AllResolved reports := by
  unfold Class.overrideReports at hc
  split at hc
  · simp only [bind_eq_ok, pure_eq_ok] at hc
    obtain ⟨rs, hrs, rs', hrs', rfl⟩ := hc
    rw [allResolved_append]
    constructor
    · intro d hd
      obtain ⟨r, hr, hd⟩ := List.mem_flatten.1 hd
      obtain ⟨f, -, hf⟩ := exists_of_mem_mapM hrs hr
      exact Field.overrideReports_resolves hf d hd
    · intro d hd
      obtain ⟨r, hr, hd⟩ := List.mem_flatten.1 hd
      obtain ⟨m, -, hm⟩ := exists_of_mem_mapM hrs' hr
      exact Method.overrideReports_resolves hm d hd
  · obtain rfl := Except.ok.inj hc
    exact allResolved_nil

theorem Class.typeReports_resolves {env : Env} {c : Class} {r : ResolvedClass} (hr : c.resolve env = .ok r)
    (hn : r.reports = []) {reports : List Diagnostic} (hc : r.tree.typeReports h = .ok reports) :
    AllResolved reports := by
  unfold Class.typeReports at hc
  cases hname : c.name with
  | none =>
    rw [Class.resolve, hname] at hr
    obtain rfl := Except.ok.inj hr
    rw [hname] at hc
    obtain rfl := Except.ok.inj hc
    exact allResolved_nil
  | some name =>
    simp only [Class.resolve, hname, bind_eq_ok, pure_eq_ok] at hr
    obtain ⟨p, -, rfl⟩ := hr
    simp only [Class.resolvePlaced, Diagnostic.errors, List.append_eq_nil_iff, List.map_eq_nil_iff,
      List.flatMap_eq_nil_iff] at hn
    obtain ⟨-, -, hmethods⟩ := hn
    have hname' : (c.resolvePlaced env name p).tree.name = some name := hname
    simp only [hname', bind_eq_ok, pure_eq_ok] at hc
    obtain ⟨overriding, hoverriding, rfl⟩ := hc
    refine allResolved_append.2 ⟨fun d hd => ?_, Class.overrideReports_resolves hoverriding⟩
    obtain ⟨m, hm, hd⟩ := List.mem_flatMap.1 hd
    obtain ⟨m', hm', rfl⟩ := List.mem_map.1 hm
    exact Method.typeReports_resolves (hmethods m' hm') d hd

theorem Class.checkAll_resolves {cs : List Class} {env : Env} {r : ResolvedClasses}
    (hr : Class.resolveAll env cs = .ok r) (hn : r.reports = []) {last : Hierarchy}
    {reports : List Diagnostic} (hc : Class.checkAll h r.trees = .ok (last, reports)) :
    AllResolved reports := by
  induction cs generalizing env r h reports with
  | nil =>
    obtain rfl := Except.ok.inj hr
    obtain ⟨-, rfl⟩ := Prod.mk.inj (Except.ok.inj hc)
    exact allResolved_nil
  | cons c cs ih =>
    simp only [Class.resolveAll, bind_eq_ok, pure_eq_ok] at hr
    obtain ⟨first, hfirst, rest, hrest, rfl⟩ := hr
    obtain ⟨hn, hns⟩ := List.append_eq_nil_iff.1 hn
    simp only [Class.checkAll, bind_eq_ok, pure_eq_ok, Prod.exists, Prod.mk.injEq] at hc
    obtain ⟨reports₁, hreports₁, last', reports₂, hreports₂, rfl, rfl⟩ := hc
    exact allResolved_append.2 ⟨Class.typeReports_resolves hfirst hn hreports₁, ih hrest hns hreports₂⟩

end Classes

/-- After resolution without a report, checking reports no use without an annotation. -/
theorem Program.check_resolves {p : Program} {r : Resolved} (hr : p.resolve = .ok r) (hn : r.reports = [])
    {h : Hierarchy} {checked : Checked} (hc : r.tree.check h = .ok checked) :
    AllResolved checked.reports := by
  have hbody : ∀ {h'} {classReports : List Diagnostic}, Class.checkAll h r.tree.classes =
      .ok (h', classReports) →
      AllResolved classReports ∧ AllResolved (Decl.allTypeReports h' .error r.tree.decls) ∧
      Resolves (r.tree.body.typeOf h') := by
    intro h' classReports hclasses
    cases p with
    | letIn classes decls body span =>
      simp only [Program.resolve, bind_eq_ok, pure_eq_ok] at hr
      obtain ⟨rc, hrc, rfl⟩ := hr
      simp only [Diagnostic.errors, List.append_eq_nil_iff, List.map_eq_nil_iff] at hn
      exact ⟨Class.checkAll_resolves hrc hn.1 hclasses, Decl.allTypeReports_resolves decls hn.2.1,
        body.typeOf_resolves hn.2.2⟩
    | expr body span =>
      obtain rfl := Except.ok.inj hr
      obtain ⟨-, rfl⟩ := Prod.mk.inj (Except.ok.inj hclasses)
      exact ⟨allResolved_nil, allResolved_nil, body.typeOf_resolves (List.map_eq_nil_iff.1 hn)⟩
  simp only [Program.check, bind_eq_ok, Prod.exists] at hc
  obtain ⟨h', classReports, hclasses, hc⟩ := hc
  obtain ⟨hreports, hdecls, hresolves⟩ := hbody hclasses
  split at hc
  · obtain rfl := pure_eq_ok.1 hc
    exact allResolved_append.2 ⟨hreports, hdecls⟩
  · next problem hproblem =>
    obtain rfl := pure_eq_ok.1 hc
    refine allResolved_append.2 ⟨allResolved_append.2 ⟨hreports, hdecls⟩, fun d hd => ?_⟩
    obtain rfl := List.mem_singleton.1 hd
    exact hresolves.problem problem hproblem

end Classlet

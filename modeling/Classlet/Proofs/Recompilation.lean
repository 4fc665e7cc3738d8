import Classlet.Proofs.Programs
import Classlet.Proofs.Registry
/-!
# Compiling again

Resolution writes into annotations that are empty and reads some of them back: only methods with an offset
are looked at. A tree that was resolved before is left as it is, and the same is reported about it
(`Program.resolve_resolve`); nothing is assumed about the annotations that it had at first. As the later
stages see a tree only after its resolution, a compilation depends neither on what its compiler nor on what
its tree was used for before (`Session.compile_history_free`).
-/

namespace Classlet

/-! ## Expressions -/

theorem or_or_self {α : Type} (a b : Option α) : (a.or b).or b = a.or b := by
  rw [Option.or_assoc, Option.or_self]

section Annotated
variable (env : Env)

mutual
theorem Expr.annotate_annotate : ∀ e : Expr, (e.annotate env).annotate env = e.annotate env
  | .int .. | .bool .. | .null _ => rfl
  | .ident name target => by simp only [Expr.annotate, or_or_self]
  | .call callee args span target => by
    simp only [Expr.annotate, or_or_self, Expr.annotateAll_annotateAll args]
  | .methodCall object method args span receiver target => by
    simp only [Expr.annotate, or_or_self, Expr.annotateAll_annotateAll args]
  | .new cls args span target => by simp only [Expr.annotate, or_or_self, Expr.annotateAll_annotateAll args]
  | .ite c t e span => by
    simp only [Expr.annotate, c.annotate_annotate, t.annotate_annotate, e.annotate_annotate]
  | .binary op l r span => by simp only [Expr.annotate, l.annotate_annotate, r.annotate_annotate]
  | .not e span => by simp only [Expr.annotate, e.annotate_annotate]
  | .print e span => by simp only [Expr.annotate, e.annotate_annotate]

theorem Expr.annotateAll_annotateAll :
    ∀ es : List Expr, Expr.annotateAll env (Expr.annotateAll env es) = Expr.annotateAll env es
  | [] => rfl
  | e :: es => by
    rw [Expr.annotateAll, Expr.annotateAll, e.annotate_annotate, Expr.annotateAll_annotateAll es]
end

mutual
/-- What is wrong with the names does not depend on annotations. -/
theorem Expr.nameProblems_annotate : ∀ e : Expr, (e.annotate env).nameProblems env = e.nameProblems env
  | .int .. | .bool .. | .null _ => rfl
  | .ident name target => rfl
  | .call callee args span target => by
    simp only [Expr.annotate, Expr.nameProblems, Expr.allNameProblems_annotateAll args]
  | .methodCall object method args span receiver target => by
    simp only [Expr.annotate, Expr.nameProblems, Expr.allNameProblems_annotateAll args]
  | .new cls args span target => by
    simp only [Expr.annotate, Expr.nameProblems, Expr.allNameProblems_annotateAll args]
  | .ite c t e span => by
    simp only [Expr.annotate, Expr.nameProblems, c.nameProblems_annotate, t.nameProblems_annotate,
      e.nameProblems_annotate]
  | .binary op l r span => by
    simp only [Expr.annotate, Expr.nameProblems, l.nameProblems_annotate, r.nameProblems_annotate]
  | .not e span => by simp only [Expr.annotate, Expr.nameProblems, e.nameProblems_annotate]
  | .print e span => by simp only [Expr.annotate, Expr.nameProblems, e.nameProblems_annotate]

theorem Expr.allNameProblems_annotateAll : ∀ es : List Expr,
    Expr.allNameProblems env (Expr.annotateAll env es) = Expr.allNameProblems env es
  | [] => rfl
  | e :: es => by
    rw [Expr.annotateAll, Expr.allNameProblems, Expr.allNameProblems, e.nameProblems_annotate,
      Expr.allNameProblems_annotateAll es]
end

end Annotated

/-! ## Declarations -/

section Declarations
variable (classes : Table VirtualTable)

theorem Decl.bind_annotate (s s' : Scopes) (d : Decl) : (d.annotate classes s').bind s = d.bind s := by
  rw [Decl.bind, Decl.bind, Decl.declared?_annotate]

theorem Decl.bindAll_annotateAll (s s' : Scopes) (ds : List Decl) :
    Decl.bindAll s (Decl.annotateAll classes s' ds) = Decl.bindAll s ds := by
  induction ds generalizing s s' with
  | nil => rfl
  | cons d ds ih =>
    rw [Decl.annotateAll, Decl.bindAll, Decl.bindAll, List.foldl_cons, List.foldl_cons, Decl.bind_annotate]
    exact ih _ _

mutual
theorem Decl.annotate_annotate :
    ∀ (d : Decl) (s : Scopes), (d.annotate classes s).annotate classes s = d.annotate classes s
  | .var v, s => by
    cases hv : v.declared? with
    | none => simp only [Decl.annotate, hv]
    | some p =>
      have hv' : ({ v with init := v.init.annotate ⟨s, classes⟩ } : Variable).declared? = some p := hv
      simp only [Decl.annotate, hv, hv', Expr.annotate_annotate]
  | .function f, s => by
    cases hf : f.declared? with
    | none => simp only [Decl.annotate, hf]
    | some p => simp only [Decl.annotate, hf, Function.declared?_annotate, f.annotate_annotate]

theorem Function.annotate_annotate :
    ∀ (f : Function) (s : Scopes), (f.annotate classes s).annotate classes s = f.annotate classes s
  | ⟨name, params, ret, locals, body, span⟩, s => by
    simp only [Function.annotate, Decl.bindAll_annotateAll, Decl.annotateAll_annotateAll locals,
      Expr.annotate_annotate]

theorem Decl.annotateAll_annotateAll : ∀ (ds : List Decl) (s : Scopes),
    Decl.annotateAll classes s (Decl.annotateAll classes s ds) = Decl.annotateAll classes s ds
  | [], _ => rfl
  | d :: ds, s => by
    rw [Decl.annotateAll, Decl.annotateAll, Decl.bind_annotate, d.annotate_annotate,
      Decl.annotateAll_annotateAll ds]
end

mutual
theorem Decl.nameProblems_annotate :
    ∀ (d : Decl) (s : Scopes), (d.annotate classes s).nameProblems classes s = d.nameProblems classes s
  | .var v, s => by
    cases hv : v.declared? with
    | none => simp only [Decl.annotate, hv]
    | some p =>
      have hv' : ({ v with init := v.init.annotate ⟨s, classes⟩ } : Variable).declared? = some p := hv
      simp only [Decl.annotate, Decl.nameProblems, hv, hv', Expr.nameProblems_annotate]
  | .function f, s => by
    cases hf : f.declared? with
    | none => simp only [Decl.annotate, hf]
    | some p =>
      have hspan : ∀ s', (f.annotate classes s').span = f.span := fun _ => by obtain ⟨⟩ := f; rfl
      simp only [Decl.annotate, Decl.nameProblems, hf, Function.declared?_annotate,
        f.nameProblems_annotate, hspan]

theorem Function.nameProblems_annotate : ∀ (f : Function) (s : Scopes),
    (f.annotate classes s).nameProblems classes s = f.nameProblems classes s
  | ⟨name, params, ret, locals, body, span⟩, s => by
    simp only [Function.annotate, Function.nameProblems, Decl.bindAll_annotateAll,
      Decl.allNameProblems_annotateAll locals, Expr.nameProblems_annotate]

theorem Decl.allNameProblems_annotateAll : ∀ (ds : List Decl) (s : Scopes),
    Decl.allNameProblems classes s (Decl.annotateAll classes s ds) = Decl.allNameProblems classes s ds
  | [], _ => rfl
  | d :: ds, s => by
    rw [Decl.annotateAll, Decl.allNameProblems, Decl.allNameProblems, Decl.bind_annotate,
      d.nameProblems_annotate, Decl.allNameProblems_annotateAll ds]
end

end Declarations

/-! ## Classes -/

theorem Method.function_declared?_annotate (env : Env) (d : Method) :
    (d.annotate env).function.declared? = d.function.declared? := by
  rw [Method.annotate]
  split
  · exact Function.declared?_annotate _ _ _
  · rfl

theorem Method.annotate_annotate (env : Env) (d : Method) :
    (d.annotate env).annotate env = d.annotate env := by
  unfold Method.annotate
  by_cases hd : d.offset.isSome = true
  · simp only [hd, if_true, Function.annotate_annotate]
  · simp only [hd, Bool.false_eq_true, if_false]

theorem Method.nameProblems_annotate (env : Env) (d : Method) :
    (d.annotate env).nameProblems env = d.nameProblems env := by
  obtain ⟨⟨name, params, ret, locals, body, span⟩, offset⟩ := d
  unfold Method.nameProblems Method.annotate
  cases offset with
  | none => rfl
  | some o =>
    simp only [Option.isSome_some, if_true, Function.nameProblems_annotate]
    rfl

section Members
variable {level : Nat} {m m' : Members} {reports : List Diagnostic}

/-- A field that has its place is given the same one. -/
theorem Members.placeField_placed {f e : Field} (h : m.placeField level f = .ok (e, m', reports)) :
    m.placeField level e = .ok (e, m', reports) := by
  obtain ⟨o, rfl, hplace⟩ := Members.placeField_eq_ok h
  rw [hplace { f with offset := f.offset.or o } rfl, or_or_self]

theorem Members.placeMethod_placed {d e : Method} (h : m.placeMethod level d = .ok (e, m', reports))
    (env : Env) :
    m.placeMethod level (e.annotate env) = .ok (e.annotate env, m', reports) := by
  obtain ⟨o, rfl, hplace⟩ := Members.placeMethod_eq_ok h
  have hoffset : (Method.annotate env ⟨d.function, d.offset.or o⟩).offset.or o =
      (Method.annotate env ⟨d.function, d.offset.or o⟩).offset := by
    rw [Method.offset_annotate]
    exact or_or_self d.offset o
  rw [hplace _ (Method.function_declared?_annotate env ⟨d.function, d.offset.or o⟩), hoffset]

theorem Members.placeFields_placed {fs fs' : List Field}
    (h : m.placeFields level fs = .ok (fs', m', reports)) :
    m.placeFields level fs' = .ok (fs', m', reports) := by
  induction fs generalizing m fs' reports with
  | nil =>
    cases h
    rfl
  | cons f fs ih =>
    simp only [Members.placeFields, bind_eq_ok, pure_eq_ok, Prod.exists, Prod.mk.injEq] at h
    obtain ⟨f', m₁, reports₁, hf, fs', m₂, reports₂, hfs, rfl, rfl, rfl⟩ := h
    simp only [Members.placeFields, Members.placeField_placed hf, ih hfs, ok_bind]
    rfl

theorem Members.placeMethods_placed {ds ds' : List Method}
    (h : m.placeMethods level ds = .ok (ds', m', reports)) (env : Env) :
    m.placeMethods level (ds'.map (·.annotate env)) = .ok (ds'.map (·.annotate env), m', reports) := by
  induction ds generalizing m ds' reports with
  | nil =>
    cases h
    rfl
  | cons d ds ih =>
    simp only [Members.placeMethods, bind_eq_ok, pure_eq_ok, Prod.exists, Prod.mk.injEq] at h
    obtain ⟨d', m₁, reports₁, hd, ds', m₂, reports₂, hds, rfl, rfl, rfl⟩ := h
    simp only [List.map_cons, Members.placeMethods, Members.placeMethod_placed hd, ih hds, ok_bind]
    rfl

end Members

section Classes
variable {env : Env} {c : Class}

/-- Members that have their places keep them, in whatever scopes the methods were annotated. -/
theorem Class.place_placed {c' : Class} {inner : Env} {placed : PlacedMembers}
    (h : c.place env = .ok placed) (hsuper : c'.superclass = c.superclass)
    (hfields : c'.fields = placed.fields) (hmethods : c'.methods = placed.methods.map (·.annotate inner)) :
    c'.place env = .ok { placed with methods := placed.methods.map (·.annotate inner) } := by
  simp only [Class.place, bind_eq_ok, pure_eq_ok, Prod.exists] at h
  obtain ⟨fields, m, fieldReports, hplacedFields, methods, m', methodReports, hplacedMethods, rfl⟩ := h
  have hinherited : c'.inherited env = c.inherited env := by rw [Class.inherited, Class.inherited, hsuper]
  simp only [Class.place, hinherited, hfields, hmethods, Members.placeFields_placed hplacedFields, ok_bind,
    Members.placeMethods_placed hplacedMethods]
  rfl

theorem Class.resolvePlaced_resolvePlaced (env : Env) (c : Class) (name : Name) (placed : PlacedMembers) :
    (c.resolvePlaced env name placed).tree.resolvePlaced env name
        { placed with methods := (c.resolvePlaced env name placed).tree.methods } =
      c.resolvePlaced env name placed := by
  -- what is inherited depends on the name of the superclass only, not on the entry that was found for it
  have hinherited : (c.resolvePlaced env name placed).tree.inherited env = c.inherited env := rfl
  have hproblems : (c.resolvePlaced env name placed).tree.superclassProblems env =
    c.superclassProblems env := rfl
  rw [Class.resolvePlaced, hinherited, hproblems]
  simp only [Class.resolvePlaced, or_or_self, List.map_map, Function.comp_def, Method.annotate_annotate,
    List.flatMap_map, Method.nameProblems_annotate]

theorem Class.resolve_resolve {r : ResolvedClass} (h : c.resolve env = .ok r) :
    r.tree.resolve env = .ok r := by
  cases hname : c.name with
  | none =>
    simp only [Class.resolve, hname] at h
    cases h
    simp only [Class.resolve, hname]
  | some name =>
    simp only [Class.resolve, hname, bind_eq_ok, pure_eq_ok] at h
    obtain ⟨placed, hplaced, rfl⟩ := h
    have hname' : (c.resolvePlaced env name placed).tree.name = some name := hname
    have hplaced' : (c.resolvePlaced env name placed).tree.place env = _ :=
      Class.place_placed hplaced rfl rfl rfl
    simp only [Class.resolve, hname', hplaced', ok_bind]
    exact congrArg Except.ok (Class.resolvePlaced_resolvePlaced env c name placed)

theorem Class.resolveAll_resolveAll {cs : List Class} {r : ResolvedClasses}
    (h : Class.resolveAll env cs = .ok r) :
    Class.resolveAll env r.trees = .ok r := by
  induction cs generalizing env r with
  | nil =>
    cases h
    rfl
  | cons c cs ih =>
    simp only [Class.resolveAll, bind_eq_ok, pure_eq_ok] at h
    obtain ⟨first, hfirst, rest, hrest, rfl⟩ := h
    simp only [Class.resolveAll, Class.resolve_resolve hfirst, ih hrest, ok_bind]
    rfl

end Classes

/-- Resolving a resolved program changes nothing and reports the same. -/
theorem Program.resolve_resolve {p : Program} {r : Resolved} (h : p.resolve = .ok r) :
    r.tree.resolve = .ok r := by
  cases p with
  | expr body span =>
    cases h
    simp only [Program.resolve, Expr.annotate_annotate, Expr.nameProblems_annotate]
  | letIn classes decls body span =>
    simp only [Program.resolve, bind_eq_ok, pure_eq_ok] at h
    obtain ⟨resolved, hresolved, rfl⟩ := h
    simp only [Program.resolve, Class.resolveAll_resolveAll hresolved, ok_bind, Decl.bindAll_annotateAll,
      Decl.annotateAll_annotateAll,
      Decl.allNameProblems_annotateAll, Expr.annotate_annotate, Expr.nameProblems_annotate]
    rfl

/-! ## Compiling -/

/-- A compiler that has not been used. -/
def Compiler.new (options : Options) : Compiler := ⟨options, []⟩

theorem Options.compile_tree {options : Options} {p : Program} {c : Compilation}
    (h : options.compile p = .ok c) :
    ∃ r, p.resolve = .ok r ∧ c.tree = r.tree := by
  have hcompile := h
  simp only [Options.compile, bind_eq_ok] at h
  obtain ⟨r, hr, -⟩ := h
  exact ⟨r, hr, Options.tree_of_compile hcompile hr⟩

/-- Compilers with the same options cannot be told apart, nor can trees of which resolution leaves the
same. -/
theorem Compiler.compile_congr {compiler compiler' : Compiler} {p p' : Program}
    (hoptions : compiler.options = compiler'.options) (hresolve : p.resolve = p'.resolve) :
    compiler.compile p = compiler'.compile p' := by
  have hcompile : compiler'.options.compile p = compiler'.options.compile p' := by
    simp only [Options.compile, hresolve]
  simp only [Compiler.compile, hoptions, hcompile]

/-- Resolution leaves the tree as it is. -/
def Program.Settled (p : Program) : Prop := ∃ r, p.resolve = .ok r ∧ r.tree = p

theorem Program.Settled.compile_tree {p : Program} (hp : p.Settled) {options : Options} {c : Compilation}
    (h : options.compile p = .ok c) : c.tree = p := by
  obtain ⟨r, hr, htree⟩ := hp
  obtain ⟨r', hr', htree'⟩ := Options.compile_tree h
  obtain rfl := Except.ok.inj (hr.symm.trans hr')
  rw [htree', htree]

/-! ## Sessions -/

/-- Compilers and trees in use. What a compilation leaves takes the place of its compiler and of its
tree. -/
structure Session where
  compilers : Nat → Compiler
  trees : Nat → Program

namespace Session

def compile (s : Session) (compiler tree : Nat) : Except Abort (Compilation × Session) := do
  let (compilation, after) ← (s.compilers compiler).compile (s.trees tree)
  return (compilation, ⟨Function.update s.compilers compiler after,
    Function.update s.trees tree compilation.tree⟩)

/-- The session after a number of compilations, each of them with one of the compilers of one of the
trees. -/
def run (s : Session) : List (Nat × Nat) → Except Abort Session
  | [] => .ok s
  | (compiler, tree) :: requests => do
    let (_, after) ← s.compile compiler tree
    after.run requests

/-- The compilers have the options, and the trees the resolutions, that they have in `s`. -/
structure LooksLike (s' s : Session) : Prop where
  options (i : Nat) : (s'.compilers i).options = (s.compilers i).options
  resolve (j : Nat) : (s'.trees j).resolve = (s.trees j).resolve

theorem LooksLike.refl (s : Session) : s.LooksLike s := ⟨fun _ => rfl, fun _ => rfl⟩

theorem LooksLike.trans {s s' s'' : Session} (h : s''.LooksLike s') (h' : s'.LooksLike s) :
    s''.LooksLike s :=
  ⟨fun i => (h.options i).trans (h'.options i), fun j => (h.resolve j).trans (h'.resolve j)⟩

section Steps
variable {s s' : Session} {i j : Nat} {c : Compilation}

theorem compile_eq_ok (h : s.compile i j = .ok (c, s')) :
    (s.compilers i).options.compile (s.trees j) = .ok c ∧
    s'.compilers = Function.update s.compilers i ⟨(s.compilers i).options, c.reports⟩ ∧
    s'.trees = Function.update s.trees j c.tree := by
  simp only [compile, Compiler.compile, bind_eq_ok, pure_eq_ok, Prod.exists, Prod.mk.injEq] at h
  obtain ⟨c', after, ⟨c'', hc, rfl, rfl⟩, rfl, rfl⟩ := h
  exact ⟨hc, rfl, rfl⟩

theorem compile_looksLike (h : s.compile i j = .ok (c, s')) : s'.LooksLike s := by
  obtain ⟨hc, hcompilers, htrees⟩ := compile_eq_ok h
  obtain ⟨r, hr, htree⟩ := Options.compile_tree hc
  constructor
  · intro k
    rw [hcompilers, Function.update_apply]
    split
    · next hk => rw [hk]
    · rfl
  · intro k
    rw [htrees, Function.update_apply]
    split
    · next hk => rw [hk, htree, Program.resolve_resolve hr, hr]
    · rfl

theorem compile_settles (h : s.compile i j = .ok (c, s')) : (s'.trees j).Settled := by
  obtain ⟨hc, -, htrees⟩ := compile_eq_ok h
  obtain ⟨r, hr, htree⟩ := Options.compile_tree hc
  rw [htrees, Function.update_self, htree]
  exact ⟨r, Program.resolve_resolve hr, rfl⟩

theorem compile_keeps (h : s.compile i j = .ok (c, s')) {k : Nat} (hk : (s.trees k).Settled) :
    s'.trees k = s.trees k := by
  obtain ⟨hc, -, htrees⟩ := compile_eq_ok h
  rw [htrees, Function.update_apply]
  split
  · next heq =>
    subst heq
    exact hk.compile_tree hc
  · rfl

end Steps

section Runs
variable {s s' : Session} {requests : List (Nat × Nat)}

/-- What every compilation keeps is kept by a run. -/
theorem run_preserves {P : Session → Prop}
    (hstep : ∀ {t t' i j c}, t.compile i j = .ok (c, t') → P t → P t') (h : s.run requests = .ok s')
    (hs : P s) : P s' := by
  induction requests generalizing s with
  | nil =>
    cases h
    exact hs
  | cons request requests ih =>
    simp only [run, bind_eq_ok, Prod.exists] at h
    obtain ⟨c, after, hcompile, hrun⟩ := h
    exact ih hrun (hstep hcompile hs)

theorem run_looksLike (h : s.run requests = .ok s') : s'.LooksLike s :=
  run_preserves (P := fun t => t.LooksLike s)
    (fun hcompile ht => (compile_looksLike hcompile).trans ht) h (.refl s)

theorem run_keeps (h : s.run requests = .ok s') {j : Nat} (hj : (s.trees j).Settled) :
    s'.trees j = s.trees j := by
  refine run_preserves (P := fun t => t.trees j = s.trees j) (fun hcompile ht => ?_) h rfl
  rw [compile_keeps hcompile (ht ▸ hj), ht]

theorem run_settles (h : s.run requests = .ok s') {i j : Nat} (hj : (i, j) ∈ requests) :
    (s'.trees j).Settled := by
  induction requests generalizing s with
  | nil => cases hj
  | cons request requests ih =>
    simp only [run, bind_eq_ok, Prod.exists] at h
    obtain ⟨c, after, hcompile, hrun⟩ := h
    -- either this compilation settles the tree and the rest keeps it, or a later one does
    rcases List.mem_cons.1 hj with rfl | hlater
    · have hsettled := compile_settles hcompile
      rw [run_keeps hrun hsettled]
      exact hsettled
    · exact ih hrun hlater

end Runs

/-- Whatever was compiled before, with whatever options, a compilation is the one that a new compiler makes
of the tree as it was at first. A tree that was compiled stays as it is. -/
theorem compile_history_free {s s' : Session} {requests : List (Nat × Nat)}
    (hrun : s.run requests = .ok s') :
    (∀ i j, (s'.compilers i).compile (s'.trees j) =
      (Compiler.new (s.compilers i).options).compile (s.trees j)) ∧
      ∀ i j, (i, j) ∈ requests →
        (∃ r, (s.trees j).resolve = .ok r ∧ (s'.trees j).resolve = .ok r ∧ s'.trees j = r.tree) ∧
        (∀ options c, Options.compile options (s'.trees j) = .ok c → c.tree = s'.trees j) ∧
        ∀ later s'', s'.run later = .ok s'' → s''.trees j = s'.trees j := by
  have hlooks : s'.LooksLike s := run_looksLike hrun
  refine ⟨fun i j => Compiler.compile_congr (hlooks.options i) (hlooks.resolve j), fun i j hj => ?_⟩
  have hsettled : (s'.trees j).Settled := run_settles hrun hj
  refine ⟨?_, fun options c hc => hsettled.compile_tree hc,
    fun later s'' hlater => run_keeps hlater hsettled⟩
  obtain ⟨r, hr, htree⟩ := hsettled
  exact ⟨r, (hlooks.resolve j).symm.trans hr, hr, htree.symm⟩

/-- The first tree has a field in the place of a method, a method in the place of a field and a method that
is declared twice. The methods that get no offset use a name that nothing declares. The first compiler stops
at these problems, the others do not. -/
def shared : Session where
  compilers i := ⟨⟨.ofInt 10000, i == 0⟩, []⟩
  trees
    | 0 => .letIn
        [.plain "Shape" none [("side", .int)] [.plain "area" [] .int (.variable "side")],
          .plain "Square" (some "Shape") [("area", .bool)]
            [.plain "side" [] .bool (.variable "corner"), .plain "rim" [] .int (.variable "side"),
              .plain "rim" [] .bool (.variable "corner")]]
        [.var (.plain "s" (.ref "Square") (.make "Square" [.number 1]))] (.send "s" "rim" []) .synthetic
    | _ => .letIn [] [.var (.plain "x" .int (.number 2))] (.variable "x") .synthetic

theorem shared_history_free :
    ∃ s', shared.run [(0, 0), (1, 1), (1, 0), (0, 1), (1, 0)] = .ok s' ∧
      (s'.compilers 1).compile (s'.trees 0) =
        (Compiler.new ⟨.ofInt 10000, false⟩).compile (shared.trees 0) ∧
      (∃ r, (shared.trees 0).resolve = .ok r ∧ (s'.trees 0).resolve = .ok r ∧ s'.trees 0 = r.tree) ∧
      ∀ later s'', s'.run later = .ok s'' → s''.trees 0 = s'.trees 0 := by
  obtain ⟨s', hrun, -⟩ : ∃ s', shared.run [(0, 0), (1, 1), (1, 0), (0, 1), (1, 0)] = .ok s' ∧ True :=
    exists_ok (by decide +kernel)
  obtain ⟨hfresh, hstays⟩ := compile_history_free hrun
  obtain ⟨hresolved, -, hlater⟩ := hstays 0 0 (by decide)
  exact ⟨s', hrun, hfresh 1 0, hresolved, hlater⟩

end Session

end Classlet

import Classlet.Proofs.Functions
import Classlet.Proofs.Visibility
/-!
# Bodies

The functions and methods whose bodies resolution goes into, each with the scopes around it
(`Program.visits`). These are the bodies that code is generated for: the blocks of an assembly are their
blocks, in the same order (`Program.generate_visits`).
-/

namespace Classlet

/-- A function or method as it is written, with the virtual tables and the scopes around its body. -/
structure Visit where
  classes : Table VirtualTable
  scopes : Scopes
  function : Function

namespace Visit

/-- The function after its names were resolved. -/
def annotated (v : Visit) : Function := v.function.annotate v.classes v.scopes

/-- The nesting level of the body. -/
def level (v : Visit) : Nat := v.scopes.level + 1

/-- The scopes of the body before its local declarations. -/
def inner (v : Visit) : Scopes := v.scopes.enter v.function.params

/-- The block is the code of the function. -/
def Generates (memory : Word) (v : Visit) (block : Code) : Prop :=
  ∃ (s : Supply) (decls : Output) (value : Code) (n : Nat),
    Decl.codeAll memory v.annotated.locals { s with function := s.function + 1 } = .ok decls ∧
    v.annotated.body.code memory decls.supply.branch = .ok (value, n) ∧
    block = v.annotated.block (.function s.function) decls.code value

end Visit

mutual
/-- The functions in a declaration made in the scopes `s`. Those inside a function come before it. -/
def Decl.visits (classes : Table VirtualTable) (s : Scopes) : Decl → List Visit
  | .var _ => []
  | .function f =>
    match f.declared? with
    | some (name, signature) => f.visits classes (s.declareLocal name.text (.arrow signature))
    | none => []

def Function.visits (classes : Table VirtualTable) (s : Scopes) : Function → List Visit
  | ⟨name, params, ret, locals, body, span⟩ =>
    Decl.listVisits classes (s.enter params) locals ++
      [⟨classes, s, ⟨name, params, ret, locals, body, span⟩⟩]

def Decl.listVisits (classes : Table VirtualTable) (s : Scopes) : List Decl → List Visit
  | [] => []
  | d :: ds => d.visits classes s ++ Decl.listVisits classes (d.bind s) ds
end

/-- Only methods with an offset are gone into. -/
def Method.visits (env : Env) (d : Method) : List Visit :=
  if d.offset.isSome then d.function.visits env.classes env.scopes else []

def Class.visits (env : Env) (c : Class) : List Visit :=
  match c.name, c.place env with
  | some name, .ok p =>
    p.methods.flatMap (·.visits ((env.declareClass name.text p.members).enterClass p.members))
  | _, _ => []

def Class.listVisits (env : Env) : List Class → List Visit
  | [] => []
  | c :: cs =>
    c.visits env ++
      match c.resolve env with
      | .ok r => Class.listVisits r.env cs
      | .error _ => []

/-- The methods of a program, and the functions inside them. -/
def Program.methodVisits (p : Program) : List Visit := Class.listVisits .initial p.classes

/-- The functions of a program that are not inside a method. -/
def Program.functionVisits (p : Program) : List Visit :=
  match Class.resolveAll .initial p.classes with
  | .ok r => Decl.listVisits r.env.classes r.env.scopes p.decls
  | .error _ => []

def Program.visits (p : Program) : List Visit := p.methodVisits ++ p.functionVisits

/-! ## Expressions in a body -/

/-- The initializer of a complete variable. -/
def Decl.init? : Decl → Option Expr
  | .var v => if v.declared?.isSome then some v.init else none
  | .function _ => none

/-- The initializers of variables, each with the scopes it is resolved in. -/
def Decl.inits (s : Scopes) : List Decl → List (Scopes × Expr)
  | [] => []
  | d :: ds => (d.init?.map (s, ·)).toList ++ Decl.inits (d.bind s) ds

/-- The expressions that are evaluated in the frame of the function, with the scopes they are resolved
in. -/
def Visit.exprs (v : Visit) : List (Scopes × Expr) :=
  Decl.inits v.inner v.function.locals ++ [(Decl.bindAll v.inner v.function.locals, v.function.body)]

/-- The names used in an expression and what they were found to refer to. -/
def Expr.found (classes : Table VirtualTable) (p : Scopes × Expr) : List (String × Resolution) :=
  (p.2.annotate ⟨p.1, classes⟩).notes.filterMap Note.filled?

def Visit.found (v : Visit) : List (String × Resolution) := v.exprs.flatMap (Expr.found v.classes)

/-! ## Properties of all bodies -/

section Induction
variable {classes : Table VirtualTable} {R : Scopes → Function → Prop}

/-- What holds of a function and, if it holds of a function, of the functions declared in it. -/
def Hereditary (R : Scopes → Function → Prop) : Prop :=
  ∀ s f, R s f → ∀ before g after name signature, f.locals = before ++ .function g :: after →
    g.declared? = some (name, signature) →
    R ((Decl.bindAll (s.enter f.params) before).declareLocal name.text (.arrow signature)) g

mutual
theorem Decl.forall_visits (hR : Hereditary R) : ∀ (d : Decl) (s : Scopes),
    (∀ g name signature, d = .function g → g.declared? = some (name, signature) →
      R (s.declareLocal name.text (.arrow signature)) g) → ∀ v ∈ d.visits classes s, v.classes = classes ∧
        R v.scopes v.function
  | .var v, s, h => by
    rw [Decl.visits]
    exact List.forall_mem_nil _
  | .function f, s, h => by
    rw [Decl.visits]
    split
    · next name signature hf => exact Function.forall_visits hR f _ (h f name signature rfl hf)
    · exact List.forall_mem_nil _

theorem Function.forall_visits (hR : Hereditary R) : ∀ (f : Function) (s : Scopes), R s f →
    ∀ v ∈ f.visits classes s, v.classes = classes ∧ R v.scopes v.function
  | ⟨name, params, ret, locals, body, span⟩, s, h => by
    rw [Function.visits, List.forall_mem_append]
    refine ⟨Decl.forall_listVisits hR locals _ fun before g after x signature hlocals hg => ?_,
      List.forall_mem_singleton.2 ⟨rfl, h⟩⟩
    exact hR s _ h before g after x signature hlocals hg

theorem Decl.forall_listVisits (hR : Hereditary R) : ∀ (ds : List Decl) (s : Scopes),
    (∀ before g after name signature, ds = before ++ .function g :: after →
      g.declared? = some (name, signature) →
      R ((Decl.bindAll s before).declareLocal name.text (.arrow signature)) g) →
      ∀ v ∈ Decl.listVisits classes s ds, v.classes = classes ∧ R v.scopes v.function
  | [], s, h => by
    rw [Decl.listVisits]
    exact List.forall_mem_nil _
  | d :: ds, s, h => by
    rw [Decl.listVisits, List.forall_mem_append]
    refine ⟨Decl.forall_visits hR d s fun g name signature hd hg => ?_,
      Decl.forall_listVisits hR ds (d.bind s) fun before g after name signature hds hg => ?_⟩
    · exact h [] g ds name signature (by rw [hd]; rfl) hg
    · exact h (d :: before) g after name signature (by rw [hds]; rfl) hg
end

end Induction

section Found
variable {classes : Table VirtualTable}

/-- Where nothing is looked at, nothing is found. -/
theorem not_mem_found_of_bare {notes : List Note} (hb : Bare notes) {u : String × Resolution} :
    u ∉ notes.filterMap Note.filled? := by
  rw [filled_of_bare hb]
  exact List.not_mem_nil

mutual
/-- What is found in a function is found in one of the bodies. -/
theorem Decl.found_visits : ∀ (d : Decl) (s : Scopes), Bare d.notes →
    ∀ u ∈ (d.annotate classes s).notes.filterMap Note.filled?,
      (∃ v ∈ d.visits classes s, u ∈ v.found) ∨ u ∈ (d.init?.map (s, ·)).toList.flatMap (Expr.found classes)
  | .var v, s, hb, u, hu => by
    rw [Decl.annotate] at hu
    cases hv : v.declared? with
    | none =>
      simp only [hv] at hu
      exact absurd hu (not_mem_found_of_bare hb)
    | some p =>
      simp only [hv, Decl.notes] at hu
      refine .inr ?_
      simpa [Decl.init?, hv, Expr.found] using hu
  | .function f, s, hb, u, hu => by
    rw [Decl.annotate] at hu
    rw [Decl.visits]
    cases hf : f.declared? with
    | none =>
      simp only [hf] at hu
      exact absurd hu (not_mem_found_of_bare hb)
    | some p =>
      simp only [hf, Decl.notes] at hu
      exact .inl (Function.found_visits f _ hb u hu)

theorem Function.found_visits : ∀ (f : Function) (s : Scopes), Bare f.notes →
    ∀ u ∈ (f.annotate classes s).notes.filterMap Note.filled?, ∃ v ∈ f.visits classes s, u ∈ v.found
  | ⟨name, params, ret, locals, body, span⟩, s, hb, u, hu => by
    rw [Function.notes, bare_append] at hb
    rw [Function.annotate, Function.notes, List.filterMap_append, List.mem_append] at hu
    rw [Function.visits]
    -- initializers and the body belong to the function itself, the rest to the functions inside
    have hlast : ⟨classes, s, ⟨name, params, ret, locals, body, span⟩⟩ ∈
        Decl.listVisits classes (s.enter params) locals ++
          [⟨classes, s, ⟨name, params, ret, locals, body, span⟩⟩] :=
      List.mem_append_right _ (List.mem_singleton_self _)
    rcases hu with hu | hu
    · rcases Decl.found_listVisits locals (s.enter params) hb.1 u hu with ⟨v, hv, huv⟩ | hinit
      · exact ⟨v, List.mem_append_left _ hv, huv⟩
      · refine ⟨_, hlast, ?_⟩
        rw [Visit.found, Visit.exprs, List.flatMap_append]
        exact List.mem_append_left _ hinit
    · refine ⟨_, hlast, ?_⟩
      rw [Visit.found, Visit.exprs, List.flatMap_append]
      refine List.mem_append_right _ ?_
      rw [List.flatMap_singleton]
      exact hu

theorem Decl.found_listVisits : ∀ (ds : List Decl) (s : Scopes), Bare (Decl.listNotes ds) →
    ∀ u ∈ (Decl.listNotes (Decl.annotateAll classes s ds)).filterMap Note.filled?,
      (∃ v ∈ Decl.listVisits classes s ds, u ∈ v.found) ∨ u ∈ (Decl.inits s ds).flatMap (Expr.found classes)
  | [], s, hb, u, hu => (nomatch hu)
  | d :: ds, s, hb, u, hu => by
    rw [Decl.listNotes, bare_append] at hb
    rw [Decl.annotateAll, Decl.listNotes, List.filterMap_append, List.mem_append] at hu
    rw [Decl.listVisits, Decl.inits, List.flatMap_append, List.mem_append]
    rcases hu with hu | hu
    · rcases Decl.found_visits d s hb.1 u hu with ⟨v, hv, huv⟩ | hinit
      · exact .inl ⟨v, List.mem_append_left _ hv, huv⟩
      · exact .inr (.inl hinit)
    · rcases Decl.found_listVisits ds (d.bind s) hb.2 u hu with ⟨v, hv, huv⟩ | hinit
      · exact .inl ⟨v, List.mem_append_right _ hv, huv⟩
      · exact .inr (.inr hinit)
end

end Found

/-! ## Blocks -/

section Blocks
variable {memory : Word} {classes : Table VirtualTable}

mutual
theorem Decl.code_visits : ∀ (d : Decl) {s : Scopes} {supply : Supply} {out : Output},
    (d.annotate classes s).code memory supply = .ok out →
      List.Forall₂ (Visit.Generates memory) (d.visits classes s) out.blocks
  | .var v, s, supply, out, h => by
    rw [Decl.visits]
    rcases Decl.code_annotate_var h with ⟨-, rfl⟩ | ⟨-, c, n, -, -, rfl⟩
    · exact .nil
    · exact .nil
  | .function f, s, supply, out, h => by
    rw [Decl.visits]
    rcases Decl.code_annotate_function h with ⟨hf, rfl⟩ | ⟨name, signature, blocks, supply', hf, hcode, rfl⟩
    · rw [hf]
      exact .nil
    · rw [hf]
      exact Function.code_visits f hcode

theorem Function.code_visits : ∀ (f : Function) {s : Scopes} {supply supply' : Supply} {blocks : List Code},
    (f.annotate classes s).code memory supply = .ok (blocks, supply') →
      List.Forall₂ (Visit.Generates memory) (f.visits classes s) blocks
  | ⟨name, params, ret, locals, body, span⟩, s, supply, supply', blocks, h => by
    obtain ⟨decls, value, branch, hdecls, hvalue, rfl⟩ := Function.code_eq_ok h
    rw [Function.visits]
    -- in both lists the functions inside come before the function itself
    exact List.rel_append (Decl.codeAll_visits locals hdecls)
      (.cons ⟨supply, decls, value, branch, hdecls, hvalue, rfl⟩ .nil)

theorem Decl.codeAll_visits : ∀ (ds : List Decl) {s : Scopes} {supply : Supply} {out : Output},
    Decl.codeAll memory (Decl.annotateAll classes s ds) supply = .ok out →
      List.Forall₂ (Visit.Generates memory) (Decl.listVisits classes s ds) out.blocks
  | [], s, supply, out, h => by
    obtain rfl := Except.ok.inj h
    exact .nil
  | d :: ds, s, supply, out, h => by
    simp only [Decl.annotateAll, Decl.codeAll, bind_eq_ok, pure_eq_ok] at h
    obtain ⟨first, hfirst, rest, hrest, rfl⟩ := h
    rw [Decl.listVisits]
    exact List.rel_append (Decl.code_visits d hfirst) (Decl.codeAll_visits ds hrest)
end

theorem Class.methodCode_visits {env : Env} {cls : String} {span : Span} {ds : List Method}
    {table : DispatchTable} {s : Supply} {out : MethodOutput}
    (h : Class.methodCode memory cls span (ds.map (·.annotate env)) table s = .ok out) :
    List.Forall₂ (Visit.Generates memory) (ds.flatMap (·.visits env)) out.blocks := by
  induction ds generalizing table s out with
  | nil =>
    obtain rfl := Except.ok.inj h
    exact .nil
  | cons d ds ih =>
    rw [List.map_cons, Class.methodCode] at h
    rw [List.flatMap_cons, Method.visits]
    cases ho : d.offset with
    | none =>
      have hoffset : (d.annotate env).offset = none := (Method.offset_annotate env d).trans ho
      simp only [hoffset] at h
      exact ih h
    | some o =>
      have hoffset : (d.annotate env).offset = some o := (Method.offset_annotate env d).trans ho
      have hfunction : (d.annotate env).function = d.function.annotate env.classes env.scopes := by
        rw [Method.annotate, ho, Option.isSome_some, if_pos rfl]
      simp only [hoffset, hfunction, bind_eq_ok, pure_eq_ok, Prod.exists] at h
      obtain ⟨blocks, s', hcode, i, -, table', -, rest, hrest, rfl⟩ := h
      rw [Option.isSome_some, if_pos rfl]
      exact List.rel_append (Function.code_visits d.function hcode) (ih hrest)

theorem Class.code_visits {env : Env} {c : Class} {r : ResolvedClass} (hr : c.resolve env = .ok r)
    {tables : List DispatchTable} {s : Supply} {out : Output × List DispatchTable}
    (h : r.tree.code memory tables s = .ok out) :
    List.Forall₂ (Visit.Generates memory) (c.visits env) out.1.blocks := by
  unfold Class.resolve at hr
  unfold Class.visits
  cases hname : c.name with
  | none =>
    rw [hname] at hr
    obtain rfl := Except.ok.inj hr
    rw [Class.code, hname] at h
    obtain rfl := Except.ok.inj h
    exact .nil
  | some name =>
    simp only [hname, bind_eq_ok, pure_eq_ok] at hr
    obtain ⟨p, hp, rfl⟩ := hr
    have htree : (c.resolvePlaced env name p).tree.name = some name := hname
    have hentry : (c.resolvePlaced env name p).tree.entry ≠ none := by
      rw [Class.resolvePlaced]
      cases c.entry <;> exact Option.some_ne_none _
    rcases Class.code_cases h with
      ⟨hnone, -⟩ | ⟨x, entry, inherited, methods, slot, tables', -, -, -, hmethods, -, -, rfl⟩
    · rw [htree] at hnone
      exact absurd (hnone.resolve_left (Option.some_ne_none name)) hentry
    · simp only [hp]
      exact Class.methodCode_visits hmethods

theorem Class.codeAll_visits {env : Env} {cs : List Class} {r : ResolvedClasses}
    (hr : Class.resolveAll env cs = .ok r) {tables : List DispatchTable} {s : Supply}
    {out : Output × List DispatchTable} (h : Class.codeAll memory r.trees tables s = .ok out) :
    List.Forall₂ (Visit.Generates memory) (Class.listVisits env cs) out.1.blocks := by
  induction cs generalizing env r tables s out with
  | nil =>
    obtain rfl := Except.ok.inj hr
    obtain rfl := Except.ok.inj h
    exact .nil
  | cons c cs ih =>
    simp only [Class.resolveAll, bind_eq_ok, pure_eq_ok] at hr
    obtain ⟨first, hfirst, rest, hrest, rfl⟩ := hr
    simp only [Class.codeAll, bind_eq_ok, pure_eq_ok, Prod.exists] at h
    obtain ⟨out₁, tables₁, hout₁, out₂, tables₂, hout₂, rfl⟩ := h
    rw [Class.listVisits, hfirst]
    exact List.rel_append (Class.code_visits hfirst hout₁) (ih hrest hout₂)

/-- The blocks of methods come first. -/
theorem Program.generate_visits {p : Program} {r : Resolved} {a : Assembly} (hr : p.resolve = .ok r)
    (h : r.tree.generate memory = .ok a) :
    ∃ methods functions, a.functions = methods ++ functions ∧
      List.Forall₂ (Visit.Generates memory) p.methodVisits methods ∧
      List.Forall₂ (Visit.Generates memory) p.functionVisits functions := by
  cases p with
  | letIn classes decls body span =>
    simp only [Program.resolve, bind_eq_ok, pure_eq_ok] at hr
    obtain ⟨resolved, hresolved, rfl⟩ := hr
    simp only [Program.generate, bind_eq_ok, pure_eq_ok, Prod.exists] at h
    obtain ⟨out, tables, hout, outDecls, hdecls, value, n, -, rfl⟩ := h
    refine ⟨out.blocks, outDecls.blocks, rfl, Class.codeAll_visits hresolved hout, ?_⟩
    rw [Program.functionVisits, show (letIn classes decls body span).classes = classes from rfl, hresolved]
    exact Decl.codeAll_visits decls hdecls
  | expr body span =>
    obtain rfl := Except.ok.inj hr
    simp only [Program.generate, bind_eq_ok, pure_eq_ok, Prod.exists] at h
    obtain ⟨value, n, -, rfl⟩ := h
    exact ⟨[], [], rfl, .nil, .nil⟩

end Blocks

end Classlet

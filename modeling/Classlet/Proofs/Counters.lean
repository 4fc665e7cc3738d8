import Classlet.Proofs.Reports
import Classlet.Proofs.Slots
/-!
# Counters

Compilation counts the labels it defines, the levels that functions are nested in, and the words of a frame.
The size of the program bounds each of these counts (`Program.counters_le_nodes`), so those of a program of
fewer than `2 ^ 30` nodes are numbers of 32 bits (`Program.counters_fit`).
-/

namespace Classlet

/-! ## Size of a resolved tree -/

mutual
theorem Expr.nodes_annotate (env : Env) : ∀ e : Expr, (e.annotate env).nodes = e.nodes
  | .int .. | .bool .. | .null _ | .ident .. => by simp only [Expr.annotate, Expr.nodes]
  | .call _ args _ _ | .methodCall _ _ args _ _ _ | .new _ args _ _ => by
    simp only [Expr.annotate, Expr.nodes, Expr.listNodes_annotateAll env args]
  | .ite c t e _ => by
    simp only [Expr.annotate, Expr.nodes, c.nodes_annotate env, t.nodes_annotate env, e.nodes_annotate env]
  | .binary _ l r _ => by simp only [Expr.annotate, Expr.nodes, l.nodes_annotate env, r.nodes_annotate env]
  | .not e _ | .print e _ => by simp only [Expr.annotate, Expr.nodes, e.nodes_annotate env]

theorem Expr.listNodes_annotateAll (env : Env) :
    ∀ es : List Expr, Expr.listNodes (Expr.annotateAll env es) = Expr.listNodes es
  | [] => by rw [Expr.annotateAll]
  | e :: es => by
    rw [Expr.annotateAll, Expr.listNodes, Expr.listNodes, e.nodes_annotate env,
      Expr.listNodes_annotateAll env es]
end

mutual
theorem Decl.nodes_annotate (classes : Table VirtualTable) :
    ∀ (d : Decl) (s : Scopes), (d.annotate classes s).nodes = d.nodes
  | .var v, s => by
    rw [Decl.annotate]
    split
    · simp only [Decl.nodes, Expr.nodes_annotate]
    · rfl
  | .function f, s => by
    rw [Decl.annotate]
    split
    · rw [Decl.nodes, Decl.nodes, f.nodes_annotate classes]
    · rfl

theorem Function.nodes_annotate (classes : Table VirtualTable) :
    ∀ (f : Function) (s : Scopes), (f.annotate classes s).nodes = f.nodes
  | ⟨_, params, _, locals, body, _⟩, s => by
    rw [Function.annotate, Function.nodes, Function.nodes, Decl.listNodes_annotateAll classes locals,
      Expr.nodes_annotate]

theorem Decl.listNodes_annotateAll (classes : Table VirtualTable) :
    ∀ (ds : List Decl) (s : Scopes), Decl.listNodes (Decl.annotateAll classes s ds) = Decl.listNodes ds
  | [], s => by rw [Decl.annotateAll]
  | d :: ds, s => by
    rw [Decl.annotateAll, Decl.listNodes, Decl.listNodes, d.nodes_annotate classes,
      Decl.listNodes_annotateAll classes ds]
end

theorem Method.nodes_annotate (env : Env) (d : Method) :
    (d.annotate env).function.nodes = d.function.nodes := by
  unfold Method.annotate
  split
  · exact d.function.nodes_annotate env.classes env.scopes
  · rfl

/-- Placing the members of a class changes neither the number of fields nor the functions. -/
theorem Class.place_keeps {env : Env} {c : Class} {p : PlacedMembers} (hp : c.place env = .ok p) :
    p.fields.length = c.fields.length ∧ p.methods.map Method.function = c.methods.map Method.function := by
  simp only [Class.place, bind_eq_ok, pure_eq_ok, Prod.exists] at hp
  obtain ⟨fields, m, reports, hfields, methods, m', reports', hmethods, rfl⟩ := hp
  obtain ⟨-, hnames, -⟩ := Members.placeFields_leaves hfields
  refine ⟨?_, (Members.placeMethods_leaves hmethods).1⟩
  rw [← List.length_map (f := Field.name), hnames, List.length_map]

theorem Class.nodes_resolve {env : Env} {c : Class} {r : ResolvedClass} (hr : c.resolve env = .ok r) :
    r.tree.nodes = c.nodes := by
  unfold Class.resolve at hr
  split at hr
  · simp only [bind_eq_ok, pure_eq_ok] at hr
    obtain ⟨p, hp, rfl⟩ := hr
    obtain ⟨hfields, hmethods⟩ := Class.place_keeps hp
    have hsizes (ds : List Method) :
        ds.map (·.function.nodes) = (ds.map Method.function).map Function.nodes := by
      rw [List.map_map]
      rfl
    have hannotate (inner : Env) :
        (p.methods.map (·.annotate inner)).map (·.function.nodes) = p.methods.map (·.function.nodes) := by
      rw [List.map_map]
      exact List.map_congr_left fun d _ => d.nodes_annotate inner
    rw [Class.nodes, Class.nodes, Class.resolvePlaced, hannotate, hsizes, hmethods, ← hsizes, hfields]
  · obtain rfl := Except.ok.inj hr
    rfl

theorem Class.nodes_resolveAll {env : Env} {cs : List Class} {r : ResolvedClasses}
    (hr : Class.resolveAll env cs = .ok r) :
    r.trees.map Class.nodes = cs.map Class.nodes := by
  induction cs generalizing env r with
  | nil =>
    obtain rfl := Except.ok.inj hr
    rfl
  | cons c cs ih =>
    simp only [Class.resolveAll, bind_eq_ok, pure_eq_ok] at hr
    obtain ⟨first, hfirst, rest, hrest, rfl⟩ := hr
    rw [List.map_cons, List.map_cons, Class.nodes_resolve hfirst, ih hrest]

theorem Program.nodes_resolve {p : Program} {r : Resolved} (hr : p.resolve = .ok r) :
    r.tree.nodes = p.nodes := by
  cases p with
  | letIn classes decls body span =>
    simp only [Program.resolve, bind_eq_ok, pure_eq_ok] at hr
    obtain ⟨resolved, hresolved, rfl⟩ := hr
    simp only [Program.nodes, Program.classes, Program.decls, Program.body,
      Class.nodes_resolveAll hresolved, Decl.listNodes_annotateAll, Expr.nodes_annotate]
  | expr body span =>
    obtain rfl := Except.ok.inj hr
    simp only [Program.nodes, Program.classes, Program.decls, Program.body, Expr.nodes_annotate]

/-! ## Labels -/

/-- What `n` nodes may take from a supply: two branch targets and one function entry each. -/
structure Supply.Spends (n : Nat) (s t : Supply) : Prop where
  branch : t.branch ≤ s.branch + 2 * n
  function : t.function ≤ s.function + n

namespace Supply.Spends
variable {n k : Nat} {s t u : Supply}

theorem none (n : Nat) (s : Supply) : Spends n s s := ⟨Nat.le_add_right _ _, Nat.le_add_right _ _⟩

theorem append (h : Spends n s t) (h' : Spends k t u) : Spends (n + k) s u where
  branch := by
    have := h.branch
    have := h'.branch
    omega
  function := by
    have := h.function
    have := h'.function
    omega

theorem mono (h : Spends n s t) (hn : n ≤ k) : Spends k s t where
  branch := by
    have := h.branch
    omega
  function := by
    have := h.function
    omega

/-- Expressions take no function entries. -/
theorem branches {m : Nat} (h : m ≤ s.branch + 2 * n) : Spends n s { s with branch := m } :=
  ⟨h, Nat.le_add_right _ _⟩

/-- The node of a function takes the number of its entry. -/
theorem entry (s : Supply) : Spends 1 s { s with function := s.function + 1 } :=
  ⟨Nat.le_add_right _ _, Nat.le_refl _⟩

end Supply.Spends

theorem BinaryOp.branches_le_two (op : BinaryOp) : op.branches ≤ 2 := by
  cases op with
  | arith _ => exact Nat.zero_le 2
  | _ => exact Nat.le_refl 2

mutual
theorem Expr.code_branches (memory : Word) :
    ∀ (e : Expr) {n n' : Nat} {c : Code}, e.code memory n = .ok (c, n') → n' ≤ n + 2 * e.nodes
  | .int .., n, n', c, h | .bool .., n, n', c, h | .null _, n, n', c, h => by
    simp only [Expr.code, Except.ok.injEq, Prod.mk.injEq] at h
    obtain ⟨-, rfl⟩ := h
    exact Nat.le_add_right _ _
  | .ident .., n, n', c, h => by
    simp only [Expr.code, bind_eq_ok, pure_eq_ok, Prod.mk.injEq] at h
    obtain ⟨r, -, -, rfl⟩ := h
    exact Nat.le_add_right _ _
  | .call callee args _ _, n, n', c, h => by
    simp only [Expr.code, bind_eq_ok, pure_eq_ok, Prod.exists, Prod.mk.injEq] at h
    obtain ⟨r, -, code, m, hargs, -, rfl⟩ := h
    have := Expr.codeReversed_branches memory args hargs
    rw [Expr.nodes]
    omega
  | .methodCall _ _ args _ _ _, n, n', c, h => by
    simp only [Expr.code, bind_eq_ok, pure_eq_ok, Prod.exists, Prod.mk.injEq] at h
    obtain ⟨r, -, entry, -, code, m, hargs, -, rfl⟩ := h
    have := Expr.codeReversed_branches memory args hargs
    rw [Expr.nodes]
    omega
  | .new _ args _ _, n, n', c, h => by
    simp only [Expr.code, bind_eq_ok, pure_eq_ok, Prod.exists, Prod.mk.injEq] at h
    obtain ⟨entry, -, code, m, hargs, address, -, -, rfl⟩ := h
    have := Expr.codeAll_branches memory args hargs
    rw [Expr.nodes]
    omega
  | .ite c t e _, n, n', code, h => by
    simp only [Expr.code, bind_eq_ok, pure_eq_ok, Prod.exists, Prod.mk.injEq] at h
    obtain ⟨cond, m, hc, elseCode, m', he, thenCode, m'', ht, -, rfl⟩ := h
    have := c.code_branches memory hc
    have := e.code_branches memory he
    have := t.code_branches memory ht
    rw [Expr.nodes]
    omega
  | .binary op l r _, n, n', c, h => by
    simp only [Expr.code, bind_eq_ok, pure_eq_ok, Prod.exists, Prod.mk.injEq] at h
    obtain ⟨left, m, hl, right, m', hr, -, rfl⟩ := h
    have := l.code_branches memory hl
    have := r.code_branches memory hr
    have := op.branches_le_two
    rw [Expr.nodes]
    omega
  | .not e _, n, n', c, h => by
    simp only [Expr.code, bind_eq_ok, pure_eq_ok, Prod.exists, Prod.mk.injEq] at h
    obtain ⟨operand, m, he, -, rfl⟩ := h
    have := e.code_branches memory he
    rw [Expr.nodes]
    omega
  | .print e _, n, n', c, h => by
    simp only [Expr.code, bind_eq_ok, pure_eq_ok, Prod.exists, Prod.mk.injEq] at h
    obtain ⟨value, m, he, -, rfl⟩ := h
    have := e.code_branches memory he
    rw [Expr.nodes]
    omega

theorem Expr.codeAll_branches (memory : Word) :
    ∀ (es : List Expr) {n n' : Nat} {c : Code}, Expr.codeAll memory es n = .ok (c, n') →
      n' ≤ n + 2 * Expr.listNodes es
  | [], n, n', c, h => by
    simp only [Expr.codeAll, Except.ok.injEq, Prod.mk.injEq] at h
    obtain ⟨-, rfl⟩ := h
    exact Nat.le_add_right _ _
  | e :: es, n, n', c, h => by
    simp only [Expr.codeAll, bind_eq_ok, pure_eq_ok, Prod.exists, Prod.mk.injEq] at h
    obtain ⟨first, m, he, rest, m', hes, -, rfl⟩ := h
    have := e.code_branches memory he
    have := Expr.codeAll_branches memory es hes
    rw [Expr.listNodes]
    omega

theorem Expr.codeReversed_branches (memory : Word) :
    ∀ (es : List Expr) {n n' : Nat} {c : Code}, Expr.codeReversed memory es n = .ok (c, n') →
      n' ≤ n + 2 * Expr.listNodes es
  | [], n, n', c, h => by
    simp only [Expr.codeReversed, Except.ok.injEq, Prod.mk.injEq] at h
    obtain ⟨-, rfl⟩ := h
    exact Nat.le_add_right _ _
  | e :: es, n, n', c, h => by
    simp only [Expr.codeReversed, bind_eq_ok, pure_eq_ok, Prod.exists, Prod.mk.injEq] at h
    obtain ⟨rest, m, hes, first, m', he, -, rfl⟩ := h
    have := Expr.codeReversed_branches memory es hes
    have := e.code_branches memory he
    rw [Expr.listNodes]
    omega
end

mutual
theorem Decl.code_spends (memory : Word) :
    ∀ (d : Decl) {s : Supply} {out : Output}, d.code memory s = .ok out → Supply.Spends d.nodes s out.supply
  | .var v, s, out, h => by
    rcases Decl.code_var_cases h with ⟨-, rfl⟩ | ⟨-, c, n, -, hc, rfl⟩
    · exact .none _ _
    · exact (Supply.Spends.branches (Expr.code_branches memory v.init hc)).mono (by rw [Decl.nodes]; omega)
  | .function f, s, out, h => by
    rcases Decl.code_function_cases h with ⟨-, rfl⟩ | ⟨-, blocks, s', -, hf, rfl⟩
    · exact .none _ _
    · exact f.code_spends memory hf

theorem Function.code_spends (memory : Word) :
    ∀ (f : Function) {s s' : Supply} {blocks : List Code}, f.code memory s = .ok (blocks, s') →
      Supply.Spends f.nodes s s'
  | ⟨_, params, _, locals, body, _⟩, s, s', blocks, h => by
    simp only [Function.code, bind_eq_ok, pure_eq_ok, Prod.exists, Prod.mk.injEq] at h
    obtain ⟨decls, hd, value, n, hv, -, rfl⟩ := h
    have hall := ((Supply.Spends.entry s).append (Decl.codeAll_spends memory locals hd)).append
      (.branches (Expr.code_branches memory body hv))
    exact hall.mono (by rw [Function.nodes]; omega)

theorem Decl.codeAll_spends (memory : Word) :
    ∀ (ds : List Decl) {s : Supply} {out : Output}, Decl.codeAll memory ds s = .ok out →
      Supply.Spends (Decl.listNodes ds) s out.supply
  | [], s, out, h => by
    obtain rfl := Except.ok.inj h
    exact .none _ _
  | d :: ds, s, out, h => by
    simp only [Decl.codeAll, bind_eq_ok, pure_eq_ok] at h
    obtain ⟨first, hd, rest, hds, rfl⟩ := h
    have hrest := Decl.codeAll_spends memory ds hds
    exact (d.code_spends memory hd).append hrest
end

theorem Class.methodCode_spends (memory : Word) (cls : String) (span : Span) (ds : List Method)
    {table : DispatchTable} {s : Supply} {out : MethodOutput}
    (h : Class.methodCode memory cls span ds table s = .ok out) :
    Supply.Spends (ds.map (·.function.nodes)).sum s out.supply := by
  induction ds generalizing table s out with
  | nil =>
    obtain rfl := Except.ok.inj h
    exact .none _ _
  | cons d ds ih =>
    rw [List.map_cons, List.sum_cons]
    rw [Class.methodCode] at h
    split at h
    · exact (ih h).mono (Nat.le_add_left _ _)
    · simp only [bind_eq_ok, pure_eq_ok, Prod.exists] at h
      obtain ⟨blocks, s', hf, i, -, t, -, rest, hrest, rfl⟩ := h
      have hlater := ih hrest
      exact (d.function.code_spends memory hf).append hlater

theorem Class.code_spends (memory : Word) (c : Class) {tables : List DispatchTable} {s : Supply}
    {out : Output × List DispatchTable} (h : c.code memory tables s = .ok out) :
    Supply.Spends c.nodes s out.1.supply := by
  rcases Class.code_cases h with
    ⟨-, rfl⟩ | ⟨name, entry, inherited, methods, slot, recorded, -, -, -, hm, -, -, rfl⟩
  · exact .none _ _
  · exact (Class.methodCode_spends memory _ _ _ hm).mono (Nat.le_add_left _ _)

theorem Class.codeAll_spends (memory : Word) (cs : List Class) {tables : List DispatchTable} {s : Supply}
    {out : Output × List DispatchTable} (h : Class.codeAll memory cs tables s = .ok out) :
    Supply.Spends (cs.map Class.nodes).sum s out.1.supply := by
  induction cs generalizing tables s out with
  | nil =>
    obtain rfl := Except.ok.inj h
    exact .none _ _
  | cons c cs ih =>
    simp only [Class.codeAll, bind_eq_ok, pure_eq_ok, Prod.exists] at h
    obtain ⟨first, t, hc, rest, t', hcs, rfl⟩ := h
    rw [List.map_cons, List.sum_cons]
    have hrest := ih hcs
    exact (c.code_spends memory hc).append hrest

/-- The number of a label among the branch targets or among the function entries. -/
def Label.number : Label → Nat
  | branch n | function n => n

/-- Code defines no label beyond what its nodes may take. -/
theorem Numbered.number_lt {s t : Supply} {c : Code} {n : Nat} (h : Numbered s t c)
    (hs : Supply.Spends n s t) {l : Label} (hl : l ∈ c.labels) :
    l.number < s.branch + s.function + 2 * n := by
  have hcount := h.count l ▸ List.count_pos_iff.2 hl
  have := hs.branch
  have := hs.function
  cases l with
  | branch k =>
    simp only [Label.between] at hcount
    rw [Label.number]
    split at hcount <;> omega
  | function k =>
    simp only [Label.between] at hcount
    rw [Label.number]
    split at hcount <;> omega

theorem Program.label_lt {memory : Word} {p : Program} {a : Assembly}
    (h : p.generate memory = .ok a) {l : Label} (hl : l ∈ a.instructions.labels) :
    l.number < 2 * p.nodes := by
  cases p with
  | letIn classes decls body span =>
    simp only [Program.generate, bind_eq_ok, pure_eq_ok, Prod.exists] at h
    obtain ⟨cs, tables, hc, ds, hd, value, n, hv, rfl⟩ := h
    have hnumbered :=
      ((Class.codeAll_numbered memory classes hc).append (Decl.codeAll_numbered memory decls hd)).append
      (Expr.code_numbered memory ds.supply.function body hv)
    have hspends :=
      ((Class.codeAll_spends memory classes hc).append (Decl.codeAll_spends memory decls hd)).append
      (.branches (Expr.code_branches memory body hv))
    refine Nat.lt_of_lt_of_le (hnumbered.number_lt hspends (l := l) ?_) ?_
    · simp only [Assembly.instructions, List.flatten_append, Code.labels_append, Code.labels_cons,
        Instruction.defines?,
        Option.toList, Code.labels_nil, List.mem_append, List.not_mem_nil, or_false, false_or] at hl ⊢
      tauto
    · simp only [Program.nodes, Program.classes, Program.decls, Program.body]
      omega
  | expr body span =>
    simp only [Program.generate, bind_eq_ok, pure_eq_ok, Prod.exists] at h
    obtain ⟨value, n, hv, rfl⟩ := h
    have hlabels : l ∈ value.labels := by
      simpa [Assembly.instructions, Code.labels_cons, Instruction.defines?] using hl
    have hspends := Supply.Spends.branches (s := ⟨0, 0⟩) (Expr.code_branches memory body hv)
    refine Nat.lt_of_lt_of_le ((Expr.code_numbered memory 0 body hv).number_lt hspends hlabels) ?_
    simp only [Program.nodes, Program.body]
    omega

/-! ## Levels and frames -/

theorem Expr.nodes_pos (e : Expr) : 0 < e.nodes := by
  cases e <;> rw [Expr.nodes] <;> omega

theorem Decl.nodes_le_listNodes {ds : List Decl} {d : Decl} (hd : d ∈ ds) :
    d.nodes ≤ Decl.listNodes ds := by
  induction ds with
  | nil => cases hd
  | cons e ds ih =>
    rw [Decl.listNodes]
    rcases List.mem_cons.1 hd with rfl | hmem
    · exact Nat.le_add_right _ _
    · exact Nat.le_trans (ih hmem) (Nat.le_add_left _ _)

/-- A function inside another is smaller by at least the node of the outer one and its body. -/
theorem Function.nodes_of_mem_locals {f g : Function} (hg : Decl.function g ∈ f.locals) :
    g.nodes + 2 ≤ f.nodes := by
  have hle := Decl.nodes_le_listNodes hg
  obtain ⟨name, params, ret, locals, body, span⟩ := f
  have := body.nodes_pos
  simp only [Decl.nodes] at hle
  rw [Function.nodes]
  omega

/-- Each level that a function is nested in has a node of its own. -/
def Function.LevelsIn (n : Nat) (s : Scopes) (f : Function) : Prop := s.level + 1 + f.nodes ≤ n

theorem Function.hereditary_levelsIn (n : Nat) : Hereditary (Function.LevelsIn n) := by
  intro s f hf before g after name signature hlocals _
  have hlevel : ((Decl.bindAll (s.enter f.params) before).declareLocal name.text (.arrow signature)).level =
      s.level + 1 := by
    rw [Scopes.declareLocal, Scopes.level_bind, Scopes.level_takeOffset, Decl.level_bindAll,
      Scopes.level_enter]
  have hsmaller : g.nodes + 2 ≤ f.nodes :=
    Function.nodes_of_mem_locals (hlocals ▸ List.mem_append_right before List.mem_cons_self)
  rw [Function.LevelsIn] at hf ⊢
  omega

/-- What is counted for a body, where `n` is the size of the program: the levels around it, the offset past
its last parameter, and the offset that its next local declaration would get. -/
structure Visit.Counted (n : Nat) (v : Visit) : Prop where
  level : v.level < n
  params : Layout.paramOffset v.function.params.length < n
  locals : -(n : Int) ≤ (Decl.bindAll v.inner v.function.locals).nextOffset

theorem Decl.nextOffset_bindAll_ge (s : Scopes) (ds : List Decl) :
    s.nextOffset - Decl.listNodes ds ≤ (Decl.bindAll s ds).nextOffset := by
  have htakes := s.takes_offsets (ds.map Decl.binding?)
  have hlength := s.length_taken (ds.map Decl.binding?)
  have hcount := List.countP_le_length (p := Option.isSome) (l := ds.map Decl.binding?)
  have hnodes := Decl.length_le_listNodes ds
  rw [List.length_map] at hcount
  rw [Decl.bindAll_eq, htakes.after, hlength]
  omega

theorem Visit.counted {n : Nat} {v : Visit} (h : Function.LevelsIn n v.scopes v.function) :
    v.Counted n := by
  have hlocals := Decl.nextOffset_bindAll_ge v.inner v.function.locals
  have hinner : v.inner.nextOffset = Layout.firstLocalOffset := v.scopes.nextOffset_enter v.function.params
  obtain ⟨classes, scopes, ⟨name, params, ret, locals, body, span⟩⟩ := v
  have := body.nodes_pos
  simp only [Function.LevelsIn, Function.nodes, Layout.firstLocalOffset] at h hlocals hinner
  refine ⟨?_, ?_, ?_⟩
  · simp only [Visit.level]
    omega
  · simp only [Layout.paramOffset]
    omega
  · simp only
    omega

/-- The body of a method is two levels below the outermost scope. -/
theorem Class.visits_counted {env : Env} {c : Class} {n : Nat} (hn : env.scopes.nested = [])
    (hc : c.nodes + 2 ≤ n) :
    ∀ v ∈ c.visits env, v.Counted n := by
  unfold Class.visits
  split
  · next name p _ hp =>
    intro v hv
    obtain ⟨d, hd, hv⟩ := List.mem_flatMap.1 hv
    unfold Method.visits at hv
    split at hv
    · have hfunction : d.function ∈ c.methods.map Method.function :=
        (Class.place_keeps hp).2 ▸ List.mem_map_of_mem hd
      have hsize : d.function.nodes ≤ (c.methods.map (·.function.nodes)).sum := by
        obtain ⟨d', hd', heq⟩ := List.mem_map.1 hfunction
        exact heq ▸ List.single_le_sum (by simp) _ (List.mem_map_of_mem (f := (·.function.nodes)) hd')
      refine Visit.counted (Function.forall_visits (Function.hereditary_levelsIn n) d.function _ ?_ v hv).2
      have hlevel : ((env.declareClass name.text p.members).enterClass p.members).scopes.level = 1 := by
        rw [Env.enterClass, Scopes.level_push, Env.scopes_declareClass hn, Scopes.level,
          Scopes.nested_declareLocal hn]
        rfl
      rw [Class.nodes] at hc
      rw [Function.LevelsIn, hlevel]
      omega
    · cases hv
  · exact List.forall_mem_nil _

theorem Class.listVisits_counted {env : Env} {cs : List Class} {n : Nat} (hn : env.scopes.nested = [])
    (hb : Bare (cs.flatMap Class.notes)) (hcs : (cs.map Class.nodes).sum + 2 ≤ n) :
    ∀ v ∈ Class.listVisits env cs, v.Counted n := by
  induction cs generalizing env with
  | nil => exact List.forall_mem_nil _
  | cons c cs ih =>
    rw [List.flatMap_cons, bare_append] at hb
    rw [List.map_cons, List.sum_cons] at hcs
    rw [Class.listVisits, List.forall_mem_append]
    refine ⟨Class.visits_counted hn (by omega), ?_⟩
    split
    · next r hr => exact ih (Class.resolve_slotted hn hb.1 hr).nested hb.2 (by omega)
    · exact List.forall_mem_nil _

theorem Decl.listVisits_counted {classes : Table VirtualTable} {s : Scopes} {ds : List Decl} {n : Nat}
    (hs : s.nested = []) (hds : Decl.listNodes ds + 1 ≤ n) :
    ∀ v ∈ Decl.listVisits classes s ds, v.Counted n := by
  intro v hv
  refine Visit.counted (Decl.forall_listVisits (Function.hereditary_levelsIn n) ds s ?_ v hv).2
  intro before g after name signature heq _
  have hsize : g.nodes ≤ Decl.listNodes ds :=
    Decl.nodes_le_listNodes (d := .function g) (heq ▸ List.mem_append_right before List.mem_cons_self)
  have hlevel : s.level = 0 := by rw [Scopes.level, hs, List.length_nil]
  rw [Function.LevelsIn, Scopes.declareLocal, Scopes.level_bind, Scopes.level_takeOffset,
    Decl.level_bindAll, hlevel]
  omega

/-! ## Programs -/

/-- What is counted while a program is compiled, where `n` is its size. -/
structure Program.Counted (n : Nat) (p : Program) : Prop where
  bodies : ∀ v ∈ p.visits, v.Counted n
  /-- The offset that the next declaration of the outermost scope would get. -/
  outermost : ∀ r, Class.resolveAll .initial p.classes = .ok r →
    -(n : Int) ≤ (Decl.bindAll r.env.scopes p.decls).nextOffset
  labels : ∀ r memory a, p.resolve = .ok r → r.tree.generate memory = .ok a →
    ∀ l ∈ a.instructions.labels, l.number < 2 * n

/-- Nothing is counted that the program has no node for. -/
theorem Program.counters_le_nodes {p : Program} (hb : Bare p.notes) (ht : Written p.types) :
    p.Counted p.nodes := by
  have hbody := p.body.nodes_pos
  have hclasses : Bare (p.classes.flatMap Class.notes) := (bare_append.1 (bare_append.1 hb).1).1
  obtain ⟨resolved, hresolved, hfits, -⟩ :=
    Class.resolveAll_fits Env.fits_initial hclasses (written_append.1 ht).1
  refine ⟨List.forall_mem_append.2 ⟨?_, ?_⟩, fun r hr => ?_, fun r memory a hr h l hl => ?_⟩
  · exact Class.listVisits_counted rfl hclasses (by rw [Program.nodes]; omega)
  · rw [Program.functionVisits, hresolved]
    exact Decl.listVisits_counted hfits.nested (by rw [Program.nodes]; omega)
  · obtain rfl := Except.ok.inj (hresolved.symm.trans hr)
    have hlower := hfits.lower
    have hdecls := Decl.nextOffset_bindAll_ge resolved.env.scopes p.decls
    rw [Program.nodes]
    omega
  · exact Program.nodes_resolve hr ▸ Program.label_lt h hl

theorem Layout.narrow_of_lt {n : Nat} (h : n < 2147483648) : narrow n = n :=
  Int.bmod_eq_of_le (by omega) (by omega)

/-- What is counted for a body is a number of 32 bits. Levels are unsigned and offsets are signed, and the
position of a parameter is narrowed before its offset is computed. -/
structure Visit.CountersFit (v : Visit) : Prop where
  level : v.level < 2 ^ 32
  param (i : Nat) : i ≤ v.function.params.length → Layout.paramOffset? i = .ok (Layout.paramOffset i)
  locals : -2 ^ 31 ≤ (Decl.bindAll v.inner v.function.locals).nextOffset

theorem Visit.Counted.countersFit {n : Nat} {v : Visit} (h : v.Counted n) (hn : n < 2 ^ 30) :
    v.CountersFit where
  level := by
    have := h.level
    omega
  param i hi := by
    have hparams := h.params
    simp only [Layout.paramOffset] at hparams
    have hnarrow : Layout.narrow i = i := Layout.narrow_of_lt (by omega)
    rw [Layout.paramOffset?, hnarrow, if_pos]
    rw [Layout.paramOffset]
    omega
  locals := by
    have := h.locals
    omega

/-- None of the counters leaves the numbers of 32 bits while a program is compiled. -/
structure Program.CountersFit (p : Program) : Prop where
  bodies : ∀ v ∈ p.visits, v.CountersFit
  outermost : ∀ r, Class.resolveAll .initial p.classes = .ok r →
    -2 ^ 31 ≤ (Decl.bindAll r.env.scopes p.decls).nextOffset
  /-- The number after a label is counted before the label is used. -/
  labels : ∀ r memory a, p.resolve = .ok r → r.tree.generate memory = .ok a →
    ∀ l ∈ a.instructions.labels, l.number + 1 < 2 ^ 32

theorem Program.counters_fit {p : Program} (hb : Bare p.notes) (ht : Written p.types)
    (hn : p.nodes < 2 ^ 30) :
    p.CountersFit := by
  have hall := Program.counters_le_nodes hb ht
  refine ⟨fun v hv => (hall.bodies v hv).countersFit hn, fun r hr => ?_, fun r memory a hr h l hl => ?_⟩
  · have := hall.outermost r hr
    omega
  · have := hall.labels r memory a hr h l hl
    omega

end Classlet

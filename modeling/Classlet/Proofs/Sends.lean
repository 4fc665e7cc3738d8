import Classlet.Proofs.Placement
import Classlet.Proofs.Programs
import Classlet.Proofs.Substitution
/-!
# Calls through dispatch tables

A call of a method, on an object or on the object around it, is typed against one class and may run the
method that any subclass has at that offset. The lists of `sends` say what the calls of a program are typed
against and how many arguments they pass. `Program.subclasses_substitutable`: the layout of a subclass
matches that of the class, and the method found in the subclass removes as many arguments as the call
passes.
-/

namespace Classlet

/-! ## Sends -/

/-- A call through the dispatch pointer of an object: the class it is typed against, the method there, and
the number of arguments. -/
structure Send where
  cls : Option String
  method : Option Entry
  args : Nat

mutual
/-- The sends in an expression. A call by name is one if the name is a method of `here`, the class around
it. -/
def Expr.sends (here : Option String) : Expr → List Send
  | .int .. | .bool .. | .null _ | .ident .. => []
  | .call _ args _ target =>
    (if (target.map fun r => r.entry.type.isMethod) =
      some true then [⟨here, target.map Resolution.entry, args.length⟩]
      else []) ++ Expr.listSends here args
  | .methodCall _ _ args _ receiver target =>
    ⟨receiver.bind (·.entry.type.ref?), target, args.length⟩ :: Expr.listSends here args
  | .new _ args _ _ => Expr.listSends here args
  | .ite c t e _ => c.sends here ++ t.sends here ++ e.sends here
  | .binary _ l r _ => l.sends here ++ r.sends here
  | .not e _ | .print e _ => e.sends here

def Expr.listSends (here : Option String) : List Expr → List Send
  | [] => []
  | e :: es => e.sends here ++ Expr.listSends here es
end

mutual
/-- The sends in a declaration. Incomplete declarations are passed over. -/
def Decl.sends (here : Option String) : Decl → List Send
  | .var v => if v.declared?.isSome then v.init.sends here else []
  | .function f => if f.declared?.isSome then f.sends here else []

def Function.sends (here : Option String) : Function → List Send
  | ⟨_, _, _, locals, body, _⟩ => Decl.listSends here locals ++ body.sends here

def Decl.listSends (here : Option String) : List Decl → List Send
  | [] => []
  | d :: ds => d.sends here ++ Decl.listSends here ds
end

/-- The sends in the methods of a class that have an offset. -/
def Class.sends (c : Class) : List Send :=
  match c.name with
  | some name => (c.methods.filter (·.offset.isSome)).flatMap (·.function.sends (some name.text))
  | none => []

def Program.sends (p : Program) : List Send :=
  p.classes.flatMap Class.sends ++ Decl.listSends none p.decls ++ p.body.sends none

/-! ## What sends are typed against -/

/-- The send calls the method at an offset of the layout of a class, with as many arguments as that has
parameters. -/
def Send.Typed (info? : String → Option ClassInfo) (send : Send) : Prop :=
  ∃ cls r o s, send.cls = some cls ∧ info? cls = some r ∧ send.method = some (Members.methodEntry o s) ∧
    r.members.methods[o]? = some s ∧ s.params.length = send.args

/-- Inside the class `here`: the names of methods are those of methods of the class. -/
structure Env.Inside (info? : String → Option ClassInfo) (here : Option String) (env : Env) : Prop where
  tables (x : String) (t : VirtualTable) : env.classes.get? x = some t → ∃ r, info? x = some r ∧
    t = r.members.table
  method (x : String) (e : Entry) : env.scopes.lookup? x = some e → e.type.isMethod = true →
    ∃ cls r, here = some cls ∧ info? cls = some r ∧ r.members.table.get? x = some e

section Inside
variable {info? : String → Option ClassInfo} {here : Option String} {env : Env}
  {classes : Table VirtualTable} {s : Scopes} {x : String}

theorem Env.Outside.inside (h : env.Outside info?) : env.Inside info? none where
  tables := h.tables
  method x e he hm := by
    rw [h.isMethod x e he] at hm
    cases hm

theorem Env.Outside.enterClass (h : env.Outside info?) {cls : String} {r : ClassInfo}
    (hr : info? cls = some r) :
    (env.enterClass r.members).Inside info? (some cls) where
  tables := h.tables
  method x e he hm := by
    refine ⟨cls, r, rfl, hr, ?_⟩
    rw [Env.enterClass, Scopes.lookup?_eq] at he
    rcases Option.or_eq_some_iff.1 he with hown | ⟨-, houter⟩
    · exact hown
    · rw [h.isMethod x e houter] at hm
      cases hm

theorem Env.Inside.bind (h : Env.Inside info? here ⟨s, classes⟩) {e : Entry}
    (he : e.type.isMethod = false) :
    Env.Inside info? here ⟨s.bind x e, classes⟩ := by
  refine ⟨h.tables, fun y e' hy hm => ?_⟩
  rcases Scopes.lookup?_bind_cases hy with rfl | hy
  · rw [he] at hm
    cases hm
  · exact h.method y e' hy hm

theorem Env.Inside.declareLocal (h : Env.Inside info? here ⟨s, classes⟩) {t : Ty}
    (ht : t.isMethod = false) :
    Env.Inside info? here ⟨s.declareLocal x t, classes⟩ := by
  have htaken : Env.Inside info? here ⟨s.takeOffset, classes⟩ :=
    ⟨h.tables, fun y e hy => h.method y e (Scopes.lookup?_takeOffset s y ▸ hy)⟩
  exact htaken.bind (e := ⟨s.level, t, s.nextOffset⟩) ht

theorem Env.Inside.bindParams (h : Env.Inside info? here ⟨s, classes⟩) {ps : List Param}
    (ht : Written (ps.filterMap Param.type)) (i : Nat) :
    Env.Inside info? here ⟨s.bindParams i ps, classes⟩ :=
  Scopes.bindParams_preserves (P := fun s => Env.Inside info? here ⟨s, classes⟩) h
    fun _ _ _ t _ _ hmem hs =>
    hs.bind (Ty.isMethod_of_isWritten (ht t hmem))

theorem Env.Inside.enter (h : Env.Inside info? here ⟨s, classes⟩) {ps : List Param}
    (ht : Written (ps.filterMap Param.type)) :
    Env.Inside info? here ⟨s.enter ps, classes⟩ := by
  have hpushed : Env.Inside info? here ⟨s.push (.opened .function .empty), classes⟩ :=
    ⟨h.tables, fun x e he => h.method x e (Scopes.lookup?_push_empty s .function x ▸ he)⟩
  exact hpushed.bindParams ht 0

theorem Env.Inside.bindDecl (h : Env.Inside info? here ⟨s, classes⟩) {d : Decl} (ht : Written d.types) :
    Env.Inside info? here ⟨d.bind s, classes⟩ := by
  unfold Decl.bind
  split
  · next name t hd => exact h.declareLocal (Ty.isMethod_of_isWritten (Decl.isWritten_of_declared? ht hd))
  · exact h

theorem Env.Inside.bindAll (h : Env.Inside info? here ⟨s, classes⟩) {ds : List Decl}
    (ht : Written (Decl.listTypes ds)) :
    Env.Inside info? here ⟨Decl.bindAll s ds, classes⟩ := by
  induction ds generalizing s with
  | nil => exact h
  | cons d ds ih =>
    rw [Decl.listTypes, written_append] at ht
    exact ih (h.bindDecl ht.1) ht.2

end Inside

/-! ## Expressions and declarations -/

section Walk
variable {info? : String → Option ClassInfo} {trees : List Class} {here : Option String} {env : Env}
  {h : Hierarchy}

/-- A method in a virtual table is the one at its offset in the layout. -/
theorem Lineage.methodEntry (hl : Lineage info? trees) {cls x : String} {r : ClassInfo} {e : Entry}
    (hr : info? cls = some r) (he : r.members.table.get? x = some e) (hm : e.type.isMethod = true) :
    ∃ o s, e = Members.methodEntry o s ∧ r.members.methods[o]? = some s := by
  have hnamed := hl.named hr
  rcases hnamed.get?_cases x with ⟨i, t, -, -, ht, hget⟩ | ⟨i, s, hi, -, -⟩ | ⟨-, -, hget⟩
  · obtain rfl := Option.some.inj (hget.symm.trans he)
    cases ht.symm.trans hm
  · obtain ⟨s', hs', hget⟩ := hnamed.method i x hi
    exact ⟨i, s', Option.some.inj (he.symm.trans hget), hs'⟩
  · cases hget.symm.trans he

theorem Lineage.typed (hl : Lineage info? trees) {send : Send} {cls x name : String} {r : ClassInfo}
    {e : Entry} {span : Span} {s : Signature} (hcls : send.cls = some cls) (hr : info? cls = some r)
    (he : r.members.table.get? x = some e) (hm : e.type.isMethod = true) (hmethod : send.method = some e)
    (hs : e.callee name send.args span = .ok s) :
    send.Typed info? := by
  obtain ⟨o, s', rfl, hs'⟩ := hl.methodEntry hr he hm
  obtain ⟨hcallable, hlength⟩ := Entry.callee_eq_ok hs
  obtain rfl := Option.some.inj hcallable
  exact ⟨cls, r, o, s', hcls, hr, hmethod, hs', hlength⟩

mutual
theorem Expr.sends_typed (hl : Lineage info? trees) (hin : env.Inside info? here) :
    ∀ (e : Expr) {t : Ty}, Bare e.notes → (e.annotate env).typeOf h = .ok t →
      ∀ send ∈ (e.annotate env).sends here, send.Typed info?
  | .int .., _, _, _ | .bool .., _, _, _ | .null _, _, _, _ | .ident .., _, _, _ => List.forall_mem_nil _
  | .call callee args span target, _, hb, ht => by
    obtain ⟨htarget, hargs⟩ := bare_cons.1 hb
    obtain rfl : target = none := Option.isNone_iff_eq_none.1 htarget
    simp only [Expr.annotate, Expr.typeOf, bind_eq_ok, annotated_eq_ok, Option.none_or] at ht
    obtain ⟨r, hr, s, hs, ⟨⟩, hchecks, -⟩ := ht
    rw [Expr.annotate, Expr.sends, Option.none_or, hr]
    refine List.forall_mem_append.2 ⟨fun send hsend => ?_,
      Expr.listSends_typed hl hin args hargs (Entry.callee_eq_ok hs).2.symm hchecks⟩
    split at hsend
    · next hm =>
      obtain rfl := List.mem_singleton.1 hsend
      obtain ⟨e, he, rfl⟩ := Option.map_eq_some_iff.1 hr
      -- a method that is called by its name alone belongs to the class around the call
      obtain ⟨cls, r, hhere, hinfo, hget⟩ := hin.method callee.text e he (Option.some.inj hm)
      exact hl.typed hhere hinfo hget (Option.some.inj hm) rfl hs
    · cases hsend
  | .methodCall object method args span receiver target, _, hb, ht => by
    obtain ⟨htargets, hargs⟩ := bare_cons.1 hb
    rw [Note.isEmpty, Bool.and_eq_true, Option.isNone_iff_eq_none, Option.isNone_iff_eq_none] at htargets
    obtain ⟨rfl, rfl⟩ := htargets
    simp only [Expr.annotate, Expr.typeOf, bind_eq_ok, annotated_eq_ok, Option.none_or] at ht
    obtain ⟨r, hr, e, he, s, hs, ⟨⟩, hchecks, -⟩ := ht
    rw [Expr.annotate, Expr.sends, Option.none_or, Option.none_or, hr]
    refine List.forall_mem_cons.2 ⟨?_,
      Expr.listSends_typed hl hin args hargs (Entry.callee_eq_ok hs).2.symm hchecks⟩
    -- the receiver was looked up twice in the same scopes, once for its own annotation and once for its
    -- class
    obtain ⟨e₀, cls, table, he₀, href, htable, hget, hm⟩ := Env.receiverMethod?_eq_some he
    obtain ⟨e₁, he₁, rfl⟩ := Option.map_eq_some_iff.1 hr
    obtain rfl := Option.some.inj (he₀.symm.trans he₁)
    obtain ⟨info, hinfo, rfl⟩ := hin.tables cls table htable
    exact hl.typed (congrArg Ty.ref? href) hinfo hget hm he hs
  | .new cls args span target, _, hb, ht => by
    simp only [Expr.annotate, Expr.typeOf, bind_eq_ok, annotated_eq_ok] at ht
    obtain ⟨e, -, fields, hfields, ⟨⟩, hchecks, -⟩ := ht
    rw [Expr.annotate, Expr.sends]
    exact Expr.listSends_typed hl hin args (bare_cons.1 hb).2
      (Entry.constructor_eq_ok hfields).2.symm hchecks
  | .ite c t e _, _, hb, ht => by
    rw [Expr.notes, bare_append, bare_append] at hb
    simp only [Expr.annotate, Expr.typeOf, bind_eq_ok] at ht
    obtain ⟨t₁, hc, ht⟩ := ht
    split at ht
    · simp only [bind_eq_ok] at ht
      obtain ⟨t₂, hthen, t₃, helse, -⟩ := ht
      rw [Expr.annotate, Expr.sends, List.forall_mem_append, List.forall_mem_append]
      exact ⟨⟨c.sends_typed hl hin hb.1.1 hc, t.sends_typed hl hin hb.1.2 hthen⟩,
        e.sends_typed hl hin hb.2 helse⟩
    · cases ht
  | .binary op l r _, _, hb, ht => by
    rw [Expr.notes, bare_append] at hb
    simp only [Expr.annotate, Expr.typeOf, bind_eq_ok] at ht
    obtain ⟨t₁, hleft, t₂, hright, -⟩ := ht
    rw [Expr.annotate, Expr.sends, List.forall_mem_append]
    exact ⟨l.sends_typed hl hin hb.1 hleft, r.sends_typed hl hin hb.2 hright⟩
  | .not e _, _, hb, ht => by
    simp only [Expr.annotate, Expr.typeOf, bind_eq_ok] at ht
    obtain ⟨t₁, he, -⟩ := ht
    exact e.sends_typed hl hin hb he
  | .print e _, _, hb, ht => e.sends_typed hl hin hb ht

theorem Expr.listSends_typed (hl : Lineage info? trees) (hin : env.Inside info? here) :
    ∀ (es : List Expr) {ts : List Ty} {callee : String} {position : Nat}, Bare (Expr.listNotes es) →
      (Expr.annotateAll env es).length = ts.length →
      Expr.checkArgs h callee position (Expr.annotateAll env es) ts = .ok () →
      ∀ send ∈ Expr.listSends here (Expr.annotateAll env es), send.Typed info?
  | [], _, _, _, _, _, _ => List.forall_mem_nil _
  | _ :: _, [], _, _, _, hlength, _ => by cases hlength
  | e :: es, t :: ts, callee, position, hb, hlength, hc => by
    rw [Expr.listNotes, bare_append] at hb
    obtain ⟨t', he, -, hrest⟩ := Expr.checkArgs_cons hc
    rw [Expr.annotateAll, Expr.listSends, List.forall_mem_append]
    exact ⟨e.sends_typed hl hin hb.1 he, Expr.listSends_typed hl hin es hb.2 (Nat.succ.inj hlength) hrest⟩
end

end Walk

section Declarations
variable {info? : String → Option ClassInfo} {trees : List Class} {here : Option String}
  {classes : Table VirtualTable} {h : Hierarchy}

mutual
theorem Decl.sends_typed (hl : Lineage info? trees) : ∀ (d : Decl) {s : Scopes} {severity : Severity},
    Env.Inside info? here ⟨s, classes⟩ → Bare d.notes → Written d.types →
      (d.annotate classes s).typeReports h severity = [] →
      ∀ send ∈ (d.annotate classes s).sends here, send.Typed info?
  | .var v, s, severity, hin, hb, _, hr => by
    cases hv : v.declared? with
    | none =>
      simp only [Decl.annotate, hv, Decl.sends]
      exact List.forall_mem_nil _
    | some p =>
      have hv' : ({ v with init := v.init.annotate ⟨s, classes⟩ } : Variable).declared? = some p := hv
      simp only [Decl.annotate, hv, Decl.typeReports, List.map_eq_nil_iff, Option.toList_eq_nil_iff] at hr
      obtain ⟨t', hinit, -⟩ := Variable.typeProblem?_eq_none hv' hr
      simp only [Decl.annotate, hv, Decl.sends, hv', Option.isSome_some, if_true]
      exact v.init.sends_typed hl hin hb hinit
  | .function f, s, severity, hin, hb, ht, hr => by
    cases hf : f.declared? with
    | none =>
      simp only [Decl.annotate, hf, Decl.sends]
      exact List.forall_mem_nil _
    | some p =>
      simp only [Decl.annotate, hf, Decl.typeReports] at hr
      simp only [Decl.annotate, hf, Decl.sends, Function.declared?_annotate, Option.isSome_some, if_true]
      exact f.sends_typed hl (hin.declareLocal rfl) hb ht hf hr

theorem Function.sends_typed (hl : Lineage info? trees) :
    ∀ (f : Function) {s : Scopes} {kind : DeclKind} {a b : Severity} {p : Name × Signature},
      Env.Inside info? here ⟨s, classes⟩ → Bare f.notes → Written f.types → f.declared? = some p →
      (f.annotate classes s).typeReports h kind a b = [] →
      ∀ send ∈ (f.annotate classes s).sends here, send.Typed info?
  | ⟨name, params, ret, locals, body, span⟩, s, kind, a, b, p, hin, hb, ht, hd, hr => by
    rw [Function.notes, bare_append] at hb
    rw [Function.types, written_append, written_append] at ht
    have hd' := (Function.declared?_annotate classes s ⟨name, params, ret, locals, body, span⟩).trans hd
    obtain ⟨hlocals, t, hbody, -⟩ := Function.typeReports_eq_nil hd' hr
    have henter := hin.enter ht.1.1
    rw [Function.annotate, Function.sends, List.forall_mem_append]
    exact ⟨Decl.listSends_typed hl locals henter hb.1 ht.2 hlocals,
      body.sends_typed hl (henter.bindAll ht.2) hb.2 hbody⟩

theorem Decl.listSends_typed (hl : Lineage info? trees) :
    ∀ (ds : List Decl) {s : Scopes} {severity : Severity},
    Env.Inside info? here ⟨s, classes⟩ → Bare (Decl.listNotes ds) → Written (Decl.listTypes ds) →
      Decl.allTypeReports h severity (Decl.annotateAll classes s ds) = [] →
      ∀ send ∈ Decl.listSends here (Decl.annotateAll classes s ds), send.Typed info?
  | [], _, _, _, _, _, _ => List.forall_mem_nil _
  | d :: ds, s, severity, hin, hb, ht, hr => by
    rw [Decl.listNotes, bare_append] at hb
    rw [Decl.listTypes, written_append] at ht
    rw [Decl.annotateAll, Decl.allTypeReports, List.append_eq_nil_iff] at hr
    rw [Decl.annotateAll, Decl.listSends, List.forall_mem_append]
    exact ⟨d.sends_typed hl hin hb.1 ht.1 hr.1,
      Decl.listSends_typed hl ds (hin.bindDecl ht.1) hb.2 ht.2 hr.2⟩
end

end Declarations

/-! ## Classes and programs -/

section Programs
variable {info? : String → Option ClassInfo} {trees earlier : List Class} {c : Class} {r : ClassInfo}
  {h : Hierarchy}

theorem Class.sends_typed (hl : Lineage info? trees) (hs : c.Settled info? earlier r) {name : Name}
    (hname : c.name = some name) (hr : info? name.text = some r) (hcheck : c.typeReports h = .ok []) :
    ∀ send ∈ c.sends, send.Typed info? := by
  simp only [Class.typeReports, hname, bind_eq_ok, pure_eq_ok, List.append_eq_nil_iff,
    List.flatMap_eq_nil_iff] at hcheck
  obtain ⟨-, -, hreports, -⟩ := hcheck
  obtain ⟨env, ds, hbodies⟩ := hs.bodies
  simp only [Class.sends, hname, List.mem_flatMap, List.mem_filter]
  rintro send ⟨d', ⟨hd', hoffset⟩, hsend⟩
  have hreport := hreports d' hd'
  have hat := hs.methodsAt d' hd'
  rw [hbodies.methods] at hd'
  obtain ⟨d, hd, rfl⟩ := List.mem_map.1 hd'
  -- methods without an offset have no sends, and those with one are complete
  have hmember : ∃ q, d.function.declared? = some q := by
    cases hm : (d.annotate (env.enterClass r.members)).member? with
    | none =>
      rw [hat.offset_none hm] at hoffset
      cases hoffset
    | some q =>
      rw [Method.member?_annotate] at hm
      obtain ⟨n, hdeclared, -⟩ := Method.declared?_of_member? hm
      exact ⟨_, hdeclared⟩
  obtain ⟨q, hdeclared⟩ := hmember
  rw [Method.typeReports, if_pos hoffset] at hreport
  rw [Method.offset_annotate] at hoffset
  rw [Method.annotate, if_pos hoffset] at hreport hsend
  exact d.function.sends_typed hl (hbodies.outside.enterClass hr) (hbodies.bare d hd)
    (hbodies.written d hd) hdeclared hreport
    send hsend

/-- A program on which resolution and checking report nothing. -/
theorem Program.lineage {p : Program} (hb : Bare p.notes) (ht : Written p.types) {resolved : Resolved}
    (hres : p.resolve = .ok resolved) (hr : resolved.reports = []) {t : Ty}
    (hcheck : resolved.tree.check .empty = .ok ⟨some t, [], h⟩) :
    ∃ info?, Lineage info? resolved.tree.classes ∧ ∀ send ∈ resolved.tree.sends, send.Typed info? := by
  obtain ⟨hclasses, hdecls, hbody⟩ := Program.check_eq_ok hcheck
  cases p with
  | letIn classes decls body span =>
    simp only [Program.notes, Program.classes, Program.decls, Program.body, bare_append] at hb
    simp only [Program.types, Program.classes, Program.decls, written_append] at ht
    simp only [Program.resolve, bind_eq_ok, pure_eq_ok] at hres
    obtain ⟨rc, hrc, rfl⟩ := hres
    obtain ⟨hr, -⟩ := List.append_eq_nil_iff.1 hr
    obtain ⟨info?, hl, hreg⟩ := lineage_initial.run registry_initial hb.1.1 ht.1 hrc hr
    rw [List.nil_append] at hl hreg
    obtain ⟨-, hchecks, -⟩ := Class.checkAll_spec hl.nodup (fun _ _ => rfl) hclasses
    have hin := hreg.outside.inside
    refine ⟨info?, hl, List.forall_mem_append.2 ⟨List.forall_mem_append.2 ⟨?_, ?_⟩, ?_⟩⟩
    · intro send hsend
      obtain ⟨c, hc, hsend⟩ := List.mem_flatMap.1 hsend
      obtain ⟨i, hi⟩ := List.mem_iff_getElem?.1 hc
      cases hname : c.name with
      | none =>
        rw [Class.sends, hname] at hsend
        cases hsend
      | some name =>
        obtain ⟨r, hinfo, hsettled⟩ := hl.settled i c name hi hname
        obtain ⟨h', -, hreports⟩ := hchecks c hc
        exact Class.sends_typed hl hsettled hname hinfo hreports send hsend
    · exact Decl.listSends_typed hl decls hin hb.1.2 ht.2 hdecls
    · exact body.sends_typed hl (hin.bindAll ht.2) hb.2 hbody
  | expr body span =>
    obtain rfl := Except.ok.inj hres
    exact ⟨fun _ => none, lineage_initial,
      body.sends_typed lineage_initial registry_initial.outside.inside hb hbody⟩

/-- The fields and methods of a class in layout order. -/
def Class.layout? (c : Class) : Option (List Ty × List Signature) := c.entry.bind (·.type.members?)

/-- Objects of the class `c` can be used where objects of `d` are expected: `c` has all positions of `d`,
with types and signatures below those there. -/
def Class.StandsInFor (h : Hierarchy) (c d : Class) : Prop :=
  ∃ fields methods fields' methods', c.layout? = some (fields, methods) ∧
    d.layout? = some (fields', methods') ∧
    Matches h.isSubtype fields fields' ∧ Matches h.isArrowSubtype methods methods'

/-- The send is typed against the class `d` and calls its method at offset `o`, with the arguments that this
takes. -/
def Send.Against (send : Send) (d : Class) (o : Nat) : Prop :=
  send.cls.isSome ∧ send.cls = d.name.map Name.text ∧
    ∃ fields methods e s, d.layout? = some (fields, methods) ∧
    send.method = some e ∧ e.type = .method s ∧ e.offset = Layout.methodOffset o ∧ methods[o]? = some s ∧
    s.params.length = send.args

/-- The method at position `j` of the class at position `k` has `n` parameters, and code that is generated
for it removes `n` arguments when it returns. -/
def Pops (classes : List Class) (k j n : Nat) : Prop :=
  ∃ owner d, classes[k]? = some owner ∧ owner.methods[j]? = some d ∧ d.function.params.length = n ∧
    ∀ memory supply blocks supply', d.function.code memory supply = .ok (blocks, supply') →
      ∃ inner entry locals, blocks = inner ++ [entry ++ Code.leaveFrame locals n]

theorem Class.Settled.layout? (hs : c.Settled info? earlier r) :
    c.layout? = some (r.members.fields, r.members.methods) := by
  rw [Class.layout?, hs.entry]
  rfl

theorem Method.pops_of_member? {d : Method} {x : String} {s : Signature}
    (hm : d.member? = some (x, s)) {k j : Nat} (hk : trees[k]? = some c) (hj : c.methods[j]? = some d) :
    Pops trees k j s.params.length := by
  obtain ⟨name, hdeclared, -⟩ := Method.declared?_of_member? hm
  have hlength := (Function.declares_of_declared? hdeclared).length_eq
  refine ⟨c, d, hk, hj, hlength, fun memory supply blocks supply' hcode => ?_⟩
  obtain ⟨decls, body, branch, -, -, rfl⟩ := Function.code_eq_ok hcode
  exact ⟨_, _, _, by rw [Function.block, hlength]⟩

/-- What a subclass has at the offset of a send. -/
theorem Lineage.pops_of_typed (hl : Lineage info? trees) (hc : Class.checkAll .empty trees = .ok (h, []))
    {cls : String} {o : Nat} {s : Signature} (hinfo : info? cls = some r)
    (hs : r.members.methods[o]? = some s) {i : Nat} {x : Name} (hi : trees[i]? = some c)
    (hx : c.name = some x) (hsub : h.isSubclass x.text cls = true) :
    (∃ k j, Finds trees o i k j) ∧ ∀ k j, Finds trees o i k j → Pops trees k j s.params.length := by
  obtain ⟨r', hr', -⟩ := hl.settled i c x hi hx
  obtain ⟨r₁, hr₁, hsubstitutes⟩ := hl.substitutes_of_isSubclass hc hsub hr'
  obtain rfl := Option.some.inj (hinfo.symm.trans hr₁)
  obtain ⟨s', hs', hbelow⟩ := hsubstitutes.methods o s hs
  have hlength : s'.params.length = s.params.length := (Hierarchy.isArrowSubtype_iff.1 hbelow).2.length_eq
  refine ⟨hl.exists_finds hi hx hr' (List.getElem?_eq_some_iff.1 hs').1, fun k j hfinds => ?_⟩
  obtain ⟨owner, d, m, s'', hk, hj, hmember, hs''⟩ := hl.signature_of_finds hfinds hi hx hr'
  obtain rfl := Option.some.inj (hs'.symm.trans hs'')
  exact hlength ▸ Method.pops_of_member? hmember hk hj

/-- In a program on which resolution and checking report nothing, the layout of a subclass matches that of
the class, and a call passes as many arguments as the method that is found in any subclass removes. -/
theorem Program.subclasses_substitutable {p : Program} {resolved : Resolved} {checked : Checked}
    (hb : Bare p.notes) (ht : Written p.types) (hres : p.resolve = .ok resolved)
    (hr : resolved.reports = []) (hcheck : resolved.tree.check .empty = .ok checked)
    (hreports : checked.reports = []) :
    (∀ c ∈ resolved.tree.classes, ∀ d ∈ resolved.tree.classes, ∀ x y, c.name = some x → d.name = some y →
      checked.hierarchy.isSubclass x.text y.text = true → c.StandsInFor checked.hierarchy d) ∧
    ∀ send ∈ resolved.tree.sends, ∃ d ∈ resolved.tree.classes, ∃ y o, d.name = some y ∧ send.Against d o ∧
      ∀ i c x, resolved.tree.classes[i]? = some c → c.name = some x →
        checked.hierarchy.isSubclass x.text y.text = true →
        (∃ k j, Finds resolved.tree.classes o i k j) ∧
          ∀ k j, Finds resolved.tree.classes o i k j → Pops resolved.tree.classes k j send.args := by
  obtain ⟨t, htype⟩ := Option.isSome_iff_exists.1 (Program.check_type_isSome hcheck hreports)
  obtain ⟨type, reports, h⟩ := checked
  obtain rfl : type = some t := htype
  obtain rfl : reports = [] := hreports
  obtain ⟨info?, hl, hsends⟩ := Program.lineage hb ht hres hr hcheck
  obtain ⟨hclasses, -, -⟩ := Program.check_eq_ok hcheck
  constructor
  · intro c hc d hd x y hx hy hsub
    obtain ⟨i, hi⟩ := List.mem_iff_getElem?.1 hc
    obtain ⟨j, hj⟩ := List.mem_iff_getElem?.1 hd
    obtain ⟨r, hr, hsettled⟩ := hl.settled i c x hi hx
    obtain ⟨r', hr', hsubstitutes⟩ := hl.substitutes_of_isSubclass hclasses hsub hr
    exact ⟨_, _, _, _, hsettled.layout?, (hl.settled_eq hj hy hr').layout?, hsubstitutes.fields,
      hsubstitutes.methods⟩
  · intro send hsend
    obtain ⟨cls, r, o, s, hcls, hinfo, hmethod, hs, hargs⟩ := hsends send hsend
    obtain ⟨i, d, y, hi, hy, rfl⟩ := Class.mem_names.1 ((hl.known cls).1 (by rw [hinfo]; rfl))
    refine ⟨d, List.mem_of_getElem? hi, y, o, hy, ⟨by rw [hcls]; rfl, by rw [hcls, hy]; rfl, _, _, _, s,
      (hl.settled_eq hi hy hinfo).layout?, hmethod, rfl, rfl, hs, hargs⟩, fun i c x hi hx hsub => ?_⟩
    exact hargs ▸ hl.pops_of_typed hclasses hinfo hs hi hx hsub

end Programs

/-- A class in the middle overrides a field and a method with a larger parameter type and smaller other
types, and the last class calls that method on itself. -/
def relatives : Program :=
  .letIn
    [.plain "Node" none [("next", .ref "Node")]
      [.plain "step" [("fast", .bool)] (.ref "Node") (.variable "next")],
      .plain "Pair" (some "Node") [("next", .ref "Pair"), ("other", .ref "Node")]
        [.plain "step" [("times", .int)] (.ref "Pair") (.variable "next")],
      .plain "Twin" (some "Pair") [] [.plain "far" [] (.ref "Node") (.apply "step" [.number 2])]]
    [.var (.plain "n" (.ref "Node") (.make "Twin" [.null .synthetic, .null .synthetic]))]
    (.send "n" "step" [.bool true .synthetic]) .synthetic

theorem relatives_substitutable :
    Bare relatives.notes ∧ Written relatives.types ∧
      ∃ r checked, relatives.resolve = .ok r ∧ r.reports = [] ∧ r.tree.check .empty = .ok checked ∧
        checked.reports = [] ∧
        (∃ c d, r.tree.classes[2]? = some c ∧ c.name = some (.plain "Twin") ∧ r.tree.classes[0]? = some d ∧
          d.name = some (.plain "Node") ∧ c.StandsInFor checked.hierarchy d) ∧
        ∃ send ∈ r.tree.sends, send.cls = some "Node" ∧ send.args = 1 ∧
          ∃ o k j, Finds r.tree.classes o 2 k j ∧ Pops r.tree.classes k j 1 := by
  refine ⟨by decide, by decide, ?_⟩
  obtain ⟨r, checked, hres, hcheck, hr, hreports, hclasses, hsub, hsends⟩ :
    ∃ r checked, relatives.resolve = .ok r ∧
      r.tree.check .empty = .ok checked ∧ r.reports = [] ∧ checked.reports = [] ∧
        r.tree.classes.map Class.name = [some (.plain "Node"), some (.plain "Pair"), some (.plain "Twin")] ∧
        checked.hierarchy.isSubclass "Twin" "Node" = true ∧
        r.tree.sends.map (fun s => (s.cls, s.args)) = [(some "Twin", 1), (some "Node", 1)] :=
    Program.exists_checked (by decide +kernel)
  obtain ⟨hlayouts, hpops⟩ := Program.subclasses_substitutable (by decide)
    (by decide) hres hr hcheck hreports
  have hclass (i : Nat) := congrArg (·[i]?) hclasses
  have hsend := congrArg (·[1]?) hsends
  simp only [List.getElem?_map] at hclass hsend
  obtain ⟨c, hc, hcname⟩ := Option.map_eq_some_iff.1 (hclass 2)
  obtain ⟨d, hd, hdname⟩ := Option.map_eq_some_iff.1 (hclass 0)
  obtain ⟨send, hget, heq⟩ := Option.map_eq_some_iff.1 hsend
  obtain ⟨hcls, hargs⟩ := Prod.mk.inj heq
  obtain ⟨d', -, y, o, hy, hagainst, hfound⟩ := hpops send (List.mem_of_getElem? hget)
  have hyname : y.text = "Node" := by
    have := hagainst.2.1
    rw [hcls, hy] at this
    exact (Option.some.inj this).symm
  obtain ⟨⟨k, j, hfinds⟩, hremoves⟩ := hfound 2 c _ hc hcname (hyname.symm ▸ hsub)
  exact ⟨r, checked, hres, hr, hcheck, hreports,
    ⟨c, d, hc, hcname, hd, hdname,
      hlayouts c (List.mem_of_getElem? hc) d (List.mem_of_getElem? hd) _ _ hcname hdname hsub⟩,
    send, List.mem_of_getElem? hget, hcls, hargs, o, k, j, hfinds, hargs ▸ hremoves k j hfinds⟩

end Classlet

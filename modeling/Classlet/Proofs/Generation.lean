import Classlet.Generation.Program
import Classlet.Proofs.Placement
import Classlet.Proofs.Programs
/-!
# Code for whatever was accepted

A program that was resolved and checked without a report has code (`Program.generate_succeeds`). A type is
only found for an expression whose uses all have an annotation, and `new` only for a class, whose address is
in range. The dispatch table of a class has one label for each method of its layout, so a label always goes
into the table or right after its end, and the classes take the slots of their tables one after the other.
-/

namespace Classlet

/-! ## Expressions -/

section Expressions
variable {n : Nat} {memory : Word} {h : Hierarchy}

theorem required_succeeds {α : Type} {name : Name} {o : Option α} {a : α} (ho : o = some a) :
    Succeeds (required name o) :=
  ⟨a, required_eq_ok.2 ho⟩

/-- A class of a program with fewer than `2 ^ 30` nodes has an address. -/
theorem classAddress_succeeds (hmemory : 0 ≤ memory.val) (hn : n < 2 ^ 30) {e : Entry} (he : e.Fits n)
    (hcls : e.type.members?.isSome = true) : Succeeds (classAddress memory e) := by
  have hlower := he.lower
  have hupper := he.cls hcls
  have hmax := memory.upper
  rw [Layout.firstLocalOffset] at hupper
  refine Succeeds.mapError ?_ _
  unfold Word.checked Word.ofInt?
  rw [dif_pos ⟨by omega, by omega⟩]
  exact succeeds_ok _

theorem Expr.codeAll_succeeds {es : List Expr} (hes : ∀ e ∈ es, ∀ k, Succeeds (e.code memory k)) (k : Nat) :
    Succeeds (Expr.codeAll memory es k) := by
  induction es generalizing k with
  | nil => exact succeeds_ok _
  | cons e es ih =>
    obtain ⟨he, hes⟩ := List.forall_mem_cons.1 hes
    exact (he k).bind fun (_, m) => (ih hes m).bind fun _ => succeeds_ok _

theorem Expr.codeReversed_succeeds {es : List Expr}
    (hes : ∀ e ∈ es, ∀ k, Succeeds (e.code memory k)) (k : Nat) :
    Succeeds (Expr.codeReversed memory es k) := by
  induction es generalizing k with
  | nil => exact succeeds_ok _
  | cons e es ih =>
    obtain ⟨he, hes⟩ := List.forall_mem_cons.1 hes
    exact (ih hes k).bind fun (_, m) => (he m).bind fun _ => succeeds_ok _

mutual
/-- An expression with a type has code. -/
theorem Expr.code_succeeds (hmemory : 0 ≤ memory.val) (hn : n < 2 ^ 30) :
    ∀ (e : Expr) {t : Ty}, NotesFit n e.notes → e.typeOf h = .ok t → ∀ k, Succeeds (e.code memory k)
  | .int .., _, _, _, _ | .bool .., _, _, _, _ | .null _, _, _, _, _ => succeeds_ok _
  | .ident name target, _, _, ht, _ => by
    simp only [Expr.typeOf, bind_eq_ok, annotated_eq_ok] at ht
    obtain ⟨r, htarget, -⟩ := ht
    exact (required_succeeds htarget).bind fun _ => succeeds_ok _
  | .call callee args span target, _, hf, ht, k => by
    simp only [Expr.typeOf, bind_eq_ok, annotated_eq_ok] at ht
    obtain ⟨r, htarget, s, hs, ⟨⟩, hargs, -⟩ := ht
    have hcodes := Expr.codes_succeed hmemory hn args (notesFit_cons.1 hf).2
      (Entry.callee_eq_ok hs).2.symm hargs
    exact (required_succeeds htarget).bind fun _ => (Expr.codeReversed_succeeds hcodes k).bind fun _ =>
      succeeds_ok _
  | .methodCall object method args span receiver target, _, hf, ht, k => by
    simp only [Expr.typeOf, bind_eq_ok, annotated_eq_ok] at ht
    obtain ⟨r, hreceiver, e, htarget, s, hs, ⟨⟩, hargs, -⟩ := ht
    have hcodes := Expr.codes_succeed hmemory hn args (notesFit_cons.1 hf).2
      (Entry.callee_eq_ok hs).2.symm hargs
    exact (required_succeeds hreceiver).bind fun _ => (required_succeeds htarget).bind fun _ =>
      (Expr.codeReversed_succeeds hcodes k).bind fun _ => succeeds_ok _
  | .new cls args span target, _, hf, ht, k => by
    simp only [Expr.typeOf, bind_eq_ok, annotated_eq_ok] at ht
    obtain ⟨e, rfl, fields, hfields, ⟨⟩, hargs, -⟩ := ht
    obtain ⟨⟨methods, hmembers⟩, hlength⟩ := Entry.constructor_eq_ok hfields
    obtain ⟨hentry, hnotes⟩ := notesFit_cons.1 hf
    have hcodes := Expr.codes_succeed hmemory hn args hnotes hlength.symm hargs
    have haddress := classAddress_succeeds hmemory hn (hentry e rfl) (by rw [hmembers]; rfl)
    exact (Expr.codeAll_succeeds hcodes k).bind fun _ => haddress.bind fun _ => succeeds_ok _
  | .ite c t e _, _, hf, ht, k => by
    rw [Expr.notes, notesFit_append, notesFit_append] at hf
    simp only [Expr.typeOf, bind_eq_ok] at ht
    obtain ⟨t₁, hc, ht⟩ := ht
    split at ht
    · simp only [bind_eq_ok] at ht
      obtain ⟨t₂, hthen, t₃, helse, -⟩ := ht
      exact (c.code_succeeds hmemory hn hf.1.1 hc _).bind fun _ =>
        (e.code_succeeds hmemory hn hf.2 helse _).bind fun _ =>
        (t.code_succeeds hmemory hn hf.1.2 hthen _).bind fun _ => succeeds_ok _
    · cases ht
  | .binary op l r _, _, hf, ht, k => by
    rw [Expr.notes, notesFit_append] at hf
    simp only [Expr.typeOf, bind_eq_ok] at ht
    obtain ⟨t₁, hl, t₂, hr, -⟩ := ht
    exact (l.code_succeeds hmemory hn hf.1 hl _).bind fun _ =>
      (r.code_succeeds hmemory hn hf.2 hr _).bind fun _ => succeeds_ok _
  | .not e _, _, hf, ht, k => by
    simp only [Expr.typeOf, bind_eq_ok] at ht
    obtain ⟨t₁, he, -⟩ := ht
    exact (e.code_succeeds hmemory hn hf he _).bind fun _ => succeeds_ok _
  | .print e _, _, hf, ht, k => (e.code_succeeds hmemory hn hf ht k).bind fun _ => succeeds_ok _

theorem Expr.codes_succeed (hmemory : 0 ≤ memory.val) (hn : n < 2 ^ 30) :
    ∀ (es : List Expr) {ts : List Ty} {callee : String} {position : Nat}, NotesFit n (Expr.listNotes es) →
      es.length = ts.length → Expr.checkArgs h callee position es ts = .ok () →
      ∀ e ∈ es, ∀ k, Succeeds (e.code memory k)
  | [], _, _, _, _, _, _ => by
    intro e he
    cases he
  | _ :: _, [], _, _, _, hlength, _ => by cases hlength
  | e :: es, t :: ts, callee, position, hf, hlength, hc => by
    rw [Expr.listNotes, notesFit_append] at hf
    obtain ⟨t', he, -, hrest⟩ := Expr.checkArgs_cons hc
    exact List.forall_mem_cons.2 ⟨fun k => e.code_succeeds hmemory hn hf.1 he k,
      Expr.codes_succeed hmemory hn es hf.2 (Nat.succ.inj hlength) hrest⟩
end

end Expressions

/-! ## Declarations -/

section Declarations
variable {n : Nat} {memory : Word} {h : Hierarchy}

mutual
theorem Decl.code_succeeds (hmemory : 0 ≤ memory.val) (hn : n < 2 ^ 30) :
    ∀ (d : Decl) {severity : Severity}, NotesFit n d.notes → d.typeReports h severity = [] →
      ∀ s, Succeeds (d.code memory s)
  | .var v, severity, hf, ht, s => by
    rw [Decl.code]
    split
    · next hd =>
      obtain ⟨⟨name, t⟩, hd⟩ := Option.isSome_iff_exists.1 hd
      rw [Decl.typeReports, List.map_eq_nil_iff, Option.toList_eq_nil_iff] at ht
      obtain ⟨t', hinit, -⟩ := Variable.typeProblem?_eq_none hd ht
      exact (v.init.code_succeeds hmemory hn hf hinit _).bind fun _ => succeeds_ok _
    · exact succeeds_ok _
  | .function f, severity, hf, ht, s => by
    rw [Decl.code]
    split
    · next hd => exact (f.code_succeeds hmemory hn hd hf ht s).bind fun _ => succeeds_ok _
    · exact succeeds_ok _

theorem Function.code_succeeds (hmemory : 0 ≤ memory.val) (hn : n < 2 ^ 30) :
    ∀ (f : Function) {kind : DeclKind} {a b : Severity}, f.declared?.isSome = true → NotesFit n f.notes →
      f.typeReports h kind a b = [] → ∀ s, Succeeds (f.code memory s)
  | ⟨name, params, ret, locals, body, span⟩, kind, a, b, hd, hf, ht, s => by
    rw [Function.notes, notesFit_append] at hf
    obtain ⟨p, hd⟩ := Option.isSome_iff_exists.1 hd
    obtain ⟨hlocals, t, hbody, -⟩ := Function.typeReports_eq_nil hd ht
    rw [Function.code]
    exact (Decl.codeAll_succeeds hmemory hn locals hf.1 hlocals _).bind fun _ =>
      (body.code_succeeds hmemory hn hf.2 hbody _).bind fun _ => succeeds_ok _

theorem Decl.codeAll_succeeds (hmemory : 0 ≤ memory.val) (hn : n < 2 ^ 30) :
    ∀ (ds : List Decl) {severity : Severity}, NotesFit n (Decl.listNotes ds) →
      Decl.allTypeReports h severity ds = [] → ∀ s, Succeeds (Decl.codeAll memory ds s)
  | [], _, _, _, _ => succeeds_ok _
  | d :: ds, severity, hf, ht, s => by
    rw [Decl.listNotes, notesFit_append] at hf
    rw [Decl.allTypeReports, List.append_eq_nil_iff] at ht
    rw [Decl.codeAll]
    exact (d.code_succeeds hmemory hn hf.1 ht.1 s).bind fun _ =>
      (Decl.codeAll_succeeds hmemory hn ds hf.2 ht.2 _).bind fun _ => succeeds_ok _
end

end Declarations

/-! ## Classes -/

/-- The classes that `info?` describes have their dispatch tables, with a label for each method. -/
structure Tabled (info? : String → Option ClassInfo) (env : Env) (tables : List DispatchTable) : Prop where
  registry : Registry info? env tables.length
  length (cls : String) (r : ClassInfo) (k : Nat) (t : DispatchTable) : info? cls = some r →
    r.offset = Layout.firstLocalOffset - k → tables[k]? = some t → t.length = r.methodNames.length

theorem tabled_initial : Tabled (fun _ => none) .initial [] where
  registry := registry_initial
  length cls r k t h := by cases h

section Classes
variable {n : Nat} {memory : Word} {h : Hierarchy} {info? : String → Option ClassInfo} {env : Env}
  {tables : List DispatchTable} {c : Class}

/-- The methods of a class have code, and their labels have places in the table. -/
theorem Class.methodCode_succeeds (hmemory : 0 ≤ memory.val) (hn : n < 2 ^ 30) (cls : String) (span : Span)
    {ms names : List String} {ds : List Method} (hat : ∀ d ∈ ds, d.At ms) (hms' : ms.Nodup)
    (hms : ms = ((ds.filterMap Method.member?).map Prod.fst).foldl adjoin names) {table : DispatchTable}
    (ht : table.length = names.length) (hf : NotesFit n (ds.flatMap Method.notes))
    (hreports : ∀ d ∈ ds, d.typeReports h = []) (s : Supply) :
    Succeeds (Class.methodCode memory cls span ds table s) := by
  -- The table has a label for each of the `names` so far, which grow to all names `ms` of the layout.
  induction ds generalizing names table s with
  | nil => exact succeeds_ok _
  | cons d ds ih =>
    obtain ⟨hd, hat⟩ := List.forall_mem_cons.1 hat
    rw [List.flatMap_cons, notesFit_append] at hf
    obtain ⟨hreport, hreports⟩ := List.forall_mem_cons.1 hreports
    cases hm : d.member? with
    | none =>
      rw [List.filterMap_cons_none hm] at hms
      rw [Class.methodCode_skip (hd.offset_none hm)]
      exact ih hat hms ht hf.2 hreports s
    | some q =>
      obtain ⟨x, signature⟩ := q
      obtain ⟨i, ho, hi⟩ := hd.offset hm
      have hdeclared : d.function.declared?.isSome = true := by
        obtain ⟨n, hq, -⟩ := Method.declared?_of_member? hm
        rw [hq]
        rfl
      rw [List.filterMap_cons_some hm, List.map_cons, List.foldl_cons] at hms
      have hprefix : adjoin names x <+: ms := hms ▸ prefix_foldl_adjoin _ _
      obtain ⟨t', hplace, hlength⟩ :=
        DispatchTable.place_adjoin ht (prefix_adjoin_getElem? hprefix hms' hi) (.function s.function)
      rw [Method.typeReports, if_pos (by rw [ho]; rfl)] at hreport
      obtain ⟨⟨blocks, s'⟩, hcode⟩ :=
        Function.code_succeeds hmemory hn _ hdeclared (notesFit_cons.1 hf.1).2 hreport s
      obtain ⟨rest, hrest⟩ := ih hat hms hlength hf.2 hreports s'
      exact ⟨_, (Class.methodCode_cons ho).2 ⟨blocks, s', t', rest, hcode, hplace, hrest, rfl⟩⟩

/-- The dispatch table of the superclass is there. -/
theorem Tabled.inheritedTable (ht : Tabled info? env tables) {tree : Class} (cls : String)
    (hsuper : tree.superEntry = (c.parent? info?).map ClassInfo.entry) :
    ∃ t, tree.inheritedTable cls tables = .ok t ∧
      t.length = (inheritedMethods (c.parent? info?)).length := by
  unfold Class.inheritedTable
  rw [hsuper]
  cases hp : c.parent? info? with
  | none => exact ⟨[], rfl, rfl⟩
  | some r =>
    obtain ⟨x, -, hx⟩ := Option.bind_eq_some_iff.1 hp
    obtain ⟨k, hk, ho⟩ := ht.registry.slot x.text r hx
    have hget := List.getElem?_eq_getElem hk
    refine ⟨tables[k], ?_, ht.length x.text r k _ hx ho hget⟩
    simp only [Option.map_some, ClassInfo.entry, ho, dispatchSlot_eq, Except.mapError, ok_bind, hget]
    rfl

/-- A class that was resolved and checked has code, and takes the next slot for its table. -/
theorem Tabled.step (ht : Tabled info? env tables) (hmemory : 0 ≤ memory.val) (hn : n < 2 ^ 30)
    (hb : Bare c.notes) (hw : Written c.types) {name : Name} (hname : c.name = some name)
    {r : ResolvedClass} (hres : c.resolve env = .ok r) (hr : r.reports = [])
    (hcheck : r.tree.typeReports h = .ok []) (hf : NotesFit n r.tree.notes) (s : Supply) :
    ∃ out tables' info', r.tree.code memory tables s = .ok (out, tables') ∧ Tabled info' r.env tables' := by
  obtain ⟨p, fs, ms, henters, henv, htree⟩ := Class.resolve_eq_ok ht.registry hb hw hname hres hr
  have htreeName : r.tree.name = some name := by rw [htree, hname]
  have hentry : r.tree.entry = some (env.classEntry p.members) := by rw [htree]
  have hsuper : r.tree.superEntry = (c.parent? info?).map ClassInfo.entry := by rw [htree]
  have hmethods : r.tree.methods = p.methods.map (·.annotate (r.env.enterClass p.members)) := by rw [htree]
  simp only [Class.typeReports, htreeName, bind_eq_ok, pure_eq_ok, List.append_eq_nil_iff,
    List.flatMap_eq_nil_iff] at hcheck
  obtain ⟨-, -, htypes, rfl⟩ := hcheck
  rw [Class.notes, notesFit_cons, notesFit_append] at hf
  obtain ⟨inherited, hinherited, hlength⟩ := ht.inheritedTable name.text hsuper
  have hat : ∀ d ∈ r.tree.methods, d.At ms := hmethods ▸ Method.at_annotate henters.methodsAt _
  have hnames : ms = ((r.tree.methods.filterMap Method.member?).map Prod.fst).foldl adjoin
      (inheritedMethods (c.parent? info?)) := by
    rw [hmethods, Method.filterMap_annotate, henters.own_methods]
    exact henters.methods.names_eq
  obtain ⟨out, hout⟩ := Class.methodCode_succeeds hmemory hn name.text r.tree.span hat
    henters.named.nodup_methods hnames
    hlength hf.2.2 htypes s
  have hcount : out.table.length = ms.length :=
    Class.methodCode_length hat henters.named.nodup_methods hnames hlength hout
  have hoffset : (env.classEntry p.members).offset = Layout.firstLocalOffset - (tables.length : Nat) :=
    ht.registry.next
  refine ⟨⟨out.table.code, out.blocks, out.supply⟩, tables ++ [out.table],
    Function.update info? name.text (some ⟨Layout.firstLocalOffset - tables.length, p.members, fs, ms, 0⟩),
    ?_, ?_, ?_⟩
  · simp only [Class.code, htreeName, hentry, hinherited, hout, hoffset, dispatchSlot_eq, Except.mapError,
      DispatchTable.record_length, ok_bind]
    rfl
  · rw [List.length_append, List.length_singleton, henv]
    exact ht.registry.declare henters.free henters.named 0
  · intro cls r k t hr hk htable
    rw [Function.update_apply] at hr
    split at hr
    · obtain rfl := Option.some.inj hr
      obtain rfl : tables.length = k := by
        simp only at hk
        omega
      rw [List.getElem?_concat_length] at htable
      obtain rfl := Option.some.inj htable
      exact hcount
    · obtain ⟨k', hlt, hk'⟩ := ht.registry.slot cls r hr
      obtain rfl : k' = k := by omega
      rw [List.getElem?_append_left hlt] at htable
      exact ht.length cls r k' t hr hk htable

theorem Tabled.run (ht : Tabled info? env tables) (hmemory : 0 ≤ memory.val) (hn : n < 2 ^ 30)
    {cs : List Class} (hb : Bare (cs.flatMap Class.notes)) (hw : Written (cs.flatMap Class.types))
    {r : ResolvedClasses} (hres : Class.resolveAll env cs = .ok r) (hr : r.reports = []) {last : Hierarchy}
    (hcheck : Class.checkAll h r.trees = .ok (last, [])) (hf : NotesFit n (r.trees.flatMap Class.notes))
    (s : Supply) :
    Succeeds (Class.codeAll memory r.trees tables s) := by
  induction cs generalizing info? env tables h r s with
  | nil =>
    obtain rfl := Except.ok.inj hres
    exact succeeds_ok _
  | cons c cs ih =>
    simp only [Class.resolveAll, bind_eq_ok, pure_eq_ok] at hres
    obtain ⟨first, hfirst, rest, hrest, rfl⟩ := hres
    obtain ⟨hr₁, hr₂⟩ := List.append_eq_nil_iff.1 hr
    simp only [Class.checkAll, bind_eq_ok, pure_eq_ok, Prod.exists, Prod.mk.injEq,
      List.append_eq_nil_iff] at hcheck
    obtain ⟨_, hcheck₁, h', _, hcheck₂, rfl, rfl, rfl⟩ := hcheck
    rw [List.flatMap_cons, bare_append] at hb
    rw [List.flatMap_cons, written_append] at hw
    rw [List.flatMap_cons, notesFit_append] at hf
    rw [Class.codeAll]
    cases hname : c.name with
    | none =>
      simp only [Class.resolve, hname, Except.ok.injEq] at hfirst
      subst hfirst
      simp only [Class.code, hname, ok_bind]
      exact (ih ht hb.2 hw.2 hrest hr₂ hcheck₂ hf.2 s).bind fun _ => succeeds_ok _
    | some name =>
      obtain ⟨out, tables', info', hcode, ht'⟩ :=
        ht.step hmemory hn hb.1 hw.1 hname hfirst hr₁ hcheck₁ hf.1 s
      simp only [hcode, ok_bind]
      exact (ih ht' hb.2 hw.2 hrest hr₂ hcheck₂ hf.2 out.supply).bind fun _ => succeeds_ok _

end Classes

/-- A program that was resolved and checked without a report has code. -/
theorem Program.generate_succeeds {p : Program} {n : Nat} {memory : Word} (hmemory : 0 ≤ memory.val)
    (hn : n < 2 ^ 30) (hb : Bare p.notes) (hw : Written p.types) {r : Resolved} (hres : p.resolve = .ok r)
    (hr : r.reports = []) (hf : NotesFit n r.tree.notes) {t : Ty} {h : Hierarchy}
    (hcheck : r.tree.check .empty = .ok ⟨some t, [], h⟩) :
    Succeeds (r.tree.generate memory) := by
  obtain ⟨hclasses, hdecls, hbody⟩ := Program.check_eq_ok hcheck
  cases p with
  | letIn classes decls body span =>
    simp only [Program.notes, Program.classes, Program.decls, Program.body, bare_append] at hb
    simp only [Program.types, Program.classes, Program.decls, written_append] at hw
    simp only [Program.resolve, bind_eq_ok, pure_eq_ok] at hres
    obtain ⟨rc, hrc, rfl⟩ := hres
    simp only [List.append_eq_nil_iff] at hr
    simp only [Program.notes, Program.classes, Program.decls, Program.body, notesFit_append] at hf
    rw [Program.generate]
    refine (tabled_initial.run hmemory hn hb.1.1 hw.1 hrc hr.1 hclasses hf.1.1 _).bind fun _ => ?_
    refine (Decl.codeAll_succeeds hmemory hn _ hf.1.2 hdecls _).bind fun _ => ?_
    exact (Expr.code_succeeds hmemory hn _ hf.2 hbody _).bind fun _ => succeeds_ok _
  | expr body span =>
    obtain rfl := Except.ok.inj hres
    simp only [Program.notes, Program.classes, Program.decls, Program.body] at hf
    exact (Expr.code_succeeds hmemory hn _ hf hbody _).bind fun _ => succeeds_ok _

end Classlet

import Classlet.Proofs.Placement
/-!
# One report for each reference that leads nowhere

Resolution reports a name that refers to nothing and leaves its annotation empty, and these are two
functions that walk over the tree on their own. Here the reports are read off the annotated tree: every
reference without a full annotation calls for one problem (`Reference.complaint?`), and the problems about
references that resolution reports are those, one each and in the order of the tree
(`Program.lost_references_reported`). The parts of the tree that resolution passes over have no annotations,
and no node of the tree is lost or added (`Program.resolve_keeps_nodes`).
-/

namespace Classlet

/-! ## References -/

/-- Whether the problem is a reference to a variable, a function or a method that leads nowhere. -/
def Problem.isLost (p : Problem) : Bool :=
  match p.cause with
  | .undeclaredIdentifier _ | .notAnObject _ | .undeclaredMethod .. => true
  | _ => false

def Diagnostic.isLost (d : Diagnostic) : Bool := d.problem.isLost

/-- A node that refers to a variable, a function or a method, with its annotations. -/
inductive Reference where
  | ident (name : Name) (target : Option Resolution)
  | call (callee : Name) (target : Option Resolution)
  | methodCall (object method : Name) (receiver : Option Resolution) (target : Option Entry)
deriving DecidableEq

namespace Reference

/-- Nothing is missing: a method call has both its object and its method. -/
def isFull : Reference → Bool
  | ident _ target | call _ target => target.isSome
  | methodCall _ _ receiver target => receiver.isSome && target.isSome

/-- The problem that a reference without a full annotation calls for. -/
def complaint? : Reference → Option Problem
  | ident name none | call name none => some ⟨.undeclaredIdentifier name.text, name.span⟩
  | methodCall object _ none _ => some ⟨.undeclaredIdentifier object.text, object.span⟩
  | methodCall object method (some r) none =>
    match r.entry.type.ref? with
    | none => some ⟨.notAnObject object.text, object.span⟩
    | some cls => some ⟨.undeclaredMethod cls method.text, method.span⟩
  | _ => none

theorem isSome_complaint? (x : Reference) : x.complaint?.isSome = !x.isFull := by
  rcases x with ⟨_, _ | _⟩ | ⟨_, _ | _⟩ | ⟨_, _, _ | r, _ | _⟩ <;> try rfl
  rw [complaint?]
  cases r.entry.type.ref? <;> rfl

theorem isLost_of_complaint? {x : Reference} {p : Problem} (h : x.complaint? = some p) :
    p.isLost = true := by
  unfold complaint? at h
  split at h
  case h_4 => split at h <;> cases h <;> rfl
  case h_5 => cases h
  all_goals
    cases h
    rfl

/-- How many references call for a problem. -/
theorem length_complaints (xs : List Reference) :
    (xs.filterMap complaint?).length = xs.countP (!·.isFull) := by
  rw [List.length_filterMap_eq_countP]
  simp only [isSome_complaint?]

end Reference

mutual
/-- The references in an expression, parent first. -/
def Expr.references : Expr → List Reference
  | .int .. | .bool .. | .null _ => []
  | .ident name target => [.ident name target]
  | .call callee args _ target => .call callee target :: Expr.listReferences args
  | .methodCall object method args _ receiver target =>
    .methodCall object method receiver target :: Expr.listReferences args
  | .new _ args _ _ => Expr.listReferences args
  | .ite c t e _ => c.references ++ t.references ++ e.references
  | .binary _ l r _ => l.references ++ r.references
  | .not e _ | .print e _ => e.references

def Expr.listReferences : List Expr → List Reference
  | [] => []
  | e :: es => e.references ++ Expr.listReferences es
end

/-! ## Parts of a program -/

/-- An initializer or a body, and whether it is looked at. -/
structure Part where
  visited : Bool
  expr : Expr

mutual
/-- The parts of a declaration. An incomplete declaration is not looked at, with all that is in it. -/
def Decl.parts (visited : Bool) : Decl → List Part
  | .var v => [⟨visited && v.declared?.isSome, v.init⟩]
  | .function f => f.parts (visited && f.declared?.isSome)

def Function.parts (visited : Bool) : Function → List Part
  | ⟨_, _, _, locals, body, _⟩ => Decl.listParts visited locals ++ [⟨visited, body⟩]

def Decl.listParts (visited : Bool) : List Decl → List Part
  | [] => []
  | d :: ds => d.parts visited ++ Decl.listParts visited ds
end

/-- The methods with an offset are looked at, if the class has a name. -/
def Class.parts (c : Class) : List Part :=
  c.methods.flatMap fun d => d.function.parts (c.name.isSome && d.offset.isSome)

/-- All initializers and bodies of a program. -/
def Program.parts (p : Program) : List Part :=
  p.classes.flatMap Class.parts ++ Decl.listParts true p.decls ++ [⟨true, p.body⟩]

/-- The references in the parts that are looked at. -/
def Part.references (parts : List Part) : List Reference :=
  (parts.filter (·.visited)).flatMap (·.expr.references)

/-- The parts that are not looked at have no annotations. -/
def Part.Untouched (parts : List Part) : Prop := ∀ part ∈ parts, part.visited = false → Bare part.expr.notes

/-- The references in the parts that are looked at call for the reports about references, one each, and the
other parts have no annotations. -/
structure Accounts (reports : List Diagnostic) (parts : List Part) : Prop where
  reported : reports.filter Diagnostic.isLost =
    Diagnostic.errors ((Part.references parts).filterMap Reference.complaint?)
  untouched : Part.Untouched parts

namespace Accounts
variable {reports reports' : List Diagnostic} {parts parts' : List Part}

theorem append (h : Accounts reports parts) (h' : Accounts reports' parts') :
    Accounts (reports ++ reports') (parts ++ parts') where
  reported := by
    rw [List.filter_append, h.reported, h'.reported, Part.references, Part.references, Part.references,
      List.filter_append,
      List.flatMap_append, List.filterMap_append, Diagnostic.errors, Diagnostic.errors, Diagnostic.errors,
      List.map_append]
  untouched := List.forall_mem_append.2 ⟨h.untouched, h'.untouched⟩

/-- Reports about other things. -/
theorem others (h : ∀ d ∈ reports, d.isLost = false) : Accounts reports [] :=
  ⟨List.filter_eq_nil_iff.2 fun d hd => by simp [h d hd], List.forall_mem_nil _⟩

theorem before (h : Accounts reports parts) (h' : ∀ d ∈ reports', d.isLost = false) :
    Accounts (reports' ++ reports) parts :=
  (others h').append h

theorem after (h : Accounts reports parts) (h' : ∀ d ∈ reports', d.isLost = false) :
    Accounts (reports ++ reports') parts := by
  have hall := h.append (others h')
  rwa [List.append_nil] at hall

/-- Nothing is reported about parts that are passed over. -/
theorem skipped (h : ∀ part ∈ parts, part.visited = false ∧ Bare part.expr.notes) : Accounts [] parts := by
  have hnone : parts.filter (·.visited) = [] :=
    List.filter_eq_nil_iff.2 fun part hpart => by simp [(h part hpart).1]
  refine ⟨?_, fun part hpart _ => (h part hpart).2⟩
  rw [Part.references, hnone]
  rfl

theorem flatMap {α : Type} {f : α → List Diagnostic} {g : α → List Part} {l : List α}
    (h : ∀ a ∈ l, Accounts (f a) (g a)) :
    Accounts (l.flatMap f) (l.flatMap g) := by
  induction l with
  | nil => exact others (List.forall_mem_nil _)
  | cons a l ih =>
    obtain ⟨ha, hl⟩ := List.forall_mem_cons.1 h
    exact ha.append (ih hl)

end Accounts

theorem Diagnostic.errors_append (ps qs : List Problem) :
    Diagnostic.errors (ps ++ qs) = Diagnostic.errors ps ++ Diagnostic.errors qs :=
  List.map_append

theorem Diagnostic.isLost_errors {ps : List Problem} (h : ∀ p ∈ ps, p.isLost = false) :
    ∀ d ∈ Diagnostic.errors ps, d.isLost = false :=
  List.forall_mem_map.2 h

/-! ## Expressions -/

section Expressions
variable {env : Env}

theorem Reference.filterMap_cons_complaint? (x : Reference) (xs : List Reference) :
    (x :: xs).filterMap complaint? = x.complaint?.toList ++ xs.filterMap complaint? := by
  rw [List.filterMap_cons]
  cases x.complaint? <;> rfl

theorem Reference.filter_complaint? (x : Reference) :
    x.complaint?.toList.filter Problem.isLost = x.complaint?.toList :=
  List.filter_eq_self.2 fun _ hp => isLost_of_complaint? (Option.mem_toList.1 hp)

theorem Env.identProblems_eq (env : Env) (name : Name) :
    env.identProblems name = (Reference.ident name (env.resolve? name.text)).complaint?.toList := by
  rw [Env.identProblems, Env.resolve?]
  cases env.scopes.lookup? name.text <;> rfl

theorem Env.receiverProblems_eq (env : Env) (object method : Name) : env.receiverProblems object method =
    (Reference.methodCall object method (env.resolve? object.text)
      (env.receiverMethod? object.text method.text)).complaint?.toList := by
  rw [Env.receiverProblems, Env.resolve?, Env.receiverMethod?]
  cases env.scopes.lookup? object.text with
  | none => rfl
  | some entry =>
    simp only [Option.map_some, Option.bind_some]
    cases hcls : entry.type.ref? with
    | none => simp [Reference.complaint?, hcls]
    | some cls => cases hmethod : env.method? cls method.text <;> simp [Reference.complaint?, hcls, hmethod]

theorem Env.isLost_newProblems {cls : Name} : ∀ p ∈ env.newProblems cls, p.isLost = false := by
  unfold Env.newProblems
  split
  · exact List.forall_mem_nil _
  · exact List.forall_mem_singleton.2 rfl

mutual
/-- The problems about references in an expression are those that its annotations call for. -/
theorem Expr.lost_nameProblems : ∀ e : Expr, Bare e.notes →
    (e.nameProblems env).filter Problem.isLost = (e.annotate env).references.filterMap Reference.complaint?
  | .int .., _ | .bool .., _ | .null _, _ => rfl
  | .ident name target, hb => by
    obtain rfl : target = none := by simpa [Expr.notes, Bare, Note.isEmpty] using hb
    rw [Expr.nameProblems, Expr.annotate, Expr.references, Reference.filterMap_cons_complaint?,
      List.filterMap_nil, List.append_nil,
      Option.none_or, Env.identProblems_eq, Reference.filter_complaint?]
  | .call callee args span target, hb => by
    rw [Expr.notes, bare_cons] at hb
    obtain rfl : target = none := by simpa [Note.isEmpty] using hb.1
    have hhead : (env.identProblems callee).filter Problem.isLost =
        (Reference.call callee (env.resolve? callee.text)).complaint?.toList := by
      rw [Env.identProblems_eq, Reference.filter_complaint?]
      cases env.resolve? callee.text <;> rfl
    rw [Expr.nameProblems, Expr.annotate, Expr.references, Reference.filterMap_cons_complaint?,
      List.filter_append, hhead, Expr.lost_allNameProblems args hb.2, Option.none_or]
  | .methodCall object method args span receiver target, hb => by
    rw [Expr.notes, bare_cons, Note.isEmpty, Bool.and_eq_true, Option.isNone_iff_eq_none,
      Option.isNone_iff_eq_none] at hb
    obtain ⟨⟨rfl, rfl⟩, hargs⟩ := hb
    rw [Expr.nameProblems, Expr.annotate, Expr.references, Reference.filterMap_cons_complaint?,
      List.filter_append,
      Env.receiverProblems_eq, Reference.filter_complaint?, Expr.lost_allNameProblems args hargs,
      Option.none_or, Option.none_or]
  | .new cls args span target, hb => by
    rw [Expr.notes, bare_cons] at hb
    have hcls : (env.newProblems cls).filter Problem.isLost = [] :=
      List.filter_eq_nil_iff.2 fun p hp => by simp [Env.isLost_newProblems p hp]
    rw [Expr.nameProblems, Expr.annotate, Expr.references, List.filter_append, hcls, List.nil_append,
      Expr.lost_allNameProblems args hb.2]
  | .ite c t e span, hb => by
    rw [Expr.notes, bare_append, bare_append] at hb
    rw [Expr.nameProblems, Expr.annotate, Expr.references, List.filter_append, List.filter_append,
      List.filterMap_append,
      List.filterMap_append, c.lost_nameProblems hb.1.1, t.lost_nameProblems hb.1.2,
      e.lost_nameProblems hb.2]
  | .binary op l r span, hb => by
    rw [Expr.notes, bare_append] at hb
    rw [Expr.nameProblems, Expr.annotate, Expr.references, List.filter_append, List.filterMap_append,
      l.lost_nameProblems hb.1, r.lost_nameProblems hb.2]
  | .not e span, hb | .print e span, hb => e.lost_nameProblems hb

theorem Expr.lost_allNameProblems : ∀ es : List Expr, Bare (Expr.listNotes es) →
    (Expr.allNameProblems env es).filter Problem.isLost =
      (Expr.listReferences (Expr.annotateAll env es)).filterMap Reference.complaint?
  | [], _ => rfl
  | e :: es, hb => by
    rw [Expr.listNotes, bare_append] at hb
    rw [Expr.allNameProblems, Expr.annotateAll, Expr.listReferences, List.filter_append,
      List.filterMap_append, e.lost_nameProblems hb.1, Expr.lost_allNameProblems es hb.2]
end

theorem Expr.accounts {e : Expr} (hb : Bare e.notes) :
    Accounts (Diagnostic.errors (e.nameProblems env)) [⟨true, e.annotate env⟩] := by
  refine ⟨?_, List.forall_mem_singleton.2 nofun⟩
  have hreferences : Part.references [⟨true, e.annotate env⟩] = (e.annotate env).references :=
    List.append_nil _
  rw [hreferences, ← e.lost_nameProblems hb, Diagnostic.errors, List.filter_map]
  rfl

end Expressions

/-! ## Declarations -/

mutual
theorem Ty.isLost_problems {env : Env} {span : Span} : ∀ t : Ty, ∀ p ∈ t.problems env span, p.isLost = false
  | .ref cls => by
    rw [Ty.problems]
    split
    · exact List.forall_mem_nil _
    · exact List.forall_mem_singleton.2 rfl
  | .arrow s | .method s => s.isLost_problems
  | .int | .bool | .cls .. | .empty => List.forall_mem_nil _

theorem Signature.isLost_problems {env : Env} {span : Span} :
    ∀ s : Signature, ∀ p ∈ s.problems env span, p.isLost = false
  | ⟨params, ret⟩ => List.forall_mem_append.2 ⟨Ty.isLost_allProblems params, ret.isLost_problems⟩

theorem Ty.isLost_allProblems {env : Env} {span : Span} :
    ∀ ts : List Ty, ∀ p ∈ Ty.allProblems env span ts, p.isLost = false
  | [] => List.forall_mem_nil _
  | t :: ts => List.forall_mem_append.2 ⟨t.isLost_problems, Ty.isLost_allProblems ts⟩
end

theorem Scopes.isLost_duplicates {s : Scopes} {kind : DeclKind} {name : Name} :
    ∀ p ∈ s.duplicates kind name, p.isLost = false := by
  unfold Scopes.duplicates
  split
  · exact List.forall_mem_singleton.2 rfl
  · exact List.forall_mem_nil _

theorem Scopes.isLost_paramProblems {s : Scopes} {i : Nat} {ps : List Param} :
    ∀ p ∈ s.paramProblems i ps, p.isLost = false := by
  induction ps generalizing s i with
  | nil => exact List.forall_mem_nil _
  | cons p ps ih =>
    rw [Scopes.paramProblems]
    split
    · exact List.forall_mem_append.2 ⟨Scopes.isLost_duplicates, ih⟩
    · exact ih

mutual
/-- What is passed over is passed over with everything in it. -/
theorem Decl.parts_skipped : ∀ d : Decl, Bare d.notes → ∀ part ∈ d.parts false, part.visited = false ∧
    Bare part.expr.notes
  | .var v, hb => by
    rw [Decl.parts]
    exact List.forall_mem_singleton.2 ⟨rfl, hb⟩
  | .function f, hb => by
    rw [Decl.parts, Bool.false_and]
    exact f.parts_skipped hb

theorem Function.parts_skipped :
    ∀ f : Function, Bare f.notes → ∀ part ∈ f.parts false, part.visited = false ∧ Bare part.expr.notes
  | ⟨name, params, ret, locals, body, span⟩, hb => by
    obtain ⟨hlocals, hbody⟩ := bare_append.1 hb
    rw [Function.parts]
    exact List.forall_mem_append.2
      ⟨Decl.listParts_skipped locals hlocals, List.forall_mem_singleton.2 ⟨rfl, hbody⟩⟩

theorem Decl.listParts_skipped : ∀ ds : List Decl, Bare (Decl.listNotes ds) →
    ∀ part ∈ Decl.listParts false ds, part.visited = false ∧ Bare part.expr.notes
  | [], _ => List.forall_mem_nil _
  | d :: ds, hb => by
    obtain ⟨hd, hds⟩ := bare_append.1 hb
    rw [Decl.listParts]
    exact List.forall_mem_append.2 ⟨d.parts_skipped hd, Decl.listParts_skipped ds hds⟩
end

section Declarations
variable {classes : Table VirtualTable}

mutual
theorem Decl.accounts : ∀ (d : Decl) {s : Scopes}, Bare d.notes →
    Accounts (Diagnostic.errors (d.nameProblems classes s)) ((d.annotate classes s).parts true)
  | .var v, s, hb => by
    cases hv : v.declared? with
    | none =>
      simp only [Decl.nameProblems, Decl.annotate, hv, Decl.parts, Option.isSome_none, Bool.and_false]
      exact .skipped (List.forall_mem_singleton.2 ⟨rfl, hb⟩)
    | some p =>
      have hv' (e : Expr) : ({ v with init := e } : Variable).declared? = some p := hv
      simp only [Decl.nameProblems, Decl.annotate, hv, Decl.parts, hv', Option.isSome_some, Bool.and_true,
        List.append_assoc]
      rw [Diagnostic.errors_append]
      exact (Expr.accounts hb).after
        (Diagnostic.isLost_errors (List.forall_mem_append.2
          ⟨Ty.isLost_problems _, Scopes.isLost_duplicates⟩))
  | .function f, s, hb => by
    cases hf : f.declared? with
    | none =>
      simp only [Decl.nameProblems, Decl.annotate, hf, Decl.parts, Option.isSome_none, Bool.and_false]
      exact .skipped (f.parts_skipped hb)
    | some p =>
      simp only [Decl.nameProblems, Decl.annotate, hf, Decl.parts, Function.declared?_annotate,
        Option.isSome_some, Bool.and_true]
      rw [Diagnostic.errors_append]
      exact (f.accounts hb).before
        (Diagnostic.isLost_errors (List.forall_mem_append.2
          ⟨Signature.isLost_problems _, Scopes.isLost_duplicates⟩))

theorem Function.accounts : ∀ (f : Function) {s : Scopes}, Bare f.notes →
    Accounts (Diagnostic.errors (f.nameProblems classes s)) ((f.annotate classes s).parts true)
  | ⟨name, params, ret, locals, body, span⟩, s, hb => by
    obtain ⟨hlocals, hbody⟩ := bare_append.1 hb
    rw [Function.nameProblems, Function.annotate, Function.parts, Diagnostic.errors_append,
      Diagnostic.errors_append]
    exact ((Decl.accountsAll locals hlocals).before
      (Diagnostic.isLost_errors Scopes.isLost_paramProblems)).append
      (Expr.accounts hbody)

theorem Decl.accountsAll : ∀ (ds : List Decl) {s : Scopes}, Bare (Decl.listNotes ds) →
    Accounts (Diagnostic.errors (Decl.allNameProblems classes s ds))
      (Decl.listParts true (Decl.annotateAll classes s ds))
  | [], s, _ => .others (List.forall_mem_nil _)
  | d :: ds, s, hb => by
    obtain ⟨hd, hds⟩ := bare_append.1 hb
    rw [Decl.allNameProblems, Decl.annotateAll, Decl.listParts, Diagnostic.errors_append]
    exact (d.accounts hd).append (Decl.accountsAll ds hds)
end

end Declarations

/-! ## The nodes stay -/

/-- The annotations of a node, emptied. -/
def Note.blank : Note → Note
  | cls name _ _ => .cls name none none
  | field name _ => .field name none
  | method name _ => .method name none
  | ident name _ => .ident name none
  | call callee _ => .call callee none
  | methodCall object _ selector _ => .methodCall object none selector none
  | new name _ => .new name none

section Nodes
variable {env : Env}

mutual
theorem Expr.blank_annotate : ∀ e : Expr, (e.annotate env).notes.map Note.blank = e.notes.map Note.blank
  | .int .. | .bool .. | .null _ | .ident .. => rfl
  | .call callee args _ _ | .methodCall callee _ args _ _ _ | .new callee args _ _ => by
    rw [Expr.annotate, Expr.notes, Expr.notes, List.map_cons, List.map_cons, Expr.blank_annotateAll args]
    rfl
  | .ite c t e _ => by
    simp only [Expr.annotate, Expr.notes, List.map_append, c.blank_annotate, t.blank_annotate,
      e.blank_annotate]
  | .binary _ l r _ => by
    simp only [Expr.annotate, Expr.notes, List.map_append, l.blank_annotate, r.blank_annotate]
  | .not e _ | .print e _ => e.blank_annotate

theorem Expr.blank_annotateAll :
    ∀ es : List Expr, (Expr.listNotes (Expr.annotateAll env es)).map Note.blank =
      (Expr.listNotes es).map Note.blank
  | [] => rfl
  | e :: es => by
    simp only [Expr.annotateAll, Expr.listNotes, List.map_append, e.blank_annotate,
      Expr.blank_annotateAll es]
end

mutual
theorem Decl.blank_annotate {classes : Table VirtualTable} :
    ∀ (d : Decl) {s : Scopes}, (d.annotate classes s).notes.map Note.blank = d.notes.map Note.blank
  | .var v, s => by
    unfold Decl.annotate
    split
    · exact v.init.blank_annotate
    · rfl
  | .function f, s => by
    unfold Decl.annotate
    split
    · exact f.blank_annotate
    · rfl

theorem Function.blank_annotate {classes : Table VirtualTable} :
    ∀ (f : Function) {s : Scopes}, (f.annotate classes s).notes.map Note.blank = f.notes.map Note.blank
  | ⟨name, params, ret, locals, body, span⟩, s => by
    simp only [Function.annotate, Function.notes, List.map_append, Decl.blank_annotateAll locals,
      body.blank_annotate]

theorem Decl.blank_annotateAll {classes : Table VirtualTable} : ∀ (ds : List Decl) {s : Scopes},
    (Decl.listNotes (Decl.annotateAll classes s ds)).map Note.blank = (Decl.listNotes ds).map Note.blank
  | [], s => rfl
  | d :: ds, s => by
    simp only [Decl.annotateAll, Decl.listNotes, List.map_append, d.blank_annotate,
      Decl.blank_annotateAll ds]
end

theorem Method.blank_annotate (d : Method) :
    (d.annotate env).notes.map Note.blank = d.notes.map Note.blank := by
  unfold Method.annotate
  split
  · obtain ⟨⟨name, params, ret, locals, body, span⟩, offset⟩ := d
    rw [Method.notes, Method.notes, List.map_cons, List.map_cons, Function.blank_annotate]
    rfl
  · rfl

end Nodes

/-! ## Classes -/

section Members
variable {level : Nat} {m m' : Members} {reports : List Diagnostic}

/-- Incomplete fields are left alone, and what is reported about fields is not about references. -/
theorem Members.placeField_leaves {f e : Field} (h : m.placeField level f = .ok (e, m', reports)) :
    (e.declared? = none → e = f) ∧ e.name = f.name ∧ ∀ d ∈ reports, d.isLost = false := by
  unfold Members.placeField at h
  split at h
  · cases h
    exact ⟨fun _ => rfl, rfl, List.forall_mem_nil _⟩
  · next hf =>
    split at h
    · cases h
      exact ⟨fun _ => rfl, rfl, List.forall_mem_singleton.2 rfl⟩
    · cases h
      exact ⟨fun _ => rfl, rfl, List.forall_mem_singleton.2 rfl⟩
    · simp only [bind_eq_ok, pure_eq_ok, Prod.mk.injEq] at h
      obtain ⟨added, -, rfl, -, rfl⟩ := h
      refine ⟨fun hnone => ?_, rfl, List.forall_mem_nil _⟩
      cases hf.symm.trans hnone

theorem Members.placeMethod_leaves {d e : Method} (h : m.placeMethod level d = .ok (e, m', reports)) :
    e.function = d.function ∧ ∀ d ∈ reports, d.isLost = false := by
  unfold Members.placeMethod at h
  split at h
  · cases h
    exact ⟨rfl, List.forall_mem_nil _⟩
  · split at h
    · cases h
      exact ⟨rfl, List.forall_mem_singleton.2 rfl⟩
    · cases h
      exact ⟨rfl, List.forall_mem_singleton.2 rfl⟩
    · simp only [bind_eq_ok, pure_eq_ok, Prod.mk.injEq] at h
      obtain ⟨added, -, rfl, -, rfl⟩ := h
      exact ⟨rfl, List.forall_mem_nil _⟩

theorem Members.placeFields_leaves {fs fs' : List Field}
    (h : m.placeFields level fs = .ok (fs', m', reports)) :
    (∀ e ∈ fs', e.declared? = none → e ∈ fs) ∧ fs'.map Field.name = fs.map Field.name ∧
      ∀ d ∈ reports, d.isLost = false := by
  induction fs generalizing m fs' reports with
  | nil =>
    cases h
    exact ⟨List.forall_mem_nil _, rfl, List.forall_mem_nil _⟩
  | cons f fs ih =>
    simp only [Members.placeFields, bind_eq_ok, pure_eq_ok, Prod.exists, Prod.mk.injEq] at h
    obtain ⟨f', m₁, reports₁, hf, fs', m₂, reports₂, hfs, rfl, rfl, rfl⟩ := h
    obtain ⟨hleft, hname, hreports⟩ := Members.placeField_leaves hf
    obtain ⟨hrest, hnames, hreports'⟩ := ih hfs
    refine ⟨List.forall_mem_cons.2 ⟨fun hnone => ?_, fun e he hnone => ?_⟩, ?_,
      List.forall_mem_append.2 ⟨hreports, hreports'⟩⟩
    · rw [hleft hnone]
      exact List.mem_cons_self
    · exact List.mem_cons_of_mem _ (hrest e he hnone)
    · rw [List.map_cons, List.map_cons, hname, hnames]

theorem Members.placeMethods_leaves {ds ds' : List Method}
    (h : m.placeMethods level ds = .ok (ds', m', reports)) :
    ds'.map Method.function = ds.map Method.function ∧ ∀ d ∈ reports, d.isLost = false := by
  induction ds generalizing m ds' reports with
  | nil =>
    cases h
    exact ⟨rfl, List.forall_mem_nil _⟩
  | cons d ds ih =>
    simp only [Members.placeMethods, bind_eq_ok, pure_eq_ok, Prod.exists, Prod.mk.injEq] at h
    obtain ⟨d', m₁, reports₁, hd, ds', m₂, reports₂, hds, rfl, rfl, rfl⟩ := h
    obtain ⟨hfunction, hreports⟩ := Members.placeMethod_leaves hd
    obtain ⟨hfunctions, hreports'⟩ := ih hds
    refine ⟨?_, List.forall_mem_append.2 ⟨hreports, hreports'⟩⟩
    rw [List.map_cons, List.map_cons, hfunction, hfunctions]

end Members

section Classes
variable {env : Env} {c : Class}

theorem Class.place_leaves {placed : PlacedMembers} (hb : Bare c.notes) (h : c.place env = .ok placed) :
    (∀ f ∈ placed.fields, f.declared? = none → f.offset = none) ∧
      (∀ d ∈ placed.methods, Bare d.function.notes) ∧
      ∀ d ∈ placed.reports, d.isLost = false := by
  simp only [Class.place, bind_eq_ok, pure_eq_ok, Prod.exists] at h
  obtain ⟨fields, m, fieldReports, hfields, methods, m', methodReports, hmethods, rfl⟩ := h
  obtain ⟨hleft, -, hreports⟩ := Members.placeFields_leaves hfields
  obtain ⟨hfunctions, hreports'⟩ := Members.placeMethods_leaves hmethods
  obtain ⟨-, hoffsets, hbodies⟩ := Class.bare_iff.1 hb
  refine ⟨fun f hf hnone => hoffsets f (hleft f hf hnone), fun d hd => ?_,
    List.forall_mem_append.2 ⟨hreports, hreports'⟩⟩
  have hfunction : d.function ∈ methods.map Method.function := List.mem_map_of_mem hd
  rw [hfunctions] at hfunction
  obtain ⟨d', hd', heq⟩ := List.mem_map.1 hfunction
  exact heq ▸ (hbodies d' hd').2

theorem Class.isLost_superclassProblems : ∀ p ∈ c.superclassProblems env, p.isLost = false := by
  unfold Class.superclassProblems
  split
  · split
    · exact List.forall_mem_nil _
    · exact List.forall_mem_singleton.2 rfl
  · exact List.forall_mem_nil _

theorem Env.isLost_classDuplicates {name : Name} : ∀ p ∈ env.classDuplicates name, p.isLost = false := by
  unfold Env.classDuplicates
  split
  · exact List.forall_mem_singleton.2 rfl
  · exact List.forall_mem_nil _

theorem Field.isLost_typeProblems {f : Field} : ∀ p ∈ f.typeProblems env, p.isLost = false := by
  unfold Field.typeProblems
  split
  · exact Ty.isLost_problems _
  · exact List.forall_mem_nil _

/-- Methods without an offset are passed over. -/
theorem Method.accounts {d : Method} (hb : Bare d.function.notes) :
    Accounts (Diagnostic.errors (d.nameProblems env))
      ((d.annotate env).function.parts (d.annotate env).offset.isSome) := by
  unfold Method.nameProblems Method.annotate
  split
  · next ho =>
    rw [Diagnostic.errors_append, ho]
    refine (d.function.accounts hb).before (Diagnostic.isLost_errors ?_)
    split
    · exact Signature.isLost_problems _
    · exact List.forall_mem_nil _
  · next ho =>
    rw [Bool.eq_false_iff.2 ho]
    exact .skipped (d.function.parts_skipped hb)

theorem Class.resolve_keeps_nodes {r : ResolvedClass} (hr : c.resolve env = .ok r) :
    r.tree.notes.map Note.blank = c.notes.map Note.blank := by
  unfold Class.resolve at hr
  split at hr
  · simp only [bind_eq_ok, pure_eq_ok, Class.place, Prod.exists] at hr
    obtain ⟨_, ⟨fields, m, fieldReports, hfields, methods, m', methodReports, hmethods, rfl⟩, rfl⟩ := hr
    obtain ⟨-, hnames, -⟩ := Members.placeFields_leaves hfields
    obtain ⟨hfunctions, -⟩ := Members.placeMethods_leaves hmethods
    -- an emptied note has nothing but the name of a field, and nothing but the function of a method
    have hfieldNotes (fs : List Field) :
        (fs.map Field.note).map Note.blank = (fs.map Field.name).map fun x =>
          .field (x.map Name.text) none := by
      rw [List.map_map, List.map_map]
      rfl
    have hmethodNotes (ds : List Method) : (ds.flatMap Method.notes).map Note.blank =
        (ds.map Method.function).flatMap fun f =>
          .method (f.name.map Name.text) none :: f.notes.map Note.blank := by
      rw [List.map_flatMap, List.flatMap_map]
      rfl
    have hannotate (inner : Env) :
        ((methods.map (·.annotate inner)).flatMap Method.notes).map Note.blank =
          (methods.flatMap Method.notes).map Note.blank := by
      simp only [List.flatMap_map, List.map_flatMap, Method.blank_annotate]
    rw [Class.notes, Class.notes, List.map_cons, List.map_cons, List.map_append, List.map_append,
      Class.resolvePlaced, hannotate,
      hfieldNotes, hmethodNotes, hnames, hfunctions, hfieldNotes, hmethodNotes]
    rfl
  · cases hr
    rfl

/-- What a class has that was passed over: all of it if it has no name, and the fields that are
incomplete. -/
structure Class.LeavesAlone (c : Class) : Prop where
  nameless : c.name = none → Bare c.notes
  fields : ∀ f ∈ c.fields, f.declared? = none → f.offset = none

theorem Class.resolve_accounts {r : ResolvedClass} (hb : Bare c.notes) (hr : c.resolve env = .ok r) :
    Accounts r.reports r.tree.parts ∧ r.tree.LeavesAlone := by
  unfold Class.resolve at hr
  split at hr
  · next name hname =>
    simp only [bind_eq_ok, pure_eq_ok] at hr
    obtain ⟨placed, hplaced, rfl⟩ := hr
    obtain ⟨hfields, hbodies, hreports⟩ := Class.place_leaves hb hplaced
    have hname' : (c.resolvePlaced env name placed).tree.name = some name := hname
    refine ⟨?_, fun hnone => ?_, hfields⟩
    · -- of all that is reported about a class, only the reports about its methods are about references
      have hmethods : Accounts (Diagnostic.errors (placed.methods.flatMap
          (·.nameProblems ((env.declareClass name.text placed.members).enterClass placed.members))))
          (c.resolvePlaced env name placed).tree.parts := by
        rw [Diagnostic.errors, List.map_flatMap, Class.parts, hname', Class.resolvePlaced, List.flatMap_map]
        exact .flatMap fun d hd => Method.accounts (hbodies d hd)
      rw [Class.resolvePlaced, Diagnostic.errors_append]
      refine (hmethods.before (Diagnostic.isLost_errors ?_)).before
        (List.forall_mem_append.2 ⟨?_, hreports⟩)
      · exact List.forall_mem_append.2 ⟨Env.isLost_classDuplicates, fun p hp => by
          obtain ⟨f, -, hp⟩ := List.mem_flatMap.1 hp
          exact Field.isLost_typeProblems p hp⟩
      · exact Diagnostic.isLost_errors Class.isLost_superclassProblems
    · cases hname'.symm.trans hnone
  · next hname =>
    cases hr
    obtain ⟨-, hoffsets, hbodies⟩ := Class.bare_iff.1 hb
    refine ⟨.skipped fun part hpart => ?_, fun _ => hb, fun f hf _ => hoffsets f hf⟩
    obtain ⟨d, hd, hpart⟩ := List.mem_flatMap.1 hpart
    rw [hname] at hpart
    exact d.function.parts_skipped (hbodies d hd).2 part hpart

theorem Class.resolveAll_accounts {cs : List Class} {r : ResolvedClasses}
    (hb : Bare (cs.flatMap Class.notes)) (hr : Class.resolveAll env cs = .ok r) :
    Accounts r.reports (r.trees.flatMap Class.parts) ∧ ∀ c ∈ r.trees, c.LeavesAlone := by
  induction cs generalizing env r with
  | nil =>
    cases hr
    exact ⟨.others (List.forall_mem_nil _), List.forall_mem_nil _⟩
  | cons c cs ih =>
    simp only [Class.resolveAll, bind_eq_ok, pure_eq_ok] at hr
    obtain ⟨first, hfirst, rest, hrest, rfl⟩ := hr
    rw [List.flatMap_cons, bare_append] at hb
    obtain ⟨haccounts, hleaves⟩ := Class.resolve_accounts hb.1 hfirst
    obtain ⟨haccounts', hleaves'⟩ := ih hb.2 hrest
    exact ⟨haccounts.append haccounts', List.forall_mem_cons.2 ⟨hleaves, hleaves'⟩⟩

end Classes

/-! ## Programs -/

theorem Class.resolveAll_keeps_nodes {env : Env} {cs : List Class} {r : ResolvedClasses}
    (hr : Class.resolveAll env cs = .ok r) :
    (r.trees.flatMap Class.notes).map Note.blank = (cs.flatMap Class.notes).map Note.blank := by
  induction cs generalizing env r with
  | nil =>
    cases hr
    rfl
  | cons c cs ih =>
    simp only [Class.resolveAll, bind_eq_ok, pure_eq_ok] at hr
    obtain ⟨first, hfirst, rest, hrest, rfl⟩ := hr
    simp only [List.flatMap_cons, List.map_append, Class.resolve_keeps_nodes hfirst, ih hrest]

/-- Resolution fills annotations and does nothing else to the tree. -/
theorem Program.resolve_keeps_nodes {p : Program} {r : Resolved} (hr : p.resolve = .ok r) :
    r.tree.notes.map Note.blank = p.notes.map Note.blank := by
  cases p with
  | letIn classes decls body span =>
    simp only [Program.resolve, bind_eq_ok, pure_eq_ok] at hr
    obtain ⟨resolved, hresolved, rfl⟩ := hr
    simp only [Program.notes, Program.classes, Program.decls, Program.body, List.map_append,
      Class.resolveAll_keeps_nodes hresolved, Decl.blank_annotateAll, Expr.blank_annotate]
  | expr body span =>
    cases hr
    exact body.blank_annotate

theorem Program.resolve_accounts {p : Program} {r : Resolved} (hb : Bare p.notes) (hr : p.resolve = .ok r) :
    Accounts r.reports r.tree.parts ∧ ∀ c ∈ r.tree.classes, c.LeavesAlone := by
  cases p with
  | letIn classes decls body span =>
    simp only [Program.notes, Program.classes, Program.decls, Program.body, bare_append] at hb
    simp only [Program.resolve, bind_eq_ok, pure_eq_ok] at hr
    obtain ⟨resolved, hresolved, rfl⟩ := hr
    obtain ⟨haccounts, hleaves⟩ := Class.resolveAll_accounts hb.1.1 hresolved
    refine ⟨?_, hleaves⟩
    rw [Diagnostic.errors_append, ← List.append_assoc]
    exact (haccounts.append (Decl.accountsAll decls hb.1.2)).append (Expr.accounts hb.2)
  | expr body span =>
    cases hr
    exact ⟨Expr.accounts hb, List.forall_mem_nil _⟩

/-- A reference is fully annotated exactly if what it would call for is not reported. -/
theorem Accounts.isFull_iff {reports : List Diagnostic} {parts : List Part} (h : Accounts reports parts)
    {x : Reference} (hx : x ∈ Part.references parts) :
    x.isFull = true ↔ ∀ d ∈ reports, x.complaint? ≠ some d.problem := by
  have hsome := x.isSome_complaint?
  constructor
  · intro hfull d _ hd
    rw [hd, hfull] at hsome
    cases hsome
  · intro hnone
    by_contra hfull
    rw [Bool.eq_false_iff.2 hfull] at hsome
    obtain ⟨q, hq⟩ := Option.isSome_iff_exists.1 hsome
    have hmem : ⟨.error, q⟩ ∈ reports.filter Diagnostic.isLost := by
      rw [h.reported]
      exact List.mem_map_of_mem (List.mem_filterMap.2 ⟨x, hx, hq⟩)
    exact hnone _ (List.mem_filter.1 hmem).1 hq

theorem Accounts.count {reports : List Diagnostic} {parts : List Part} (h : Accounts reports parts) :
    reports.countP Diagnostic.isLost = (Part.references parts).countP (!·.isFull) := by
  rw [List.countP_eq_length_filter, h.reported, Diagnostic.errors, List.length_map,
    Reference.length_complaints]

/-- Resolution goes on after every name that refers to nothing, and reports each such reference once. -/
theorem Program.lost_references_reported {p : Program} (hb : Bare p.notes) (ht : Written p.types) :
    ∃ r, p.resolve = .ok r ∧ r.tree.notes.map Note.blank = p.notes.map Note.blank ∧
      r.reports.filter Diagnostic.isLost =
        Diagnostic.errors ((Part.references r.tree.parts).filterMap Reference.complaint?) ∧
      r.reports.countP Diagnostic.isLost = (Part.references r.tree.parts).countP (!·.isFull) ∧
      (∀ x ∈ Part.references r.tree.parts, x.isFull = true ↔
        ∀ d ∈ r.reports, x.complaint? ≠ some d.problem) ∧
      Part.Untouched r.tree.parts ∧ ∀ c ∈ r.tree.classes, c.LeavesAlone := by
  obtain ⟨r, hr, -⟩ := Program.resolve_fits hb ht
  obtain ⟨haccounts, hleaves⟩ := Program.resolve_accounts hb hr
  exact ⟨r, hr, Program.resolve_keeps_nodes hr, haccounts.reported, haccounts.count,
    fun _ hx => haccounts.isFull_iff hx, haccounts.untouched, hleaves⟩

/-- Names that refer to nothing: in a method, in a repeated method, in a class without a name, in an
incomplete variable, in a function and in a function inside an incomplete one, and in the body, where a
method call has a lost argument too. -/
def strays : Program :=
  .letIn
    [.plain "A" none [("n", .int)] [.plain "get" [] .int (.variable "lost"),
      .plain "get" [] .int (.apply "lost" [])],
      { Class.plain "B" none [("m", .int)] [.plain "get" [] .int (.variable "lost")] with name := none }]
    [.var (.plain "a" (.ref "A") (.make "A" [.number 1])),
      .var { Variable.plain "b" .int (.variable "lost") with type := none },
      .function (.plain "f" [("x", .int)] .int (.send "x" "get" [])),
      .function { Function.plain "g" [] .int (.number 0) with
        ret := none, locals := [.function (.plain "h" [] .int (.variable "lost"))] }]
    (.binary (.arith .add) (.send "a" "set" [.variable "lost", .variable "a"])
      (.apply "f" [.send "lost" "get" []]) .synthetic)
    .synthetic

theorem strays_reported : Bare strays.notes ∧ Written strays.types ∧ ∃ r, strays.resolve = .ok r ∧
    r.reports.countP Diagnostic.isLost = 5 ∧
      r.tree.parts.map (·.visited) = [true, false, false, true, false, true, false, false, true] ∧
      r.reports.countP Diagnostic.isLost = (Part.references r.tree.parts).countP (!·.isFull) ∧
      (∀ x ∈ Part.references r.tree.parts, x.isFull = true ↔
        ∀ d ∈ r.reports, x.complaint? ≠ some d.problem) ∧
      Part.Untouched r.tree.parts ∧ ∀ c ∈ r.tree.classes, c.LeavesAlone := by
  have hb : Bare strays.notes := by decide
  have ht : Written strays.types := by decide
  obtain ⟨r, hr, -, -, hcount, hfull, huntouched, hleaves⟩ := Program.lost_references_reported hb ht
  obtain ⟨r', hr', hfive, hvisited⟩ : ∃ r, strays.resolve = .ok r ∧ r.reports.countP Diagnostic.isLost = 5 ∧
      r.tree.parts.map (·.visited) = [true, false, false, true, false, true, false, false, true] :=
      exists_ok (by decide +kernel)
  obtain rfl : r' = r := Except.ok.inj (hr'.symm.trans hr)
  exact ⟨hb, ht, r', hr, hfive, hvisited, hcount, hfull, huntouched, hleaves⟩

end Classlet

import Classlet.Proofs.Members
import Classlet.Proofs.Placement
/-!
# A type error concerns one declaration

Two programs differ in one initializer or in the body of one function or method, however deep it is nested
(`Program.Varies`). Names refer to the same declarations in both, so resolution leaves programs that differ
in that place only. Every declaration has one problem of its own at most, and checking goes on after it: the
reports agree but for one on each side, and types and hierarchy are the same
(`Program.type_errors_contained`).
-/

namespace Classlet

/-! ## Programs that differ in one place -/

/-- One element is replaced by a related one. -/
inductive Once {α : Type} (R : α → α → Prop) : List α → List α → Prop
  | here {a a' : α} (l : List α) : R a a' → Once R (a :: l) (a' :: l)
  | there (a : α) {l l' : List α} : Once R l l' → Once R (a :: l) (a :: l')

mutual
/-- The declarations have different initializers or differ inside a function. -/
inductive Decl.Varies : Decl → Decl → Prop
  | init (v : Variable) (e : Expr) : Decl.Varies (.var v) (.var { v with init := e })
  | function {f f' : Function} : Function.Varies f f' → Decl.Varies (.function f) (.function f')

/-- The functions have different bodies or differ in one local declaration. -/
inductive Function.Varies : Function → Function → Prop
  | body (f : Function) (e : Expr) : Function.Varies f { f with body := e }
  | locals (f : Function) {ds : List Decl} : Once Decl.Varies f.locals ds →
      Function.Varies f { f with locals := ds }
end

inductive Method.Varies (d : Method) : Method → Prop
  | function {f : Function} : d.function.Varies f → Method.Varies d { d with function := f }

inductive Class.Varies (c : Class) : Class → Prop
  | methods {ds : List Method} : Once Method.Varies c.methods ds → Class.Varies c { c with methods := ds }

/-- The programs differ in one initializer, or in one body of a function or method. -/
inductive Program.Varies : Program → Program → Prop
  | classes {cs cs' : List Class} (decls : List Decl) (body : Expr) (span : Span) :
      Once Class.Varies cs cs' →
    Program.Varies (.letIn cs decls body span) (.letIn cs' decls body span)
  | decls (classes : List Class) {ds ds' : List Decl} (body : Expr) (span : Span) :
      Once Decl.Varies ds ds' →
    Program.Varies (.letIn classes ds body span) (.letIn classes ds' body span)

/-! ## Lists that differ in one place -/

/-- The lists are the same but for a part that has at most one element. -/
def DifferInOne {α : Type} (l l' : List α) : Prop :=
  ∃ xs d d' ys, l = xs ++ d ++ ys ∧ l' = xs ++ d' ++ ys ∧ d.length ≤ 1 ∧ d'.length ≤ 1

section Lists
variable {α β : Type} {l l' : List α}

namespace DifferInOne

theorem refl (l : List α) : DifferInOne l l := ⟨l, [], [], [], by simp, by simp, by simp, by simp⟩

theorem append_left (h : DifferInOne l l') (before : List α) :
    DifferInOne (before ++ l) (before ++ l') := by
  obtain ⟨xs, d, d', ys, rfl, rfl, hd, hd'⟩ := h
  exact ⟨before ++ xs, d, d', ys, by simp, by simp, hd, hd'⟩

theorem append_right (h : DifferInOne l l') (after : List α) : DifferInOne (l ++ after) (l' ++ after) := by
  obtain ⟨xs, d, d', ys, rfl, rfl, hd, hd'⟩ := h
  exact ⟨xs, d, d', ys ++ after, by simp, by simp, hd, hd'⟩

theorem of_options (f : β → α) (o o' : Option β) : DifferInOne (o.toList.map f) (o'.toList.map f) := by
  refine ⟨[], o.toList.map f, o'.toList.map f, [], by simp, by simp, ?_, ?_⟩
  · cases o <;> simp
  · cases o' <;> simp

end DifferInOne

variable {R : α → α → Prop}

theorem Once.flatMap {f : α → List β} (hf : ∀ {a a'}, R a a' → DifferInOne (f a) (f a')) (h : Once R l l') :
    DifferInOne (l.flatMap f) (l'.flatMap f) := by
  induction h with
  | here l h => exact (hf h).append_right _
  | there a _ ih => exact ih.append_left _

theorem Once.mapM_eq {ε : Type} {f : α → Except ε β} (hf : ∀ {a a'}, R a a' → f a' = f a)
    (h : Once R l l') :
    l'.mapM f = l.mapM f := by
  induction h with
  | here l h => rw [List.mapM_cons, List.mapM_cons, hf h]
  | there a _ ih => rw [List.mapM_cons, List.mapM_cons, ih]

theorem Once.map {S : β → β → Prop} {f : α → β} (hf : ∀ {a a'}, R a a' → S (f a) (f a')) (h : Once R l l') :
    Once S (l.map f) (l'.map f) := by
  induction h with
  | here l h => exact .here _ (hf h)
  | there a _ ih => exact .there _ ih

end Lists

/-! ## Resolution -/

section Resolution

theorem Function.Varies.declared? {f f' : Function} (h : f.Varies f') : f'.declared? = f.declared? := by
  cases h with
  | body f e => rfl
  | locals f h => rfl

theorem Decl.Varies.bind {d d' : Decl} (h : d.Varies d') (s : Scopes) : d'.bind s = d.bind s := by
  unfold Decl.bind
  cases h with
  | init v e => rfl
  | function h => rw [Decl.declared?, Decl.declared?, h.declared?]

theorem Decl.bindAll_once {ds ds' : List Decl} (h : Once Decl.Varies ds ds') (s : Scopes) :
    Decl.bindAll s ds' = Decl.bindAll s ds := by
  induction h generalizing s with
  | here ds h => rw [Decl.bindAll, Decl.bindAll, List.foldl_cons, List.foldl_cons, h.bind]
  | there d _ ih => exact ih (d.bind s)

variable (classes : Table VirtualTable)

mutual
theorem Decl.Varies.annotate {d d' : Decl} :
    d.Varies d' → ∀ s, (d.annotate classes s).Varies (d'.annotate classes s)
  | .init v e, s => by
    -- the initializer has no part in what is declared, so both are complete or neither is
    have hv' : ({ v with init := e } : Variable).declared? = v.declared? := rfl
    rw [Decl.annotate, Decl.annotate, hv']
    split
    · exact .init _ _
    · exact .init v e
  | .function h, s => by
    rw [Decl.annotate, Decl.annotate, h.declared?]
    split
    · exact .function (h.annotate _)
    · exact .function h

theorem Function.Varies.annotate {f f' : Function} :
    f.Varies f' → ∀ s, (f.annotate classes s).Varies (f'.annotate classes s)
  | .body ⟨name, params, ret, locals, body, span⟩ e, s => by
    rw [Function.annotate]
    exact .body _ _
  | .locals ⟨name, params, ret, locals, body, span⟩ h, s => by
    rw [Function.annotate, Function.annotate, Decl.bindAll_once h]
    exact .locals _ (Decl.annotateAll_once h _)

theorem Decl.annotateAll_once {ds ds' : List Decl} : Once Decl.Varies ds ds' → ∀ s,
    Once Decl.Varies (Decl.annotateAll classes s ds) (Decl.annotateAll classes s ds')
  | .here ds h, s => by
    rw [Decl.annotateAll, Decl.annotateAll, h.bind]
    exact .here _ (h.annotate s)
  | .there d h, s => .there _ (Decl.annotateAll_once h _)
end

theorem Method.Varies.annotate {d d' : Method} (h : d.Varies d') (env : Env) :
    (d.annotate env).Varies (d'.annotate env) := by
  cases h with
  | function h =>
    unfold Method.annotate
    by_cases hd : d.offset.isSome = true
    · simp only [hd, if_true]
      exact .function (h.annotate _ _)
    · simp only [hd]
      exact .function h

variable {level : Nat} {m m' : Members} {reports : List Diagnostic}

theorem Method.Varies.placed {d d' e : Method} (h : d.Varies d')
    (hplace : m.placeMethod level d = .ok (e, m', reports)) :
    ∃ e', m.placeMethod level d' = .ok (e', m', reports) ∧ e.Varies e' := by
  obtain ⟨o, rfl, hplace'⟩ := Members.placeMethod_eq_ok hplace
  cases h with
  | function h => exact ⟨_, hplace' _ h.declared?, .function h⟩

theorem Members.placeMethods_once {ds ds' es : List Method} (h : Once Method.Varies ds ds')
    (hplace : m.placeMethods level ds = .ok (es, m', reports)) :
    ∃ es', m.placeMethods level ds' = .ok (es', m', reports) ∧ Once Method.Varies es es' := by
  induction h generalizing m es reports with
  | here ds h =>
    simp only [Members.placeMethods, bind_eq_ok, pure_eq_ok, Prod.exists, Prod.mk.injEq] at hplace
    obtain ⟨e, m₁, reports₁, he, es, m₂, reports₂, hes, rfl, rfl, rfl⟩ := hplace
    obtain ⟨e', he', hvaries⟩ := h.placed he
    simp only [Members.placeMethods, he', hes, ok_bind]
    exact ⟨_, rfl, .here es hvaries⟩
  | there d _ ih =>
    simp only [Members.placeMethods, bind_eq_ok, pure_eq_ok, Prod.exists, Prod.mk.injEq] at hplace
    obtain ⟨e, m₁, reports₁, he, es, m₂, reports₂, hes, rfl, rfl, rfl⟩ := hplace
    obtain ⟨es', hes', hvaries⟩ := ih hes
    simp only [Members.placeMethods, he, hes', ok_bind]
    exact ⟨_, rfl, .there e hvaries⟩

theorem Class.Varies.name {c c' : Class} (h : c.Varies c') : c'.name = c.name := by
  cases h
  rfl

theorem Class.Varies.place {c c' : Class} {env : Env} {placed : PlacedMembers} (h : c.Varies c')
    (hplace : c.place env = .ok placed) :
    ∃ ds, c'.place env = .ok { placed with methods := ds } ∧ Once Method.Varies placed.methods ds := by
  cases h with
  | methods h =>
    simp only [Class.place, bind_eq_ok, pure_eq_ok, Prod.exists] at hplace
    obtain ⟨fields, m, fieldReports, hfields, es, m', methodReports, hes, rfl⟩ := hplace
    obtain ⟨es', hes', hvaries⟩ := Members.placeMethods_once h hes
    have hinherited (ds : List Method) :
      ({ c with methods := ds } : Class).inherited env = c.inherited env := rfl
    simp only [Class.place, hinherited, hfields, hes', ok_bind]
    exact ⟨es', rfl, hvaries⟩

theorem Class.Varies.resolvePlaced {c c' : Class} {placed : PlacedMembers} {ds : List Method}
    (h : c.Varies c') (hds : Once Method.Varies placed.methods ds) (env : Env) (name : Name) :
    (c.resolvePlaced env name placed).tree.Varies
      (c'.resolvePlaced env name { placed with methods := ds }).tree := by
  cases h
  exact .methods (hds.map fun h => h.annotate _)

theorem Class.Varies.resolve {c c' : Class} {env : Env} {r : ResolvedClass} (h : c.Varies c')
    (hr : c.resolve env = .ok r) :
    ∃ r', c'.resolve env = .ok r' ∧ r.tree.Varies r'.tree ∧ r'.env = r.env := by
  unfold Class.resolve at hr ⊢
  rw [h.name]
  cases hname : c.name with
  | none =>
    simp only [hname] at hr
    cases hr
    exact ⟨_, rfl, h, rfl⟩
  | some name =>
    simp only [hname, bind_eq_ok, pure_eq_ok] at hr
    obtain ⟨placed, hplaced, rfl⟩ := hr
    obtain ⟨ds, hplaced', hds⟩ := h.place hplaced
    simp only [hplaced', ok_bind]
    exact ⟨_, rfl, h.resolvePlaced hds env name, rfl⟩

theorem Class.resolveAll_once {cs cs' : List Class} {env : Env} {r : ResolvedClasses}
    (h : Once Class.Varies cs cs') (hr : Class.resolveAll env cs = .ok r) :
    ∃ r', Class.resolveAll env cs' = .ok r' ∧ Once Class.Varies r.trees r'.trees ∧ r'.env = r.env := by
  induction h generalizing env r with
  | here cs h =>
    simp only [Class.resolveAll, bind_eq_ok, pure_eq_ok] at hr
    obtain ⟨first, hfirst, rest, hrest, rfl⟩ := hr
    obtain ⟨first', hfirst', hvaries, henv⟩ := h.resolve hfirst
    simp only [Class.resolveAll, hfirst', henv, hrest, ok_bind]
    exact ⟨_, rfl, .here _ hvaries, rfl⟩
  | there c _ ih =>
    simp only [Class.resolveAll, bind_eq_ok, pure_eq_ok] at hr
    obtain ⟨first, hfirst, rest, hrest, rfl⟩ := hr
    obtain ⟨rest', hrest', hvaries, henv⟩ := ih hrest
    simp only [Class.resolveAll, hfirst, hrest', ok_bind]
    exact ⟨_, rfl, .there _ hvaries, henv⟩

/-- Resolution leaves programs that differ in the same place. -/
theorem Program.Varies.resolve {p p' : Program} {r : Resolved} (h : p.Varies p') (hr : p.resolve = .ok r) :
    ∃ r', p'.resolve = .ok r' ∧ r.tree.Varies r'.tree := by
  cases h with
  | classes decls body span h =>
    simp only [Program.resolve, bind_eq_ok, pure_eq_ok] at hr
    obtain ⟨resolved, hresolved, rfl⟩ := hr
    obtain ⟨resolved', hresolved', hvaries, henv⟩ := Class.resolveAll_once h hresolved
    simp only [Program.resolve, hresolved', henv, ok_bind]
    exact ⟨_, rfl, .classes _ _ span hvaries⟩
  | decls classes body span h =>
    simp only [Program.resolve, bind_eq_ok, pure_eq_ok] at hr
    obtain ⟨resolved, hresolved, rfl⟩ := hr
    simp only [Program.resolve, hresolved, Decl.bindAll_once h, ok_bind]
    exact ⟨_, rfl, .decls _ _ span (Decl.annotateAll_once _ h _)⟩

end Resolution

/-! ## Types -/

section Types
variable {h : Hierarchy}

mutual
theorem Decl.Varies.typeReports {d d' : Decl} : d.Varies d' → ∀ severity : Severity,
    DifferInOne (d.typeReports h severity) (d'.typeReports h severity)
  | .init v e, severity => by
    rw [Decl.typeReports, Decl.typeReports]
    exact .of_options _ _ _
  | .function hf, severity => by
    rw [Decl.typeReports, Decl.typeReports]
    exact hf.typeReports .function .error severity

theorem Function.Varies.typeReports {f f' : Function} :
    f.Varies f' → ∀ (kind : DeclKind) (localSeverity severity : Severity),
    DifferInOne (f.typeReports h kind localSeverity severity) (f'.typeReports h kind localSeverity severity)
  | .body ⟨name, params, ret, locals, body, span⟩ e, kind, localSeverity, severity => by
    have hdeclared := (Function.Varies.body ⟨name, params, ret, locals, body, span⟩ e).declared?
    rw [Function.typeReports, Function.typeReports, hdeclared]
    split
    · exact .refl _
    · exact (DifferInOne.of_options _ _ _).append_left _
  | .locals ⟨name, params, ret, locals, body, span⟩ hds, kind, localSeverity, severity => by
    have hdeclared := (Function.Varies.locals ⟨name, params, ret, locals, body, span⟩ hds).declared?
    rw [Function.typeReports, Function.typeReports, hdeclared]
    split
    · exact .refl _
    · exact (Decl.allTypeReports_once hds localSeverity).append_right _

theorem Decl.allTypeReports_once {ds ds' : List Decl} : Once Decl.Varies ds ds' → ∀ severity : Severity,
    DifferInOne (Decl.allTypeReports h severity ds) (Decl.allTypeReports h severity ds')
  | .here ds hd, severity => by
    rw [Decl.allTypeReports, Decl.allTypeReports]
    exact (hd.typeReports severity).append_right _
  | .there d hds, severity => by
    rw [Decl.allTypeReports, Decl.allTypeReports]
    exact (Decl.allTypeReports_once hds severity).append_left _
end

theorem Method.Varies.typeReports {d d' : Method} (hd : d.Varies d') :
    DifferInOne (d.typeReports h) (d'.typeReports h) := by
  cases hd with
  | function hf =>
    unfold Method.typeReports
    split
    · exact hf.typeReports .method .warning .error
    · exact .refl _

/-- Whether a method may override the inherited one does not depend on its body. -/
theorem Method.Varies.overrideReports {d d' : Method} (hd : d.Varies d') (own inherited : List Signature) :
    d'.overrideReports h own inherited = d.overrideReports h own inherited := by
  cases hd with
  | function hf =>
    cases hf with
    | body f e => rfl
    | locals f hds => rfl

theorem Class.Varies.overrideReports {c c' : Class} (hc : c.Varies c') :
    c'.overrideReports h = c.overrideReports h := by
  cases hc with
  | methods hds =>
    have hmethods (own inherited : List Signature) :=
      hds.mapM_eq fun hd => hd.overrideReports (h := h) own inherited
    simp only [Class.overrideReports, hmethods]

theorem Class.Varies.extendHierarchy {c c' : Class} (hc : c.Varies c') :
    c'.extendHierarchy h = c.extendHierarchy h := by
  cases hc
  rfl

theorem Class.Varies.methodReports {c c' : Class} (hc : c.Varies c') :
    DifferInOne (c.methods.flatMap (·.typeReports h)) (c'.methods.flatMap (·.typeReports h)) := by
  cases hc with
  | methods hds => exact hds.flatMap fun hd => hd.typeReports

theorem Class.Varies.typeReports {c c' : Class} {reports : List Diagnostic} (hc : c.Varies c')
    (hr : c.typeReports h = .ok reports) :
    ∃ reports', c'.typeReports h = .ok reports' ∧ DifferInOne reports reports' := by
  unfold Class.typeReports at hr ⊢
  rw [hc.name, hc.overrideReports]
  cases hname : c.name with
  | none =>
    simp only [hname] at hr
    exact ⟨reports, hr, .refl _⟩
  | some name =>
    simp only [hname, bind_eq_ok, pure_eq_ok] at hr
    obtain ⟨overriding, hoverriding, rfl⟩ := hr
    simp only [hoverriding, ok_bind]
    exact ⟨_, rfl, hc.methodReports.append_right overriding⟩

theorem Class.checkAll_once {cs cs' : List Class} {last : Hierarchy} {reports : List Diagnostic}
    (hcs : Once Class.Varies cs cs') (hr : Class.checkAll h cs = .ok (last, reports)) :
    ∃ reports', Class.checkAll h cs' = .ok (last, reports') ∧ DifferInOne reports reports' := by
  induction hcs generalizing h reports with
  | here cs hc =>
    simp only [Class.checkAll, bind_eq_ok, pure_eq_ok, Prod.exists, Prod.mk.injEq] at hr
    obtain ⟨first, hfirst, last, rest, hrest, rfl, rfl⟩ := hr
    obtain ⟨first', hfirst', hdiffer⟩ := hc.typeReports hfirst
    simp only [Class.checkAll, hc.extendHierarchy, hfirst', hrest, ok_bind]
    exact ⟨_, rfl, hdiffer.append_right rest⟩
  | there c _ ih =>
    simp only [Class.checkAll, bind_eq_ok, pure_eq_ok, Prod.exists, Prod.mk.injEq] at hr
    obtain ⟨first, hfirst, last, rest, hrest, rfl, rfl⟩ := hr
    obtain ⟨rest', hrest', hdiffer⟩ := ih hrest
    simp only [Class.checkAll, hfirst, hrest', ok_bind]
    exact ⟨_, rfl, hdiffer.append_left first⟩

/-- Checking gives the same but for one report. -/
theorem Program.Varies.check {p p' : Program} {checked : Checked} (hp : p.Varies p')
    (hc : p.check h = .ok checked) :
    ∃ checked', p'.check h = .ok checked' ∧ checked'.type = checked.type ∧
      checked'.hierarchy = checked.hierarchy ∧ DifferInOne checked.reports checked'.reports := by
  -- the body and the hierarchy it is checked in are the same, and so is the problem of the body
  simp only [Program.check, bind_eq_ok, Prod.exists] at hc
  obtain ⟨last, reports, hall, hc⟩ := hc
  obtain ⟨reports', hall', hbody, hdiffer⟩ :
    ∃ reports', Class.checkAll h p'.classes = .ok (last, reports') ∧ p'.body = p.body ∧
      DifferInOne (reports ++ Decl.allTypeReports last .error p.decls)
        (reports' ++ Decl.allTypeReports last .error p'.decls) := by
    cases hp with
    | classes decls body span hcs =>
      obtain ⟨reports', hall', hdiffer⟩ := Class.checkAll_once hcs hall
      exact ⟨reports', hall', rfl, hdiffer.append_right _⟩
    | decls classes body span hds =>
      exact ⟨reports, hall, rfl, (Decl.allTypeReports_once hds .error).append_left _⟩
  simp only [Program.check, hall', hbody, ok_bind]
  split at hc
  · obtain rfl := pure_eq_ok.1 hc
    exact ⟨_, rfl, rfl, rfl, hdiffer⟩
  · obtain rfl := pure_eq_ok.1 hc
    exact ⟨_, rfl, rfl, rfl, hdiffer.append_right _⟩

end Types

/-- Two programs that differ in one initializer or body are resolved and checked, and what is reported about
their types differs in one report at most. -/
theorem Program.type_errors_contained {p p' : Program} (hb : Bare p.notes) (ht : Written p.types)
    (hp : p.Varies p') :
    ∃ r r' checked checked', p.resolve = .ok r ∧ p'.resolve = .ok r' ∧
      r.tree.check .empty = .ok checked ∧ r'.tree.check .empty = .ok checked' ∧
      checked'.type = checked.type ∧ checked'.hierarchy = checked.hierarchy ∧
      ∃ xs d d' ys, checked.reports = xs ++ d ++ ys ∧ checked'.reports = xs ++ d' ++ ys ∧ d.length ≤ 1 ∧
        d'.length ≤ 1 := by
  obtain ⟨r, hr, hfits⟩ := Program.resolve_fits hb ht
  obtain ⟨checked, hchecked⟩ := Program.check_succeeds (h := .empty) hfits
  obtain ⟨r', hr', htree⟩ := hp.resolve hr
  obtain ⟨checked', hchecked', htype, hhierarchy, hreports⟩ := htree.check hchecked
  exact ⟨r, r', checked, checked', hr, hr', hchecked, hchecked', htype, hhierarchy, hreports⟩

/-- An account whose fees are computed in a function inside a method, from the given rate. There is a type
error in the method before, one in the same method and one in the declaration after the class. -/
def account (rate : Expr) : Program :=
  .letIn
    [.plain "Account" none [("amount", .int)]
      [.plain "owner" [] (.ref "Account") (.variable "amount"),
        { Function.plain "due" [] .int (.not (.variable "amount") .synthetic) with
          locals := [.function { Function.plain "fee" [("n", .int)] .int (.variable "rate") with
            locals := [.var (.plain "rate" .int rate)] }] }]]
    [.var (.plain "a" .int (.make "Account" [.number 5]))] (.number 0) .synthetic

theorem account_varies (rate rate' : Expr) : (account rate).Varies (account rate') :=
  .classes _ _ _
    (.here _ (.methods (.there _ (.here _ (.function (.locals _ (.here _ (.function (.locals _ (.here _
    (.init _ rate')))))))))))

/-- A rate that is no number is reported, between the errors before and after it. -/
theorem account_error_contained :
    Bare (account (.number 1)).notes ∧ Written (account (.number 1)).types ∧
      (account (.number 1)).Varies (account (.null .synthetic)) ∧
      ∃ r r' checked checked', (account (.number 1)).resolve = .ok r ∧
        (account (.null .synthetic)).resolve = .ok r' ∧
        r.tree.check .empty = .ok checked ∧ r'.tree.check .empty = .ok checked' ∧
        checked.reports.length = 3 ∧ checked'.reports.length = 4 ∧
        checked'.type = checked.type ∧ checked'.hierarchy = checked.hierarchy ∧
        ∃ xs d d' ys, checked.reports = xs ++ d ++ ys ∧ checked'.reports = xs ++ d' ++ ys ∧ d.length ≤ 1 ∧
          d'.length ≤ 1 := by
  refine ⟨by decide, by decide, account_varies _ _, ?_⟩
  obtain ⟨r, r', checked, checked', hr, hr', hchecked, hchecked', hcontained⟩ :=
    Program.type_errors_contained (p := account (.number 1)) (by decide) (by decide)
      (account_varies _ (.null .synthetic))
  obtain ⟨r₁, checked₁, hr₁, hchecked₁, hlength⟩ := Program.exists_checked (p := account (.number 1))
    (P := fun r checked => r.reports = [] ∧ checked.reports.length = 3) (by decide +kernel)
  obtain ⟨r₂, checked₂, hr₂, hchecked₂, hlength'⟩ :=
    Program.exists_checked (p := account (.null .synthetic))
    (P := fun r checked => r.reports = [] ∧ checked.reports.length = 4) (by decide +kernel)
  obtain rfl := Except.ok.inj (hr.symm.trans hr₁)
  obtain rfl := Except.ok.inj (hr'.symm.trans hr₂)
  obtain rfl := Except.ok.inj (hchecked.symm.trans hchecked₁)
  obtain rfl := Except.ok.inj (hchecked'.symm.trans hchecked₂)
  exact ⟨r, r', checked, checked', hr, hr', hchecked, hchecked', hlength.2, hlength'.2, hcontained⟩

end Classlet

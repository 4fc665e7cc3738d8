import Classlet.Proofs.Incomplete
import Classlet.Proofs.Sends
import Classlet.Proofs.Walks
/-!
# Static chains end at the object

The frame of a method has the object as its access link, and an object has no access link. Inside a class
only its members, what is declared inside its methods and the names of classes are in view
(`Scopes.Guarded`), and of these the names of classes cannot be used as values. So no chain of access links
is followed beyond the object (`Program.chains_end_at_objects`).
-/

namespace Classlet

open Machine

/-! ## Scopes inside a class -/

/-- A scope in a class, from which only classes are visible beyond the class around it. -/
structure Scopes.Guarded (s : Scopes) : Prop where
  nested : 1 ≤ s.level
  inside : s.kinds.getLast? = some .cls
  visible (x : String) (e : Entry) : s.lookup? x = some e →
    (∃ fields methods, e.type = .cls fields methods) ∨ 1 ≤ e.level

namespace Scopes.Guarded
variable {s : Scopes}

theorem takeOffset (h : s.Guarded) : s.takeOffset.Guarded where
  nested := by rw [Scopes.level_takeOffset]; exact h.nested
  inside := by rw [Scopes.kinds_takeOffset]; exact h.inside
  visible x e he := h.visible x e (by rwa [Scopes.lookup?_takeOffset] at he)

theorem bind (h : s.Guarded) (x : String) (t : Ty) (o : Int) : (s.bind x ⟨s.level, t, o⟩).Guarded where
  nested := by rw [Scopes.level_bind]; exact h.nested
  inside := by rw [Scopes.kinds_bind]; exact h.inside
  visible y e he := by
    rcases Scopes.lookup?_bind_cases he with rfl | hy
    · exact .inr h.nested
    · exact h.visible y e hy

theorem declareLocal (h : s.Guarded) (x : String) (t : Ty) : (s.declareLocal x t).Guarded := by
  rw [Scopes.declareLocal, ← Scopes.level_takeOffset]
  exact h.takeOffset.bind x t _

theorem enter (h : s.Guarded) (ps : List Param) : (s.enter ps).Guarded := by
  have hpushed : (s.push (.opened .function .empty)).Guarded := by
    refine ⟨Nat.le_add_left 1 s.level, ?_,
      fun x e he => h.visible x e (Scopes.lookup?_push_empty s .function x ▸ he)⟩
    rw [Scopes.kinds_push, List.getLast?_cons, h.inside]
    rfl
  exact Scopes.bindParams_preserves hpushed fun _ _ _ _ _ _ _ hs => hs.bind _ _ _

theorem bindDecl (h : s.Guarded) (d : Decl) : (d.bind s).Guarded := by
  unfold Decl.bind
  split
  · exact h.declareLocal _ _
  · exact h

theorem bindAll (h : s.Guarded) (ds : List Decl) : (Decl.bindAll s ds).Guarded :=
  List.foldlRecOn ds Decl.bind h fun _ hs d _ => hs.bindDecl d

end Scopes.Guarded

/-- The members of a class have level 1, and only classes are declared around it. -/
theorem Env.Declares.guarded {env : Env} {classes : List (String × Shape)} (h : env.Declares classes)
    {m : Members} {sh : Shape} (hm : m.Shaped sh) : (env.enterClass m).scopes.Guarded where
  nested := by rw [Env.enterClass, Scopes.level, Scopes.push, List.length_cons]; exact Nat.le_add_left 1 _
  inside := by
    have hkinds : env.scopes.kinds = [] := by
      rw [Scopes.kinds, List.length_eq_zero_iff.1 h.level, List.map_nil]
    rw [Env.enterClass, Scopes.kinds_push, hkinds]
    rfl
  visible x e he := by
    -- while classes are resolved, the outermost scope holds nothing else
    rw [(h.shows_enterClass hm).lookup?, visible?, visible?, visible?, Option.or_none,
      Option.or_eq_some_iff] at he
    rcases he with hmember | ⟨-, hclass⟩
    · obtain ⟨b, -, rfl⟩ := Option.map_eq_some_iff.1 hmember
      exact .inr (Nat.le_refl 1)
    · obtain ⟨b, hb, rfl⟩ := Option.map_eq_some_iff.1 hclass
      obtain ⟨q, -, heq⟩ := List.mem_map.1 (mem_of_lookup hb)
      obtain ⟨-, rfl⟩ := Prod.mk.inj heq
      exact .inl ⟨_, _, rfl⟩

/-! ## Uses -/

section Uses
variable {env : Env} {h : Hierarchy}

mutual
/-- What a name refers to was looked up. -/
theorem Expr.resolve?_of_found : ∀ e : Expr, Bare e.notes →
    ∀ u ∈ (e.annotate env).notes.filterMap Note.filled?, env.resolve? u.1 = some u.2
  | .int .., _, u, hu | .bool .., _, u, hu | .null _, _, u, hu => (nomatch hu)
  | .ident name target, hb, u, hu => by
    obtain rfl : target = none := Option.isNone_iff_eq_none.1 (bare_cons.1 hb).1
    rw [Expr.annotate, Expr.notes, mem_filled_cons] at hu
    rcases hu with hu | hu
    · obtain ⟨res, hres, rfl⟩ := Option.map_eq_some_iff.1 hu
      exact hres
    · cases hu
  | .call callee args span target, hb, u, hu => by
    obtain ⟨htarget, hargs⟩ := bare_cons.1 hb
    obtain rfl : target = none := Option.isNone_iff_eq_none.1 htarget
    rw [Expr.annotate, Expr.notes, mem_filled_cons] at hu
    rcases hu with hu | hu
    · obtain ⟨res, hres, rfl⟩ := Option.map_eq_some_iff.1 hu
      exact hres
    · exact Expr.resolve?_of_listFound args hargs u hu
  | .methodCall object method args span receiver target, hb, u, hu => by
    obtain ⟨htargets, hargs⟩ := bare_cons.1 hb
    rw [Note.isEmpty, Bool.and_eq_true, Option.isNone_iff_eq_none, Option.isNone_iff_eq_none] at htargets
    obtain ⟨rfl, rfl⟩ := htargets
    rw [Expr.annotate, Expr.notes, mem_filled_cons] at hu
    rcases hu with hu | hu
    · obtain ⟨res, hres, rfl⟩ := Option.map_eq_some_iff.1 hu
      exact hres
    · exact Expr.resolve?_of_listFound args hargs u hu
  | .new cls args span target, hb, u, hu => by
    rw [Expr.annotate, Expr.notes, mem_filled_cons] at hu
    rcases hu with hu | hu
    · cases hu
    · exact Expr.resolve?_of_listFound args (bare_cons.1 hb).2 u hu
  | .ite c t e span, hb, u, hu => by
    rw [Expr.notes, bare_append, bare_append] at hb
    rw [Expr.annotate, Expr.notes, List.filterMap_append, List.filterMap_append, List.mem_append,
      List.mem_append] at hu
    rcases hu with (hu | hu) | hu
    · exact c.resolve?_of_found hb.1.1 u hu
    · exact t.resolve?_of_found hb.1.2 u hu
    · exact e.resolve?_of_found hb.2 u hu
  | .binary op l r span, hb, u, hu => by
    rw [Expr.notes, bare_append] at hb
    rw [Expr.annotate, Expr.notes, List.filterMap_append, List.mem_append] at hu
    exact hu.elim (l.resolve?_of_found hb.1 u) (r.resolve?_of_found hb.2 u)
  | .not e span, hb, u, hu | .print e span, hb, u, hu => e.resolve?_of_found hb u hu

theorem Expr.resolve?_of_listFound : ∀ es : List Expr, Bare (Expr.listNotes es) →
    ∀ u ∈ (Expr.listNotes (Expr.annotateAll env es)).filterMap Note.filled?, env.resolve? u.1 = some u.2
  | [], _, u, hu => (nomatch hu)
  | e :: es, hb, u, hu => by
    rw [Expr.listNotes, bare_append] at hb
    rw [Expr.annotateAll, Expr.listNotes, List.filterMap_append, List.mem_append] at hu
    exact hu.elim (e.resolve?_of_found hb.1 u) (Expr.resolve?_of_listFound es hb.2 u)
end

mutual
/-- The name of a class has no type as a value, cannot be called and is no object. -/
theorem Expr.members?_of_found : ∀ (e : Expr) {t : Ty}, Bare e.notes → (e.annotate env).typeOf h = .ok t →
    ∀ u ∈ (e.annotate env).notes.filterMap Note.filled?, u.2.entry.type.members? = none
  | .int .., _, _, _, u, hu | .bool .., _, _, _, u, hu | .null _, _, _, _, u, hu => (nomatch hu)
  | .ident name target, _, _, ht, u, hu => by
    simp only [Expr.annotate, Expr.typeOf, bind_eq_ok, annotated_eq_ok] at ht
    obtain ⟨r, hr, hvalue⟩ := ht
    rw [Expr.annotate, Expr.notes, hr, mem_filled_cons] at hu
    rcases hu with hu | hu
    · obtain rfl := Option.some.inj hu
      exact (Entry.valueType_eq_ok hvalue).2.2
    · cases hu
  | .call callee args span target, _, hb, ht, u, hu => by
    simp only [Expr.annotate, Expr.typeOf, bind_eq_ok, annotated_eq_ok] at ht
    obtain ⟨r, hr, s, hs, ⟨⟩, hchecks, -⟩ := ht
    obtain ⟨hcallable, hlength⟩ := Entry.callee_eq_ok hs
    rw [Expr.annotate, Expr.notes, hr, mem_filled_cons] at hu
    rcases hu with hu | hu
    · obtain rfl := Option.some.inj hu
      cases hr : r.entry.type with
      | cls fields methods =>
        rw [hr] at hcallable
        cases hcallable
      | _ => rfl
    · exact Expr.members?_of_listFound args (bare_cons.1 hb).2 hlength.symm hchecks u hu
  | .methodCall object method args span receiver target, _, hb, ht, u, hu => by
    obtain ⟨htargets, hargs⟩ := bare_cons.1 hb
    rw [Note.isEmpty, Bool.and_eq_true, Option.isNone_iff_eq_none, Option.isNone_iff_eq_none] at htargets
    obtain ⟨rfl, rfl⟩ := htargets
    simp only [Expr.annotate, Expr.typeOf, bind_eq_ok, annotated_eq_ok, Option.none_or] at ht
    obtain ⟨r, hr, e, he, s, hs, ⟨⟩, hchecks, -⟩ := ht
    rw [Expr.annotate, Expr.notes, Option.none_or, hr, mem_filled_cons] at hu
    rcases hu with hu | hu
    · obtain rfl := Option.some.inj hu
      -- the method was found through the class of the object
      obtain ⟨e₀, cls, table, he₀, href, -⟩ := Env.receiverMethod?_eq_some he
      obtain ⟨e₁, he₁, rfl⟩ := Option.map_eq_some_iff.1 hr
      obtain rfl := Option.some.inj (he₀.symm.trans he₁)
      exact congrArg Ty.members? href
    · exact Expr.members?_of_listFound args hargs (Entry.callee_eq_ok hs).2.symm hchecks u hu
  | .new cls args span target, _, hb, ht, u, hu => by
    simp only [Expr.annotate, Expr.typeOf, bind_eq_ok, annotated_eq_ok] at ht
    obtain ⟨e, -, fields, hfields, ⟨⟩, hchecks, -⟩ := ht
    rw [Expr.annotate, Expr.notes, mem_filled_cons] at hu
    rcases hu with hu | hu
    · cases hu
    · exact Expr.members?_of_listFound args (bare_cons.1 hb).2
        (Entry.constructor_eq_ok hfields).2.symm hchecks u hu
  | .ite c t e span, _, hb, ht, u, hu => by
    rw [Expr.notes, bare_append, bare_append] at hb
    simp only [Expr.annotate, Expr.typeOf, bind_eq_ok] at ht
    obtain ⟨t₁, hc, ht⟩ := ht
    split at ht
    · simp only [bind_eq_ok] at ht
      obtain ⟨t₂, hthen, t₃, helse, -⟩ := ht
      rw [Expr.annotate, Expr.notes, List.filterMap_append, List.filterMap_append, List.mem_append,
        List.mem_append] at hu
      rcases hu with (hu | hu) | hu
      · exact c.members?_of_found hb.1.1 hc u hu
      · exact t.members?_of_found hb.1.2 hthen u hu
      · exact e.members?_of_found hb.2 helse u hu
    · cases ht
  | .binary op l r span, _, hb, ht, u, hu => by
    rw [Expr.notes, bare_append] at hb
    simp only [Expr.annotate, Expr.typeOf, bind_eq_ok] at ht
    obtain ⟨t₁, hleft, t₂, hright, -⟩ := ht
    rw [Expr.annotate, Expr.notes, List.filterMap_append, List.mem_append] at hu
    exact hu.elim (l.members?_of_found hb.1 hleft u) (r.members?_of_found hb.2 hright u)
  | .not e span, _, hb, ht, u, hu => by
    simp only [Expr.annotate, Expr.typeOf, bind_eq_ok] at ht
    obtain ⟨t₁, he, -⟩ := ht
    exact e.members?_of_found hb he u hu
  | .print e span, _, hb, ht, u, hu => e.members?_of_found hb ht u hu

theorem Expr.members?_of_listFound : ∀ (es : List Expr) {ts : List Ty} {callee : String} {position : Nat},
    Bare (Expr.listNotes es) → (Expr.annotateAll env es).length = ts.length →
      Expr.checkArgs h callee position (Expr.annotateAll env es) ts = .ok () →
      ∀ u ∈ (Expr.listNotes (Expr.annotateAll env es)).filterMap Note.filled?,
        u.2.entry.type.members? = none
  | [], _, _, _, _, _, _, u, hu => (nomatch hu)
  | _ :: _, [], _, _, _, hlength, _, _, _ => by cases hlength
  | e :: es, t :: ts, callee, position, hb, hlength, hc, u, hu => by
    rw [Expr.listNotes, bare_append] at hb
    obtain ⟨t', he, -, hrest⟩ := Expr.checkArgs_cons hc
    rw [Expr.annotateAll, Expr.listNotes, List.filterMap_append, List.mem_append] at hu
    exact hu.elim (e.members?_of_found hb.1 he u)
      (Expr.members?_of_listFound es hb.2 (Nat.succ.inj hlength) hrest u)
end

end Uses

/-! ## Bodies inside a class -/

section Bodies
variable {classes : Table VirtualTable}

theorem Decl.bare_local {before after : List Decl} {d : Decl}
    (hb : Bare (Decl.listNotes (before ++ d :: after))) :
    Bare d.notes := by
  induction before with
  | nil => exact (bare_append.1 hb).1
  | cons d' before ih => exact ih (bare_append.1 hb).2

/-- One of several declarations is checked like all of them, in the scopes after those before it. -/
theorem Decl.typeReports_local {h : Hierarchy} {severity : Severity} {s : Scopes}
    {before after : List Decl} {d : Decl}
    (hr : Decl.allTypeReports h severity (Decl.annotateAll classes s (before ++ d :: after)) = []) :
    (d.annotate classes (Decl.bindAll s before)).typeReports h severity = [] := by
  induction before generalizing s with
  | nil =>
    rw [List.nil_append, Decl.annotateAll, Decl.allTypeReports, List.append_eq_nil_iff] at hr
    exact hr.1
  | cons d' before ih =>
    rw [List.cons_append, Decl.annotateAll, Decl.allTypeReports, List.append_eq_nil_iff] at hr
    exact ih hr.2

/-- A function inside a class. -/
def Function.GuardedIn (s : Scopes) (f : Function) : Prop := s.Guarded ∧ Bare f.notes

theorem Function.hereditary_guardedIn : Hereditary Function.GuardedIn := by
  rintro s ⟨name, params, ret, locals, body, span⟩ ⟨hs, hb⟩ before g after x signature rfl hg
  exact ⟨((hs.enter params).bindAll before).declareLocal _ _, Decl.bare_local (bare_append.1 hb).1⟩

/-- A complete function with nothing to report about its types. -/
def Function.TypedIn (classes : Table VirtualTable) (s : Scopes) (f : Function) : Prop :=
  f.declared?.isSome = true ∧ ∃ h kind a b, (f.annotate classes s).typeReports h kind a b = []

theorem Function.TypedIn.parts {s : Scopes} {f : Function} (h : f.TypedIn classes s) :
    ∃ h a t, Decl.allTypeReports h a (f.annotate classes s).locals = [] ∧
      (f.annotate classes s).body.typeOf h = .ok t := by
  obtain ⟨hd, h, kind, a, b, hr⟩ := h
  obtain ⟨p, hp⟩ := Option.isSome_iff_exists.1 hd
  obtain ⟨hlocals, t, hbody, -⟩ :=
    Function.typeReports_eq_nil ((Function.declared?_annotate classes s f).trans hp) hr
  exact ⟨h, a, t, hlocals, hbody⟩

theorem Function.hereditary_typedIn : Hereditary (Function.TypedIn classes) := by
  rintro s ⟨name, params, ret, locals, body, span⟩ htyped before g after x signature rfl hg
  obtain ⟨h, a, t, hlocals, -⟩ := htyped.parts
  have hr := Decl.typeReports_local hlocals
  simp only [Decl.annotate, hg, Decl.typeReports] at hr
  exact ⟨by rw [hg]; rfl, h, _, _, _, hr⟩

theorem Decl.inits_guarded {s : Scopes} {ds : List Decl} (hs : s.Guarded) (hb : Bare (Decl.listNotes ds)) :
    ∀ p ∈ Decl.inits s ds, p.1.Guarded ∧ p.1.level = s.level ∧ Bare p.2.notes := by
  induction ds generalizing s with
  | nil => exact List.forall_mem_nil _
  | cons d ds ih =>
    rw [Decl.listNotes, bare_append] at hb
    rw [Decl.inits, List.forall_mem_append]
    refine ⟨fun p hp => ?_, fun p hp => ?_⟩
    · obtain ⟨e, he, rfl⟩ := Option.map_eq_some_iff.1 (Option.mem_toList.1 hp)
      refine ⟨hs, rfl, ?_⟩
      cases d with
      | var v =>
        rw [Decl.init?] at he
        split at he
        · obtain rfl := Option.some.inj he
          exact hb.1
        · cases he
      | function f => cases he
    · obtain ⟨hp₁, hlevel, hp₂⟩ := ih (hs.bindDecl d) hb.2 p hp
      exact ⟨hp₁, hlevel.trans (Decl.level_bind s d), hp₂⟩

theorem Decl.inits_typed {h : Hierarchy} {severity : Severity} {s : Scopes} {ds : List Decl}
    (hr : Decl.allTypeReports h severity (Decl.annotateAll classes s ds) = []) :
    ∀ p ∈ Decl.inits s ds, ∃ t, (p.2.annotate ⟨p.1, classes⟩).typeOf h = .ok t := by
  induction ds generalizing s with
  | nil => exact List.forall_mem_nil _
  | cons d ds ih =>
    rw [Decl.annotateAll, Decl.allTypeReports, List.append_eq_nil_iff] at hr
    rw [Decl.inits, List.forall_mem_append]
    refine ⟨fun p hp => ?_, ih hr.2⟩
    obtain ⟨e, he, rfl⟩ := Option.map_eq_some_iff.1 (Option.mem_toList.1 hp)
    cases d with
    | var v =>
      cases hv : v.declared? with
      | none => simp [Decl.init?, hv] at he
      | some q =>
        obtain rfl : v.init = e := by simpa [Decl.init?, hv] using he
        have hv' : ({ v with init := v.init.annotate ⟨s, classes⟩ } : Variable).declared? = some q := hv
        have hreport := hr.1
        simp only [Decl.annotate, hv, Decl.typeReports, List.map_eq_nil_iff,
          Option.toList_eq_nil_iff] at hreport
        obtain ⟨t, ht, -⟩ := Variable.typeProblem?_eq_none hv' hreport
        exact ⟨t, ht⟩
    | function f => cases he

end Bodies

section Visits
variable {v : Visit}

theorem Visit.exprs_guarded (hv : v.function.GuardedIn v.scopes) :
    ∀ p ∈ v.exprs, p.1.Guarded ∧ p.1.level = v.level ∧ Bare p.2.notes := by
  obtain ⟨classes, s, ⟨name, params, ret, locals, body, span⟩⟩ := v
  obtain ⟨hs, hb⟩ := hv
  have hinner := hs.enter params
  rw [Function.notes, bare_append] at hb
  rw [Visit.exprs, List.forall_mem_append, List.forall_mem_singleton]
  refine ⟨fun p hp => ?_, hinner.bindAll locals, ?_, hb.2⟩
  · obtain ⟨hp₁, hlevel, hp₂⟩ := Decl.inits_guarded hinner hb.1 p hp
    exact ⟨hp₁, hlevel.trans (Scopes.level_enter s params), hp₂⟩
  · exact (Decl.level_bindAll _ locals).trans (Scopes.level_enter s params)

theorem Visit.exprs_typed (hv : v.function.TypedIn v.classes v.scopes) :
    ∃ h, ∀ p ∈ v.exprs, ∃ t, (p.2.annotate ⟨p.1, v.classes⟩).typeOf h = .ok t := by
  obtain ⟨classes, s, ⟨name, params, ret, locals, body, span⟩⟩ := v
  obtain ⟨h, a, t, hlocals, hbody⟩ := hv.parts
  refine ⟨h, ?_⟩
  rw [Visit.exprs, List.forall_mem_append, List.forall_mem_singleton]
  exact ⟨Decl.inits_typed hlocals, t, hbody⟩

/-- Inside a class a name refers to a class or to something declared inside that class. -/
theorem Visit.found_guarded (hv : v.function.GuardedIn v.scopes) :
    ∀ u ∈ v.found, u.2.level = v.level ∧
      ((∃ fields methods, u.2.entry.type = .cls fields methods) ∨ 1 ≤ u.2.entry.level) := by
  intro u hu
  obtain ⟨p, hp, hu⟩ := List.mem_flatMap.1 hu
  obtain ⟨hs, hlevel, hb⟩ := v.exprs_guarded hv p hp
  obtain ⟨e, he, heq⟩ := Option.map_eq_some_iff.1 (Expr.resolve?_of_found p.2 hb u hu)
  rw [← heq]
  exact ⟨hlevel, hs.visible u.1 e he⟩

/-- What has a type does not refer to a class by its name. -/
theorem Visit.found_level (hv : v.function.GuardedIn v.scopes)
    (ht : v.function.TypedIn v.classes v.scopes) :
    ∀ u ∈ v.found, 1 ≤ u.2.entry.level ∧ u.2.level = v.level ∧ u.2.hops < v.level := by
  intro u hu
  obtain ⟨hlevel, hcases⟩ := v.found_guarded hv u hu
  have hmember : 1 ≤ u.2.entry.level := by
    rcases hcases with ⟨fields, methods, htype⟩ | hle
    · obtain ⟨h, htyped⟩ := v.exprs_typed ht
      obtain ⟨p, hp, hu⟩ := List.mem_flatMap.1 hu
      obtain ⟨t, ht⟩ := htyped p hp
      have hnone := Expr.members?_of_found p.2 (v.exprs_guarded hv p hp).2.2 ht u hu
      rw [htype] at hnone
      cases hnone
    · exact hle
  refine ⟨hmember, hlevel, ?_⟩
  have hpos : 1 ≤ v.level := Nat.le_add_left 1 _
  rw [Resolution.hops, hlevel]
  omega

end Visits

/-! ## Classes -/

section Classes
variable {env : Env} {classes : List (String × Shape)} {c : Class} {r : ResolvedClass}

/-- The functions of methods are not changed when they are placed. -/
theorem Class.bare_placed {p : PlacedMembers} (hd : env.Declares classes) (hb : Bare c.notes)
    (ht : Written c.types) (hp : c.place env = .ok p) : ∀ d ∈ p.methods, Bare d.function.notes := by
  intro d hmem
  have hfunction : d.function ∈ p.methods.map Method.function := List.mem_map_of_mem hmem
  rw [(Class.place_shape hd hb ht hp).methods] at hfunction
  obtain ⟨d', hd', heq⟩ := List.mem_map.1 hfunction
  rw [← heq]
  exact ((Class.bare_iff.1 hb).2.2 d' hd').2

theorem Class.visits_guarded (hd : env.Declares classes) (hb : Bare c.notes) (ht : Written c.types) :
    ∀ v ∈ c.visits env, v.function.GuardedIn v.scopes := by
  unfold Class.visits
  split
  · next name p hname hp =>
    intro v hv
    obtain ⟨d, hmem, hv⟩ := List.mem_flatMap.1 hv
    have hplaced := Class.place_shape hd hb ht hp
    rw [Method.visits] at hv
    split at hv
    · exact (Function.forall_visits Function.hereditary_guardedIn d.function _
        ⟨(hd.declareClass hplaced.members name.text).guarded hplaced.members,
          Class.bare_placed hd hb ht hp d hmem⟩ v hv).2
    · cases hv
  · exact List.forall_mem_nil _

theorem Class.visits_typed {h : Hierarchy} (hb : Bare c.notes) (hr : c.resolve env = .ok r)
    (hc : r.tree.typeReports h = .ok []) :
    ∀ v ∈ c.visits env, v.function.TypedIn v.classes v.scopes := by
  unfold Class.visits
  split
  · next name p hname hp =>
    simp only [Class.resolve, hname, hp, ok_bind] at hr
    obtain rfl := pure_eq_ok.1 hr
    simp only [Class.typeReports, show (c.resolvePlaced env name p).tree.name = some name from hname,
      bind_eq_ok, pure_eq_ok, List.append_eq_nil_iff, List.flatMap_eq_nil_iff] at hc
    obtain ⟨-, -, hreports, -⟩ := hc
    intro v hv
    obtain ⟨d, hmem, hv⟩ := List.mem_flatMap.1 hv
    rw [Method.visits] at hv
    split at hv
    · next hoffset =>
      have hcomplete : d.function.declared?.isSome = true := by
        -- an incomplete method has no offset
        cases hloose : d.function.isComplete with
        | true => rw [d.function.declared?_isSome, hloose]
        | false =>
          rw [((Class.place_erase hp).2.tidy hb).2 d hmem hloose] at hoffset
          cases hoffset
      have hreport := hreports _ (List.mem_map_of_mem hmem)
      rw [Method.typeReports, Method.offset_annotate, if_pos hoffset,
        Method.function_annotate hoffset] at hreport
      obtain ⟨hclasses, htyped⟩ := Function.forall_visits Function.hereditary_typedIn d.function _
        ⟨hcomplete, h, _, _, _, hreport⟩ v hv
      rw [hclasses]
      exact htyped
    · cases hv
  · exact List.forall_mem_nil _

/-- What is known of a use in a resolved class is found in a body of that class. -/
theorem Class.found_visits (hd : env.Declares classes) (hb : Bare c.notes) (ht : Written c.types)
    (hr : c.resolve env = .ok r) :
    ∀ d ∈ r.tree.methods, ∀ u ∈ d.function.notes.filterMap Note.filled?, ∃ v ∈ c.visits env,
      u ∈ v.found := by
  unfold Class.resolve at hr
  unfold Class.visits
  cases hname : c.name with
  | none =>
    rw [hname] at hr
    obtain rfl := Except.ok.inj hr
    intro d hmem u hu
    exact absurd hu (not_mem_found_of_bare ((Class.bare_iff.1 hb).2.2 d hmem).2)
  | some name =>
    simp only [hname, bind_eq_ok, pure_eq_ok] at hr
    obtain ⟨p, hp, rfl⟩ := hr
    intro d' hd' u hu
    obtain ⟨d, hmem, rfl⟩ := List.mem_map.1 hd'
    have hbare := Class.bare_placed hd hb ht hp d hmem
    cases hoffset : d.offset.isSome with
    | false =>
      rw [Method.annotate, hoffset, if_neg Bool.false_ne_true] at hu
      exact absurd hu (not_mem_found_of_bare hbare)
    | true =>
      rw [Method.function_annotate hoffset] at hu
      obtain ⟨v, hv, huv⟩ := Function.found_visits d.function _ hbare u hu
      refine ⟨v, ?_, huv⟩
      simp only [hp]
      refine List.mem_flatMap.2 ⟨d, hmem, ?_⟩
      rwa [Method.visits, if_pos hoffset]

end Classes

section Classes
variable {env : Env} {classes : List (String × Shape)} {cs : List Class} {r : ResolvedClasses}

theorem Class.listVisits_guarded (hd : env.Declares classes) (hb : Bare (cs.flatMap Class.notes))
    (ht : Written (cs.flatMap Class.types)) :
    ∀ v ∈ Class.listVisits env cs, v.function.GuardedIn v.scopes := by
  induction cs generalizing env classes with
  | nil => exact List.forall_mem_nil _
  | cons c cs ih =>
    rw [List.flatMap_cons, bare_append] at hb
    rw [List.flatMap_cons, written_append] at ht
    rw [Class.listVisits, List.forall_mem_append]
    refine ⟨Class.visits_guarded hd hb.1 ht.1, ?_⟩
    split
    · next first hfirst => exact ih (Class.resolve_declares hd hb.1 ht.1 hfirst).1 hb.2 ht.2
    · exact List.forall_mem_nil _

theorem Class.listVisits_typed {h h' : Hierarchy} (hb : Bare (cs.flatMap Class.notes))
    (hr : Class.resolveAll env cs = .ok r) (hc : Class.checkAll h r.trees = .ok (h', [])) :
    ∀ v ∈ Class.listVisits env cs, v.function.TypedIn v.classes v.scopes := by
  induction cs generalizing env r h with
  | nil => exact List.forall_mem_nil _
  | cons c cs ih =>
    rw [List.flatMap_cons, bare_append] at hb
    simp only [Class.resolveAll, bind_eq_ok, pure_eq_ok] at hr
    obtain ⟨first, hfirst, rest, hrest, rfl⟩ := hr
    simp only [Class.checkAll, bind_eq_ok, pure_eq_ok, Prod.exists, Prod.mk.injEq,
      List.append_eq_nil_iff] at hc
    obtain ⟨reports, hreports, h₁, reports₁, hlast, rfl, rfl, rfl⟩ := hc
    rw [Class.listVisits, hfirst, List.forall_mem_append]
    exact ⟨Class.visits_typed hb.1 hfirst hreports, ih hb.2 hrest hlast⟩

theorem Class.found_listVisits (hd : env.Declares classes) (hb : Bare (cs.flatMap Class.notes))
    (ht : Written (cs.flatMap Class.types)) (hr : Class.resolveAll env cs = .ok r) :
    ∀ c ∈ r.trees, ∀ d ∈ c.methods, ∀ u ∈ d.function.notes.filterMap Note.filled?,
      ∃ v ∈ Class.listVisits env cs, u ∈ v.found := by
  induction cs generalizing env classes r with
  | nil =>
    obtain rfl := Except.ok.inj hr
    exact List.forall_mem_nil _
  | cons c cs ih =>
    rw [List.flatMap_cons, bare_append] at hb
    rw [List.flatMap_cons, written_append] at ht
    simp only [Class.resolveAll, bind_eq_ok, pure_eq_ok] at hr
    obtain ⟨first, hfirst, rest, hrest, rfl⟩ := hr
    have hdeclares := (Class.resolve_declares hd hb.1 ht.1 hfirst).1
    rw [Class.listVisits, hfirst]
    refine List.forall_mem_cons.2 ⟨fun d hmem u hu => ?_, fun c' hc' d hmem u hu => ?_⟩
    · obtain ⟨v, hv, huv⟩ := Class.found_visits hd hb.1 ht.1 hfirst d hmem u hu
      exact ⟨v, List.mem_append_left _ hv, huv⟩
    · obtain ⟨v, hv, huv⟩ := ih hdeclares hb.2 ht.2 hrest c' hc' d hmem u hu
      exact ⟨v, List.mem_append_right _ hv, huv⟩

end Classes

/-! ## Programs -/

/-- The first links of a chain. -/
theorem Machine.Chain.split {size : Nat} {σ : List Word} {fp object : Int} {links i : Nat}
    (h : Chain size σ fp links object) (hi : i ≤ links) :
    ∃ frame, Chain size σ fp i frame ∧ Chain size σ frame (links - i) object := by
  induction i generalizing fp links with
  | zero => exact ⟨fp, .here fp, h⟩
  | succ i ih =>
    cases h with
    | here => omega
    | @up _ link links _ hslot hrest =>
      obtain ⟨frame, hfirst, hlast⟩ := ih hrest (by omega)
      exact ⟨frame, .up hslot hfirst, by rwa [Nat.add_sub_add_right]⟩

/-- Following `hops` links from the frame at `fp`, every word that is read is the access link of a frame
from which at least one more link leads to the object, if `links` links lead there from `fp`. -/
def Machine.StopsAtObject (links hops : Nat) : Prop :=
  ∀ (size : Nat) (σ : List Word) (fp object : Int), Chain size σ fp links object →
    ∀ i < hops, ∃ frame, Chain size σ fp i frame ∧ Chain size σ frame (links - i) object ∧ 0 < links - i

theorem Machine.stopsAtObject_of_le {links hops : Nat} (h : hops ≤ links) : StopsAtObject links hops := by
  intro size σ fp object hchain i hi
  obtain ⟨frame, hfirst, hlast⟩ := hchain.split (i := i) (by omega)
  exact ⟨frame, hfirst, hlast, by omega⟩

/-- Wherever the stack holds the frames of the scopes in which an expression of the body is resolved, the
access links lead from the frame of the body to an object. -/
def Visit.LinkedToObject (v : Visit) : Prop :=
  ∀ p ∈ v.exprs, ∀ (L : Linkage) (stage : Stage) (store : List Object) (σ : List Word)
    (context : List Binding) (fp : Int), L.Frames stage store σ p.1 context fp →
      ∃ id, id < store.length ∧ Chain L.size σ fp (v.level - 1) (address L.start store id)

theorem Visit.linkedToObject {v : Visit} (hv : v.function.GuardedIn v.scopes) : v.LinkedToObject := by
  intro p hp L stage store σ context fp hframes
  obtain ⟨hs, hlevel, -⟩ := v.exprs_guarded hv p hp
  rw [← hlevel]
  exact hframes.chain_object hs.inside

/-- The uses in the methods of a program, at any depth. -/
def Program.methodUses (tree : Program) : List (String × Resolution) :=
  tree.classes.flatMap fun c => c.methods.flatMap fun d => d.function.notes.filterMap Note.filled?

theorem Program.resolveAll_classes {p : Program} {r : Resolved} (h : p.resolve = .ok r) :
    ∃ resolved, Class.resolveAll .initial p.classes = .ok resolved ∧ r.tree.classes = resolved.trees := by
  cases p with
  | letIn classes decls body span =>
    simp only [Program.resolve, bind_eq_ok, pure_eq_ok] at h
    obtain ⟨resolved, hresolved, rfl⟩ := h
    exact ⟨resolved, hresolved, rfl⟩
  | expr body span =>
    obtain rfl := Except.ok.inj h
    exact ⟨_, rfl, rfl⟩

section Programs
variable {p : Program} {r : Resolved}

theorem Program.methodVisits_guarded (hb : Bare p.notes) (ht : Written p.types) :
    ∀ v ∈ p.methodVisits, v.function.GuardedIn v.scopes := by
  rw [Program.notes, bare_append, bare_append] at hb
  rw [Program.types, written_append] at ht
  exact Class.listVisits_guarded Env.declares_initial hb.1.1 ht.1

theorem Program.methodVisits_typed {checked : Checked} (hb : Bare p.notes) (hr : p.resolve = .ok r)
    (hc : r.tree.check .empty = .ok checked) (hreports : checked.reports = []) :
    ∀ v ∈ p.methodVisits, v.function.TypedIn v.classes v.scopes := by
  rw [Program.notes, bare_append, bare_append] at hb
  obtain ⟨resolved, hresolved, htrees⟩ := Program.resolveAll_classes hr
  obtain ⟨t, htype⟩ := Option.isSome_iff_exists.1 (Program.check_type_isSome hc hreports)
  obtain ⟨type, reports, h⟩ := checked
  simp only at htype hreports
  subst htype hreports
  have hclasses := (Program.check_eq_ok hc).1
  rw [htrees] at hclasses
  exact Class.listVisits_typed hb.1.1 hresolved hclasses

/-- Every use in a method stands in one of the bodies. -/
theorem Program.found_methodVisits (hb : Bare p.notes) (ht : Written p.types) (hr : p.resolve = .ok r) :
    ∀ u ∈ r.tree.methodUses, ∃ v ∈ p.methodVisits, u ∈ v.found := by
  rw [Program.notes, bare_append, bare_append] at hb
  rw [Program.types, written_append] at ht
  obtain ⟨resolved, hresolved, htrees⟩ := Program.resolveAll_classes hr
  intro u hu
  obtain ⟨c, hc, hu⟩ := List.mem_flatMap.1 hu
  obtain ⟨d, hd, hu⟩ := List.mem_flatMap.1 hu
  exact Class.found_listVisits Env.declares_initial hb.1.1 ht.1 hresolved c (htrees ▸ hc) d hd u hu

end Programs

/-- Whatever is wrong with a program, a name inside a method refers to a class or to something declared in
the class around it. If its types are right, it refers to the latter, and the code of no method or function
in a method follows more links than lead from its frame to the object. Frames of these functions are linked
to an object. -/
theorem Program.chains_end_at_objects {p : Program} (hb : Bare p.notes) (ht : Written p.types) :
    ∃ r, p.resolve = .ok r ∧
      (∀ u ∈ r.tree.methodUses, (∃ fields methods, u.2.entry.type = .cls fields methods) ∨
        1 ≤ u.2.entry.level) ∧
      ∀ checked, r.tree.check .empty = .ok checked → checked.reports = [] →
        (∀ u ∈ r.tree.methodUses, 1 ≤ u.2.entry.level) ∧
        ∀ memory a, r.tree.generate memory = .ok a →
          ∃ methods functions, a.functions = methods ++ functions ∧
          List.Forall₂ (fun v block => (∀ u ∈ v.found, u.2.level = v.level ∧ u.2.hops ≤ v.level - 1) ∧
            v.LinkedToObject ∧ ∀ hops ∈ block.walks, StopsAtObject (v.level - 1) hops) p.methodVisits
              methods := by
  obtain ⟨r, hr, -⟩ := Program.resolve_fits hb ht
  have hguarded := Program.methodVisits_guarded hb ht
  have hfound := Program.found_methodVisits hb ht hr
  refine ⟨r, hr, fun u hu => ?_, fun checked hc hreports => ?_⟩
  · obtain ⟨v, hv, huv⟩ := hfound u hu
    exact (v.found_guarded (hguarded v hv) u huv).2
  have htyped := Program.methodVisits_typed hb hr hc hreports
  have hlevels : ∀ v ∈ p.methodVisits, ∀ u ∈ v.found, 1 ≤ u.2.entry.level ∧ u.2.level = v.level ∧
      u.2.hops < v.level :=
    fun v hv => v.found_level (hguarded v hv) (htyped v hv)
  refine ⟨fun u hu => ?_, fun memory a ha => ?_⟩
  · obtain ⟨v, hv, huv⟩ := hfound u hu
    exact (hlevels v hv u huv).1
  · obtain ⟨methods, functions, hblocks, hmethods, -⟩ := Program.generate_visits hr ha
    have hvisits : ∀ v ∈ p.methodVisits,
        (∀ u ∈ v.found, 1 ≤ u.2.entry.level ∧ u.2.level = v.level ∧ u.2.hops < v.level) ∧
        v.LinkedToObject := fun v hv => ⟨hlevels v hv, v.linkedToObject (hguarded v hv)⟩
    refine ⟨methods, functions, hblocks, ((List.forall₂_and_left _ _).2 ⟨hvisits, hmethods⟩).imp ?_⟩
    rintro v block ⟨⟨hlevel, hlinked⟩, hblock⟩
    have hhops (u : String × Resolution) (hu : u ∈ v.found) : u.2.hops ≤ v.level - 1 :=
      Nat.le_sub_one_of_lt (hlevel u hu).2.2
    exact ⟨fun u hu => ⟨(hlevel u hu).2.1, hhops u hu⟩, hlinked,
      fun hops hmem => stopsAtObject_of_le ((hblock.walking hhops).walks hops hmem)⟩

/-- A function inside a method uses a field and calls another method. -/
def nestedUses : Program :=
  .letIn
    [⟨some (.plain "Counter"), none, [⟨some (.plain "n"), some .int, .synthetic, none⟩],
      [⟨.plain "get" [] .int (.variable "n"), none⟩,
        ⟨⟨some (.plain "next"), [], some .int,
          [.function (.plain "add" [("x", .int)] .int
            (.binary (.arith .add) (.variable "n") (.apply "get" []) .synthetic))],
          .apply "add" [.number 1], .synthetic⟩, none⟩], .synthetic, none, none⟩]
    [] (.number 0) .synthetic

theorem nestedUses_chains_end :
    Bare nestedUses.notes ∧ Written nestedUses.types ∧
      ∃ r checked a, nestedUses.resolve = .ok r ∧ r.tree.check .empty = .ok checked ∧ checked.reports = [] ∧
        r.tree.generate (.ofInt 100) = .ok a ∧ a.functions.map Code.walks = [[1], [2, 0, 2], [0, 0]] ∧
        nestedUses.methodVisits.map Visit.level = [2, 3, 2] ∧
        (∀ u ∈ r.tree.methodUses, 1 ≤ u.2.entry.level) ∧
        ∃ methods functions, a.functions = methods ++ functions ∧
          List.Forall₂ (fun v block => (∀ u ∈ v.found, u.2.level = v.level ∧ u.2.hops ≤ v.level - 1) ∧
            v.LinkedToObject ∧ ∀ hops ∈ block.walks, StopsAtObject (v.level - 1) hops)
              nestedUses.methodVisits methods := by
  obtain ⟨r, checked, hr, hc, hreports, hgenerates⟩ : ∃ r checked, nestedUses.resolve = .ok r ∧
      r.tree.check .empty = .ok checked ∧ checked.reports = [] ∧
      ((r.tree.generate (.ofInt 100)).toOption.any fun a =>
        a.functions.map Code.walks = [[1], [2, 0, 2], [0, 0]]) = true :=
    Program.exists_checked (by decide +kernel)
  obtain ⟨a, ha, hwalks⟩ := exists_ok hgenerates
  obtain ⟨r', hr', -, haccepted⟩ := Program.chains_end_at_objects (p := nestedUses) (by decide) (by decide)
  obtain rfl : r = r' := Except.ok.inj (hr.symm.trans hr')
  obtain ⟨hlevels, hblocks⟩ := haccepted checked hc hreports
  exact ⟨by decide, by decide, r, checked, a, hr, hc, hreports, ha, hwalks, by decide +kernel, hlevels,
    hblocks _ a ha⟩

end Classlet

import Classlet.Typing.Program
import Classlet.Proofs.Basic
import Classlet.Proofs.Offsets
import Mathlib.Algebra.Order.BigOperators.Group.List
import Mathlib.Algebra.Order.Group.Nat
/-!
# Places of members and classes

Whatever is wrong with a program, the offset of a field is negative, that of a method is not, and a class is
where classes are. So neither resolution nor checking is ever abandoned (`Program.resolve_fits`,
`Program.check_succeeds`).
-/

namespace Classlet

/-! ## Members -/

namespace Members

/-- The members of a class of a program with `n` nodes so far. -/
structure Fits (n : Nat) (m : Members) : Prop where
  fields : m.fields.length ≤ n
  methods : m.methods.length ≤ n
  table (x : String) (e : Entry) : m.table.get? x = some e → e.IsMember n

theorem length_putAt_le {α : Type} (l : List α) (i : Nat) (a : α) :
    (putAt l i a).length ≤ l.length + 1 := by
  unfold putAt
  split
  · rw [List.length_set]
    omega
  · rw [List.length_append, List.length_singleton]

section Fits
variable {n k : Nat} {m : Members} (level : Nat)

theorem Fits.mono (h : m.Fits n) (hn : n ≤ k) : m.Fits k :=
  ⟨Nat.le_trans h.fields hn, Nat.le_trans h.methods hn, fun x e he => (h.table x e he).mono hn⟩

theorem Fits.empty (n : Nat) : Members.empty.Fits n :=
  ⟨Nat.zero_le _, Nat.zero_le _, fun x e he => by simp [Members.empty] at he⟩

theorem Fits.declare (h : m.Fits n) (x : String) : (m.declare x).Fits n := ⟨h.fields, h.methods, h.table⟩

/-- The table with one more member. -/
theorem Fits.table_set (h : m.Fits n) {x : String} {e : Entry} (he : e.IsMember (n + 1)) :
    ∀ y e', (m.table.set x e).get? y = some e' → e'.IsMember (n + 1) := by
  intro y e' he'
  rw [Table.get?_set] at he'
  split at he'
  · obtain rfl := Option.some.inj he'
    exact he
  · exact (h.table y e' he').mono (Nat.le_succ n)

theorem Fits.placeField (h : m.Fits n) {f : Field} (ho : f.offset = none) (ht : Written f.type.toList) :
    ∃ f' m' r, m.placeField level f = .ok (f', m', r) ∧ m'.Fits (n + 1) ∧ f'.note.Fits (n + 1) := by
  have hnote : f.note.Fits (n + 1) := by
    intro o hmem
    rw [ho] at hmem
    cases hmem
  unfold Members.placeField
  split
  · exact ⟨f, m, _, rfl, h.mono (Nat.le_succ n), hnote⟩
  · next name t hd =>
    split
    · exact ⟨f, m, _, rfl, h.mono (Nat.le_succ n), hnote⟩
    · exact ⟨f, m.declare name.text, _, rfl, (h.declare _).mono (Nat.le_succ n), hnote⟩
    · next offset hv =>
      have htype : t.isWritten = true := by
        unfold Field.declared? at hd
        split at hd
        · next htype =>
          obtain ⟨-, rfl⟩ := Prod.mk.inj (Option.some.inj hd)
          exact ht _ (by rw [htype]; exact List.mem_singleton_self _)
        · cases hd
      have hrange : -1 - (n : Int) ≤ offset ∧ offset ≤ -1 := by
        unfold Members.fieldVerdict at hv
        split at hv
        · cases hv
        · split at hv
          · next e he =>
            split at hv
            · cases hv
            · next hm =>
              obtain rfl := Verdict.placed.inj hv
              exact (h.table _ e he).field (Bool.not_eq_true _ ▸ hm)
          · obtain rfl := Verdict.placed.inj hv
            have := h.fields
            rw [Layout.fieldOffset]
            omega
      have hindex : Layout.fieldIndex offset = .ok (-1 - offset).toNat := by
        rw [Layout.fieldIndex, if_pos hrange.2]
      simp only [Members.addField, hindex, ok_bind, ho, Option.none_or]
      refine ⟨_, _, _, rfl, ⟨?_, Nat.le_succ_of_le h.methods, h.table_set ⟨fun hm => ?_, fun _ => ?_, ?_⟩⟩,
        ?_⟩
      · exact Nat.le_trans (length_putAt_le _ _ _) (Nat.succ_le_succ h.fields)
      · rw [Ty.isMethod_of_isWritten htype] at hm
        cases hm
      · simp only
        omega
      · exact Ty.members?_of_isWritten htype
      · intro o hmem
        obtain rfl := Option.some.inj hmem
        omega

theorem Fits.placeMethod (h : m.Fits n) {d : Method} (ho : d.offset = none) :
    ∃ d' m' r, m.placeMethod level d = .ok (d', m', r) ∧ m'.Fits (n + 1) ∧ d'.function = d.function ∧
      ∀ o ∈ d'.offset, 0 ≤ o ∧ o ≤ (n + 1 : Nat) := by
  have hnote : ∀ o ∈ d.offset, 0 ≤ o ∧ o ≤ (n + 1 : Nat) := by
    intro o hmem
    rw [ho] at hmem
    cases hmem
  unfold Members.placeMethod
  split
  · exact ⟨d, m, _, rfl, h.mono (Nat.le_succ n), rfl, hnote⟩
  · next name signature hd =>
    split
    · exact ⟨d, m, _, rfl, h.mono (Nat.le_succ n), rfl, hnote⟩
    · exact ⟨d, m.declare name.text, _, rfl, (h.declare _).mono (Nat.le_succ n), rfl, hnote⟩
    · next offset hv =>
      have hrange : 0 ≤ offset ∧ offset ≤ n := by
        unfold Members.methodVerdict at hv
        split at hv
        · cases hv
        · split at hv
          · next e he =>
            split at hv
            · next hm =>
              obtain rfl := Verdict.placed.inj hv
              exact (h.table _ e he).method hm
            · cases hv
          · obtain rfl := Verdict.placed.inj hv
            have := h.methods
            rw [Layout.methodOffset]
            omega
      have hindex : Layout.methodIndex offset = .ok offset.toNat := by
        rw [Layout.methodIndex, if_pos hrange.1]
      simp only [Members.addMethod, hindex, ok_bind, ho, Option.none_or]
      refine ⟨_, _, _, rfl, ⟨Nat.le_succ_of_le h.fields, ?_, h.table_set ⟨fun _ => ?_, fun hm => ?_, rfl⟩⟩,
        rfl, ?_⟩
      · exact Nat.le_trans (length_putAt_le _ _ _) (Nat.succ_le_succ h.methods)
      · simp only
        omega
      · cases hm
      · intro o hmem
        obtain rfl := Option.some.inj hmem
        omega

theorem Fits.placeFields (h : m.Fits n) {fs : List Field} (ho : ∀ f ∈ fs, f.offset = none)
    (ht : Written (fs.filterMap Field.type)) :
    ∃ fs' m' r, m.placeFields level fs = .ok (fs', m', r) ∧ m'.Fits (n + fs.length) ∧
      NotesFit (n + fs.length) (fs'.map Field.note) := by
  induction fs generalizing n m with
  | nil => exact ⟨[], m, [], rfl, h, fun note hnote => by cases hnote⟩
  | cons f fs ih =>
    obtain ⟨hof, hofs⟩ := List.forall_mem_cons.1 ho
    obtain ⟨htf, htfs⟩ := written_filterMap_cons.1 ht
    obtain ⟨f', m₁, r, hf', hm₁, hnote⟩ := h.placeField level hof htf
    obtain ⟨fs', m₂, r', hfs', hm₂, hnotes⟩ := ih hm₁ hofs htfs
    rw [Nat.add_assoc, Nat.add_comm 1] at hm₂ hnotes
    refine ⟨f' :: fs', m₂, r ++ r', ?_, hm₂, notesFit_cons.2 ⟨hnote.mono ?_, hnotes⟩⟩
    · simp only [Members.placeFields, hf', hfs', ok_bind]
      rfl
    · rw [List.length_cons]
      omega

theorem Fits.placeMethods (h : m.Fits n) {ds : List Method} (ho : ∀ d ∈ ds, d.offset = none) :
    ∃ ds' m' r, m.placeMethods level ds = .ok (ds', m', r) ∧ m'.Fits (n + ds.length) ∧
      ∀ d' ∈ ds', (∃ d ∈ ds, d'.function = d.function) ∧ ∀ o ∈ d'.offset, 0 ≤ o ∧
        o ≤ (n + ds.length : Nat) := by
  induction ds generalizing n m with
  | nil => exact ⟨[], m, [], rfl, h, fun d hd => by cases hd⟩
  | cons d ds ih =>
    obtain ⟨hod, hods⟩ := List.forall_mem_cons.1 ho
    obtain ⟨d', m₁, r, hd', hm₁, hfunction, hoffset⟩ := h.placeMethod level hod
    obtain ⟨ds', m₂, r', hds', hm₂, hall⟩ := ih hm₁ hods
    rw [Nat.add_assoc, Nat.add_comm 1] at hm₂ hall
    refine ⟨d' :: ds', m₂, r ++ r', ?_, hm₂,
      List.forall_mem_cons.2 ⟨⟨⟨d, List.mem_cons_self, hfunction⟩, ?_⟩, ?_⟩⟩
    · simp only [Members.placeMethods, hd', hds', ok_bind]
      rfl
    · intro o hmem
      have := hoffset o hmem
      rw [List.length_cons]
      omega
    · intro d₁ hd₁
      obtain ⟨⟨d₂, hd₂, heq⟩, hrange⟩ := hall d₁ hd₁
      exact ⟨⟨d₂, List.mem_cons_of_mem _ hd₂, heq⟩, hrange⟩

end Fits

end Members

/-! ## Classes -/

/-- The scopes and virtual tables after classes with `n` nodes. -/
structure Env.Fits (n : Nat) (env : Env) : Prop where
  nested : env.scopes.nested = []
  lower : -2 - (n : Int) ≤ env.scopes.nextOffset
  upper : env.scopes.nextOffset ≤ -2
  scopes : env.scopes.Fits n
  tables : TablesFit n env.classes
  sizes (x : String) (e : Entry) (fields : List Ty) (methods : List Signature) :
    env.scopes.lookup? x = some e →
    e.type.members? = some (fields, methods) → fields.length ≤ n ∧ methods.length ≤ n

theorem Env.fits_initial : Env.Fits 0 .initial where
  nested := rfl
  lower := by decide
  upper := by decide
  scopes x e h := by simp [Env.initial, Scopes.initial, Scopes.lookup?, Scope.opened, Scope.get?] at h
  tables cls table x e h := by simp [Env.initial] at h
  sizes x e fields methods h := by
    simp [Env.initial, Scopes.initial, Scopes.lookup?, Scope.opened, Scope.get?] at h

section Classes
variable {n k : Nat} {env : Env} {c : Class}

theorem Env.Fits.mono (h : env.Fits n) (hnk : n ≤ k) : env.Fits k where
  nested := h.nested
  lower := by
    have := h.lower
    omega
  upper := h.upper
  scopes := h.scopes.mono hnk
  tables cls table x e ht he := (h.tables cls table x e ht he).mono hnk
  sizes x e fields methods hx hm := by
    have := h.sizes x e fields methods hx hm
    omega

theorem Env.Fits.lookupGlobal? (h : env.Fits n) (x : String) :
    env.scopes.lookupGlobal? x = env.scopes.lookup? x := by
  rw [Scopes.lookupGlobal?, Scopes.lookup?, h.nested]
  rfl

/-- What a class inherits. -/
theorem Class.inherited_fits (h : env.Fits n) :
    (∀ e ∈ (c.inherited env).1, e.Fits n) ∧ (c.inherited env).2.Fits n := by
  unfold Class.inherited
  split
  · next entry members hs =>
    obtain ⟨name, -, hs⟩ := Option.bind_eq_some_iff.1 hs
    unfold Env.extensible? at hs
    split at hs
    · next e fields methods table hc ht =>
      obtain ⟨rfl, rfl⟩ := Prod.mk.inj (Option.some.inj hs)
      unfold Env.class? at hc
      split at hc
      · next e' he' =>
        rw [h.lookupGlobal?] at he'
        obtain ⟨p, hp, heq⟩ := Option.map_eq_some_iff.1 hc
        obtain ⟨rfl, rfl⟩ := Prod.mk.inj heq
        obtain ⟨hfields, hmethods⟩ := h.sizes _ _ _ _ he' hp
        refine ⟨fun e hmem => ?_, hfields, hmethods, fun x e he => h.tables _ table x e ht he⟩
        obtain rfl := Option.some.inj hmem
        exact h.scopes _ _ he'
      · cases hc
    · cases hs
  · exact ⟨fun e hmem => (nomatch hmem), .empty n⟩

theorem Env.Fits.classEntry (h : env.Fits n) (m : Members) : (env.classEntry m).Fits n := by
  have hlower := h.lower
  have hupper := h.upper
  exact ⟨hlower, by simp only [Env.classEntry]; omega, fun _ => hupper⟩

theorem Env.Fits.declareClass (h : env.Fits n) {m : Members} (hm : m.Fits k) (hk : n + 1 ≤ k)
    (name : String) :
    (env.declareClass name m).Fits k := by
  have hscopes : (env.declareClass name m).scopes = env.scopes.takeOffset.bind name (env.classEntry m) := by
    obtain ⟨⟨nested, g⟩, classes⟩ := env
    obtain rfl : nested = [] := h.nested
    rfl
  have hlower := h.lower
  have hupper := h.upper
  constructor
  case nested =>
    obtain ⟨⟨nested, g⟩, classes⟩ := env
    obtain rfl : nested = [] := h.nested
    rfl
  case lower =>
    rw [hscopes, Scopes.nextOffset_bind, Scopes.nextOffset_takeOffset]
    omega
  case upper =>
    rw [hscopes, Scopes.nextOffset_bind, Scopes.nextOffset_takeOffset]
    omega
  case scopes =>
    rw [hscopes]
    exact (h.scopes.mono (by omega)).takeOffset.bind ((h.classEntry m).mono (by omega))
  case tables =>
    intro cls table x e ht he
    have hold := fun ht => (h.tables cls table x e ht he).mono (Nat.le_of_succ_le hk)
    simp only [Env.declareClass] at ht
    split at ht
    · exact hold ht
    · rw [Table.get?_set] at ht
      split at ht
      · obtain rfl := Option.some.inj ht
        exact hm.table x e he
      · exact hold ht
  case sizes =>
    intro x e fields methods hx he
    rw [hscopes] at hx
    rcases Scopes.lookup?_bind_cases hx with rfl | hx
    · obtain ⟨rfl, rfl⟩ := Prod.mk.inj (Option.some.inj he)
      exact ⟨hm.fields, hm.methods⟩
    · rw [Scopes.lookup?_takeOffset] at hx
      have := h.sizes x e fields methods hx he
      omega

/-- Inside a class its members are bound as well. -/
theorem Env.Fits.enterClass (h : env.Fits n) {m : Members} (hm : m.Fits n) :
    (env.enterClass m).scopes.Fits n := by
  intro x e hx
  have hlookup : (env.enterClass m).scopes.lookup? x = (m.table.get? x).or (env.scopes.lookup? x) := by
    rw [Env.enterClass, Scopes.push, Scopes.lookup?, List.findSome?_cons, Scopes.lookup?]
    have hget : (Scope.opened .cls m.table).get? x = m.table.get? x := rfl
    rw [hget]
    cases m.table.get? x <;> rfl
  rw [hlookup, Option.or_eq_some_iff] at hx
  rcases hx with hx | ⟨-, hx⟩
  · exact (hm.table x e hx).fits
  · exact h.scopes x e hx

/-- The members of a class get their places whatever they are. -/
theorem Class.place_fits (h : env.Fits n) (hb : Bare c.notes) (ht : Written c.types) :
    ∃ p, c.place env = .ok p ∧ p.members.Fits (n + c.fields.length + c.methods.length) ∧
      NotesFit (n + c.fields.length) (p.fields.map Field.note) ∧
      ∀ d' ∈ p.methods, (∃ d ∈ c.methods, d'.function = d.function) ∧
        ∀ o ∈ d'.offset, 0 ≤ o ∧ o ≤ (n + c.fields.length + c.methods.length : Nat) := by
  obtain ⟨-, hfields, hmethods⟩ := Class.bare_iff.1 hb
  obtain ⟨fs, m₁, r, hfs, hm₁, hnotes⟩ :=
    (Class.inherited_fits (c := c) h).2.placeFields (env.scopes.level + 1) hfields (written_append.1 ht).1
  obtain ⟨ds, m₂, r', hds, hm₂, hall⟩ :=
    hm₁.placeMethods (env.scopes.level + 1) fun d hd => (hmethods d hd).1
  refine ⟨⟨fs, ds, m₂, r ++ r'⟩, ?_, hm₂, hnotes, hall⟩
  simp only [Class.place, hfs, hds, ok_bind]
  rfl

theorem Method.annotate_fits {d : Method} (hs : env.scopes.Fits n) (hc : TablesFit n env.classes)
    (ho : ∀ o ∈ d.offset, 0 ≤ o ∧ o ≤ (n : Int)) (hb : Bare d.function.notes)
    (ht : Written d.function.types) (hn : d.function.nodes ≤ n) : NotesFit n (d.annotate env).notes := by
  unfold Method.annotate
  split
  · exact notesFit_cons.2 ⟨ho, d.function.annotate_fits hc hs hb ht hn⟩
  · exact notesFit_cons.2 ⟨ho, notesFit_of_bare hb⟩

theorem Class.members_lt_nodes (c : Class) : c.fields.length + c.methods.length < c.nodes := by
  have hlength := List.length_le_sum_of_one_le (c.methods.map (·.function.nodes)) fun i hi => by
    obtain ⟨d, -, rfl⟩ := List.mem_map.1 hi
    exact d.function.nodes_pos
  rw [List.length_map] at hlength
  rw [Class.nodes]
  omega

theorem Class.resolve_fits (h : env.Fits n) (hb : Bare c.notes) (ht : Written c.types) :
    ∃ r, c.resolve env = .ok r ∧ r.env.Fits (n + c.nodes) ∧ NotesFit (n + c.nodes) r.tree.notes := by
  unfold Class.resolve
  cases hname : c.name with
  | none => exact ⟨_, rfl, h.mono (Nat.le_add_right _ _), notesFit_of_bare hb⟩
  | some name =>
    obtain ⟨p, hp, hmembers, hfields, hplaced⟩ := Class.place_fits h hb ht
    obtain ⟨⟨hentry, hsuper⟩, -, hbare⟩ := Class.bare_iff.1 hb
    have hsize := c.members_lt_nodes
    have hall : p.members.Fits (n + c.nodes) := hmembers.mono (by omega)
    have houter := h.declareClass hall (by omega) name.text
    refine ⟨c.resolvePlaced env name p, ?_, houter, ?_⟩
    · simp only [hp, ok_bind]
      rfl
    rw [Class.notes, notesFit_cons, notesFit_append]
    refine ⟨⟨?_, ?_⟩, hfields.mono (by omega), ?_⟩
    · intro e he
      simp only [Class.resolvePlaced, hentry, Option.none_or] at he
      obtain rfl := Option.some.inj he
      exact (h.classEntry p.members).mono (Nat.le_add_right _ _)
    · intro e he
      simp only [Class.resolvePlaced, hsuper, Option.none_or] at he
      exact ((Class.inherited_fits h).1 e he).mono (Nat.le_add_right _ _)
    · intro note hnote
      obtain ⟨d', hd', hnote⟩ := List.mem_flatMap.1 hnote
      obtain ⟨d₁, hd₁, rfl⟩ := List.mem_map.1 hd'
      obtain ⟨⟨d, hd, hfunction⟩, hoffset⟩ := hplaced d₁ hd₁
      refine Method.annotate_fits (houter.enterClass hall) houter.tables
        (fun o ho => ?_) ?_ ?_ ?_ note hnote
      · have := hoffset o ho
        omega
      · rw [hfunction]
        exact (hbare d hd).2
      · rw [hfunction]
        exact Class.written_method ht hd
      · have hle : d.function.nodes ≤ (c.methods.map (·.function.nodes)).sum :=
          List.le_sum_of_mem (List.mem_map_of_mem hd)
        rw [hfunction, Class.nodes]
        omega

theorem Class.resolveAll_fits {cs : List Class} (h : env.Fits n) (hb : Bare (cs.flatMap Class.notes))
    (ht : Written (cs.flatMap Class.types)) :
    ∃ r, Class.resolveAll env cs = .ok r ∧ r.env.Fits (n + (cs.map Class.nodes).sum) ∧
      NotesFit (n + (cs.map Class.nodes).sum) (r.trees.flatMap Class.notes) := by
  induction cs generalizing n env with
  | nil => exact ⟨_, rfl, h, fun note hnote => by cases hnote⟩
  | cons c cs ih =>
    rw [List.flatMap_cons, bare_append] at hb
    rw [List.flatMap_cons, written_append] at ht
    obtain ⟨r, hr, hfits, hnotes⟩ := Class.resolve_fits h hb.1 ht.1
    obtain ⟨r', hr', hfits', hnotes'⟩ := ih hfits hb.2 ht.2
    rw [Nat.add_assoc] at hfits' hnotes'
    rw [List.map_cons, List.sum_cons]
    refine ⟨⟨r.tree :: r'.trees, r'.env, r.reports ++ r'.reports⟩, ?_, hfits', ?_⟩
    · simp only [Class.resolveAll, hr, hr', ok_bind]
      rfl
    · rw [List.flatMap_cons, notesFit_append]
      exact ⟨hnotes.mono (by omega), hnotes'⟩

end Classes

/-! ## Programs -/

/-- Resolving a program is never abandoned, and every offset it writes is in range. -/
theorem Program.resolve_fits {p : Program} (hb : Bare p.notes) (ht : Written p.types) :
    ∃ r, p.resolve = .ok r ∧ NotesFit p.nodes r.tree.notes := by
  cases p with
  | letIn classes decls body span =>
    simp only [Program.notes, Program.classes, Program.decls, Program.body, bare_append] at hb
    simp only [Program.types, Program.classes, Program.decls, written_append] at ht
    obtain ⟨⟨hclasses, hdecls⟩, hbody⟩ := hb
    obtain ⟨r, hr, henv, hnotes⟩ := Class.resolveAll_fits Env.fits_initial hclasses ht.1
    rw [Nat.zero_add] at henv hnotes
    have hlength := Decl.length_le_listNodes decls
    have hlower := henv.lower
    have hsize : (classes.map Class.nodes).sum + Decl.listNodes decls ≤
        (letIn classes decls body span).nodes := by
      simp only [Program.nodes, Program.classes, Program.decls]
      omega
    have hfits := henv.mono (Nat.le_trans (Nat.le_add_right _ _) hsize)
    refine ⟨_, by simp only [Program.resolve, hr, ok_bind]; rfl, ?_⟩
    simp only [Program.notes, Program.classes, Program.decls, Program.body, notesFit_append]
    refine ⟨⟨hnotes.mono (by omega), ?_⟩, ?_⟩
    · exact Decl.annotateAll_fits hfits.tables decls hfits.scopes hdecls ht.2 (by omega)
        (by omega) hfits.upper
    · have hinner := Decl.bindAll_fits hfits.scopes ht.2 (by omega) hfits.upper
      exact @Expr.annotate_fits _ ⟨Decl.bindAll r.env.scopes decls, r.env.classes⟩ hinner
        hfits.tables body hbody
  | expr body span =>
    have hfits := Env.fits_initial.mono (Nat.zero_le (expr body span).nodes)
    refine ⟨_, rfl, ?_⟩
    simp only [Program.notes, Program.classes, Program.decls, Program.body] at hb ⊢
    exact body.annotate_fits hfits.scopes hfits.tables hb

/-! ## Checking -/

section Checking
variable {n : Nat} {h : Hierarchy}

theorem Field.overrideReports_succeeds {f : Field} (hf : f.note.Fits n) (own inherited : List Ty) :
    Succeeds (f.overrideReports h own inherited) := by
  unfold Field.overrideReports
  split
  · next name offset _ ho =>
    have hindex : Layout.fieldIndex offset = .ok (-1 - offset).toNat := by
      rw [Layout.fieldIndex, if_pos (hf offset ho).2]
    refine Succeeds.bind ⟨_, hindex⟩ fun i => ?_
    split <;> exact succeeds_ok _
  · exact succeeds_ok _

theorem Method.overrideReports_succeeds {d : Method} (hd : NotesFit n d.notes)
    (own inherited : List Signature) :
    Succeeds (d.overrideReports h own inherited) := by
  unfold Method.overrideReports
  split
  · next name offset _ ho =>
    have hoffset := (notesFit_cons.1 hd).1 offset ho
    have hindex : Layout.methodIndex offset = .ok offset.toNat := by
      rw [Layout.methodIndex, if_pos hoffset.1]
    refine Succeeds.bind ⟨_, hindex⟩ fun i => ?_
    split <;> exact succeeds_ok _
  · exact succeeds_ok _

/-- Checking a class whose members have offsets of the right signs is not abandoned. -/
theorem Class.typeReports_succeeds {c : Class} (hc : NotesFit n c.notes) : Succeeds (c.typeReports h) := by
  rw [Class.notes, notesFit_cons, notesFit_append] at hc
  obtain ⟨-, hfields, hmethods⟩ := hc
  have hoverride : Succeeds (c.overrideReports h) := by
    unfold Class.overrideReports
    split
    · refine Succeeds.bind (succeeds_mapM fun f hf => ?_) fun _ =>
        Succeeds.bind (succeeds_mapM fun d hd => ?_) fun _ => ?_
      · exact Field.overrideReports_succeeds (hfields _ (List.mem_map_of_mem hf)) _ _
      · exact Method.overrideReports_succeeds
          (fun note hnote => hmethods note (List.mem_flatMap.2 ⟨d, hd, hnote⟩)) _ _
      · exact succeeds_ok _
    · exact succeeds_ok _
  unfold Class.typeReports
  split
  · exact succeeds_ok _
  · exact hoverride.bind fun _ => succeeds_ok _

theorem Class.checkAll_succeeds {cs : List Class} (hcs : NotesFit n (cs.flatMap Class.notes)) :
    Succeeds (Class.checkAll h cs) := by
  induction cs generalizing h with
  | nil => exact succeeds_ok _
  | cons c cs ih =>
    rw [List.flatMap_cons, notesFit_append] at hcs
    exact (Class.typeReports_succeeds hcs.1).bind fun _ => (ih hcs.2).bind fun _ => succeeds_ok _

/-- Checking a program with such annotations is never abandoned. -/
theorem Program.check_succeeds {p : Program} (hp : NotesFit n p.notes) : Succeeds (p.check h) := by
  simp only [Program.notes, notesFit_append] at hp
  refine (Class.checkAll_succeeds hp.1.1).bind fun (h', reports) => ?_
  simp only
  split <;> exact succeeds_ok _

end Checking

/-- Evaluates a test of a program that was resolved and checked. -/
theorem Program.exists_checked {p : Program} {P : Resolved → Checked → Prop} [∀ r c, Decidable (P r c)]
    (h : (p.resolve.toOption.any fun r => (r.tree.check .empty).toOption.any fun c => decide (P r c)) =
      true) :
    ∃ r c, p.resolve = .ok r ∧ r.tree.check .empty = .ok c ∧ P r c := by
  cases hres : p.resolve with
  | error a => simp [hres, Except.toOption] at h
  | ok r =>
    cases hcheck : r.tree.check .empty with
    | error a => simp [hres, hcheck, Except.toOption] at h
    | ok c => exact ⟨r, c, rfl, hcheck, by simpa [hres, hcheck, Except.toOption] using h⟩

end Classlet

import Classlet.Resolution.Program
import Classlet.Proofs.Accepted
import Classlet.Proofs.Representation
import Classlet.Proofs.Scopes
import Classlet.Proofs.Trees
import Mathlib.Logic.Function.Basic
/-!
# Classes that were resolved

`Registry info? env n`: the scopes and the virtual tables after `n` classes with a name, none of them with a
problem, are those that `info?` describes. A class without problems keeps its superclass's layout, adds its
own members to it (`Class.Enters`) and adds itself to the registry (`Registry.declare`).
-/

namespace Classlet

structure Registry (info? : String → Option ClassInfo) (env : Env) (n : Nat) : Prop where
  nested : env.scopes.nested = []
  next : env.scopes.nextOffset = Layout.firstLocalOffset - n
  bound (x : String) (e : Entry) : env.scopes.global.get? x = some e ↔ ∃ r, info? x = some r ∧ e = r.entry
  tables (x : String) (t : VirtualTable) : env.classes.get? x = some t ↔ ∃ r, info? x = some r ∧
    t = r.members.table
  named (x : String) (r : ClassInfo) : info? x = some r → r.members.Named r.fieldNames r.methodNames
  slot (x : String) (r : ClassInfo) : info? x = some r → ∃ k : Nat, k < n ∧
    r.offset = Layout.firstLocalOffset - k

theorem registry_initial : Registry (fun _ => none) .initial 0 where
  nested := rfl
  next := rfl
  bound x e := by simp [Env.initial, Scopes.initial, Scope.opened, Scope.get?]
  tables x t := by simp [Env.initial]
  named x r h := by cases h
  slot x r h := by cases h

/-- What is known of the superclass that a class names. -/
def Class.parent? (info? : String → Option ClassInfo) (c : Class) : Option ClassInfo :=
  c.superclass.bind fun s => info? s.text

/-- The members that a class with the given superclass starts from. -/
def inheritedMembers : Option ClassInfo → Members
  | some r => { r.members with own := [] }
  | none => .empty

def inheritedFields (parent : Option ClassInfo) : List String := parent.elim [] ClassInfo.fieldNames

def inheritedMethods (parent : Option ClassInfo) : List String := parent.elim [] ClassInfo.methodNames

section Registry
variable {info? : String → Option ClassInfo} {env : Env} {n : Nat} {c : Class}

theorem Registry.level (h : Registry info? env n) : env.scopes.level = 0 := by
  rw [Scopes.level, h.nested]
  rfl

theorem Registry.extensible? (h : Registry info? env n) (x : String) :
    env.extensible? x = (info? x).map fun r => (r.entry, { r.members with own := [] }) := by
  unfold Env.extensible? Env.class? Scopes.lookupGlobal?
  cases hx : info? x with
  | none =>
    have hnone : env.scopes.global.get? x = none := by
      cases hg : env.scopes.global.get? x with
      | none => rfl
      | some e =>
        obtain ⟨r, hr, -⟩ := (h.bound x e).1 hg
        rw [hx] at hr
        cases hr
    rw [hnone]
    rfl
  | some r =>
    rw [(h.bound x r.entry).2 ⟨r, hx, rfl⟩, (h.tables x r.members.table).2 ⟨r, hx, rfl⟩]
    rfl

theorem Registry.inherited (h : Registry info? env n) :
    c.inherited env = ((c.parent? info?).map ClassInfo.entry, inheritedMembers (c.parent? info?)) := by
  unfold Class.inherited Class.parent?
  cases hs : c.superclass with
  | none => rfl
  | some s =>
    simp only [Option.bind_some, h.extensible?]
    cases info? s.text <;> rfl

theorem Registry.parent_isSome (h : Registry info? env n) (hp : c.superclassProblems env = []) :
    c.superclass.isSome = (c.parent? info?).isSome := by
  unfold Class.superclassProblems at hp
  unfold Class.parent?
  cases hs : c.superclass with
  | none => rfl
  | some s =>
    simp only [hs, h.extensible?, Option.isSome_map] at hp
    cases hi : info? s.text with
    | none => simp [hi] at hp
    | some r => simp [hi]

theorem Registry.named_inherited (h : Registry info? env n) :
    (inheritedMembers (c.parent? info?)).Named (inheritedFields (c.parent? info?))
      (inheritedMethods (c.parent? info?)) := by
  cases hp : c.parent? info? with
  | none => exact Members.named_empty
  | some r =>
    obtain ⟨s, -, hs⟩ := Option.bind_eq_some_iff.1 hp
    exact (h.named s.text r hs).withOwn []

/-- A class whose name was free, with the next offset. -/
theorem Registry.declare (h : Registry info? env n) {name : String} {m : Members} {fs ms : List String}
    (hfree : info? name = none) (hm : m.Named fs ms) (start : Nat) :
    Registry (Function.update info? name (some ⟨Layout.firstLocalOffset - n, m, fs, ms, start⟩))
      (env.declareClass name m) (n + 1) := by
  obtain ⟨⟨nested, g⟩, classes⟩ := env
  obtain rfl : nested = [] := h.nested
  have hg : g.get? name = none := by
    cases hget : g.get? name with
    | none => rfl
    | some e =>
      obtain ⟨r, hr, -⟩ := (h.bound name e).1 hget
      rw [hfree] at hr
      cases hr
  have hcontains : g.bindings.contains name = false := by
    rw [Table.contains, Option.isSome_eq_false_iff, Option.isNone_iff_eq_none]
    exact hg
  have hnext : g.nextOffset = Layout.firstLocalOffset - n := h.next
  have hentry : (⟨⟨[], g⟩, classes⟩ : Env).classEntry m =
      ClassInfo.entry ⟨Layout.firstLocalOffset - n, m, fs, ms, start⟩ := by
    rw [Env.classEntry, ClassInfo.entry]
    congr 1
  have hglobal : (Env.declareClass ⟨⟨[], g⟩, classes⟩ name m).scopes.global =
      { g with
        bindings :=
          g.bindings.set name (ClassInfo.entry ⟨Layout.firstLocalOffset - n, m, fs, ms, start⟩)
        nextOffset := g.nextOffset - 1 } := by
    rw [← hentry]
    simp [Env.declareClass, Scopes.bindGlobal, Scopes.takeOffset, Scopes.modifyCurrent,
      Scope.takeOffset, Scope.bind, hcontains]
  have hclasses : (Env.declareClass ⟨⟨[], g⟩, classes⟩ name m).classes = classes.set name m.table := by
    simp [Env.declareClass, Scopes.lookupGlobal?, hg]
  refine ⟨rfl, ?_, fun x e => ?_, fun x t => ?_, fun x r hr => ?_, fun x r hr => ?_⟩
  · rw [show (Env.declareClass ⟨⟨[], g⟩, classes⟩ name m).scopes.nextOffset = g.nextOffset - 1 from
      congrArg Scope.nextOffset hglobal, hnext]
    omega
  · rw [hglobal, Scope.get?, Table.get?_set, Function.update_apply]
    by_cases hx : x = name
    · subst hx
      simp [eq_comm]
    · rw [if_neg (Ne.symm hx), if_neg hx]
      exact h.bound x e
  · rw [hclasses, Table.get?_set, Function.update_apply]
    by_cases hx : x = name
    · subst hx
      simp [eq_comm]
    · rw [if_neg (Ne.symm hx), if_neg hx]
      exact h.tables x t
  · rw [Function.update_apply] at hr
    split at hr
    · obtain rfl := Option.some.inj hr
      exact hm
    · exact h.named x r hr
  · rw [Function.update_apply] at hr
    split at hr
    · obtain rfl := Option.some.inj hr
      exact ⟨n, Nat.lt_succ_self n, rfl⟩
    · obtain ⟨k, hk, ho⟩ := h.slot x r hr
      exact ⟨k, Nat.lt_succ_of_lt hk, ho⟩

/-! ## One class -/

/-- The class `c` called `name` was resolved after the classes of `info?` without a problem: its members are
placed as in `p`, with the fields called `fs` and the methods `ms`. -/
structure Class.Enters (info? : String → Option ClassInfo) (env : Env) (c : Class) (name : String)
    (p : PlacedMembers) (fs ms : List String) : Prop where
  parent : c.superclass.isSome = (c.parent? info?).isSome
  free : info? name = none
  named : p.members.Named fs ms
  fields : Placing (inheritedFields (c.parent? info?)) (inheritedMembers (c.parent? info?)).fields
    (c.fields.filterMap Field.member?) fs p.members.fields
  methods : Placing (inheritedMethods (c.parent? info?)) (inheritedMembers (c.parent? info?)).methods
    (c.methods.filterMap Method.member?) ms p.members.methods
  placedFields : List.Forall₂ (Field.PlacedAt fs) c.fields p.fields
  placedMethods : List.Forall₂ (Method.PlacedAt ms) c.methods p.methods
  names : ∀ d ∈ p.methods, d.nameProblems ((env.declareClass name p.members).enterClass p.members) = []

theorem Method.member?_annotate (env : Env) (d : Method) : (d.annotate env).member? = d.member? := by
  rw [Method.annotate]
  split
  · rw [Method.member?, Method.member?, Function.declared?_annotate]
  · rfl

theorem Method.offset_annotate (env : Env) (d : Method) : (d.annotate env).offset = d.offset := by
  rw [Method.annotate]
  split
  · rfl
  · rfl

theorem Method.filterMap_annotate (env : Env) (ds : List Method) :
    (ds.map (·.annotate env)).filterMap Method.member? = ds.filterMap Method.member? := by
  rw [List.filterMap_map]
  exact List.filterMap_congr fun d _ => Method.member?_annotate env d

theorem Method.at_annotate {ms : List String} {ds : List Method} (h : ∀ d ∈ ds, d.At ms) (env : Env) :
    ∀ d ∈ ds.map (·.annotate env), d.At ms := by
  refine List.forall_mem_map.2 fun d hd => ?_
  rw [Method.At, Method.member?_annotate, Method.offset_annotate]
  exact h d hd

section Enters
variable {name : String} {p : PlacedMembers} {fs ms : List String}

theorem Class.Enters.fieldsAt (he : c.Enters info? env name p fs ms) : ∀ f ∈ p.fields, f.At fs :=
  forall_mem_of_forall₂ he.placedFields fun _ _ => Field.PlacedAt.placed

theorem Class.Enters.methodsAt (he : c.Enters info? env name p fs ms) : ∀ d ∈ p.methods, d.At ms :=
  forall_mem_of_forall₂ he.placedMethods fun _ _ => Method.PlacedAt.placed

theorem Class.Enters.own_fields (he : c.Enters info? env name p fs ms) :
    p.fields.filterMap Field.member? = c.fields.filterMap Field.member? :=
  filterMap_eq_of_forall₂ he.placedFields fun _ _ => Field.PlacedAt.member?

theorem Class.Enters.own_methods (he : c.Enters info? env name p fs ms) :
    p.methods.filterMap Method.member? = c.methods.filterMap Method.member? :=
  filterMap_eq_of_forall₂ he.placedMethods fun _ _ => Method.PlacedAt.member?

end Enters

theorem Class.isWritten_field (ht : Written c.types) {f : Field} (hf : f ∈ c.fields) {x : String} {t : Ty}
    (hm : f.member? = some (x, t)) : t.isWritten = true := by
  obtain ⟨name, -, htype⟩ := Field.declares_of_member? hm
  exact ht t (List.mem_append_left _ (List.mem_filterMap.2 ⟨f, hf, htype⟩))

/-- The two passes over the members of a class, whose methods are refused the names `taken`. -/
theorem Class.place_passes (hlevel : env.scopes.level = 0) {fs ms : List String}
    (hinherited : (c.inherited env).2.Named fs ms) (hb : Bare c.notes) (ht : Written c.types)
    {p : PlacedMembers} (hp : c.place env = .ok p) {refused : Prop} (hr : p.reports ≠ [] → refused) :
    ∃ fs' ms' taken, p.members.Named fs' ms' ∧
      Placements Field.member? Field.placeAt refused ((c.inherited env).2.own ++ ms) fs
        (c.inherited env).2.fields c.fields
        fs' p.members.fields p.fields ∧
      Placements Method.member? Method.placeAt refused taken ms (c.inherited env).2.methods c.methods
        ms' p.members.methods p.methods ∧
      ∀ x, x ∈ taken ↔ x ∈ (c.inherited env).2.own ++
        ((c.fields.filterMap Field.member?).map Prod.fst ++ fs) := by
  obtain ⟨-, hfieldOffsets, hmethodsBare⟩ := Class.bare_iff.1 hb
  simp only [Class.place, hlevel, bind_eq_ok, pure_eq_ok, Prod.exists] at hp
  obtain ⟨gs, m₁, r, hfields, ds, m₂, r', hmethods, rfl⟩ := hp
  obtain ⟨fs', hnamed₁, hkeep, htaken, hpass⟩ :=
    hinherited.placeFields hfieldOffsets
      (fun f hf x t hm => Ty.isMethod_of_isWritten (Class.isWritten_field ht hf hm)) hfields fun hne =>
      hr (List.append_ne_nil_of_left_ne_nil hne _)
  obtain ⟨ms', hnamed₂, hkeep', hpass'⟩ :=
    hnamed₁.placeMethods (fun d hd => (hmethodsBare d hd).1) hmethods fun hne =>
      hr (List.append_ne_nil_of_right_ne_nil _ hne)
  refine ⟨fs', ms', m₁.own ++ fs', hnamed₂, ?_, hkeep ▸ hpass', htaken⟩
  rw [hkeep']
  exact hpass

theorem Class.place_eq_ok (h : Registry info? env n) (hb : Bare c.notes) (ht : Written c.types)
    {p : PlacedMembers} (hp : c.place env = .ok p) (hr : p.reports = []) :
    ∃ fs ms, p.members.Named fs ms ∧
      Placing (inheritedFields (c.parent? info?)) (inheritedMembers (c.parent? info?)).fields
        (c.fields.filterMap Field.member?) fs p.members.fields ∧
      Placing (inheritedMethods (c.parent? info?)) (inheritedMembers (c.parent? info?)).methods
        (c.methods.filterMap Method.member?) ms p.members.methods ∧
      List.Forall₂ (Field.PlacedAt fs) c.fields p.fields ∧
        List.Forall₂ (Method.PlacedAt ms) c.methods p.methods := by
  obtain ⟨-, hfieldOffsets, hmethodsBare⟩ := Class.bare_iff.1 hb
  have hinherited : (c.inherited env).2 = inheritedMembers (c.parent? info?) := by rw [h.inherited]
  obtain ⟨fs, ms, taken, hnamed, hpass, hpass', -⟩ :=
    Class.place_passes h.level (hinherited ▸ h.named_inherited) hb ht hp (absurd hr)
  rw [hinherited] at hpass hpass'
  refine ⟨fs, ms, hnamed, ?_, ?_, hpass.placedFields hfieldOffsets,
    hpass'.placedMethods fun d hd => (hmethodsBare d hd).1⟩
  · exact hpass.filterMap_accepted ▸ hpass.placing
  · exact hpass'.filterMap_accepted ▸ hpass'.placing

/-- A class with a name that was resolved without a problem. -/
theorem Class.resolve_eq_ok (h : Registry info? env n) (hb : Bare c.notes) (ht : Written c.types)
    {name : Name} (hname : c.name = some name) {r : ResolvedClass} (hc : c.resolve env = .ok r)
    (hr : r.reports = []) :
    ∃ p fs ms, c.Enters info? env name.text p fs ms ∧ r.env = env.declareClass name.text p.members ∧
      r.tree = { c with
        fields := p.fields
        methods := p.methods.map (·.annotate (r.env.enterClass p.members))
        entry := some (env.classEntry p.members)
        superEntry := (c.parent? info?).map ClassInfo.entry } := by
  simp only [Class.resolve, hname, bind_eq_ok, pure_eq_ok] at hc
  obtain ⟨p, hp, rfl⟩ := hc
  simp only [Class.resolvePlaced, Diagnostic.errors, List.append_eq_nil_iff, List.map_eq_nil_iff,
    List.flatMap_eq_nil_iff] at hr
  obtain ⟨⟨hsuper, hreports⟩, ⟨hduplicates, -⟩, hmethods⟩ := hr
  obtain ⟨fs, ms, hnamed, hfields, hmethods', hall, hall'⟩ := Class.place_eq_ok h hb ht hp hreports
  obtain ⟨⟨hentry, hsuperEntry⟩, -⟩ := Class.bare_iff.1 hb
  have hfree : info? name.text = none := by
    cases hi : info? name.text with
    | none => rfl
    | some r =>
      have hg := (h.bound name.text r.entry).2 ⟨r, hi, rfl⟩
      simp [Env.classDuplicates, Scopes.lookupGlobal?, hg] at hduplicates
  refine ⟨p, fs, ms, ⟨h.parent_isSome hsuper, hfree, hnamed, hfields, hmethods', hall, hall', hmethods⟩,
    rfl, ?_⟩
  simp only [Class.resolvePlaced, hentry, hsuperEntry, Option.none_or, h.inherited]

end Registry

end Classlet

import Classlet.Proofs.Lineage
import Classlet.Proofs.Subtyping
/-!
# Subclasses stand in for their superclasses

Checking compares a class only with its direct superclass, only where it declares a member again, and in the
hierarchy that is known at that point. That is enough: subtyping is reflexive on the members that are kept,
goes from one superclass to the next by transitivity, and holds on in the larger hierarchy. So the layout of
a class has all positions of every class that it extends, directly or not, with types and signatures below
those there (`Lineage.substitutes_of_isSubclass`).
-/

namespace Classlet

/-! ## Layouts, position by position -/

/-- Every position of `other` is one of `own`, and what `own` has there is below. -/
def Matches {α : Type} (below : α → α → Bool) (own other : List α) : Prop :=
  ∀ (i : Nat) b, other[i]? = some b → ∃ a, own[i]? = some a ∧ below a b = true

section Matches
variable {α : Type} {below below' : α → α → Bool} {as bs cs : List α}

theorem Matches.refl (h : ∀ a ∈ as, below a a = true) : Matches below as as :=
  fun _ a ha => ⟨a, ha, h a (List.mem_of_getElem? ha)⟩

theorem Matches.trans (ht : ∀ a b c, below a b = true → below b c = true → below a c = true)
    (hab : Matches below as bs) (hbc : Matches below bs cs) : Matches below as cs := by
  intro i c hc
  obtain ⟨b, hb, hbelow⟩ := hbc i c hc
  obtain ⟨a, ha, hbelow'⟩ := hab i b hb
  exact ⟨a, ha, ht a b c hbelow' hbelow⟩

theorem Matches.mono (h : ∀ a b, below a b = true → below' a b = true) (hab : Matches below as bs) :
    Matches below' as bs := by
  intro i b hb
  obtain ⟨a, ha, hbelow⟩ := hab i b hb
  exact ⟨a, ha, h a b hbelow⟩

/-- A layout in which members were placed, each checked against what was there. -/
theorem Placing.matches {names names' : List String} {layout layout' : List α} {own : List (String × α)}
    (h : Placing names layout own names' layout') (hlength : layout.length = names.length)
    (hlength' : layout'.length = names'.length) (hrefl : ∀ a ∈ layout, below a a = true)
    (hown : ∀ (i : Nat) x, names'[i]? = some x → x ∈ own.map Prod.fst →
      overrides below layout' layout i = true) :
    Matches below layout' layout := by
  intro i b hb
  have hlt : i < layout'.length := by
    have := h.prefix_names.length_le
    have := (List.getElem?_eq_some_iff.1 hb).1
    omega
  have ha := List.getElem?_eq_getElem hlt
  refine ⟨_, ha, h.below (R := fun a b => b ∈ layout → below a b = true) hlength hrefl ?_ i _ b ha hb
    (List.mem_of_getElem? hb)⟩
  exact fun i x a b hx hmem ha hb _ => overrides_eq_true (hown i x hx hmem) ha hb

end Matches

/-! ## One class -/

/-- The members of a class match those of another in the hierarchy `h`. -/
structure ClassInfo.Substitutes (h : Hierarchy) (r r' : ClassInfo) : Prop where
  fields : Matches h.isSubtype r.members.fields r'.members.fields
  methods : Matches h.isArrowSubtype r.members.methods r'.members.methods

section Class
variable {info? : String → Option ClassInfo} {earlier trees : List Class} {c : Class} {r r' r'' : ClassInfo}
  {h h' last : Hierarchy}

theorem ClassInfo.Substitutes.trans (hab : r.Substitutes h r') (hbc : r'.Substitutes h r'') :
    r.Substitutes h r'' where
  fields := hab.fields.trans (fun _ _ _ => Hierarchy.isSubtype_trans) hbc.fields
  methods := hab.methods.trans (fun _ _ _ => Hierarchy.isArrowSubtype_trans) hbc.methods

theorem ClassInfo.Substitutes.mono (hh : h.IsPartOf h') (hab : r.Substitutes h r') :
    r.Substitutes h' r' where
  fields := hab.fields.mono fun a b => (Hierarchy.isSubtype_mono hh a b).1
  methods := hab.methods.mono fun a b => (Hierarchy.isArrowSubtype_mono hh a b).1

theorem Lineage.substitutes_refl (hl : Lineage info? trees) {x : String} (hr : info? x = some r) :
    r.Substitutes h r where
  fields := .refl fun t ht => Hierarchy.isSubtype_refl t ((hl.written x r hr).1 t ht)
  methods := .refl fun s hs => Hierarchy.isArrowSubtype_refl s ((hl.written x r hr).2 s hs)

/-- The check of a class against its superclass. -/
theorem Class.Settled.substitutes (hs : c.Settled info? earlier r) (hp : c.parent? info? = some r')
    (hnamed : r'.members.Named r'.fieldNames r'.methodNames)
    (hfieldTypes : ∀ t ∈ r'.members.fields, t.isWritten = true)
    (hsignatures : ∀ s ∈ r'.members.methods, s.isWritten = true) (hr : c.overrideReports h = .ok []) :
    r.Substitutes h r' := by
  obtain ⟨hfields, hmethods⟩ := Class.overrideReports_eq_nil hs.entry rfl
    (hs.superEntry.trans (congrArg (Option.map ClassInfo.entry) hp)) rfl hr
  have hplacedFields := hs.fields
  have hplacedMethods := hs.methods
  rw [hp] at hplacedFields hplacedMethods
  constructor
  · refine hplacedFields.matches hnamed.fieldSlots.length hs.named.fieldSlots.length
      (fun t ht => Hierarchy.isSubtype_refl t (hfieldTypes t ht)) fun i x hx hmem => ?_
    exact Field.overrides_at hs.fieldsAt hs.named.nodup_fields hfields hx hmem
  · refine hplacedMethods.matches hnamed.methodSlots.length hs.named.methodSlots.length
      (fun s hs => Hierarchy.isArrowSubtype_refl s (hsignatures s hs)) fun i x hx hmem => ?_
    exact Method.overrides_at hs.methodsAt hs.named.nodup_methods hmethods hx hmem

end Class

/-! ## All classes -/

section Classes
variable {info? : String → Option ClassInfo} {trees cs : List Class} {c : Class} {r : ClassInfo}
  {h last : Hierarchy} {a b : String}

theorem Class.extendHierarchy_cases (h : Hierarchy) (c : Class) : c.extendHierarchy h = h ∨
    ∃ name s, c.name = some name ∧ c.superclass = some s ∧
      c.extendHierarchy h = h.extend name.text s.text := by
  unfold Class.extendHierarchy
  split
  · next name s e hname hs _ => exact .inr ⟨name, s, hname, hs, rfl⟩
  · exact .inl rfl

/-- The hierarchy grows by edges from a class to the superclass that it names. -/
theorem Class.edge_extendHierarchy (hab : (c.extendHierarchy h).Edge a b) : h.Edge a b ∨
    (c.name.map Name.text = some a ∧ c.superclass.map Name.text = some b) := by
  rcases Class.extendHierarchy_cases h c with heq | ⟨name, s, hname, hs, heq⟩
  · exact .inl (heq ▸ hab)
  · rw [heq, Hierarchy.Edge, Hierarchy.superclass?, Hierarchy.extend, Table.get?_set] at hab
    split at hab
    · next ha =>
      subst ha
      rw [hname, hs, ← Option.some.inj hab]
      exact .inr ⟨rfl, rfl⟩
    · exact .inl hab

theorem Class.isPartOf_extendHierarchy
    (hfree : ∀ x, c.name.map Name.text = some x → h.superclass? x = none) :
    h.IsPartOf (c.extendHierarchy h) := by
  rcases Class.extendHierarchy_cases h c with heq | ⟨name, s, hname, -, heq⟩
  · exact heq.symm ▸ .refl h
  · rw [heq]
    exact Hierarchy.isPartOf_extend (hfree name.text (by rw [hname]; rfl)) s.text

/-- Classes with different names that were checked without a report: each was checked in a part of the last
hierarchy, and that has the edges which the classes give. -/
theorem Class.checkAll_spec (hn : (Class.names cs).Nodup)
    (hfree : ∀ x ∈ Class.names cs, h.superclass? x = none) (hc : Class.checkAll h cs = .ok (last, [])) :
    h.IsPartOf last ∧
      (∀ c ∈ cs, ∃ h' : Hierarchy, h'.IsPartOf last ∧ c.typeReports h' = .ok []) ∧
      ∀ a b, last.Edge a b → h.Edge a b ∨
        ∃ c ∈ cs, c.name.map Name.text = some a ∧ c.superclass.map Name.text = some b := by
  induction cs generalizing h with
  | nil =>
    obtain ⟨rfl, -⟩ := Prod.mk.inj (Except.ok.inj hc)
    exact ⟨.refl _, List.forall_mem_nil _, fun _ _ => .inl⟩
  | cons c cs ih =>
    simp only [Class.checkAll, bind_eq_ok, pure_eq_ok, Prod.exists, Prod.mk.injEq,
      List.append_eq_nil_iff] at hc
    obtain ⟨_, hcheck, _, _, hrest, rfl, rfl, rfl⟩ := hc
    rw [Class.names_cons] at hn hfree
    have hstep : h.IsPartOf (c.extendHierarchy h) :=
      Class.isPartOf_extendHierarchy fun x hx => hfree x (List.mem_append_left _ (Option.mem_toList.2 hx))
    -- only the class itself gets an edge, so none of the later names has one yet
    have hlater : ∀ x ∈ Class.names cs, (c.extendHierarchy h).superclass? x = none := by
      intro x hx
      refine Option.eq_none_iff_forall_ne_some.2 fun y hy => ?_
      rcases Class.edge_extendHierarchy hy with hold | ⟨hname, -⟩
      · cases (hfree x (List.mem_append_right _ hx)).symm.trans hold
      · exact (List.nodup_append.1 hn).2.2 x (Option.mem_toList.2 hname) x hx rfl
    obtain ⟨hpart, hchecks, hedges⟩ := ih (List.nodup_append.1 hn).2.1 hlater hrest
    refine ⟨hstep.trans hpart, List.forall_mem_cons.2 ⟨⟨_, hpart, hcheck⟩, hchecks⟩, fun a b hab => ?_⟩
    rcases hedges a b hab with hstart | ⟨c', hc', hends⟩
    · rcases Class.edge_extendHierarchy hstart with hold | hends
      · exact .inl hold
      · exact .inr ⟨c, List.mem_cons_self, hends⟩
    · exact .inr ⟨c', List.mem_cons_of_mem c hc', hends⟩

theorem Lineage.substitutes_of_edge (hl : Lineage info? trees)
    (hc : Class.checkAll .empty trees = .ok (last, [])) (hab : last.Edge a b) :
    ∃ r r', info? a = some r ∧ info? b = some r' ∧ r.Substitutes last r' := by
  have hempty : ∀ x, Hierarchy.empty.superclass? x = none := fun x => rfl
  obtain ⟨-, hchecks, hedges⟩ := Class.checkAll_spec hl.nodup (fun x _ => hempty x) hc
  rcases hedges a b hab with hnone | ⟨c, hmem, hcalled, hsuper⟩
  · cases (hempty a).symm.trans hnone
  obtain ⟨i, hi⟩ := List.mem_iff_getElem?.1 hmem
  obtain ⟨name, hname, rfl⟩ := Option.map_eq_some_iff.1 hcalled
  obtain ⟨s, hs, rfl⟩ := Option.map_eq_some_iff.1 hsuper
  obtain ⟨r, hr, hsettled⟩ := hl.settled i c name hi hname
  obtain ⟨r', hr', hp⟩ := hsettled.parent?_eq hs
  obtain ⟨h', hpart, hcheck⟩ := hchecks c hmem
  simp only [Class.typeReports, hname, bind_eq_ok, pure_eq_ok, List.append_eq_nil_iff] at hcheck
  obtain ⟨overriding, hoverriding, -, rfl⟩ := hcheck
  obtain ⟨hfieldTypes, hsignatures⟩ := hl.written s.text r' hr'
  exact ⟨r, r', hr, hr',
    (hsettled.substitutes hp (hl.named hr') hfieldTypes hsignatures hoverriding).mono hpart⟩

/-- The induction goes up from class to superclass. -/
theorem Lineage.substitutes_of_isSubclass (hl : Lineage info? trees)
    (hc : Class.checkAll .empty trees = .ok (last, [])) (hab : last.isSubclass a b = true)
    (hr : info? a = some r) : ∃ r', info? b = some r' ∧ r.Substitutes last r' := by
  rw [Hierarchy.isSubclass_iff] at hab
  induction hab using Relation.ReflTransGen.head_induction_on generalizing r with
  | refl => exact ⟨r, hr, hl.substitutes_refl hr⟩
  | head hac _ ih =>
    obtain ⟨r₁, r₂, h₁, h₂, hsubstitutes⟩ := hl.substitutes_of_edge hc hac
    obtain rfl := Option.some.inj (hr.symm.trans h₁)
    obtain ⟨r', hr', hrest⟩ := ih h₂
    exact ⟨r', hr', hsubstitutes.trans hrest⟩

end Classes

end Classlet

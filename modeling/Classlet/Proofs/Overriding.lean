import Classlet.Typing.Class
import Classlet.Proofs.Registry
/-!
# Subclasses refine their superclasses

A type is below another if it has no more values, a signature if what has it can be called in place of the
other. What the checks on overriding compare is in this relation, so a class has all the members of its
superclass in the same places, with types and signatures below those that were inherited
(`Class.Enters.refines`).
-/

namespace Classlet

/-! ## Semantic subtyping -/

/-- Values of type `t` have type `t'` as well. -/
def Ty.Below (cs : List Class) (t t' : Ty) : Prop :=
  ∀ store (v : Value), v.HasType cs store t → v.HasType cs store t'

theorem Ty.Below.refl (cs : List Class) (t : Ty) : t.Below cs t := fun _ _ h => h

/-- What has signature `s` can be used where `s'` is expected. -/
structure Signature.Below (cs : List Class) (s s' : Signature) : Prop where
  params (store : List Object) (vs : List Value) :
    List.Forall₂ (·.HasType cs store ·) vs s'.params → List.Forall₂ (·.HasType cs store ·) vs s.params
  ret : s.ret.Below cs s'.ret

section Below
variable {cs : List Class} {h : Hierarchy}

theorem Ty.below_of_isSubtype (hh : h.Within cs) {a b : Ty} (hs : h.isSubtype a b = true) : a.Below cs b :=
  fun _ _ hv => hv.of_isSubtype hh hs

theorem Ty.below_of_isBelow_contra (hh : h.Within cs) {a b : Ty} (hs : a.isBelow h .contra b = true) :
    b.Below cs a := by
  intro store v hv
  have hatom (hb : h.isAtomSubtype b a = true) : v.HasType cs store a := by
    refine hv.of_isSubtype hh ?_
    cases b with
    | arrow s => exact absurd hv (Value.not_hasType_of_callable rfl)
    | _ => exact hb
  cases a with
  | arrow s =>
    cases b with
    | arrow s' => exact absurd hv (Value.not_hasType_of_callable rfl)
    | _ => simp [Ty.isBelow] at hs
  | _ => exact hatom hs

theorem Ty.below_of_areBelow_contra (hh : h.Within cs) {store : List Object} {ps qs : List Ty}
    {vs : List Value} (hlength : ps.length = qs.length) (hs : Ty.areBelow h .contra ps qs = true)
    (hvs : List.Forall₂ (·.HasType cs store ·) vs qs) : List.Forall₂ (·.HasType cs store ·) vs ps := by
  induction hvs generalizing ps with
  | nil =>
    obtain rfl := List.eq_nil_of_length_eq_zero hlength
    exact .nil
  | cons hv _ ih =>
    cases ps with
    | nil => cases hlength
    | cons p ps =>
      rw [Ty.areBelow, Bool.and_eq_true] at hs
      exact .cons (Ty.below_of_isBelow_contra hh hs.1 _ _ hv) (ih (Nat.succ.inj hlength) hs.2)

theorem Signature.below_of_isArrowSubtype (hh : h.Within cs) {s s' : Signature}
    (hs : h.isArrowSubtype s s' = true) :
    s.Below cs s' := by
  obtain ⟨ps, r⟩ := s
  rw [Hierarchy.isArrowSubtype, Signature.isBelow, Bool.and_eq_true, Bool.and_eq_true, beq_iff_eq] at hs
  exact ⟨fun _ _ => Ty.below_of_areBelow_contra hh hs.1.1 hs.2, Ty.below_of_isSubtype hh hs.1.2⟩

theorem Ty.Below.trans {a b c : Ty} (hab : a.Below cs b) (hbc : b.Below cs c) : a.Below cs c :=
  fun store v hv => hbc store v (hab store v hv)

theorem Signature.Below.refl (cs : List Class) (s : Signature) : s.Below cs s := ⟨fun _ _ => id, .refl cs _⟩

theorem Signature.Below.trans {a b c : Signature} (hab : a.Below cs b) (hbc : b.Below cs c) :
    a.Below cs c :=
  ⟨fun store vs hvs => hab.params store vs (hbc.params store vs hvs), hab.ret.trans hbc.ret⟩

end Below

/-! ## Layouts -/

/-- The members of a class extend those of another. -/
structure ClassInfo.Refines (cs : List Class) (r r' : ClassInfo) : Prop where
  fieldNames : r'.fieldNames <+: r.fieldNames
  field (i : Nat) (t t' : Ty) : r.members.fields[i]? = some t → r'.members.fields[i]? = some t' →
    t.Below cs t'
  methodNames : r'.methodNames <+: r.methodNames
  method (i : Nat) (s s' : Signature) :
    r.members.methods[i]? = some s → r'.members.methods[i]? = some s' → s.Below cs s'

section Refines
variable {cs : List Class}

theorem ClassInfo.Refines.refl (cs : List Class) (r : ClassInfo) : r.Refines cs r where
  fieldNames := List.prefix_refl _
  field _ t _ ht ht' := Option.some.inj (ht.symm.trans ht') ▸ .refl cs t
  methodNames := List.prefix_refl _
  method _ s _ hs hs' := Option.some.inj (hs.symm.trans hs') ▸ .refl cs s

theorem ClassInfo.Refines.trans {a b c : ClassInfo} (hab : a.Refines cs b) (hbc : b.Refines cs c)
    (hb : b.members.Named b.fieldNames b.methodNames) (hc : c.members.Named c.fieldNames c.methodNames) :
    a.Refines cs c where
  fieldNames := hbc.fieldNames.trans hab.fieldNames
  field i t t' ht ht' := by
    have hlt : i < b.members.fields.length := by
      rw [hb.fieldSlots.length]
      refine Nat.lt_of_lt_of_le ?_ hbc.fieldNames.length_le
      rw [← hc.fieldSlots.length]
      exact (List.getElem?_eq_some_iff.1 ht').1
    have hmid := List.getElem?_eq_getElem hlt
    exact (hab.field i _ _ ht hmid).trans (hbc.field i _ _ hmid ht')
  methodNames := hbc.methodNames.trans hab.methodNames
  method i s s' hs hs' := by
    have hlt : i < b.members.methods.length := by
      rw [hb.methodSlots.length]
      refine Nat.lt_of_lt_of_le ?_ hbc.methodNames.length_le
      rw [← hc.methodSlots.length]
      exact (List.getElem?_eq_some_iff.1 hs').1
    have hmid := List.getElem?_eq_getElem hlt
    exact (hab.method i _ _ hs hmid).trans (hbc.method i _ _ hmid hs')

end Refines

/-! ## Overriding -/

/-- Checks that report nothing have nothing to report for any element. -/
theorem mapM_eq_nil {α β ε : Type} {f : α → Except ε (List β)} {l : List α} {rs : List (List β)}
    (h : l.mapM f = .ok rs) (hrs : rs.flatten = []) : ∀ a ∈ l, f a = .ok [] := by
  induction l generalizing rs with
  | nil => simp
  | cons a l ih =>
    rw [List.mapM_cons] at h
    simp only [bind_eq_ok, pure_eq_ok] at h
    obtain ⟨r, hr, rest, hrest, rfl⟩ := h
    rw [List.flatten_cons, List.append_eq_nil_iff] at hrs
    obtain ⟨rfl, hrs⟩ := hrs
    exact List.forall_mem_cons.2 ⟨hr, ih hrest hrs⟩

theorem overrides_eq_true {α : Type} {isBelow : α → α → Bool} {own inherited : List α} {i : Nat} {a b : α}
    (h : overrides isBelow own inherited i = true) (ha : own[i]? = some a) (hb : inherited[i]? = some b) :
    isBelow a b = true := by
  rwa [overrides, ha, hb] at h

theorem Field.overrides_of_reports {h : Hierarchy} {own inherited : List Ty} {f : Field} {i : Nat}
    (hname : f.name.isSome) (ho : f.offset = some (Layout.fieldOffset i))
    (hr : f.overrideReports h own inherited = .ok []) :
    overrides h.isSubtype own inherited i = true := by
  obtain ⟨name, hname⟩ := Option.isSome_iff_exists.1 hname
  simp only [Field.overrideReports, hname, ho, Members.fieldIndex_fieldOffset, ok_bind] at hr
  split at hr
  · next hover => exact hover
  · cases pure_eq_ok.1 hr

theorem Method.overrides_of_reports {h : Hierarchy} {own inherited : List Signature} {d : Method} {i : Nat}
    (hname : d.function.name.isSome) (ho : d.offset = some (Layout.methodOffset i))
    (hr : d.overrideReports h own inherited = .ok []) :
    overrides h.isArrowSubtype own inherited i = true := by
  obtain ⟨name, hname⟩ := Option.isSome_iff_exists.1 hname
  simp only [Method.overrideReports, hname, ho, Members.methodIndex_methodOffset, ok_bind] at hr
  split at hr
  · next hover => exact hover
  · cases pure_eq_ok.1 hr

theorem Function.name_of_declared? {f : Function} {name : Name} {signature : Signature}
    (h : f.declared? = some (name, signature)) : f.name = some name := by
  unfold Function.declared? at h
  split at h
  · split at h
    · next hname _ =>
      obtain ⟨rfl, -⟩ := Prod.mk.inj (Option.some.inj h)
      exact hname
    · cases h
  · cases h

/-- In a layout in which own members were placed, what is at an inherited position is the inherited member
or one that the class declares. -/
theorem Placing.below {α : Type} {names names' : List String} {layout layout' : List α}
    {own : List (String × α)} {R : α → α → Prop} (h : Placing names layout own names' layout')
    (hlength : layout.length = names.length) (hrefl : ∀ a, R a a)
    (hown : ∀ (i : Nat) x a b, names'[i]? = some x → x ∈ own.map Prod.fst → layout'[i]? = some a →
      layout[i]? = some b → R a b)
    (i : Nat) (a b : α) (ha : layout'[i]? = some a) (hb : layout[i]? = some b) : R a b := by
  have hlt : i < names.length := hlength ▸ (List.getElem?_eq_some_iff.1 hb).1
  have hx := prefix_getElem? h.prefix_names (List.getElem?_eq_getElem hlt)
  by_cases hmem : names[i] ∈ own.map Prod.fst
  · exact hown i _ a b hx hmem ha hb
  · have hkeep := h.keeps i fun y hy => Option.some.inj (hx.symm.trans hy) ▸ hmem
    rw [ha, hb] at hkeep
    exact Option.some.inj hkeep ▸ hrefl a

section Enters
variable {info? : String → Option ClassInfo} {env : Env} {c tree : Class} {name : String}
  {p : PlacedMembers} {fs ms : List String} {h : Hierarchy}

/-- Fields that have their offsets and were compared by them were compared at the positions of their
names. -/
theorem Field.overrides_at {gs : List Field} (hat : ∀ f ∈ gs, f.At fs) (hn : fs.Nodup)
    {own inherited : List Ty} (hr : ∀ f ∈ gs, f.overrideReports h own inherited = .ok []) {i : Nat}
    {x : String} (hx : fs[i]? = some x) (hmem : x ∈ (gs.filterMap Field.member?).map Prod.fst) :
    overrides h.isSubtype own inherited i = true := by
  obtain ⟨⟨y, t⟩, hyt, rfl⟩ := List.mem_map.1 hmem
  obtain ⟨f, hf, hmember⟩ := List.mem_filterMap.1 hyt
  obtain ⟨k, hoffset, hk⟩ := (hat f hf).offset hmember
  obtain rfl := getElem?_unique hn hk hx
  obtain ⟨name, hname, -⟩ := Field.declares_of_member? hmember
  exact Field.overrides_of_reports (by rw [hname]; rfl) hoffset (hr f hf)

theorem Method.overrides_at {ds : List Method} (hat : ∀ d ∈ ds, d.At ms) (hn : ms.Nodup)
    {own inherited : List Signature} (hr : ∀ d ∈ ds, d.overrideReports h own inherited = .ok []) {i : Nat}
    {x : String} (hx : ms[i]? = some x) (hmem : x ∈ (ds.filterMap Method.member?).map Prod.fst) :
    overrides h.isArrowSubtype own inherited i = true := by
  obtain ⟨⟨y, s⟩, hys, rfl⟩ := List.mem_map.1 hmem
  obtain ⟨d, hd, hmember⟩ := List.mem_filterMap.1 hys
  obtain ⟨k, hoffset, hk⟩ := (hat d hd).offset hmember
  obtain rfl := getElem?_unique hn hk hx
  obtain ⟨name, hdeclared, -⟩ := Method.declared?_of_member? hmember
  exact Method.overrides_of_reports (by rw [Function.name_of_declared? hdeclared]; rfl) hoffset (hr d hd)

theorem Method.overrideReports_annotate (env : Env) (h : Hierarchy) (own inherited : List Signature)
    (d : Method) :
    (d.annotate env).overrideReports h own inherited = d.overrideReports h own inherited := by
  obtain ⟨⟨name, params, ret, locals, body, span⟩, offset⟩ := d
  cases offset <;> rfl

/-- The reports on the members of a class whose superclass was found. -/
theorem Class.overrideReports_eq_nil {members inherited : Members} {e e' : Entry} (he : tree.entry = some e)
    (hm : e.type = members.type) (he' : tree.superEntry = some e') (hm' : e'.type = inherited.type)
    (hr : tree.overrideReports h = .ok []) :
    (∀ f ∈ tree.fields, f.overrideReports h members.fields inherited.fields = .ok []) ∧
      ∀ d ∈ tree.methods, d.overrideReports h members.methods inherited.methods = .ok [] := by
  simp only [Class.overrideReports, he, he', hm, hm', Option.bind_some, Members.type, Ty.members?,
    bind_eq_ok, pure_eq_ok, List.append_eq_nil_iff] at hr
  obtain ⟨fr, hfr, mr, hmr, hf, hd⟩ := hr
  exact ⟨mapM_eq_nil hfr hf, mapM_eq_nil hmr hd⟩

/-- A class that was checked refines its superclass. -/
theorem Class.Enters.refines {cs : List Class} (he : c.Enters info? env name p fs ms) (hh : h.Within cs)
    {parent : ClassInfo} (hparent : c.parent? info? = some parent)
    (hnamed : parent.members.Named parent.fieldNames parent.methodNames)
    (hfields : ∀ f ∈ p.fields, f.overrideReports h p.members.fields parent.members.fields = .ok [])
    (hmethods : ∀ d ∈ p.methods, d.overrideReports h p.members.methods parent.members.methods = .ok [])
    (offset : Int) (start : Nat) : ClassInfo.Refines cs ⟨offset, p.members, fs, ms, start⟩ parent := by
  have hplacedFields := he.own_fields ▸ he.fields
  have hplacedMethods := he.own_methods ▸ he.methods
  rw [hparent] at hplacedFields hplacedMethods
  refine ⟨hplacedFields.prefix_names, ?_, hplacedMethods.prefix_names, ?_⟩
  · refine hplacedFields.below hnamed.fieldSlots.length (Ty.Below.refl cs) fun i x a b hx hmem ha hb => ?_
    exact Ty.below_of_isSubtype hh
      (overrides_eq_true (Field.overrides_at he.fieldsAt he.named.nodup_fields hfields hx hmem) ha hb)
  · refine hplacedMethods.below hnamed.methodSlots.length (Signature.Below.refl cs)
      fun i x a b hx hmem ha hb => ?_
    exact Signature.below_of_isArrowSubtype hh
      (overrides_eq_true (Method.overrides_at he.methodsAt he.named.nodup_methods hmethods hx hmem) ha hb)

end Enters

end Classlet

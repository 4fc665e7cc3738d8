import Classlet.Proofs.Members
import Mathlib.Data.List.Forall2
/-!
# Declarations that count

Of the members of one kind that a class declares, those count that are complete and whose name is free: not
taken by an earlier member of the class, nor by an inherited member of the other kind (`accepted`). These
get an offset and a place in the layout, and the others change nothing. `Placements` is that pass over the
members, for fields and methods alike; `Members.Named.placeFields` and `Members.Named.placeMethods` say that
both passes are of this form.
-/

namespace Classlet

section Accepted
variable {α β γ : Type} {member? : α → Option (String × β)} {taken taken' : List String} {as : List α}
  {a : α} {x : String} {b : β}

/-- The members that count when the names `taken` are refused. -/
def accepted (member? : α → Option (String × β)) : List String → List α → List α
  | _, [] => []
  | taken, a :: as =>
    match member? a with
    | none => accepted member? taken as
    | some (x, _) => if x ∈ taken then accepted member? taken as else a :: accepted member? (x :: taken) as

theorem accepted_cons_none (ha : member? a = none) :
    accepted member? taken (a :: as) = accepted member? taken as := by
  rw [accepted, ha]

theorem accepted_cons_mem (ha : member? a = some (x, b)) (hx : x ∈ taken) :
    accepted member? taken (a :: as) = accepted member? taken as := by
  rw [accepted, ha]
  exact if_pos hx

theorem accepted_cons_not_mem (ha : member? a = some (x, b)) (hx : x ∉ taken) :
    accepted member? taken (a :: as) = a :: accepted member? (x :: taken) as := by
  rw [accepted, ha]
  exact if_neg hx

/-- Only which names are taken matters. -/
theorem accepted_congr (h : ∀ x, x ∈ taken ↔ x ∈ taken') :
    accepted member? taken as = accepted member? taken' as := by
  induction as generalizing taken taken' with
  | nil => rfl
  | cons a as ih =>
    cases ha : member? a with
    | none => rw [accepted_cons_none ha, accepted_cons_none ha, ih h]
    | some p =>
      obtain ⟨x, b⟩ := p
      by_cases hx : x ∈ taken
      · rw [accepted_cons_mem ha hx, accepted_cons_mem ha ((h x).1 hx), ih h]
      · have hcons : ∀ y, y ∈ x :: taken ↔ y ∈ x :: taken' :=
          fun y => by rw [List.mem_cons, List.mem_cons, h y]
        rw [accepted_cons_not_mem ha hx, accepted_cons_not_mem ha (hx ∘ (h x).2), ih hcons]

theorem accepted_map {member?' : γ → Option (String × β)} {f : α → γ}
    (hf : ∀ a, member?' (f a) = member? a) :
    accepted member?' taken (as.map f) = (accepted member? taken as).map f := by
  induction as generalizing taken with
  | nil => rfl
  | cons a as ih =>
    rw [List.map_cons]
    cases ha : member? a with
    | none => rw [accepted_cons_none ha, accepted_cons_none ((hf a).trans ha), ih]
    | some p =>
      obtain ⟨x, b⟩ := p
      by_cases hx : x ∈ taken
      · rw [accepted_cons_mem ha hx, accepted_cons_mem ((hf a).trans ha) hx, ih]
      · rw [accepted_cons_not_mem ha hx, accepted_cons_not_mem ((hf a).trans ha) hx, ih, List.map_cons]

theorem accepted_sublist (taken : List String) (as : List α) : (accepted member? taken as).Sublist as := by
  induction as generalizing taken with
  | nil => exact List.nil_sublist _
  | cons a as ih =>
    rw [accepted]
    split
    · exact (ih taken).cons a
    · split
      · exact (ih taken).cons a
      · exact (ih _).cons_cons a

theorem filterMap_congr_map {as as' : List α} (h : as'.map member? = as.map member?) :
    as'.filterMap member? = as.filterMap member? := by
  have hid (l : List α) : l.filterMap member? = (l.map member?).filterMap id := by
    rw [List.filterMap_map]
    rfl
  rw [hid, hid, h]

/-- Only names and what they stand for matter. -/
theorem filterMap_accepted_congr {as as' : List α} (h : as'.map member? = as.map member?) :
    (accepted member? taken as').filterMap member? = (accepted member? taken as).filterMap member? := by
  have hmap (l : List α) : accepted id taken (l.map member?) = (accepted member? taken l).map member? :=
    accepted_map fun _ => rfl
  exact filterMap_congr_map (by rw [← hmap, ← hmap, h])

theorem not_taken_of_mem_accepted (h : a ∈ accepted member? taken as) :
    ∃ x b, member? a = some (x, b) ∧ x ∉ taken := by
  induction as generalizing taken with
  | nil => cases h
  | cons c as ih =>
    cases hc : member? c with
    | none => exact ih (accepted_cons_none hc ▸ h)
    | some p =>
      obtain ⟨x, b⟩ := p
      by_cases hx : x ∈ taken
      · exact ih (accepted_cons_mem hc hx ▸ h)
      · rw [accepted_cons_not_mem hc hx] at h
        rcases List.mem_cons.1 h with rfl | h
        · exact ⟨x, b, hc, hx⟩
        · obtain ⟨y, b', hy, hy'⟩ := ih h
          exact ⟨y, b', hy, fun hmem => hy' (List.mem_cons_of_mem _ hmem)⟩

/-- The names of the members that count are free. -/
theorem not_taken_of_accepted (h : x ∈ ((accepted member? taken as).filterMap member?).map Prod.fst) :
    x ∉ taken := by
  obtain ⟨p, hp, rfl⟩ := List.mem_map.1 h
  obtain ⟨a, ha, hm⟩ := List.mem_filterMap.1 hp
  obtain ⟨x, b, hx, hfree⟩ := not_taken_of_mem_accepted ha
  obtain rfl := Option.some.inj (hm.symm.trans hx)
  exact hfree

end Accepted

/-! ## Going through the members of one kind -/

/-- The members `as` are gone through when the names `taken` are refused, where `place a i` is the member
`a` at position `i`. The layout with its names grows with each member that counts, and a member is refused
only if `refused` holds. -/
inductive Placements {α β : Type} (member? : α → Option (String × β)) (place : α → Nat → α)
    (refused : Prop) :
    (taken names : List String) → (layout : List β) → (as : List α) → (names' : List String) →
      (layout' : List β) → (as' : List α) → Prop
  | nil {taken names : List String} {layout : List β} :
    Placements member? place refused taken names layout [] names layout []
  | incomplete {taken names names' : List String} {layout layout' : List β} {as as' : List α} {a : α} :
    member? a = none → Placements member? place refused taken names layout as names' layout' as' →
      Placements member? place refused taken names layout (a :: as) names' layout' (a :: as')
  | refused {taken taken' names names' : List String} {layout layout' : List β} {as as' : List α} {a : α}
      {x : String} {b : β} :
    refused → member? a = some (x, b) → x ∈ taken → (∀ y, y ∈ taken' ↔ y ∈ taken) →
      Placements member? place refused taken' names layout as names' layout' as' →
      Placements member? place refused taken names layout (a :: as) names' layout' (a :: as')
  | placed {taken names names' : List String} {layout layout₁ layout' : List β} {as as' : List α} {a : α}
      {x : String} {b : β}
      {i : Nat} :
    member? a = some (x, b) → x ∉ taken → (adjoin names x)[i]? = some x → layout₁[i]? = some b →
      (∀ j, j ≠ i → layout₁[j]? = layout[j]?) →
      Placements member? place refused (x :: taken) (adjoin names x) layout₁ as names' layout' as' →
      Placements member? place refused taken names layout (a :: as) names' layout' (place a i :: as')

namespace Placements
variable {α β γ : Type} {member? : α → Option (String × β)} {place : α → Nat → α} {refused : Prop}
  {taken names names' : List String} {layout layout' : List β} {as as' : List α}

/-- The members that count are placed in the layout. -/
theorem placing (h : Placements member? place refused taken names layout as names' layout' as') :
    Placing names layout ((accepted member? taken as).filterMap member?) names' layout' := by
  induction h with
  | nil => exact .nil _ _
  | incomplete ha _ ih => rwa [accepted_cons_none ha]
  | refused _ ha hx hiff _ ih =>
    rw [accepted_cons_mem ha hx]
    rwa [accepted_congr hiff] at ih
  | placed ha hx hi hput hkeep _ ih =>
    rw [accepted_cons_not_mem ha hx, List.filterMap_cons_some ha]
    exact .cons hi hput hkeep (fun hmem => not_taken_of_accepted hmem List.mem_cons_self) ih

/-- A complete member that is not refused gets the position of its name in the final layout. -/
theorem forall₂ (h : Placements member? place refused taken names layout as names' layout' as') :
    List.Forall₂ (fun a a' => (member? a = none ∧ a' = a) ∨ (refused ∧ a' = a) ∨
      ∃ (i : Nat) (x : String) (b : β), member? a = some (x, b) ∧ names'[i]? = some x ∧ a' = place a i)
        as as' := by
  induction h with
  | nil => exact .nil
  | incomplete ha _ ih => exact .cons (.inl ⟨ha, rfl⟩) ih
  | refused hr _ _ _ _ ih => exact .cons (.inr (.inl ⟨hr, rfl⟩)) ih
  | placed ha _ hi _ _ hrest ih =>
    exact .cons (.inr (.inr ⟨_, _, _, ha, prefix_getElem? hrest.placing.prefix_names hi, rfl⟩)) ih

/-- If none is refused, all complete members count. -/
theorem filterMap_accepted (h : Placements member? place False taken names layout as names' layout' as') :
    (accepted member? taken as).filterMap member? = as.filterMap member? := by
  induction h with
  | nil => rfl
  | incomplete ha _ ih => rw [accepted_cons_none ha, List.filterMap_cons_none ha, ih]
  | refused hr => exact hr.elim
  | placed ha hx _ _ _ _ ih =>
    rw [accepted_cons_not_mem ha hx, List.filterMap_cons_some ha, List.filterMap_cons_some ha, ih]

/-- Placing changes nothing but the position. -/
theorem map_eq {view : α → γ}
    (h : Placements member? place refused taken names layout as names' layout' as')
    (hview : ∀ a i, view (place a i) = view a) : as'.map view = as.map view := by
  induction h with
  | nil => rfl
  | incomplete _ _ ih => rw [List.map_cons, List.map_cons, ih]
  | refused _ _ _ _ _ ih => rw [List.map_cons, List.map_cons, ih]
  | placed _ _ _ _ _ _ ih => rw [List.map_cons, List.map_cons, hview, ih]

/-- A mark that placed members have and others have not singles out the members that count. -/
theorem filter_eq {marked : α → Bool}
    (h : Placements member? place refused taken names layout as names' layout' as')
    (hbefore : ∀ a ∈ as, marked a = false) (hafter : ∀ a i, marked (place a i) = true)
    (hmember : ∀ a i, member? (place a i) = member? a) :
    as'.filter marked = accepted member? taken as' := by
  induction h with
  | nil => rfl
  | incomplete ha _ ih =>
    rw [accepted_cons_none ha, List.filter_cons_of_neg (by simp [hbefore _ List.mem_cons_self]),
      ih fun a ha => hbefore a (List.mem_cons_of_mem _ ha)]
  | refused _ ha hx hiff _ ih =>
    rw [accepted_cons_mem ha hx, List.filter_cons_of_neg (by simp [hbefore _ List.mem_cons_self]),
      ih fun a ha => hbefore a (List.mem_cons_of_mem _ ha), accepted_congr hiff]
  | placed ha hx _ _ _ _ ih =>
    rw [accepted_cons_not_mem ((hmember _ _).trans ha) hx, List.filter_cons_of_pos (hafter _ _),
      ih fun a ha => hbefore a (List.mem_cons_of_mem _ ha)]

end Placements

/-- The field at position `i` of a layout. -/
def Field.placeAt (f : Field) (i : Nat) : Field := { f with offset := some (Layout.fieldOffset i) }

/-- The method at position `i` of a layout. -/
def Method.placeAt (d : Method) (i : Nat) : Method := { d with offset := some (Layout.methodOffset i) }

/-! ## Fields and methods -/

namespace Members

section Placed
variable {m m' : Members} {fs ms : List String}

/-- What becomes of a field: it is incomplete, it is refused and reported, or it takes its place. -/
theorem placeField_cases (h : m.Named fs ms) {f f' : Field} {r : List Diagnostic} (ho : f.offset = none)
    (hp : m.placeField memberLevel f = .ok (f', m', r)) :
    (f.member? = none ∧ f' = f ∧ m' = m) ∨
      (∃ x t, f.member? = some (x, t) ∧ f' = f ∧ r ≠ [] ∧
        ((x ∈ m.own ∧ m' = m) ∨ (x ∈ ms ∧ m' = m.declare x))) ∨
      ∃ x t i, f.member? = some (x, t) ∧ x ∉ m.own ∧ x ∉ ms ∧ (adjoin fs x)[i]? = some x ∧
        f' = f.placeAt i ∧ m' = (m.withField x i t).declare x := by
  unfold placeField at hp
  split at hp
  · next hd =>
    obtain ⟨rfl, hrest⟩ := Prod.mk.inj (Except.ok.inj hp)
    exact .inl ⟨by rw [Field.member?, hd]; rfl, rfl, (Prod.mk.inj hrest).1.symm⟩
  · next name t hd =>
    have hmember : f.member? = some (name.text, t) := by rw [Field.member?, hd]; rfl
    split at hp
    · next hv =>
      simp only [Except.ok.injEq, Prod.mk.injEq] at hp
      obtain ⟨rfl, rfl, rfl⟩ := hp
      exact .inr (.inl ⟨_, t, hmember, rfl, List.cons_ne_nil _ _, .inl ⟨fieldVerdict_repeated hv, rfl⟩⟩)
    · next hv =>
      simp only [Except.ok.injEq, Prod.mk.injEq] at hp
      obtain ⟨rfl, rfl, rfl⟩ := hp
      exact .inr (.inl ⟨_, t, hmember, rfl, List.cons_ne_nil _ _, .inr ⟨h.fieldVerdict_clash hv, rfl⟩⟩)
    · next offset hv =>
      obtain ⟨hown, hms, i, rfl, hi⟩ := h.fieldVerdict_placed hv
      rw [addField_eq] at hp
      obtain ⟨rfl, hrest⟩ := Prod.mk.inj (Except.ok.inj hp)
      refine .inr (.inr ⟨name.text, t, i, hmember, hown, hms, hi, ?_, (Prod.mk.inj hrest).1.symm⟩)
      rw [ho, Option.none_or]
      rfl

/-- What becomes of a method: it is incomplete, it is refused and reported, or it takes its place. -/
theorem placeMethod_cases (h : m.Named fs ms) {d d' : Method} {r : List Diagnostic} (ho : d.offset = none)
    (hp : m.placeMethod memberLevel d = .ok (d', m', r)) :
    (d.member? = none ∧ d' = d ∧ m' = m) ∨
      (∃ x s, d.member? = some (x, s) ∧ d' = d ∧ r ≠ [] ∧
        ((x ∈ m.own ∧ m' = m) ∨ (x ∈ fs ∧ m' = m.declare x))) ∨
      ∃ x s i, d.member? = some (x, s) ∧ x ∉ m.own ∧ x ∉ fs ∧ (adjoin ms x)[i]? = some x ∧
        d' = d.placeAt i ∧ m' = (m.withMethod x i s).declare x := by
  unfold placeMethod at hp
  split at hp
  · next hd =>
    obtain ⟨rfl, hrest⟩ := Prod.mk.inj (Except.ok.inj hp)
    exact .inl ⟨by rw [Method.member?, hd]; rfl, rfl, (Prod.mk.inj hrest).1.symm⟩
  · next name s hd =>
    have hmember : d.member? = some (name.text, s) := by rw [Method.member?, hd]; rfl
    split at hp
    · next hv =>
      simp only [Except.ok.injEq, Prod.mk.injEq] at hp
      obtain ⟨rfl, rfl, rfl⟩ := hp
      exact .inr (.inl ⟨_, s, hmember, rfl, List.cons_ne_nil _ _, .inl ⟨methodVerdict_repeated hv, rfl⟩⟩)
    · next hv =>
      simp only [Except.ok.injEq, Prod.mk.injEq] at hp
      obtain ⟨rfl, rfl, rfl⟩ := hp
      exact .inr (.inl ⟨_, s, hmember, rfl, List.cons_ne_nil _ _, .inr ⟨h.methodVerdict_clash hv, rfl⟩⟩)
    · next offset hv =>
      obtain ⟨hown, hfs, i, rfl, hi⟩ := h.methodVerdict_placed hv
      rw [addMethod_eq] at hp
      obtain ⟨rfl, hrest⟩ := Prod.mk.inj (Except.ok.inj hp)
      refine .inr (.inr ⟨name.text, s, i, hmember, hown, hfs, hi, ?_, (Prod.mk.inj hrest).1.symm⟩)
      rw [ho, Option.none_or]
      rfl

/-- The pass over the fields of a class. Something is reported only if a field is refused. -/
theorem Named.placeFields (h : m.Named fs ms) {gs gs' : List Field} {r : List Diagnostic}
    (ho : ∀ f ∈ gs, f.offset = none) (ht : ∀ f ∈ gs, ∀ x t, f.member? = some (x, t) → t.isMethod = false)
    (hp : m.placeFields memberLevel gs = .ok (gs', m', r)) {refused : Prop} (hr : r ≠ [] → refused) :
    ∃ fs', m'.Named fs' ms ∧ m'.methods = m.methods ∧
      (∀ x, x ∈ m'.own ++ fs' ↔ x ∈ m.own ++ ((gs.filterMap Field.member?).map Prod.fst ++ fs)) ∧
      Placements Field.member? Field.placeAt refused (m.own ++ ms) fs m.fields gs fs' m'.fields gs' := by
  induction gs generalizing m fs gs' r with
  | nil =>
    obtain ⟨rfl, hrest⟩ := Prod.mk.inj (Except.ok.inj hp)
    obtain ⟨rfl, -⟩ := Prod.mk.inj hrest
    exact ⟨fs, h, rfl, fun x => Iff.rfl, .nil⟩
  | cons f gs ih =>
    simp only [Members.placeFields, bind_eq_ok, pure_eq_ok, Prod.exists, Prod.mk.injEq] at hp
    obtain ⟨f', m₁, r₁, hf, gs₁, m₂, r₂, hgs, rfl, rfl, rfl⟩ := hp
    have ho' := List.forall_mem_cons.1 ho
    have ht' := List.forall_mem_cons.1 ht
    have hr₂ : r₂ ≠ [] → refused := fun hne => hr (List.append_ne_nil_of_right_ne_nil _ hne)
    rcases placeField_cases h ho'.1 hf with ⟨hnone, rfl, rfl⟩ | ⟨x, t, hx, rfl, hr₁, hcase⟩ |
      ⟨x, t, i, hx, hown, hms, hi, rfl, rfl⟩
    · obtain ⟨fs', hnamed, hmethods, hnames, hrest⟩ := ih h ho'.2 ht'.2 hgs hr₂
      rw [List.filterMap_cons_none hnone]
      exact ⟨fs', hnamed, hmethods, hnames, .incomplete hnone hrest⟩
    · have hrefused := hr (List.append_ne_nil_of_left_ne_nil hr₁ _)
      rw [List.filterMap_cons_some hx]
      rcases hcase with ⟨hown, rfl⟩ | ⟨hms, rfl⟩
      · obtain ⟨fs', hnamed, hmethods, hnames, hrest⟩ := ih h ho'.2 ht'.2 hgs hr₂
        refine ⟨fs', hnamed, hmethods, fun y => ?_,
          .refused hrefused hx (List.mem_append_left _ hown) (fun _ => Iff.rfl) hrest⟩
        rw [hnames y]
        simp only [List.mem_append, List.map_cons, List.mem_cons]
        grind
      · obtain ⟨fs', hnamed, hmethods, hnames, hrest⟩ := ih (h.withOwn _) ho'.2 ht'.2 hgs hr₂
        refine ⟨fs', hnamed, hmethods, fun y => ?_,
          .refused hrefused hx (List.mem_append_right _ hms) (fun y => ?_) hrest⟩
        · rw [hnames y]
          simp only [List.mem_append, List.map_cons, List.mem_cons]
          grind
        · simp only [List.mem_append, List.mem_cons]
          grind
    · have h₁ : ((m.withField x i t).declare x).Named (adjoin fs x) ms :=
        (h.withField hms hi (ht'.1 x t hx)).withOwn _
      obtain ⟨fs', hnamed, hmethods, hnames, hrest⟩ := ih h₁ ho'.2 ht'.2 hgs hr₂
      obtain ⟨hput, hkeep⟩ := h.fieldSlots.getElem?_putAt hi t
      rw [List.filterMap_cons_some hx]
      have hfree : x ∉ m.own ++ ms := fun hmem => (List.mem_append.1 hmem).elim hown hms
      refine ⟨fs', hnamed, hmethods, fun y => ?_, .placed hx hfree hi hput hkeep hrest⟩
      rw [hnames y]
      simp only [List.mem_append, List.map_cons, List.mem_cons, declare, mem_adjoin,
        show (m.withField x i t).own = m.own from rfl]
      grind

/-- The pass over the methods of a class. Something is reported only if a method is refused. -/
theorem Named.placeMethods (h : m.Named fs ms) {ds ds' : List Method} {r : List Diagnostic}
    (ho : ∀ d ∈ ds, d.offset = none) (hp : m.placeMethods memberLevel ds = .ok (ds', m', r))
    {refused : Prop} (hr : r ≠ [] → refused) :
    ∃ ms', m'.Named fs ms' ∧ m'.fields = m.fields ∧
      Placements Method.member? Method.placeAt refused
        (m.own ++ fs) ms m.methods ds ms' m'.methods ds' := by
  induction ds generalizing m ms ds' r with
  | nil =>
    obtain ⟨rfl, hrest⟩ := Prod.mk.inj (Except.ok.inj hp)
    obtain ⟨rfl, -⟩ := Prod.mk.inj hrest
    exact ⟨ms, h, rfl, .nil⟩
  | cons d ds ih =>
    simp only [Members.placeMethods, bind_eq_ok, pure_eq_ok, Prod.exists, Prod.mk.injEq] at hp
    obtain ⟨d', m₁, r₁, hd, ds₁, m₂, r₂, hds, rfl, rfl, rfl⟩ := hp
    have ho' := List.forall_mem_cons.1 ho
    have hr₂ : r₂ ≠ [] → refused := fun hne => hr (List.append_ne_nil_of_right_ne_nil _ hne)
    rcases placeMethod_cases h ho'.1 hd with ⟨hnone, rfl, rfl⟩ | ⟨x, s, hx, rfl, hr₁, hcase⟩ |
      ⟨x, s, i, hx, hown, hfs, hi, rfl, rfl⟩
    · obtain ⟨ms', hnamed, hfields, hrest⟩ := ih h ho'.2 hds hr₂
      exact ⟨ms', hnamed, hfields, .incomplete hnone hrest⟩
    · have hrefused := hr (List.append_ne_nil_of_left_ne_nil hr₁ _)
      rcases hcase with ⟨hown, rfl⟩ | ⟨hfs, rfl⟩
      · obtain ⟨ms', hnamed, hfields, hrest⟩ := ih h ho'.2 hds hr₂
        exact ⟨ms', hnamed, hfields, .refused hrefused hx (List.mem_append_left _ hown)
          (fun _ => Iff.rfl) hrest⟩
      · obtain ⟨ms', hnamed, hfields, hrest⟩ := ih (h.withOwn _) ho'.2 hds hr₂
        refine ⟨ms', hnamed, hfields, .refused hrefused hx (List.mem_append_right _ hfs)
          (fun y => ?_) hrest⟩
        simp only [List.mem_append, List.mem_cons]
        grind
    · have h₁ : ((m.withMethod x i s).declare x).Named fs (adjoin ms x) := (h.withMethod hfs hi s).withOwn _
      obtain ⟨ms', hnamed, hfields, hrest⟩ := ih h₁ ho'.2 hds hr₂
      obtain ⟨hput, hkeep⟩ := h.methodSlots.getElem?_putAt hi s
      have hfree : x ∉ m.own ++ fs := fun hmem => (List.mem_append.1 hmem).elim hown hfs
      exact ⟨ms', hnamed, hfields, .placed hx hfree hi hput hkeep hrest⟩

end Placed

end Members

/-! ## Nothing refused -/

section Clean
variable {taken names names' : List String}

theorem Placements.placedFields {layout layout' : List Ty} {gs gs' : List Field}
    (h : Placements Field.member? Field.placeAt False taken names layout gs names' layout' gs')
    (ho : ∀ f ∈ gs, f.offset = none) : List.Forall₂ (Field.PlacedAt names') gs gs' := by
  refine ((List.forall₂_and_left gs gs').2 ⟨ho, h.forall₂⟩).imp ?_
  rintro f f' ⟨hf, ⟨hnone, rfl⟩ | ⟨hfalse, -⟩ | ⟨i, x, t, hx, hi, rfl⟩⟩
  · exact ⟨rfl, by rw [Field.At, hnone]; exact hf⟩
  · exact hfalse.elim
  · have hmember : (Field.placeAt f i).member? = some (x, t) := hx
    exact ⟨rfl, by rw [Field.At, hmember]; exact ⟨i, rfl, hi⟩⟩

theorem Placements.placedMethods {layout layout' : List Signature} {ds ds' : List Method}
    (h : Placements Method.member? Method.placeAt False taken names layout ds names' layout' ds')
    (ho : ∀ d ∈ ds, d.offset = none) : List.Forall₂ (Method.PlacedAt names') ds ds' := by
  refine ((List.forall₂_and_left ds ds').2 ⟨ho, h.forall₂⟩).imp ?_
  rintro d d' ⟨hd, ⟨hnone, rfl⟩ | ⟨hfalse, -⟩ | ⟨i, x, s, hx, hi, rfl⟩⟩
  · exact ⟨rfl, by rw [Method.At, hnone]; exact hd⟩
  · exact hfalse.elim
  · have hmember : (Method.placeAt d i).member? = some (x, s) := hx
    exact ⟨rfl, by rw [Method.At, hmember]; exact ⟨i, rfl, hi⟩⟩

end Clean

end Classlet

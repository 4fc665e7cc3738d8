import Classlet.Proofs.Overriding
/-!
# Classes and their superclasses

What is known of the annotated classes of a program without problems, whatever comes after: every class
keeps the layout of its superclass, puts its own members into it and gives them the offsets of their places
(`Class.Settled`). `Finds` is the search for the method with a given offset, from a class upwards. It meets
a method for each offset of the layout (`Lineage.exists_finds`), and that method has the signature that the
layout gives (`Lineage.signature_of_finds`).
-/

namespace Classlet

/-- The search for the method with offset `o`, from the class at position `i` upwards, ends at the method at
position `j` of the class at position `k`. -/
inductive Finds (classes : List Class) (o : Nat) : Nat → Nat → Nat → Prop
  | own {i j : Nat} {c : Class} {d : Method} : classes[i]? = some c → c.methods[j]? = some d →
      d.offset = some (Layout.methodOffset o) → Finds classes o i i j
  | inherited {i i' k j : Nat} {c parent : Class} {s : Name} : classes[i]? = some c →
      (∀ d ∈ c.methods, d.offset ≠ some (Layout.methodOffset o)) → c.superclass = some s →
      classes[i']? = some parent → parent.name.map Name.text = some s.text → Finds classes o i' k j →
      Finds classes o i k j

/-- What names refer to outside of classes: only classes that `info?` describes, and no methods. -/
structure Env.Outside (info? : String → Option ClassInfo) (env : Env) : Prop where
  isMethod (x : String) (e : Entry) : env.scopes.lookup? x = some e → e.type.isMethod = false
  tables (x : String) (t : VirtualTable) : env.classes.get? x = some t → ∃ r, info? x = some r ∧
    t = r.members.table

/-- The methods of the annotated class with the given members were `ds`. -/
structure Class.Bodies (info? : String → Option ClassInfo) (c : Class) (members : Members) (env : Env)
    (ds : List Method) : Prop where
  outside : env.Outside info?
  bare : ∀ d ∈ ds, Bare d.function.notes
  written : ∀ d ∈ ds, Written d.function.types
  methods : c.methods = ds.map (·.annotate (env.enterClass members))

/-- The annotated class `c` comes after the classes `earlier` and is what `r` says. -/
structure Class.Settled (info? : String → Option ClassInfo) (earlier : List Class) (c : Class)
    (r : ClassInfo) : Prop where
  entry : c.entry = some r.entry
  slot : r.offset = Layout.firstLocalOffset - (Class.names earlier).length
  named : r.members.Named r.fieldNames r.methodNames
  parent : c.superclass.isSome = (c.parent? info?).isSome
  earlier (s : Name) : c.superclass = some s → s.text ∈ Class.names earlier
  superEntry : c.superEntry = (c.parent? info?).map ClassInfo.entry
  fields : Placing (inheritedFields (c.parent? info?)) (inheritedMembers (c.parent? info?)).fields
    (c.fields.filterMap Field.member?) r.fieldNames r.members.fields
  methods : Placing (inheritedMethods (c.parent? info?)) (inheritedMembers (c.parent? info?)).methods
    (c.methods.filterMap Method.member?) r.methodNames r.members.methods
  fieldsAt : ∀ f ∈ c.fields, f.At r.fieldNames
  methodsAt : ∀ d ∈ c.methods, d.At r.methodNames
  bodies : ∃ env ds, c.Bodies info? r.members env ds

/-- `info?` describes the annotated classes of a program. -/
structure Lineage (info? : String → Option ClassInfo) (trees : List Class) : Prop where
  nodup : (Class.names trees).Nodup
  known (x : String) : (info? x).isSome = true ↔ x ∈ Class.names trees
  settled (i : Nat) (c : Class) (name : Name) : trees[i]? = some c → c.name = some name →
    ∃ r, info? name.text = some r ∧ c.Settled info? (trees.take i) r
  written (x : String) (r : ClassInfo) : info? x = some r →
    (∀ t ∈ r.members.fields, t.isWritten = true) ∧ ∀ s ∈ r.members.methods, s.isWritten = true

theorem Class.names_append (cs cs' : List Class) :
    Class.names (cs ++ cs') = Class.names cs ++ Class.names cs' :=
  List.filterMap_append

theorem Class.names_cons (c : Class) (cs : List Class) :
    Class.names (c :: cs) = (c.name.map Name.text).toList ++ Class.names cs := by
  rw [Class.names, List.filterMap_cons]
  cases c.name <;> rfl

theorem Class.mem_names {cs : List Class} {x : String} :
    x ∈ Class.names cs ↔ ∃ (i : Nat) (c : Class) (name : Name), cs[i]? = some c ∧ c.name = some name ∧
    name.text = x := by
  rw [Class.names, List.mem_filterMap]
  constructor
  · rintro ⟨c, hc, hx⟩
    obtain ⟨i, hi⟩ := List.mem_iff_getElem?.1 hc
    obtain ⟨name, hname, htext⟩ := Option.map_eq_some_iff.1 hx
    exact ⟨i, c, name, hi, hname, htext⟩
  · rintro ⟨i, c, name, hi, hname, rfl⟩
    exact ⟨c, List.mem_of_getElem? hi, by rw [hname]; rfl⟩

/-! ## The search -/

section Search
variable {info? : String → Option ClassInfo} {trees earlier : List Class} {c : Class}
  {r : ClassInfo} {o i : Nat}

/-- The class declares a method with offset `o` exactly if it declares one with the name at position `o`. -/
theorem Class.Settled.declares_iff (h : c.Settled info? earlier r) {x : String}
    (hx : r.methodNames[o]? = some x) :
    x ∈ (c.methods.filterMap Method.member?).map Prod.fst ↔
    ∃ d ∈ c.methods, d.offset = some (Layout.methodOffset o) := by
  constructor
  · intro hmem
    obtain ⟨⟨y, s⟩, hys, rfl⟩ := List.mem_map.1 hmem
    obtain ⟨d, hd, hmember⟩ := List.mem_filterMap.1 hys
    obtain ⟨k, hoffset, hk⟩ := (h.methodsAt d hd).offset hmember
    obtain rfl := getElem?_unique h.named.nodup_methods hk hx
    exact ⟨d, hd, hoffset⟩
  · rintro ⟨d, hd, hoffset⟩
    obtain ⟨y, s, hmember, hy⟩ := (h.methodsAt d hd).member? hoffset
    obtain rfl := Option.some.inj (hy.symm.trans hx)
    exact List.mem_map.2 ⟨(y, s), List.mem_filterMap.2 ⟨d, hd, hmember⟩, rfl⟩

/-- A method that the class declares has the signature at its offset. -/
theorem Class.Settled.own (h : c.Settled info? earlier r) {d : Method} (hd : d ∈ c.methods)
    (ho : d.offset = some (Layout.methodOffset o)) :
    ∃ x s, d.member? = some (x, s) ∧ r.members.methods[o]? = some s := by
  obtain ⟨x, s, hmember, hx⟩ := (h.methodsAt d hd).member? ho
  exact ⟨x, s, hmember, h.methods.getElem?_of_mem h.named.nodup_methods
    (List.mem_filterMap.2 ⟨d, hd, hmember⟩) hx⟩

/-- At an offset that the class does not declare, the layout is that of the superclass. -/
theorem Class.Settled.inherits (h : c.Settled info? earlier r)
    (ho : ∀ d ∈ c.methods, d.offset ≠ some (Layout.methodOffset o)) :
    r.members.methods[o]? = (inheritedMembers (c.parent? info?)).methods[o]? := by
  refine h.methods.keeps o fun x hx hmem => ?_
  obtain ⟨d, hd, hoffset⟩ := (h.declares_iff hx).1 hmem
  exact ho d hd hoffset

theorem Class.Settled.parent?_eq (h : c.Settled info? earlier r) {s : Name} (hs : c.superclass = some s) :
    ∃ r', info? s.text = some r' ∧ c.parent? info? = some r' := by
  have hsome := h.parent
  rw [hs, Option.isSome_some, eq_comm, Option.isSome_iff_exists] at hsome
  obtain ⟨r', hr'⟩ := hsome
  refine ⟨r', ?_, hr'⟩
  rwa [Class.parent?, hs, Option.bind_some] at hr'

theorem Lineage.settled_eq (h : Lineage info? trees) {name : Name} (hi : trees[i]? = some c)
    (hname : c.name = some name) (hr : info? name.text = some r) : c.Settled info? (trees.take i) r := by
  obtain ⟨r', hr', hsettled⟩ := h.settled i c name hi hname
  obtain rfl := Option.some.inj (hr.symm.trans hr')
  exact hsettled

theorem Lineage.named (h : Lineage info? trees) {x : String} (hr : info? x = some r) :
    r.members.Named r.fieldNames r.methodNames := by
  obtain ⟨j, c, name, hj, hname, htext⟩ := Class.mem_names.1 ((h.known x).1 (by rw [hr]; rfl))
  exact (h.settled_eq hj hname (htext ▸ hr)).named

/-- The superclass of a class is one of the classes before it. -/
theorem Lineage.superclass (h : Lineage info? trees) {name s : Name} (hi : trees[i]? = some c)
    (hname : c.name = some name) (hs : c.superclass = some s) :
    ∃ (i' : Nat) (parent : Class) (name' : Name) (r' : ClassInfo), i' < i ∧
      trees[i']? = some parent ∧ parent.name = some name' ∧ name'.text = s.text ∧
      info? name'.text = some r' ∧ c.parent? info? = some r' := by
  obtain ⟨r, -, hsettled⟩ := h.settled i c name hi hname
  obtain ⟨r', hr', hp⟩ := hsettled.parent?_eq hs
  obtain ⟨i', parent, name', hi', hname', htext⟩ := Class.mem_names.1 (hsettled.earlier s hs)
  have hlt : i' < i := Nat.lt_of_lt_of_le (List.getElem?_eq_some_iff.1 hi').1 (List.length_take_le _ _)
  rw [List.getElem?_take_of_lt hlt] at hi'
  exact ⟨i', parent, name', r', hlt, hi', hname', htext, htext ▸ hr', hp⟩

/-- What is found has the signature that the layout gives. -/
theorem Lineage.signature_of_finds (h : Lineage info? trees) {k j : Nat} (hf : Finds trees o i k j)
    {name : Name} (hi : trees[i]? = some c) (hname : c.name = some name) (hr : info? name.text = some r) :
    ∃ owner d x s, trees[k]? = some owner ∧ owner.methods[j]? = some d ∧ d.member? = some (x, s) ∧
      r.members.methods[o]? = some s := by
  induction hf generalizing c name r with
  | @own i j c' d hc' hj hoffset =>
    obtain rfl := Option.some.inj (hi.symm.trans hc')
    obtain ⟨x, s, hmember, hs⟩ := (h.settled_eq hi hname hr).own (List.mem_of_getElem? hj) hoffset
    exact ⟨c, d, x, s, hi, hj, hmember, hs⟩
  | @inherited i i' k j c' parent s hc' hnone hs hparent htext _ ih =>
    obtain rfl := Option.some.inj (hi.symm.trans hc')
    have hsettled := h.settled_eq hi hname hr
    obtain ⟨r', hr', hp⟩ := hsettled.parent?_eq hs
    obtain ⟨name', hname', htext'⟩ := Option.map_eq_some_iff.1 htext
    obtain ⟨owner, d, x, signature, hk, hj, hmember, hsignature⟩ := ih hparent hname' (htext' ▸ hr')
    refine ⟨owner, d, x, signature, hk, hj, hmember, ?_⟩
    rw [hsettled.inherits hnone, hp]
    exact hsignature

/-- The search succeeds at every offset of the layout. Superclasses come earlier, so the induction is on the
position. -/
theorem Lineage.exists_finds (h : Lineage info? trees) {name : Name} (hi : trees[i]? = some c)
    (hname : c.name = some name) (hr : info? name.text = some r) (ho : o < r.members.methods.length) :
    ∃ k j, Finds trees o i k j := by
  induction i using Nat.strongRecOn generalizing c name r with
  | ind i ih =>
    have hsettled := h.settled_eq hi hname hr
    by_cases hown : ∃ d ∈ c.methods, d.offset = some (Layout.methodOffset o)
    · obtain ⟨d, hd, hoffset⟩ := hown
      obtain ⟨j, hj⟩ := List.mem_iff_getElem?.1 hd
      exact ⟨i, j, .own hi hj hoffset⟩
    have hnone : ∀ d ∈ c.methods, d.offset ≠ some (Layout.methodOffset o) :=
      fun d hd hoffset => hown ⟨d, hd, hoffset⟩
    have hkeep := hsettled.inherits hnone
    rw [List.getElem?_eq_getElem ho] at hkeep
    cases hs : c.superclass with
    | none =>
      rw [Class.parent?, hs] at hkeep
      simp [inheritedMembers, Members.empty] at hkeep
    | some s =>
      -- the layout has the offset and the class does not declare it, so the superclass has it as well
      obtain ⟨i', parent, name', r', hlt, hi', hname', htext, hr', hp⟩ := h.superclass hi hname hs
      rw [hp] at hkeep
      obtain ⟨k, j, hfinds⟩ := ih i' hlt hi' hname' hr' (List.getElem?_eq_some_iff.1 hkeep.symm).1
      exact ⟨k, j, .inherited hi hnone hs hi' (by rw [hname', ← htext]; rfl) hfinds⟩

/-- A class with a name takes one more place. -/
theorem Class.length_names_take {j : Nat} {name : Name} (hi : trees[i]? = some c)
    (hname : c.name = some name) (hij : i < j) :
    (Class.names (trees.take i)).length < (Class.names (trees.take j)).length := by
  obtain ⟨hlt, rfl⟩ := List.getElem?_eq_some_iff.1 hi
  have hprefix : trees.take i ++ [trees[i]] <+: trees.take j := by
    rw [List.take_append_getElem hlt]
    exact List.take_prefix_take_left hij
  obtain ⟨rest, hrest⟩ := hprefix
  rw [← hrest, Class.names_append, Class.names_append, Class.names_cons, hname]
  simp only [List.length_append, Option.map_some, Option.toList_some, List.length_singleton]
  omega

/-- Classes with the same name are the same class. -/
theorem Lineage.position_eq (h : Lineage info? trees) {j : Nat} {d : Class} {x y : Name}
    (hi : trees[i]? = some c) (hx : c.name = some x) (hj : trees[j]? = some d) (hy : d.name = some y)
    (hxy : x.text = y.text) : i = j := by
  obtain ⟨r, hr, hsettled⟩ := h.settled i c x hi hx
  -- the slot counts the named classes before, so a class with a later position has another slot
  have hslot := hsettled.slot.symm.trans (h.settled_eq hj hy (hxy ▸ hr)).slot
  rcases Nat.lt_trichotomy i j with hlt | heq | hgt
  · have := Class.length_names_take hi hx hlt
    omega
  · exact heq
  · have := Class.length_names_take hj hy hgt
    omega

end Search

/-! ## One class more -/

section Step
variable {info? : String → Option ClassInfo} {done earlier : List Class} {env : Env} {c : Class}
  {name : String} {r : ClassInfo}

/-- A class that comes later has another name than the superclass. -/
theorem Class.parent?_update (hfree : info? name = none)
    (hp : c.superclass.isSome = (c.parent? info?).isSome) (r : ClassInfo) :
    c.parent? (Function.update info? name (some r)) = c.parent? info? := by
  unfold Class.parent? at hp ⊢
  cases hs : c.superclass with
  | none => rfl
  | some s =>
    rw [hs, Option.isSome_some, Option.bind_some, eq_comm, Option.isSome_iff_exists] at hp
    obtain ⟨r', hr'⟩ := hp
    have hne : s.text ≠ name := by
      rintro rfl
      cases hfree.symm.trans hr'
    rw [Option.bind_some, Option.bind_some, Function.update_of_ne hne]

theorem Env.Outside.update (h : env.Outside info?) (hfree : info? name = none) (r : ClassInfo) :
    env.Outside (Function.update info? name (some r)) := by
  refine ⟨h.isMethod, fun x t ht => ?_⟩
  obtain ⟨r', hr', rfl⟩ := h.tables x t ht
  have hne : x ≠ name := by
    rintro rfl
    cases hfree.symm.trans hr'
  exact ⟨r', (Function.update_of_ne hne _ _).trans hr', rfl⟩

theorem Class.Settled.update (h : c.Settled info? earlier r) (hfree : info? name = none) (r' : ClassInfo) :
    c.Settled (Function.update info? name (some r')) earlier r := by
  have hparent := Class.parent?_update hfree h.parent r'
  obtain ⟨env, ds, hbodies⟩ := h.bodies
  exact ⟨h.entry, h.slot, h.named, hparent ▸ h.parent, h.earlier, hparent ▸ h.superEntry,
    hparent ▸ h.fields, hparent ▸ h.methods, h.fieldsAt, h.methodsAt, env, ds,
    hbodies.outside.update hfree r', hbodies.bare, hbodies.written, hbodies.methods⟩

theorem Registry.outside {n : Nat} (h : Registry info? env n) : env.Outside info? := by
  refine ⟨fun x e he => ?_, fun x t => (h.tables x t).1⟩
  rw [Scopes.lookup?, h.nested] at he
  obtain ⟨r', -, rfl⟩ := (h.bound x e).1 he
  rfl

/-- What is in a layout was in the inherited one or is declared. -/
theorem Placing.mem {α : Type} {names names' : List String} {layout layout' : List α}
    {own : List (String × α)} (h : Placing names layout own names' layout') (hn : names'.Nodup) {a : α}
    (ha : a ∈ layout') :
    a ∈ layout ∨ a ∈ own.map Prod.snd := by
  obtain ⟨i, hi⟩ := List.mem_iff_getElem?.1 ha
  by_cases hown : ∃ x, names'[i]? = some x ∧ x ∈ own.map Prod.fst
  · obtain ⟨x, hx, hmem⟩ := hown
    obtain ⟨⟨y, b⟩, hyb, rfl⟩ := List.mem_map.1 hmem
    obtain rfl := Option.some.inj ((h.getElem?_of_mem hn hyb hx).symm.trans hi)
    exact .inr (List.mem_map.2 ⟨(y, b), hyb, rfl⟩)
  · refine .inl (List.mem_of_getElem? ((h.keeps i fun x hx hmem => hown ⟨x, hx, hmem⟩).symm.trans hi))

theorem Class.Enters.written {p : PlacedMembers} {fs ms : List String}
    (he : c.Enters info? env name p fs ms) (ht : Written c.types) (hwritten : ∀ x r, info? x = some r →
      (∀ t ∈ r.members.fields, t.isWritten = true) ∧ ∀ s ∈ r.members.methods, s.isWritten = true) :
    (∀ t ∈ p.members.fields, t.isWritten = true) ∧ ∀ s ∈ p.members.methods, s.isWritten = true := by
  have hinherited : (∀ t ∈ (inheritedMembers (c.parent? info?)).fields, t.isWritten = true) ∧
      ∀ s ∈ (inheritedMembers (c.parent? info?)).methods, s.isWritten = true := by
    cases hp : c.parent? info? with
    | none => exact ⟨List.forall_mem_nil _, List.forall_mem_nil _⟩
    | some r =>
      obtain ⟨s, -, hs⟩ := Option.bind_eq_some_iff.1 hp
      exact hwritten s.text r hs
  constructor
  · intro t hmem
    rcases he.fields.mem he.named.nodup_fields hmem with hold | hown
    · exact hinherited.1 t hold
    · obtain ⟨⟨x, t'⟩, hxt, rfl⟩ := List.mem_map.1 hown
      obtain ⟨f, hf, hmember⟩ := List.mem_filterMap.1 hxt
      exact Class.isWritten_field ht hf hmember
  · intro s hmem
    rcases he.methods.mem he.named.nodup_methods hmem with hold | hown
    · exact hinherited.2 s hold
    · obtain ⟨⟨x, s'⟩, hxs, rfl⟩ := List.mem_map.1 hown
      obtain ⟨d, hd, hmember⟩ := List.mem_filterMap.1 hxs
      obtain ⟨n, hdeclared, -⟩ := Method.declared?_of_member? hmember
      exact Function.isWritten_of_declared? (Class.written_method ht hd) hdeclared

/-- The class that `c` becomes. -/
theorem Class.Enters.settled {p : PlacedMembers} {fs ms : List String}
    (he : c.Enters info? env name p fs ms) (h : Lineage info? done)
    (hreg : Registry info? env (Class.names done).length) (hb : Bare c.notes) (ht : Written c.types)
    {tree : Class} (htree : tree = { c with
      fields := p.fields
      methods := p.methods.map (·.annotate ((env.declareClass name p.members).enterClass p.members))
      entry := some (env.classEntry p.members)
      superEntry := (c.parent? info?).map ClassInfo.entry })
    (hr : r = ⟨Layout.firstLocalOffset - (Class.names done).length, p.members, fs, ms, 0⟩) :
    tree.Settled (Function.update info? name (some r)) done r := by
  have hparent : tree.parent? (Function.update info? name (some r)) = c.parent? info? := by
    rw [htree]
    exact Class.parent?_update he.free he.parent r
  have hregistry : Registry (Function.update info? name (some r)) (env.declareClass name p.members)
      ((Class.names done).length + 1) := hr ▸ hreg.declare he.free he.named 0
  have hfields : tree.fields = p.fields := by rw [htree]
  have hmethods : tree.methods =
      p.methods.map (·.annotate ((env.declareClass name p.members).enterClass p.members)) := by
    rw [htree]
  have hentry : env.classEntry p.members = r.entry := by
    rw [hr, Env.classEntry, hreg.level, hreg.next]
    rfl
  obtain ⟨-, -, hbare⟩ := Class.bare_iff.1 hb
  -- placing gives a method its offset and leaves its body as it was
  have hfunction : ∀ d ∈ p.methods, ∃ d' ∈ c.methods, d.function = d'.function := by
    intro d hd
    obtain ⟨j, hj⟩ := List.mem_iff_getElem?.1 hd
    obtain ⟨d', hj', hplaced⟩ := getElem?_of_forall₂ he.placedMethods.flip hj
    exact ⟨d', List.mem_of_getElem? hj', hplaced.eq⟩
  constructor
  case entry => rw [htree, ← hentry]
  case slot => rw [hr]
  case named => exact hr ▸ he.named
  case parent => rw [hparent, htree, he.parent]
  case earlier =>
    -- a superclass that names none of the classes so far would have been reported
    intro s hs
    have hsome := he.parent
    rw [Class.parent?, show c.superclass = some s by rw [← hs, htree], Option.isSome_some,
      Option.bind_some] at hsome
    exact (h.known s.text).1 hsome.symm
  case superEntry => rw [hparent, htree]
  case fields =>
    rw [hparent, hfields, he.own_fields, hr]
    exact he.fields
  case methods =>
    rw [hparent, hmethods, Method.filterMap_annotate, he.own_methods, hr]
    exact he.methods
  case fieldsAt => exact hfields ▸ hr ▸ he.fieldsAt
  case methodsAt => exact hmethods ▸ hr ▸ Method.at_annotate he.methodsAt _
  case bodies =>
    refine ⟨env.declareClass name p.members, p.methods, hregistry.outside, fun d hd => ?_,
      fun d hd => ?_, ?_⟩
    · obtain ⟨d', hd', heq⟩ := hfunction d hd
      exact heq ▸ (hbare d' hd').2
    · obtain ⟨d', hd', heq⟩ := hfunction d hd
      exact heq ▸ Class.written_method ht hd'
    · rw [hmethods, hr]

/-- The classes of a longer list, with what comes before them. -/
theorem settled_append {tree : Class}
    (hold : ∀ (i : Nat) (c : Class) (name : Name), done[i]? = some c → c.name = some name →
      ∃ r, info? name.text = some r ∧ c.Settled info? (done.take i) r)
    (hnew : ∀ name, tree.name = some name → ∃ r, info? name.text = some r ∧ tree.Settled info? done r)
      (i : Nat) (c : Class)
    (name : Name) (hi : (done ++ [tree])[i]? = some c) (hname : c.name = some name) :
    ∃ r, info? name.text = some r ∧ c.Settled info? ((done ++ [tree]).take i) r := by
  rcases Nat.lt_or_ge i done.length with hlt | hge
  · rw [List.getElem?_append_left hlt] at hi
    rw [List.take_append_of_le_length (Nat.le_of_lt hlt)]
    exact hold i c name hi hname
  · rw [List.getElem?_append_right hge, List.getElem?_singleton] at hi
    split at hi
    · obtain rfl := Option.some.inj hi
      obtain rfl : i = done.length := by omega
      rw [List.take_left]
      exact hnew name hname
    · cases hi

theorem Class.names_skip (hname : c.name = none) : Class.names (done ++ [c]) = Class.names done := by
  rw [Class.names_append, Class.names_cons, hname]
  exact List.append_nil _

/-- A class without a name changes nothing. -/
theorem Lineage.skip (h : Lineage info? done) (hname : c.name = none) : Lineage info? (done ++ [c]) := by
  have hnames : Class.names (done ++ [c]) = Class.names done := Class.names_skip hname
  refine ⟨hnames ▸ h.nodup, hnames ▸ h.known, settled_append h.settled fun name hsome => ?_, h.written⟩
  cases hname.symm.trans hsome

theorem Lineage.step (h : Lineage info? done) (hreg : Registry info? env (Class.names done).length)
    (hb : Bare c.notes) (ht : Written c.types) {name : Name} (hname : c.name = some name)
    {res : ResolvedClass} (hres : c.resolve env = .ok res) (hr : res.reports = []) :
    ∃ later?, Lineage later? (done ++ [res.tree]) ∧
      Registry later? res.env (Class.names (done ++ [res.tree])).length := by
  obtain ⟨p, fs, ms, he, henv, htree⟩ := Class.resolve_eq_ok hreg hb ht hname hres hr
  rw [henv] at htree ⊢
  obtain ⟨r, hnew⟩ : ∃ r : ClassInfo, r =
    ⟨Layout.firstLocalOffset - (Class.names done).length, p.members, fs, ms, 0⟩ :=
    ⟨_, rfl⟩
  have hsettled := he.settled h hreg hb ht htree hnew
  have htreeName : res.tree.name = some name := by rw [htree, hname]
  have hnames : Class.names (done ++ [res.tree]) = Class.names done ++ [name.text] := by
    rw [Class.names_append, Class.names_cons, htreeName]
    rfl
  have hfresh : name.text ∉ Class.names done := by
    rw [← h.known, he.free]
    exact Bool.false_ne_true
  refine ⟨Function.update info? name.text (some r), ⟨?_, fun x => ?_, ?_, fun x r' hr' => ?_⟩, ?_⟩
  · rw [hnames]
    refine List.nodup_append.2 ⟨h.nodup, List.nodup_singleton _, fun x hx y hy => ?_⟩
    rintro rfl
    exact hfresh (List.mem_singleton.1 hy ▸ hx)
  · rw [hnames, List.mem_append, List.mem_singleton, Function.update_apply, ← h.known]
    by_cases hx : x = name.text
    · simp [hx]
    · simp [hx]
  · refine settled_append (fun i c' name' hi hname' => ?_) fun name' hname' => ?_
    · obtain ⟨r', hr', hsettled'⟩ := h.settled i c' name' hi hname'
      have hne : name'.text ≠ name.text := fun heq => by cases he.free.symm.trans (heq ▸ hr')
      exact ⟨r', (Function.update_of_ne hne _ _).trans hr', hsettled'.update he.free r⟩
    · obtain rfl := Option.some.inj (htreeName.symm.trans hname')
      exact ⟨r, Function.update_self _ _ _, hsettled⟩
  · rw [Function.update_apply] at hr'
    split at hr'
    · obtain rfl := Option.some.inj hr'
      rw [hnew]
      exact he.written ht h.written
    · exact h.written x r' hr'
  · rw [hnames, List.length_append, List.length_singleton, hnew]
    exact hreg.declare he.free he.named 0

theorem lineage_initial : Lineage (fun _ => none) [] where
  nodup := List.nodup_nil
  known x := by simp [Class.names]
  settled i c name hi := by simp at hi
  written x r h := by cases h

theorem Lineage.run {cs : List Class} (h : Lineage info? done)
    (hreg : Registry info? env (Class.names done).length) (hb : Bare (cs.flatMap Class.notes))
    (ht : Written (cs.flatMap Class.types)) {res : ResolvedClasses}
    (hres : Class.resolveAll env cs = .ok res) (hr : res.reports = []) :
    ∃ last?, Lineage last? (done ++ res.trees) ∧
      Registry last? res.env (Class.names (done ++ res.trees)).length := by
  induction cs generalizing info? done env res with
  | nil =>
    obtain rfl := Except.ok.inj hres
    rw [List.append_nil]
    exact ⟨info?, h, hreg⟩
  | cons c cs ih =>
    simp only [Class.resolveAll, bind_eq_ok, pure_eq_ok] at hres
    obtain ⟨first, hfirst, rest, hrest, rfl⟩ := hres
    obtain ⟨hr₁, hr₂⟩ := List.append_eq_nil_iff.1 hr
    rw [List.flatMap_cons, bare_append] at hb
    rw [List.flatMap_cons, written_append] at ht
    rw [List.append_cons]
    cases hname : c.name with
    | none =>
      simp only [Class.resolve, hname, Except.ok.injEq] at hfirst
      subst hfirst
      exact ih (h.skip hname) ((Class.names_skip hname).symm ▸ hreg) hb.2 ht.2 hrest hr₂
    | some name =>
      obtain ⟨later?, hlater, hreg'⟩ := h.step hreg hb.1 ht.1 hname hfirst hr₁
      exact ih hlater hreg' hb.2 ht.2 hrest hr₂

end Step

end Classlet

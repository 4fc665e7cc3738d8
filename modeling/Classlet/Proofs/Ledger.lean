import Classlet.Proofs.Dispatch
/-!
# Classes that were compiled

`Linkage.Ledger` says of the classes that were compiled so far what `Linkage.Sound` says of all of them;
each class without problems keeps it (`Ledger.step`), so it holds after all of them (`Ledger.run`).
-/

namespace Classlet

open Machine

/-! ## The members of a class in the evaluator -/

theorem Class.ownFields_eq (c : Class) : c.ownFields = (c.fields.filterMap Field.member?).map Prod.fst := by
  rw [Class.ownFields, List.map_filterMap]
  congr 1
  funext f
  simp only [Field.member?, Option.map_map]
  rfl

theorem Method.declares_iff {d : Method} {m : String} :
    d.function.declared?.any (·.1.text = m) = true ↔ ∃ signature, d.member? = some (m, signature) := by
  rw [Method.member?]
  cases d.function.declared? with
  | none => simp
  | some q =>
    obtain ⟨n, signature⟩ := q
    simp

/-- A method that the class declares. -/
theorem Class.ownMethod?_eq_some {c : Class} {m : String}
    (h : m ∈ (c.methods.filterMap Method.member?).map Prod.fst) :
    ∃ d ∈ c.methods, ∃ signature, d.member? = some (m, signature) ∧ c.ownMethod? m = some d.function := by
  obtain ⟨⟨m', signature⟩, hmem, rfl⟩ := List.mem_map.1 h
  obtain ⟨d, hd, hmember⟩ := List.mem_filterMap.1 hmem
  have hfind : (c.methods.find? (·.function.declared?.any (·.1.text = m'))).isSome :=
    List.find?_isSome.2 ⟨d, hd, Method.declares_iff.2 ⟨signature, hmember⟩⟩
  obtain ⟨d₀, hd₀⟩ := Option.isSome_iff_exists.1 hfind
  have hdeclares := List.find?_some hd₀
  obtain ⟨signature₀, hmember₀⟩ := Method.declares_iff.1 hdeclares
  exact ⟨d₀, List.mem_of_find?_eq_some hd₀, signature₀, hmember₀, by rw [Class.ownMethod?, hd₀]; rfl⟩

theorem Class.ownMethod?_eq_none {c : Class} {m : String}
    (h : m ∉ (c.methods.filterMap Method.member?).map Prod.fst) :
    c.ownMethod? m = none := by
  rw [Class.ownMethod?, Option.map_eq_none_iff, List.find?_eq_none]
  intro d hd hany
  obtain ⟨signature, hmember⟩ := Method.declares_iff.1 hany
  exact h (List.mem_map.2 ⟨_, List.mem_filterMap.2 ⟨d, hd, hmember⟩, rfl⟩)

/-! ## All classes so far -/

theorem Class.isNamed_iff {c : Class} {name x : String} (h : c.name.map Name.text = some name) :
    c.isNamed x = true ↔ name = x := by
  obtain ⟨n, hn, rfl⟩ := Option.map_eq_some_iff.1 h
  simp [Class.isNamed, hn]

theorem Classes.Extends.of_suffix {cs cs' : List Class} {a b : String} (h : Classes.Extends cs a b)
    (hs : cs <:+ cs') :
    Classes.Extends cs' a b := by
  obtain ⟨c, hc, hab⟩ := h
  exact ⟨c, hs.subset hc, hab⟩

theorem Classes.Subclass.of_suffix {cs cs' : List Class} {a b : String} (h : Classes.Subclass cs a b)
    (hs : cs <:+ cs') :
    Classes.Subclass cs' a b :=
  Relation.ReflTransGen.mono (r := Classes.Extends cs) (fun _ _ hab => hab.of_suffix hs) a b h

theorem Hierarchy.Within.of_suffix {h : Hierarchy} {cs cs' : List Class} (hh : h.Within cs)
    (hs : cs <:+ cs') :
    h.Within cs' :=
  fun a b hab => (hh a b hab).of_suffix hs

theorem Class.extendHierarchy_within {h : Hierarchy} {cs : List Class} {c tree : Class} (hh : h.Within cs)
    (hname : tree.name = c.name) (hsuper : tree.superclass = c.superclass) :
    (tree.extendHierarchy h).Within (c :: cs) := by
  have hold := hh.of_suffix (List.suffix_cons c cs)
  unfold Class.extendHierarchy
  rw [hname, hsuper]
  split
  · next n s _ hn hs _ =>
    intro a b hab
    rw [Hierarchy.superclass?, Hierarchy.extend, Table.get?_set] at hab
    split at hab
    · next ha =>
      obtain rfl := Option.some.inj hab
      exact ⟨c, List.mem_cons_self, by simp [Class.isNamed, hn, ha], by simp [hs]⟩
    · exact hold a b hab
  · exact hold

/-- The names of classes, which are listed latest first, in the order of declaration. -/
def Classes.names (cs : List Class) : List String := cs.reverse.filterMap (·.name.map Name.text)

theorem Classes.names_cons (c : Class) (cs : List Class) :
    names (c :: cs) = names cs ++ (c.name.map Name.text).toList := by
  rw [names, List.reverse_cons, List.filterMap_append, ← names, List.filterMap_cons]
  cases c.name.map Name.text <;> rfl

/-- The number of methods of a class that was resolved. -/
def Class.methodCount? (c : Class) : Option Nat :=
  c.name.bind fun _ => (c.entry.bind (·.type.members?)).map (·.2.length)

namespace Linkage

/-- The same program with another description of its classes. -/
def withInfo (L : Linkage) (info? : String → Option ClassInfo) : Linkage := { L with info? := info? }

/-- The classes `cs`, latest first, were compiled, which gave the scopes and virtual tables of `env`, the
hierarchy `h` and the dispatch tables `tables`. -/
structure Ledger (L : Linkage) (cs : List Class) (env : Env) (h : Hierarchy)
    (tables : List DispatchTable) : Prop where
  registry : Registry L.info? env tables.length
  within : h.Within cs
  declared (cls : String) (r : ClassInfo) : L.info? cls = some r →
    Classes.declare cs cls = true ∧ Classes.fieldNames cs cls = r.fieldNames
  start (cls : String) (r : ClassInfo) (k : Nat) : L.info? cls = some r →
    r.offset = Layout.firstLocalOffset - k → r.start = ((tables.take k).map List.length).sum
  length (cls : String) (r : ClassInfo) (k : Nat) (t : DispatchTable) : L.info? cls = some r →
    r.offset = Layout.firstLocalOffset - k → tables[k]? = some t → t.length = r.methodNames.length
  tabled (k : Nat) : k < tables.length → ∃ cls r, L.info? cls = some r ∧
    r.offset = Layout.firstLocalOffset - k
  count : (Classes.names cs).length = tables.length
  place (cls : String) (r : ClassInfo) (k : Nat) : L.info? cls = some r →
    r.offset = Layout.firstLocalOffset - k → (Classes.names cs)[k]? = some cls
  extend (a b : String) : Classes.Extends cs a b →
    ∃ r r', L.info? a = some r ∧ L.info? b = some r' ∧ r.Refines L.classes r'
  method (cls : String) (r : ClassInfo) (k i : Nat) (m : String) (signature : Signature) :
    L.info? cls = some r →
    r.offset = Layout.firstLocalOffset - k → r.methodNames[i]? = some m →
    r.members.methods[i]? = some signature →
    ∃ d f entry table l, Classes.method? cs cls m = some (d, f) ∧ Classes.Subclass cs cls d ∧
      L.CompiledMethod d f signature entry ∧ tables[k]? = some table ∧ table[i]? = some l ∧
      addressOf? l L.code = some entry

section Growth
variable {L : Linkage} {info? : String → Option ClassInfo}

theorem CompiledMethod.withInfo {cls : String} {f : Function} {signature : Signature} {entry : Nat}
    (h : L.CompiledMethod cls f signature entry) (hi : ∀ x r, L.info? x = some r → info? x = some r) :
    (L.withInfo info?).CompiledMethod cls f signature entry := by
  obtain ⟨r, stage, g, hr, hcov, hg, hf⟩ := h
  refine ⟨r, stage, g, hi cls r hr, ⟨fun x t ht => ?_, hcov.within⟩, fun x e he => ?_,
    hf.declared, hf.bare, hf.names, hf.types, hf.code⟩
  · obtain ⟨r', hr', ht'⟩ := hcov.tables x t ht
    exact ⟨r', hi x r' hr', ht'⟩
  · obtain ⟨r', hr', he'⟩ := hg x e he
    exact ⟨r', hi x r' hr', he'⟩

end Growth

section Step
variable {L : Linkage} {cs : List Class} {env : Env} {n : Nat} {h₀ h : Hierarchy}
  {tables : List DispatchTable} {c : Class}
  {name : String} {p : PlacedMembers} {fs ms : List String} {inherited table : DispatchTable}

/-- What is known of a class that is added to the ledger. -/
def newInfo (tables : List DispatchTable) (p : PlacedMembers) (fs ms : List String) : ClassInfo :=
  ⟨Layout.firstLocalOffset - tables.length, p.members, fs, ms, (tables.map List.length).sum⟩

/-- The linkage with the new class. -/
def added (L : Linkage) (tables : List DispatchTable) (name : String) (p : PlacedMembers)
    (fs ms : List String) : Linkage :=
  L.withInfo (Function.update L.info? name (some (newInfo tables p fs ms)))

theorem info?_added_self : (L.added tables name p fs ms).info? name = some (newInfo tables p fs ms) :=
  Function.update_self ..

theorem info?_added_of_ne {x : String} (hx : x ≠ name) :
    (L.added tables name p fs ms).info? x = L.info? x :=
  Function.update_of_ne hx ..

/-- Names that were taken are other names. -/
theorem Ledger.info?_added (hc : c.Compiles L env h tables name p fs ms inherited table) {x : String}
    {r : ClassInfo} (hx : L.info? x = some r) : (L.added tables name p fs ms).info? x = some r := by
  rw [info?_added_of_ne, hx]
  rintro rfl
  rw [hc.enters.free] at hx
  cases hx

theorem info?_added_cases {x : String} {r : ClassInfo}
    (hx : (L.added tables name p fs ms).info? x = some r) :
    (x = name ∧ r = newInfo tables p fs ms) ∨ (x ≠ name ∧ L.info? x = some r) := by
  by_cases hxn : x = name
  · subst hxn
    rw [info?_added_self] at hx
    exact .inl ⟨rfl, (Option.some.inj hx).symm⟩
  · rw [info?_added_of_ne hxn] at hx
    exact .inr ⟨hxn, hx⟩

theorem Ledger.fieldNames_cons (hl : L.Ledger cs env h₀ tables)
    (hc : c.Compiles L env h tables name p fs ms inherited table) :
    Classes.fieldNames (c :: cs) name = fs := by
  have hparent := hc.enters.parent
  rw [hc.enters.fields.names_eq, foldl_adjoin hc.enters.fields.nodup, ← Class.ownFields_eq,
    Classes.fieldNames, if_pos ((Class.isNamed_iff hc.called).2 rfl)]
  unfold Class.parent? at hparent ⊢
  cases hs : c.superclass with
  | none => rfl
  | some s =>
    rw [hs] at hparent
    obtain ⟨r, hr⟩ := Option.isSome_iff_exists.1 hparent.symm
    have hr' : L.info? s.text = some r := hr
    simp only [Option.bind_some, hr', (hl.declared s.text r hr').2]
    rfl

/-- The table that the class starts from has a label for each inherited method. -/
theorem Ledger.inherited_length (hl : L.Ledger cs env h₀ tables)
    (hc : c.Compiles L env h tables name p fs ms inherited table) :
    inherited.length = (inheritedMethods (c.parent? L.info?)).length := by
  have htable := hc.parentTable
  cases hp : c.parent? L.info? with
  | none =>
    rw [hp] at htable
    obtain rfl := Option.some.inj htable
    rfl
  | some r =>
    obtain ⟨s, -, hs⟩ := Option.bind_eq_some_iff.1 hp
    obtain ⟨k, -, hk⟩ := hl.registry.slot s.text r hs
    have hindex : (Layout.firstLocalOffset - r.offset).toNat = k := by omega
    rw [hp, inheritedTable?, hindex] at htable
    exact hl.length s.text r k inherited hs hk htable

/-- The method of a class that is declared further up. -/
theorem Ledger.inherited_method (hl : L.Ledger cs env h₀ tables)
    (hc : c.Compiles L env h tables name p fs ms inherited table) {i : Nat} {m : String}
    {signature : Signature} (hi : ms[i]? = some m) (hs : p.members.methods[i]? = some signature)
    (hm : m ∉ (c.methods.filterMap Method.member?).map Prod.fst) :
    ∃ d f entry l, Classes.method? (c :: cs) name m = some (d, f) ∧ Classes.Subclass (c :: cs) name d ∧
      L.CompiledMethod d f signature entry ∧ table[i]? = some l ∧ addressOf? l L.code = some entry := by
  have hkeep := hc.enters.methods.keeps i fun x hx => Option.some.inj (hi.symm.trans hx) ▸ hm
  -- the position is one of the superclass
  have hlt : i < (inheritedMembers (c.parent? L.info?)).methods.length := by
    rw [hs] at hkeep
    exact (List.getElem?_eq_some_iff.1 hkeep.symm).1
  obtain ⟨parent, hparent⟩ : ∃ r, c.parent? L.info? = some r := by
    cases hp : c.parent? L.info? with
    | none =>
      rw [hp] at hlt
      exact absurd hlt (Nat.not_lt_zero _)
    | some r => exact ⟨r, rfl⟩
  obtain ⟨s, hsuper, hinfo⟩ := Option.bind_eq_some_iff.1 hparent
  rw [hs, hparent] at hkeep
  rw [hparent] at hlt
  have hnamed := hl.registry.named s.text parent hinfo
  have hname : parent.methodNames[i]? = some m := by
    have hlt' : i < parent.methodNames.length := hnamed.methodSlots.length ▸ hlt
    have hprefix := hc.enters.methods.prefix_names
    rw [hparent] at hprefix
    have hget := prefix_getElem? hprefix (List.getElem?_eq_getElem hlt')
    rw [hi] at hget
    rw [Option.some.inj hget]
    exact List.getElem?_eq_getElem hlt'
  obtain ⟨k, -, hk⟩ := hl.registry.slot s.text parent hinfo
  obtain ⟨d, f, entry, table', l, hmethod, hsub, hcompiled, htable, hlabel, haddress⟩ :=
    hl.method s.text parent k i m signature hinfo hk hname hkeep.symm
  have hinherited := hc.parentTable
  have hindex : (Layout.firstLocalOffset - parent.offset).toNat = k := by omega
  rw [hparent, inheritedTable?, hindex, htable] at hinherited
  obtain rfl := Option.some.inj hinherited
  refine ⟨d, f, entry, l, ?_, ?_, hcompiled, ?_, haddress⟩
  · rw [Classes.method?, if_pos ((Class.isNamed_iff hc.called).2 rfl), Class.ownMethod?_eq_none hm, hsuper]
    exact hmethod
  · have hextends : Classes.Extends (c :: cs) name s.text :=
      ⟨c, List.mem_cons_self, (Class.isNamed_iff hc.called).2 rfl, by simp [hsuper]⟩
    exact .head hextends (hsub.of_suffix (List.suffix_cons c cs))
  · exact hc.keeps i l (fun x hx => Option.some.inj (hi.symm.trans hx) ▸ hm) hlabel

/-- A method that the class declares itself. -/
theorem Ledger.own_method
    (hreg : Registry (L.added tables name p fs ms).info? (env.declareClass name p.members) n)
    (hn : L.code.labels.Nodup) (hh : h.Within L.classes)
    (hc : c.Compiles L env h tables name p fs ms inherited table) {i : Nat} {m : String}
    {signature : Signature} (hi : ms[i]? = some m) (hs : p.members.methods[i]? = some signature)
    (hm : m ∈ (c.methods.filterMap Method.member?).map Prod.fst) :
    ∃ f entry l, Classes.method? (c :: cs) name m = some (name, f) ∧
      (L.added tables name p fs ms).CompiledMethod name f signature entry ∧ table[i]? = some l ∧
      addressOf? l L.code = some entry := by
  obtain ⟨d, hd, signature', hmember, hown⟩ := Class.ownMethod?_eq_some hm
  obtain ⟨j, hj⟩ := List.mem_iff_getElem?.1 hd
  obtain ⟨d', hd', hplaced⟩ := getElem?_of_forall₂ hc.enters.placedMethods hj
  have hd'mem := List.mem_of_getElem? hd'
  obtain ⟨i', s₁, s₂, blocks, hi', hlabel, hcode, hblocks⟩ := hc.code d m signature' hd hmember
  obtain rfl := getElem?_unique hc.enters.named.nodup_methods hi' hi
  have hs' := hc.enters.methods.getElem?_of_mem hc.enters.named.nodup_methods
    (List.mem_filterMap.2 ⟨d, hd, hmember⟩) hi
  obtain rfl := Option.some.inj (hs.symm.trans hs')
  obtain ⟨n, hdeclared, rfl⟩ := Method.declared?_of_member? hmember
  have hoffset : d'.offset.isSome = true := by
    obtain ⟨k, hk, -⟩ := hplaced.placed.offset (hplaced.member?.trans hmember)
    rw [hk]
    rfl
  obtain ⟨decls, body, branch, -, -, hlast⟩ := Function.code_eq_ok hcode
  obtain ⟨entry, hentry⟩ := hblocks _
    (by rw [hlast]; exact List.mem_append_right _ (List.mem_singleton_self _))
  have haddress := Function.at_block hn hentry
  have hnames := hc.enters.names d' hd'mem
  rw [Method.nameProblems, if_pos hoffset, List.append_eq_nil_iff, hplaced.eq] at hnames
  have htypes := hc.types d' hd'mem
  rw [Method.annotate, if_pos hoffset, Method.typeReports, if_pos hoffset, hplaced.eq] at htypes
  have hscopes : ((env.declareClass name p.members).enterClass p.members).scopes =
      ⟨[.opened .cls p.members.table], (env.declareClass name p.members).scopes.global⟩ := by
    rw [Env.enterClass, Scopes.push, hreg.nested]
  have hbare : Bare d.function.notes := ((Class.bare_iff.1 hc.bare).2.2 d hd).2
  refine ⟨d.function, entry, _, ?_, ⟨newInfo tables p fs ms, ⟨(env.declareClass name p.members).classes, h⟩,
    (env.declareClass name p.members).scopes.global, info?_added_self, ⟨fun x t ht => ?_, hh⟩,
    fun x e he => ?_, ?_⟩, hlabel, haddress⟩
  · rw [Classes.method?, if_pos ((Class.isNamed_iff hc.called).2 rfl), hown]
  · obtain ⟨r, hr, rfl⟩ := (hreg.tables x t).1 ht
    exact ⟨r, hr, rfl⟩
  · exact (hreg.bound x e).1 he
  · rw [hscopes] at hnames htypes hcode
    exact ⟨by rw [hdeclared]; rfl, hbare, hnames.2, ⟨_, _, _, htypes⟩, s₁, s₂, blocks, hcode,
      hblocks, haddress⟩

/-- The new class refines the superclass that it names. -/
theorem Ledger.refines_parent (hl : L.Ledger cs env h₀ tables)
    (hc : c.Compiles L env h tables name p fs ms inherited table) (hh : h.Within L.classes) {b : String}
    (hb : c.superclass.any (·.text = b) = true) :
    ∃ parent, L.info? b = some parent ∧ (newInfo tables p fs ms).Refines L.classes parent := by
  have hparent := hc.enters.parent
  obtain ⟨s, hs, hsb⟩ := (Option.any_eq_true _ _).1 hb
  obtain rfl := of_decide_eq_true hsb
  rw [hs] at hparent
  obtain ⟨parent, hp⟩ := Option.isSome_iff_exists.1 hparent.symm
  have hinfo : L.info? s.text = some parent := by simpa [Class.parent?, hs] using hp
  obtain ⟨hfields, hmethods⟩ := hc.overriding parent hp
  exact ⟨parent, hinfo,
    hc.enters.refines hh hp (hl.registry.named s.text parent hinfo) hfields hmethods _ _⟩

/-- What one class adds. -/
theorem Ledger.step (hl : L.Ledger cs env h₀ tables) (hn : L.code.labels.Nodup)
    (hsuffix : c :: cs <:+ L.classes) (hc : c.Compiles L env h tables name p fs ms inherited table)
    (hh : h.Within (c :: cs)) :
    (L.added tables name p fs ms).Ledger (c :: cs) (env.declareClass name p.members) h
      (tables ++ [table]) := by
  have hreg : Registry (L.added tables name p fs ms).info? (env.declareClass name p.members)
      (tables.length + 1) :=
    hl.registry.declare hc.enters.free hc.enters.named _
  have hnamed := Class.isNamed_iff (x := name) hc.called
  have hnot {x : String} (hx : x ≠ name) : ¬ c.isNamed x = true :=
    fun hx' => hx ((Class.isNamed_iff hc.called).1 hx').symm
  have hnames : Classes.names (c :: cs) = Classes.names cs ++ [name] := by
    rw [Classes.names_cons, hc.called]; rfl
  have hgrow := fun x r (hx : L.info? x = some r) => info?_added hc hx
  constructor
  case registry =>
    rw [List.length_append, List.length_singleton]
    exact hreg
  case within => exact hh
  case declared =>
    intro cls r hr
    rcases info?_added_cases hr with ⟨rfl, rfl⟩ | ⟨hne, hr⟩
    · exact ⟨by simp [Classes.declare, hnamed.2 rfl], hl.fieldNames_cons hc⟩
    · obtain ⟨hdeclare, hfields⟩ := hl.declared cls r hr
      refine ⟨by rw [Classes.declare, List.any_cons]; exact Bool.or_eq_true_iff.2 (.inr hdeclare), ?_⟩
      rw [Classes.fieldNames, if_neg (hnot hne), hfields]
  case start =>
    intro cls r k hr hk
    rcases info?_added_cases hr with ⟨rfl, rfl⟩ | ⟨hne, hr⟩
    · obtain rfl : tables.length = k := by
        simp only [newInfo] at hk
        omega
      rw [List.take_left]
      rfl
    · obtain ⟨k', hlt, hk'⟩ := hl.registry.slot cls r hr
      obtain rfl : k' = k := by omega
      rw [List.take_append_of_le_length (Nat.le_of_lt hlt)]
      exact hl.start cls r k' hr hk
  case length =>
    intro cls r k t hr hk ht
    rcases info?_added_cases hr with ⟨rfl, rfl⟩ | ⟨hne, hr⟩
    · obtain rfl : tables.length = k := by
        simp only [newInfo] at hk
        omega
      rw [List.getElem?_concat_length] at ht
      obtain rfl := Option.some.inj ht
      exact hc.length (hl.inherited_length hc)
    · obtain ⟨k', hlt, hk'⟩ := hl.registry.slot cls r hr
      obtain rfl : k' = k := by omega
      rw [List.getElem?_append_left hlt] at ht
      exact hl.length cls r k' t hr hk ht
  case tabled =>
    intro k hk
    rw [List.length_append, List.length_singleton] at hk
    rcases Nat.lt_succ_iff_lt_or_eq.1 hk with hlt | rfl
    · obtain ⟨cls, r, hr, ho⟩ := hl.tabled k hlt
      exact ⟨cls, r, hgrow _ _ hr, ho⟩
    · exact ⟨name, _, info?_added_self, rfl⟩
  case count =>
    rw [hnames, List.length_append, List.length_append, hl.count, List.length_singleton,
      List.length_singleton]
  case place =>
    intro cls r k hr hk
    rw [hnames]
    rcases info?_added_cases hr with ⟨rfl, rfl⟩ | ⟨hne, hr⟩
    · obtain rfl : tables.length = k := by
        simp only [newInfo] at hk
        omega
      rw [← hl.count, List.getElem?_concat_length]
    · exact prefix_getElem? (List.prefix_append _ _) (hl.place cls r k hr hk)
  case extend =>
    rintro a b ⟨c', hc', ha, hb⟩
    rcases List.mem_cons.1 hc' with rfl | hc'
    · obtain rfl := (Class.isNamed_iff hc.called).1 ha
      obtain ⟨parent, hparent, href⟩ := hl.refines_parent hc (hh.of_suffix hsuffix) hb
      exact ⟨_, parent, info?_added_self, hgrow _ _ hparent, href⟩
    · obtain ⟨r, r', hr, hr', href⟩ := hl.extend a b ⟨c', hc', ha, hb⟩
      exact ⟨r, r', hgrow _ _ hr, hgrow _ _ hr', href⟩
  case method =>
    intro cls r k i m signature hr hk hi hs
    rcases info?_added_cases hr with ⟨rfl, rfl⟩ | ⟨hne, hr⟩
    · obtain rfl : tables.length = k := by
        simp only [newInfo] at hk
        omega
      by_cases hm : m ∈ (c.methods.filterMap Method.member?).map Prod.fst
      · obtain ⟨f, entry, l, hmethod, hcompiled, hlabel, haddress⟩ :=
          Ledger.own_method hreg hn (hh.of_suffix hsuffix) hc hi hs hm
        exact ⟨cls, f, entry, table, l, hmethod, .refl, hcompiled, List.getElem?_concat_length,
          hlabel, haddress⟩
      · obtain ⟨d, f, entry, l, hmethod, hsub, hcompiled, hlabel, haddress⟩ :=
          hl.inherited_method hc hi hs hm
        exact ⟨d, f, entry, table, l, hmethod, hsub, hcompiled.withInfo hgrow, List.getElem?_concat_length,
          hlabel, haddress⟩
    · obtain ⟨d, f, entry, table', l, hmethod, hsub, hcompiled, htable, hlabel, haddress⟩ :=
        hl.method cls r k i m signature hr hk hi hs
      refine ⟨d, f, entry, table', l, ?_, hsub.of_suffix (List.suffix_cons c cs), hcompiled.withInfo hgrow,
        prefix_getElem? (List.prefix_append _ _) htable, hlabel, haddress⟩
      rw [Classes.method?, if_neg (hnot hne), hmethod]

/-- A class without a name changes nothing. -/
theorem Ledger.skip (hl : L.Ledger cs env h tables) (hname : c.name = none) :
    L.Ledger (c :: cs) env h tables := by
  have hnot (x : String) : ¬ c.isNamed x = true := by simp [Class.isNamed, hname]
  have hsuffix := List.suffix_cons c cs
  have hnames : Classes.names (c :: cs) = Classes.names cs := by
    rw [Classes.names_cons, hname]; exact List.append_nil _
  refine ⟨hl.registry, hl.within.of_suffix hsuffix, fun cls r hr => ?_, hl.start, hl.length, hl.tabled,
    hnames ▸ hl.count, hnames ▸ hl.place, fun a b hab => ?_, fun cls r k i m signature hr hk hi hs => ?_⟩
  · obtain ⟨hdeclare, hfields⟩ := hl.declared cls r hr
    exact ⟨by rw [Classes.declare, List.any_cons]; exact Bool.or_eq_true_iff.2 (.inr hdeclare),
      by rw [Classes.fieldNames, if_neg (hnot cls), hfields]⟩
  · obtain ⟨c', hc', ha, hb⟩ := hab
    rcases List.mem_cons.1 hc' with rfl | hc'
    · exact absurd ha (hnot a)
    · exact hl.extend a b ⟨c', hc', ha, hb⟩
  · obtain ⟨d, f, entry, table, l, hmethod, hsub, hrest⟩ := hl.method cls r k i m signature hr hk hi hs
    exact ⟨d, f, entry, table, l, by rw [Classes.method?, if_neg (hnot cls), hmethod],
      hsub.of_suffix hsuffix, hrest⟩

end Step

theorem ledger_initial (L : Linkage) : (L.withInfo fun _ => none).Ledger [] .initial .empty [] where
  registry := registry_initial
  within a b h := by simp [Hierarchy.superclass?, Hierarchy.empty] at h
  declared cls r h := by cases h
  start cls r k h := by cases h
  length cls r k t h := by cases h
  tabled k h := by cases h
  count := rfl
  place cls r k h := by cases h
  extend a b h := by
    obtain ⟨c, hc, -⟩ := h
    cases hc
  method cls r k i m signature h := by cases h

/-- Classes that were resolved without problems, checked without problems and compiled, one after the
other. -/
theorem Ledger.run {L : Linkage} (hn : L.code.labels.Nodup) {h : Hierarchy} (later : List Class)
    {info? : String → Option ClassInfo} {cs : List Class} {env : Env} {h₀ : Hierarchy}
    {tables tables' : List DispatchTable} {s : Supply} {out : Output} {r : ResolvedClasses}
    (hl : (L.withInfo info?).Ledger cs env h₀ tables) (hall : later.reverse ++ cs = L.classes)
    (hb : Bare (later.flatMap Class.notes)) (ht : Written (later.flatMap Class.types))
    (hres : Class.resolveAll env later = .ok r) (hr : r.reports = [])
    (hcheck : Class.checkAll h₀ r.trees = .ok (h, []))
    (hcode : Class.codeAll L.memory r.trees tables s = .ok (out, tables'))
    (hplaced : ∀ b ∈ out.blocks, ∃ ip, L.code.At ip b) :
    ∃ final? new, tables' = tables ++ new ∧ (L.withInfo final?).Ledger L.classes r.env h tables' ∧
      out.code = new.flatMap DispatchTable.code ∧
      new.map List.length = r.trees.filterMap Class.methodCount? := by
  induction later generalizing info? cs env h₀ tables s out r with
  | nil =>
    obtain rfl := Except.ok.inj hres
    obtain ⟨rfl, -⟩ := Prod.mk.inj (Except.ok.inj hcheck)
    obtain ⟨rfl, rfl⟩ := Prod.mk.inj (Except.ok.inj hcode)
    exact ⟨info?, [], (List.append_nil _).symm, hall ▸ hl, rfl, rfl⟩
  | cons c later ih =>
    simp only [Class.resolveAll, bind_eq_ok, pure_eq_ok] at hres
    obtain ⟨first, hfirst, rest, hrest, rfl⟩ := hres
    obtain ⟨hr₁, hr₂⟩ := List.append_eq_nil_iff.1 hr
    simp only [Class.checkAll, bind_eq_ok, pure_eq_ok, Prod.exists, Prod.mk.injEq,
      List.append_eq_nil_iff] at hcheck
    obtain ⟨_, hcheck₁, h', _, hcheck₂, rfl, rfl, rfl⟩ := hcheck
    simp only [Class.codeAll, bind_eq_ok, pure_eq_ok, Prod.exists, Prod.mk.injEq] at hcode
    obtain ⟨out₁, tables₁, hcode₁, out₂, tables₂, hcode₂, rfl, rfl⟩ := hcode
    rw [List.flatMap_cons, bare_append] at hb
    rw [List.flatMap_cons, written_append] at ht
    rw [List.reverse_cons, List.append_assoc, List.singleton_append] at hall
    have hplaced₁ := fun b hb => hplaced b (List.mem_append_left _ hb)
    have hplaced₂ := fun b hb => hplaced b (List.mem_append_right _ hb)
    cases hname : c.name with
    | none =>
      simp only [Class.resolve, hname, Except.ok.injEq] at hfirst
      subst hfirst
      simp only [Class.code, hname, Except.ok.injEq, Prod.mk.injEq] at hcode₁
      obtain ⟨rfl, rfl⟩ := hcode₁
      have hh : c.extendHierarchy h₀ = h₀ := by simp [Class.extendHierarchy, hname]
      rw [hh] at hcheck₂
      obtain ⟨final?, new, htables, hfinal, hnew, hcounts⟩ :=
        ih (hl.skip hname) hall hb.2 ht.2 hrest hr₂ hcheck₂ hcode₂ hplaced₂
      exact ⟨final?, new, htables, hfinal,
        hnew, by rw [hcounts, List.filterMap_cons_none]; simp [Class.methodCount?, hname]⟩
    | some name =>
      obtain ⟨p, fs, ms, inherited, table, hc, henv, hn', hs', hentry, rfl, hout⟩ :=
        Class.compiles (L := L.withInfo info?)
        hl.registry hb.1 ht.1 hname hfirst hr₁ hcheck₁ hcode₁ hplaced₁
      have hwithin := Class.extendHierarchy_within hl.within hn' hs'
      have hstep := hl.step hn (hall ▸ List.suffix_append _ _) hc hwithin
      rw [← henv] at hstep
      have hlength : table.length = p.members.methods.length := by
        rw [hc.length (hl.inherited_length hc)]
        exact hc.enters.named.methodSlots.length.symm
      obtain ⟨final?, new, htables, hfinal, hnew, hcounts⟩ :=
        ih hstep hall hb.2 ht.2 hrest hr₂ hcheck₂ hcode₂ hplaced₂
      refine ⟨final?, table :: new, ?_, hfinal, ?_, ?_⟩
      · rw [List.append_cons]
        exact htables
      · rw [hout, hnew]
        rfl
      · rw [List.filterMap_cons_some (b := table.length), ← hcounts]
        · rfl
        · simp [Class.methodCount?, hn', hname, hentry, Env.classEntry, Members.type, Ty.members?, hlength]

end Linkage

end Classlet

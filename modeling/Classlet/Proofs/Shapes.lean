import Classlet.Proofs.Registry
/-!
# The members of a class, read off the program

`Class.shape` says which fields and methods a class has, and in which order, without going through its
declarations one by one: the inherited members in their order, each with what the class declares for it, and
then those the class adds. Of the declarations only those count that are `accepted`.

Resolution finds the same members (`Class.place_shape`), whatever is wrong with the program, so after any
number of classes the scopes and virtual tables are those that the shapes describe (`Env.Declares`).
-/

namespace Classlet

/-! ## Shapes -/

/-- Inherited members, with what a class declares for them, and then those that it adds. -/
def override {α : Type} (inherited own : List (String × α)) : List (String × α) :=
  inherited.map (fun p => (p.1, (own.lookup p.1).getD p.2)) ++ own.filter (·.1 ∉ inherited.map Prod.fst)

/-- The fields and methods of a class by name, in layout order. -/
structure Shape where
  fields : List (String × Ty)
  methods : List (String × Signature)

namespace Shape

def empty : Shape := ⟨[], []⟩

def fieldNames (sh : Shape) : List String := sh.fields.map Prod.fst

def methodNames (sh : Shape) : List String := sh.methods.map Prod.fst

/-- The type of the name of a class with this shape. -/
def type (sh : Shape) : Ty := .cls (sh.fields.map Prod.snd) (sh.methods.map Prod.snd)

end Shape

namespace Class

/-- A field counts unless its name is that of an earlier field or of an inherited method. -/
def acceptedFields (inherited : Shape) (c : Class) : List Field :=
  accepted Field.member? inherited.methodNames c.fields

/-- A method counts unless its name is that of a field of the class, of an earlier method or of an inherited
field. -/
def acceptedMethods (inherited : Shape) (c : Class) : List Method :=
  accepted Method.member? ((c.fields.filterMap Field.member?).map Prod.fst ++
    inherited.fieldNames) c.methods

def extend (inherited : Shape) (c : Class) : Shape where
  fields := override inherited.fields ((c.acceptedFields inherited).filterMap Field.member?)
  methods := override inherited.methods ((c.acceptedMethods inherited).filterMap Method.member?)

/-- The shape of the superclass, where `earlier` are the classes declared so far. Of classes with one name
the first counts. -/
def inheritedShape (earlier : List (String × Shape)) (c : Class) : Shape :=
  (c.superclass.bind (earlier.lookup ·.text)).getD .empty

def shape (earlier : List (String × Shape)) (c : Class) : Shape := c.extend (c.inheritedShape earlier)

/-- The classes declared so far, after one more. A class without a name is passed over. -/
def declareShape (earlier : List (String × Shape)) (c : Class) : List (String × Shape) :=
  match c.name with
  | some name => earlier ++ [(name.text, c.shape earlier)]
  | none => earlier

end Class

/-! ## Layouts -/

section Override
variable {α : Type} {names' : List String} {layout layout' : List α} {l own : List (String × α)}
  {x : String} {a : α} {i : Nat}

theorem Placing.names_override (h : Placing (l.map Prod.fst) layout own names' layout') :
    names' = (override l own).map Prod.fst := by
  have hnew : (own.map Prod.fst).filter (· ∉ l.map Prod.fst) =
      (own.filter (·.1 ∉ l.map Prod.fst)).map Prod.fst := by
    rw [List.filter_map]
    rfl
  rw [h.names_eq, foldl_adjoin h.nodup, hnew, override, List.map_append, List.map_map]
  rfl

theorem mem_of_lookup (h : l.lookup x = some a) : (x, a) ∈ l := by
  obtain ⟨l₁, l₂, rfl, -⟩ := List.lookup_eq_some_iff.1 h
  exact List.mem_append_right _ List.mem_cons_self

theorem not_mem_keys_of_lookup (h : l.lookup x = none) : x ∉ l.map Prod.fst := by
  intro hmem
  obtain ⟨p, hp, rfl⟩ := List.mem_map.1 hmem
  simpa using List.lookup_eq_none_iff.1 h p hp

/-- A layout to which the members `own` were added, all different. -/
theorem Placing.layout_override (h : Placing (l.map Prod.fst) (l.map Prod.snd) own names' layout')
    (hn : names'.Nodup) (hlength : layout'.length = names'.length) :
    layout' = (override l own).map Prod.snd := by
  have hnames := h.names_override
  refine List.ext_getElem? fun i => ?_
  cases hi : (override l own)[i]? with
  | none =>
    have hle : (override l own).length ≤ i := List.getElem?_eq_none_iff.1 hi
    rw [List.getElem?_map, hi, List.getElem?_eq_none (by rw [hlength, hnames, List.length_map]; exact hle)]
    rfl
  | some p =>
    obtain ⟨x, a⟩ := p
    have hx : names'[i]? = some x := by rw [hnames, List.getElem?_map, hi]; rfl
    rw [List.getElem?_map, hi]
    rcases Nat.lt_or_ge i l.length with hlt | hge
    · -- an inherited member, which the class may override
      rw [override, List.getElem?_append_left (by rwa [List.length_map]), List.getElem?_map,
        List.getElem?_eq_getElem hlt] at hi
      obtain ⟨rfl, rfl⟩ := Prod.mk.inj (Option.some.inj hi)
      cases hown : own.lookup l[i].1 with
      | some b => rw [h.getElem?_of_mem hn (mem_of_lookup hown) hx]; rfl
      | none =>
        rw [h.keeps i, List.getElem?_map, List.getElem?_eq_getElem hlt]
        · rfl
        · intro y hy
          obtain rfl := Option.some.inj (hx.symm.trans hy)
          exact not_mem_keys_of_lookup hown
    · rw [override, List.getElem?_append_right (by rwa [List.length_map])] at hi
      exact h.getElem?_of_mem hn (List.mem_filter.1 (List.mem_of_getElem? hi)).1 hx

end Override

/-- The members are those of the shape. -/
structure Members.Shaped (m : Members) (sh : Shape) : Prop where
  named : m.Named sh.fieldNames sh.methodNames
  fields : m.fields = sh.fields.map Prod.snd
  methods : m.methods = sh.methods.map Prod.snd

theorem Members.shaped_empty : Members.empty.Shaped .empty := ⟨Members.named_empty, rfl, rfl⟩

/-- The names declared so far do not matter. -/
theorem Members.Shaped.withOwn {m : Members} {sh : Shape} (h : m.Shaped sh) :
    Members.Shaped { m with own := [] } sh :=
  ⟨h.named.withOwn [], h.fields, h.methods⟩

theorem Members.Shaped.type {m : Members} {sh : Shape} (h : m.Shaped sh) : m.type = sh.type := by
  rw [Members.type, h.fields, h.methods]
  rfl

/-- The members of a class after they were placed are those it declares, and the methods that count are
those with an offset. -/
structure Class.PlacedAs (inherited : Shape) (c : Class) (p : PlacedMembers) : Prop where
  members : p.members.Shaped (c.extend inherited)
  fields : p.fields.map Field.member? = c.fields.map Field.member?
  methods : p.methods.map Method.function = c.methods.map Method.function
  accepted : p.methods.filter (·.offset.isSome) =
    Classlet.accepted Method.member?
      ((c.fields.filterMap Field.member?).map Prod.fst ++ inherited.fieldNames) p.methods

theorem Class.place_extend {env : Env} {c : Class} {inherited : Shape} (hlevel : env.scopes.level = 0)
    (hown : (c.inherited env).2.own = []) (hshape : (c.inherited env).2.Shaped inherited)
    (hb : Bare c.notes) (ht : Written c.types) {p : PlacedMembers} (hp : c.place env = .ok p) :
    c.PlacedAs inherited p := by
  obtain ⟨-, -, hmethodsBare⟩ := Class.bare_iff.1 hb
  obtain ⟨fs, ms, taken, hnamed, hpass, hpass', htaken⟩ :=
    Class.place_passes hlevel hshape.named hb ht hp id
  rw [hown, List.nil_append] at hpass htaken
  rw [hshape.fields] at hpass
  rw [hshape.methods] at hpass'
  have hmethods : Classlet.accepted Method.member? taken c.methods = c.acceptedMethods inherited :=
    accepted_congr htaken
  have hplacing := hpass.placing
  have hplacing' := hmethods ▸ hpass'.placing
  have hfs : fs = (c.extend inherited).fieldNames := hplacing.names_override
  have hms : ms = (c.extend inherited).methodNames := hplacing'.names_override
  refine ⟨⟨hfs ▸ hms ▸ hnamed, hplacing.layout_override hnamed.nodup_fields hnamed.fieldSlots.length,
    hplacing'.layout_override hnamed.nodup_methods hnamed.methodSlots.length⟩, hpass.map_eq fun _ _ => rfl,
    hpass'.map_eq fun _ _ => rfl, ?_⟩
  rw [hpass'.filter_eq (fun d hd => by rw [(hmethodsBare d hd).1]; rfl) (fun _ _ => rfl) fun _ _ => rfl]
  exact accepted_congr htaken

/-! ## What a scope binds -/

/-- The names that a scope binds, with types and offsets, in the order of their declarations. Of two
declarations of one name the first counts. -/
abbrev Bindings := List (String × Ty × Int)

/-- The entry of a name in a scope of the given nesting level. -/
def Bindings.bound? (bs : Bindings) (level : Nat) (x : String) : Option Entry :=
  (bs.lookup x).map fun b => ⟨level, b.1, b.2⟩

/-- The members of a class. -/
def Shape.bindings (sh : Shape) : Bindings :=
  sh.fields.zipIdx.map (fun p => (p.1.1, p.1.2, Layout.fieldOffset p.2)) ++
    sh.methods.zipIdx.map (fun p => (p.1.1, .method p.1.2, Layout.methodOffset p.2))

/-- The classes declared so far. -/
def classBindings (classes : List (String × Shape)) : Bindings :=
  classes.zipIdx.map fun p => (p.1.1, p.1.2.type, Layout.firstLocalOffset - p.2)

def Scope.Binds (scope : Scope) (level : Nat) (bs : Bindings) : Prop :=
  ∀ x, scope.get? x = bs.bound? level x

section Bindings
variable {scope : Scope} {level : Nat} {bs : Bindings}

/-- One more declaration counts if the name was free. -/
theorem Scope.Binds.bind (h : scope.Binds level bs) (x : String) (t : Ty) (o : Int) :
    (scope.bind x ⟨level, t, o⟩).Binds level (bs ++ [(x, t, o)]) := by
  intro y
  rw [Scope.get?_bind, h y, Bindings.bound?, Bindings.bound?, List.lookup_append, Option.map_or,
    List.lookup_cons]
  by_cases hxy : x = y
  · subst hxy
    simp
  · rw [if_neg hxy, beq_false_of_ne (Ne.symm hxy)]
    rfl

section Numbered
variable {α β : Type} {l : List (String × α)} {i : Nat} {x : String} {a : α} (g : α → Nat → β)

theorem keys_zipIdx (l : List (String × α)) :
    (l.zipIdx.map fun p => (p.1.1, g p.1.2 p.2)).map Prod.fst = l.map Prod.fst := by
  conv_rhs => rw [← List.zipIdx_map_fst 0 l, List.map_map]
  rw [List.map_map]
  rfl

theorem getElem?_zipIdx_pair (hi : l[i]? = some (x, a)) :
    (l.zipIdx.map fun p => (p.1.1, g p.1.2 p.2))[i]? = some (x, g a i) := by
  rw [List.getElem?_map, List.getElem?_zipIdx, hi]
  simp

theorem getElem?_pair (hx : (l.map Prod.fst)[i]? = some x) (ha : (l.map Prod.snd)[i]? = some a) :
    l[i]? = some (x, a) := by
  rw [List.getElem?_map] at hx ha
  obtain ⟨p, hp, rfl⟩ := Option.map_eq_some_iff.1 hx
  rw [hp] at ha ⊢
  exact congrArg (fun b => some (p.1, b)) (Option.some.inj ha)

theorem lookup_eq_none_of_not_mem (h : x ∉ l.map Prod.fst) : l.lookup x = none := by
  refine List.lookup_eq_none_iff.2 fun p hp => ?_
  have hne : x ≠ p.1 := by
    rintro rfl
    exact h (List.mem_map_of_mem hp)
  simpa using hne

theorem lookup_zipIdx_none (h : l.lookup x = none) :
    (l.zipIdx.map fun p => (p.1.1, g p.1.2 p.2)).lookup x = none :=
  lookup_eq_none_of_not_mem (keys_zipIdx g l ▸ not_mem_keys_of_lookup h)

theorem lookup_zipIdx_some (h : l.lookup x = some a) :
    ∃ k : Nat, k < l.length ∧ (l.zipIdx.map fun p => (p.1.1, g p.1.2 p.2)).lookup x = some (g a k) := by
  obtain ⟨l₁, l₂, rfl, hl₁⟩ := List.lookup_eq_some_iff.1 h
  refine ⟨l₁.length, by simp, ?_⟩
  rw [List.zipIdx_append, List.map_append, List.lookup_append,
    lookup_zipIdx_none g (List.lookup_eq_none_iff.2 hl₁),
    Option.none_or, List.zipIdx_cons, List.map_cons, Nat.zero_add, List.lookup_cons_self]

end Numbered

theorem Shape.keys_bindings (sh : Shape) : sh.bindings.map Prod.fst = sh.fieldNames ++ sh.methodNames := by
  rw [Shape.bindings, List.map_append, keys_zipIdx (fun t i => (t, Layout.fieldOffset i)),
    keys_zipIdx (fun s i => (Ty.method s, Layout.methodOffset i))]
  rfl

/-- The virtual table of a class binds its members. -/
theorem Members.Shaped.get? {m : Members} {sh : Shape} (h : m.Shaped sh) (x : String) :
    m.table.get? x = sh.bindings.bound? memberLevel x := by
  have hn : (sh.bindings.map Prod.fst).Nodup := sh.keys_bindings ▸ h.named.nodup
  rcases h.named.get?_cases x with ⟨i, _, hi, -, -, -⟩ | ⟨i, _, hi, -, -⟩ | ⟨hf, hm, hnone⟩
  · obtain ⟨t, ht, -, htable⟩ := h.named.field i x hi
    have hpair := getElem?_zipIdx_pair (fun t i => (t, Layout.fieldOffset i))
      (getElem?_pair hi (h.fields ▸ ht))
    have hbinding : sh.bindings[i]? = some (x, t, Layout.fieldOffset i) := by
      rw [Shape.bindings, List.getElem?_append_left (List.getElem?_eq_some_iff.1 hpair).1, hpair]
    rw [htable, Bindings.bound?, lookup_of_getElem? hn hbinding]
    rfl
  · obtain ⟨s, hs, htable⟩ := h.named.method i x hi
    have hpair := getElem?_zipIdx_pair (fun s i => (Ty.method s, Layout.methodOffset i))
      (getElem?_pair hi (h.methods ▸ hs))
    have hbinding : sh.bindings[sh.fields.length + i]? = some (x, .method s, Layout.methodOffset i) := by
      rw [Shape.bindings, List.getElem?_append_right (by simp), List.length_map, List.length_zipIdx,
        Nat.add_sub_cancel_left, hpair]
    rw [htable, Bindings.bound?, lookup_of_getElem? hn hbinding]
    rfl
  · have hlookup : sh.bindings.lookup x = none :=
      lookup_eq_none_of_not_mem (sh.keys_bindings ▸ fun hmem => (List.mem_append.1 hmem).elim hf hm)
    rw [hnone, Bindings.bound?, hlookup]
    rfl

end Bindings

/-! ## Classes one after the other -/

/-- The scopes and virtual tables after the given classes. -/
structure Env.Declares (env : Env) (classes : List (String × Shape)) : Prop where
  nested : env.scopes.nested = []
  next : env.scopes.nextOffset = Layout.firstLocalOffset - classes.length
  bound : env.scopes.global.Binds 0 (classBindings classes)
  table (x : String) (sh : Shape) : classes.lookup x = some sh →
    ∃ table, env.classes.get? x = some table ∧
      Members.Shaped ⟨sh.fields.map Prod.snd, sh.methods.map Prod.snd, table, []⟩ sh
  recorded (x : String) (table : VirtualTable) : env.classes.get? x = some table → x ∈ classes.map Prod.fst

theorem Env.declares_initial : Env.Declares .initial [] where
  nested := rfl
  next := rfl
  bound x := rfl
  table x sh h := by cases h
  recorded x table h := by cases h

section Declares
variable {env : Env} {classes : List (String × Shape)} {c : Class}

theorem Env.Declares.level (h : env.Declares classes) : env.scopes.level = 0 := by
  rw [Scopes.level, h.nested]
  rfl

/-- A name is bound to the first class that has it, which is the one that can be extended. -/
theorem Env.Declares.class_cases (h : env.Declares classes) (x : String) :
    (classes.lookup x = none ∧ env.scopes.lookupGlobal? x = none ∧ env.extensible? x = none) ∨
      ∃ sh e m, classes.lookup x = some sh ∧ env.scopes.lookupGlobal? x = some e ∧
        env.extensible? x = some (e, m) ∧
        m.own = [] ∧ m.Shaped sh ∧ e.type = m.type ∧ env.classes.get? x = some m.table := by
  have hbound : env.scopes.lookupGlobal? x = (classBindings classes).bound? 0 x := h.bound x
  unfold Env.extensible? Env.class?
  cases hx : classes.lookup x with
  | none =>
    have hnone : env.scopes.lookupGlobal? x = none := by
      rw [hbound, Bindings.bound?, classBindings,
        lookup_zipIdx_none (fun sh k => (Shape.type sh, Layout.firstLocalOffset - k)) hx]
      rfl
    exact .inl ⟨rfl, hnone, by rw [hnone]⟩
  | some sh =>
    obtain ⟨table, htable, hshaped⟩ := h.table x sh hx
    obtain ⟨k, -, hk⟩ := lookup_zipIdx_some (fun sh k => (Shape.type sh, Layout.firstLocalOffset - k)) hx
    have hsome : env.scopes.lookupGlobal? x = some ⟨0, sh.type, Layout.firstLocalOffset - k⟩ := by
      rw [hbound, Bindings.bound?, classBindings, hk]
      rfl
    refine .inr ⟨sh, _, _, rfl, hsome, ?_, rfl, hshaped, rfl, htable⟩
    rw [hsome, htable]
    rfl

/-- The superclass of a class, if there is one that can be extended. -/
theorem Env.Declares.inherited_cases (h : env.Declares classes) (c : Class) :
    (c.inherited env = (none, .empty) ∧ c.inheritedShape classes = .empty ∧
        ∀ s ∈ c.superclass, s.text ∉ classes.map Prod.fst) ∨
      ∃ s e m, c.superclass = some s ∧ s.text ∈ classes.map Prod.fst ∧ c.inherited env = (some e, m) ∧
        m.own = [] ∧
        m.Shaped (c.inheritedShape classes) ∧ e.type = m.type ∧ env.classes.get? s.text = some m.table := by
  unfold Class.inherited Class.inheritedShape
  cases hs : c.superclass with
  | none => exact .inl ⟨rfl, rfl, fun s hmem => (nomatch hmem)⟩
  | some s =>
    rcases h.class_cases s.text with
      ⟨hnone, -, hext⟩ | ⟨sh, e, m, hsome, -, hext, hown, hshaped, htype, htable⟩
    · rw [Option.bind_some, Option.bind_some, hext, hnone]
      refine .inl ⟨rfl, rfl, fun s' hs' => ?_⟩
      obtain rfl := Option.some.inj hs'
      exact not_mem_keys_of_lookup hnone
    · rw [Option.bind_some, Option.bind_some, hext, hsome]
      exact .inr ⟨s, e, m, rfl, List.mem_map_of_mem (mem_of_lookup hsome), rfl, hown, hshaped,
        htype, htable⟩

theorem Env.Declares.inherited (h : env.Declares classes) :
    (c.inherited env).2.own = [] ∧ (c.inherited env).2.Shaped (c.inheritedShape classes) := by
  rcases h.inherited_cases c with ⟨hnone, hempty, -⟩ | ⟨s, e, m, -, -, hsome, hown, hshaped, -, -⟩
  · rw [hnone, hempty]
    exact ⟨rfl, Members.shaped_empty⟩
  · rw [hsome]
    exact ⟨hown, hshaped⟩

/-- What a class makes of its declarations and of its superclass, right or wrong. -/
theorem Class.place_shape (h : env.Declares classes) (hb : Bare c.notes) (ht : Written c.types)
    {p : PlacedMembers} (hp : c.place env = .ok p) : c.PlacedAs (c.inheritedShape classes) p :=
  Class.place_extend h.level h.inherited.1 h.inherited.2 hb ht hp

theorem classBindings_append (classes : List (String × Shape)) (x : String) (sh : Shape) :
    classBindings (classes ++ [(x, sh)]) =
      classBindings classes ++ [(x, sh.type, Layout.firstLocalOffset - classes.length)] := by
  rw [classBindings, List.zipIdx_append, List.map_append, Nat.zero_add]
  rfl

/-- One more class. -/
theorem Env.Declares.declareClass (h : env.Declares classes) {m : Members} {sh : Shape} (hm : m.Shaped sh)
    (name : String) :
    (env.declareClass name m).Declares (classes ++ [(name, sh)]) := by
  have hclass := h.class_cases name
  obtain ⟨⟨nested, g⟩, tables⟩ := env
  obtain rfl : nested = [] := h.nested
  have hnext : g.nextOffset = Layout.firstLocalOffset - classes.length := h.next
  have hentry : (⟨⟨[], g⟩, tables⟩ : Env).classEntry m =
      ⟨0, sh.type, Layout.firstLocalOffset - classes.length⟩ := by
    rw [Env.classEntry, hm.type]
    exact congrArg (Entry.mk 0 sh.type) hnext
  have hscopes : (Env.declareClass ⟨⟨[], g⟩, tables⟩ name m).scopes =
      ⟨[], g.takeOffset.bind name ⟨0, sh.type, Layout.firstLocalOffset - classes.length⟩⟩ := by
    rw [← hentry]
    rfl
  refine ⟨rfl, ?_, ?_, fun x sh' hx => ?_, fun x table hx => ?_⟩
  · rw [show (Env.declareClass ⟨⟨[], g⟩, tables⟩ name m).scopes =
      (Scopes.mk [] g).takeOffset.bind name _ from rfl,
      Scopes.nextOffset_bind, Scopes.nextOffset_takeOffset, h.next, List.length_append,
      List.length_singleton]
    omega
  · rw [hscopes, classBindings_append]
    have htaken : g.takeOffset.Binds 0 (classBindings classes) := h.bound
    exact htaken.bind name sh.type _
  · -- the virtual table is recorded with the first class of a name only
    rw [List.lookup_append, List.lookup_cons] at hx
    simp only [Env.declareClass]
    rcases hclass with ⟨hnone, hglobal, -⟩ | ⟨sh₁, e, m₁, hsome, hglobal, -⟩
    · rw [hglobal, Option.isSome_none, if_neg Bool.false_ne_true, Table.get?_set]
      by_cases hxn : name = x
      · subst hxn
        rw [hnone, Option.none_or, beq_self_eq_true] at hx
        obtain rfl := Option.some.inj hx
        rw [← hm.fields, ← hm.methods]
        exact ⟨m.table, if_pos rfl, hm.withOwn⟩
      · rw [beq_false_of_ne (Ne.symm hxn)] at hx
        rw [if_neg hxn]
        exact h.table x sh' (by simpa using hx)
    · rw [hglobal, Option.isSome_some, if_pos rfl]
      by_cases hxn : name = x
      · subst hxn
        rw [hsome, Option.some_or] at hx
        exact h.table name sh' (hsome.trans hx)
      · rw [beq_false_of_ne (Ne.symm hxn)] at hx
        exact h.table x sh' (by simpa using hx)
  · rw [List.map_append, List.mem_append]
    simp only [Env.declareClass] at hx
    split at hx
    · exact .inl (h.recorded x table hx)
    · rw [Table.get?_set] at hx
      split at hx
      · next hname => exact .inr (List.mem_singleton.2 hname.symm)
      · exact .inl (h.recorded x table hx)

/-- Virtual tables stay as they are recorded. -/
theorem Env.Declares.get?_declareClass (h : env.Declares classes) {x : String} {table : VirtualTable}
    (hx : env.classes.get? x = some table) (name : String) (m : Members) :
    (env.declareClass name m).classes.get? x = some table := by
  simp only [Env.declareClass]
  rcases h.class_cases name with ⟨hnone, hglobal, -⟩ | ⟨sh, e, m₁, -, hglobal, -⟩
  · rw [hglobal, Option.isSome_none, if_neg Bool.false_ne_true, Table.get?_set, if_neg, hx]
    rintro rfl
    exact not_mem_keys_of_lookup hnone (h.recorded name table hx)
  · rw [hglobal, Option.isSome_some, if_pos rfl, hx]

/-- A class is resolved. -/
theorem Class.resolve_declares (h : env.Declares classes) (hb : Bare c.notes) (ht : Written c.types)
    {r : ResolvedClass} (hr : c.resolve env = .ok r) :
    r.env.Declares (c.declareShape classes) ∧
      ∀ x table, env.classes.get? x = some table → r.env.classes.get? x = some table := by
  unfold Class.resolve at hr
  unfold Class.declareShape
  cases hname : c.name with
  | none =>
    rw [hname] at hr
    obtain rfl := Except.ok.inj hr
    exact ⟨h, fun x table hx => hx⟩
  | some name =>
    simp only [hname, bind_eq_ok, pure_eq_ok] at hr
    obtain ⟨p, hp, rfl⟩ := hr
    exact ⟨h.declareClass (Class.place_shape h hb ht hp).members name.text,
      fun x table hx => h.get?_declareClass hx _ _⟩

/-- Classes are resolved one after the other. -/
theorem Class.resolveAll_declares {cs : List Class} (h : env.Declares classes)
    (hb : Bare (cs.flatMap Class.notes)) (ht : Written (cs.flatMap Class.types)) {r : ResolvedClasses}
    (hr : Class.resolveAll env cs = .ok r) :
    r.env.Declares (cs.foldl Class.declareShape classes) ∧
      ∀ x table, env.classes.get? x = some table → r.env.classes.get? x = some table := by
  induction cs generalizing env classes r with
  | nil =>
    obtain rfl := Except.ok.inj hr
    exact ⟨h, fun x table hx => hx⟩
  | cons c cs ih =>
    rw [List.flatMap_cons, bare_append] at hb
    rw [List.flatMap_cons, written_append] at ht
    simp only [Class.resolveAll, bind_eq_ok, pure_eq_ok] at hr
    obtain ⟨first, hfirst, rest, hrest, rfl⟩ := hr
    obtain ⟨hdeclares, hkeep⟩ := Class.resolve_declares h hb.1 ht.1 hfirst
    obtain ⟨hdeclares', hkeep'⟩ := ih (r := rest) hdeclares hb.2 ht.2 hrest
    exact ⟨hdeclares', fun x table hx => hkeep' x table (hkeep x table hx)⟩

theorem Class.keys_declareShape (cs : List Class) (classes : List (String × Shape)) :
    (cs.foldl Class.declareShape classes).map Prod.fst = classes.map Prod.fst ++ Class.names cs := by
  induction cs generalizing classes with
  | nil => exact (List.append_nil _).symm
  | cons c cs ih =>
    rw [List.foldl_cons, ih, Class.declareShape]
    cases hname : c.name with
    | none => simp [Class.names, hname]
    | some name => simp [Class.names, hname]

end Declares

end Classlet

import Classlet.Proofs.Placement
import Classlet.Proofs.Shapes
/-!
# Layouts of classes

The layout in the entry of a class and its virtual table are the same members, by position and by name
(`VirtualTable.Mirrors`), and what a class inherits stays where it is in its superclass
(`VirtualTable.Extends`). Neither needs the program to be right (`Program.resolve_layouts`).
-/

namespace Classlet

/-- The members in the table and those in the layout correspond one to one. -/
structure VirtualTable.Mirrors (table : VirtualTable) (fields : List Ty)
    (methods : List Signature) : Prop where
  level (x : String) (e : Entry) : table.get? x = some e → e.level = memberLevel
  field (x : String) (e : Entry) : table.get? x = some e → e.type.isMethod = false →
    ∃ i, Layout.fieldIndex e.offset = .ok i ∧ fields[i]? = some e.type
  method (x : String) (e : Entry) : table.get? x = some e → e.type.isMethod = true →
    ∃ i s, Layout.methodIndex e.offset = .ok i ∧ e.type = .method s ∧ methods[i]? = some s
  fieldName (i : Nat) : i < fields.length →
    ∃! x, ∃ e, table.get? x = some e ∧ e.type.isMethod = false ∧ Layout.fieldIndex e.offset = .ok i
  methodName (i : Nat) : i < methods.length →
    ∃! x, ∃ e, table.get? x = some e ∧ e.type.isMethod = true ∧ Layout.methodIndex e.offset = .ok i

/-- Every member of `parent` is in the table, as the same kind of member and at the same offset. -/
def VirtualTable.Extends (table parent : VirtualTable) : Prop :=
  ∀ x e, parent.get? x = some e → ∃ e', table.get? x = some e' ∧ e'.type.isMethod = e.type.isMethod ∧
    e'.offset = e.offset

namespace Members

section Named
variable {m m' : Members} {fs ms fs' ms' : List String}

/-- What an entry of the virtual table is. -/
theorem Named.entry_cases (h : m.Named fs ms) {x : String} {e : Entry} (he : m.table.get? x = some e) :
    (∃ i t, fs[i]? = some x ∧ m.fields[i]? = some t ∧ t.isMethod = false ∧ e = fieldEntry i t) ∨
      ∃ i s, ms[i]? = some x ∧ m.methods[i]? = some s ∧ e = methodEntry i s := by
  rcases h.get?_cases x with ⟨i, _, hi, -, -, -⟩ | ⟨i, _, hi, -, -⟩ | ⟨-, -, hnone⟩
  · obtain ⟨t, ht, hkind, htable⟩ := h.field i x hi
    exact .inl ⟨i, t, hi, ht, hkind, Option.some.inj (he.symm.trans htable)⟩
  · obtain ⟨s, hs, htable⟩ := h.method i x hi
    exact .inr ⟨i, s, hi, hs, Option.some.inj (he.symm.trans htable)⟩
  · cases he.symm.trans hnone

theorem Named.mirrors (h : m.Named fs ms) : m.table.Mirrors m.fields m.methods := by
  constructor
  case level =>
    intro x e he
    rcases h.entry_cases he with ⟨i, t, -, -, -, rfl⟩ | ⟨i, s, -, -, rfl⟩ <;> rfl
  case field =>
    intro x e he hkind
    rcases h.entry_cases he with ⟨i, t, -, ht, -, rfl⟩ | ⟨i, s, -, -, rfl⟩
    · exact ⟨i, fieldIndex_fieldOffset i, ht⟩
    · cases hkind
  case method =>
    intro x e he hkind
    rcases h.entry_cases he with ⟨i, t, -, -, ht, rfl⟩ | ⟨i, s, -, hs, rfl⟩
    · cases hkind.symm.trans ht
    · exact ⟨i, s, methodIndex_methodOffset i, rfl, hs⟩
  case fieldName =>
    intro i hi
    rw [h.fields] at hi
    obtain ⟨t, -, hkind, htable⟩ := h.field i _ (List.getElem?_eq_getElem hi)
    refine ⟨fs[i], ⟨_, htable, hkind, fieldIndex_fieldOffset i⟩, ?_⟩
    rintro y ⟨e, he, hy, hindex⟩
    rcases h.entry_cases he with ⟨j, t', hj, -, -, rfl⟩ | ⟨j, s, -, -, rfl⟩
    · obtain rfl := Except.ok.inj ((fieldIndex_fieldOffset j).symm.trans hindex)
      exact Option.some.inj (hj.symm.trans (List.getElem?_eq_getElem hi))
    · cases hy
  case methodName =>
    intro i hi
    rw [h.methodSlots.length] at hi
    obtain ⟨s, -, htable⟩ := h.method i _ (List.getElem?_eq_getElem hi)
    refine ⟨ms[i], ⟨_, htable, rfl, methodIndex_methodOffset i⟩, ?_⟩
    rintro y ⟨e, he, hy, hindex⟩
    rcases h.entry_cases he with ⟨j, t, -, -, ht, rfl⟩ | ⟨j, s', hj, -, rfl⟩
    · cases hy.symm.trans ht
    · obtain rfl := Except.ok.inj ((methodIndex_methodOffset j).symm.trans hindex)
      exact Option.some.inj (hj.symm.trans (List.getElem?_eq_getElem hi))

/-- Members are added after those there are. -/
theorem Named.extends (h : m.Named fs ms) (h' : m'.Named fs' ms') (hf : fs <+: fs') (hm : ms <+: ms') :
    m'.table.Extends m.table := by
  intro x e he
  rcases h.entry_cases he with ⟨i, t, hi, -, hkind, rfl⟩ | ⟨i, s, hi, -, rfl⟩
  · obtain ⟨t', -, hkind', htable⟩ := h'.field i x (prefix_getElem? hf hi)
    exact ⟨_, htable, hkind'.trans hkind.symm, rfl⟩
  · obtain ⟨s', -, htable⟩ := h'.method i x (prefix_getElem? hm hi)
    exact ⟨_, htable, rfl, rfl⟩

end Named

end Members

theorem prefix_override {α : Type} (inherited own : List (String × α)) :
    inherited.map Prod.fst <+: (override inherited own).map Prod.fst := by
  rw [override, List.map_append, List.map_map]
  exact List.prefix_append _ _

/-- What a class adds to its superclass. -/
theorem Class.extend_extends {c : Class} {inherited : Shape} {m m' : Members} (h : m.Shaped inherited)
    (h' : m'.Shaped (c.extend inherited)) :
    m'.table.Extends m.table ∧ m.fields.length ≤ m'.fields.length ∧
    m.methods.length ≤ m'.methods.length := by
  have hfields : inherited.fieldNames <+: (c.extend inherited).fieldNames := prefix_override _ _
  have hmethods : inherited.methodNames <+: (c.extend inherited).methodNames := prefix_override _ _
  refine ⟨h.named.extends h'.named hfields hmethods, ?_, ?_⟩
  · rw [h.named.fields, h'.named.fields]
    exact hfields.length_le
  · rw [h.named.methodSlots.length, h'.named.methodSlots.length]
    exact hmethods.length_le

/-- Classes up to the one at a given position are resolved before it. -/
theorem Class.resolveAll_split {env : Env} {before after : List Class} {c : Class} {r : ResolvedClasses}
    (hr : Class.resolveAll env (before ++ c :: after) = .ok r) :
    ∃ earlier first rest, Class.resolveAll env before = .ok earlier ∧ c.resolve earlier.env = .ok first ∧
      Class.resolveAll first.env after = .ok rest ∧ r.env = rest.env ∧
      r.trees[before.length]? = some first.tree := by
  induction before generalizing env r with
  | nil =>
    simp only [List.nil_append, Class.resolveAll, bind_eq_ok, pure_eq_ok] at hr
    obtain ⟨first, hfirst, rest, hrest, rfl⟩ := hr
    exact ⟨_, first, rest, rfl, hfirst, hrest, rfl, rfl⟩
  | cons d before ih =>
    simp only [List.cons_append, Class.resolveAll, bind_eq_ok, pure_eq_ok] at hr
    obtain ⟨head, hhead, tail, htail, rfl⟩ := hr
    obtain ⟨earlier, first, rest, hearlier, hfirst, hrest, henv, htree⟩ := ih htail
    refine ⟨⟨head.tree :: earlier.trees, earlier.env, head.reports ++ earlier.reports⟩, first, rest, ?_,
      hfirst, hrest, henv, ?_⟩
    · simp only [Class.resolveAll, hhead, hearlier, ok_bind]
      rfl
    · simpa using htree

/-- The layout in the entry of the class `tree`, whose members are `m`. The superclass is the class of that
name in `tables`. -/
structure Class.LaidOut (tables : Table VirtualTable) (tree : Class) (m : Members) : Prop where
  entry : tree.entry.map Entry.type = some (.cls m.fields m.methods)
  mirrors : m.table.Mirrors m.fields m.methods
  superclass (e : Entry) : tree.superEntry = some e →
    ∃ s parent fields methods, tree.superclass = some s ∧ tables.get? s.text = some parent ∧
      e.type = .cls fields methods ∧
      parent.Mirrors fields methods ∧ m.table.Extends parent ∧ fields.length ≤ m.fields.length ∧
      methods.length ≤ m.methods.length

theorem Class.LaidOut.mono {tables tables' : Table VirtualTable} {tree : Class} {m : Members}
    (h : tree.LaidOut tables m) (hkeep : ∀ x table, tables.get? x = some table →
      tables'.get? x = some table) : tree.LaidOut tables' m := by
  refine ⟨h.entry, h.mirrors, fun e he => ?_⟩
  obtain ⟨s, parent, fields, methods, hs, hparent, hrest⟩ := h.superclass e he
  exact ⟨s, parent, fields, methods, hs, hkeep _ _ hparent, hrest⟩

theorem Class.resolve_laidOut {env : Env} {classes : List (String × Shape)} {c : Class} {name : Name}
    (h : env.Declares classes) (hb : Bare c.notes) (ht : Written c.types) (hname : c.name = some name)
    {r : ResolvedClass} (hr : c.resolve env = .ok r) :
    ∃ placed, c.place env = .ok placed ∧ r.tree.LaidOut env.classes placed.members ∧
      (r.tree.superEntry.isSome = true ↔ ∃ s ∈ c.superclass, s.text ∈ classes.map Prod.fst) ∧
      (name.text ∉ classes.map Prod.fst → r.env.classes.get? name.text = some placed.members.table) := by
  obtain ⟨⟨hentry, hsuper⟩, -⟩ := Class.bare_iff.1 hb
  simp only [Class.resolve, hname, bind_eq_ok, pure_eq_ok] at hr
  obtain ⟨placed, hp, rfl⟩ := hr
  have hshaped := (Class.place_shape h hb ht hp).members
  have hsuperEntry : (c.resolvePlaced env name placed).tree.superEntry = (c.inherited env).1 := by
    simp only [Class.resolvePlaced, hsuper, Option.none_or]
  refine ⟨placed, hp, ⟨?_, hshaped.named.mirrors, fun e he => ?_⟩, ?_, fun hfree => ?_⟩
  · simp only [Class.resolvePlaced, hentry, Option.none_or]
    rfl
  · rw [hsuperEntry] at he
    rcases h.inherited_cases c with ⟨hnone, -, -⟩ | ⟨s, e', m, hs, -, hsome, -, hparent, htype, htable⟩
    · rw [hnone] at he
      cases he
    · rw [hsome] at he
      obtain rfl := Option.some.inj he
      exact ⟨s, m.table, m.fields, m.methods, hs, htable, htype, hparent.named.mirrors,
        Class.extend_extends hparent hshaped⟩
  · rw [hsuperEntry]
    rcases h.inherited_cases c with ⟨hnone, -, hnot⟩ | ⟨s, e, m, hs, hmem, hsome, -⟩
    · rw [hnone]
      exact ⟨fun hfalse => (nomatch hfalse), fun ⟨s, hs, hmem⟩ => absurd hmem (hnot s hs)⟩
    · rw [hsome]
      exact ⟨fun _ => ⟨s, hs, hmem⟩, fun _ => rfl⟩
  · rcases h.class_cases name.text with ⟨-, hglobal, -⟩ | ⟨sh, -, -, hsome, -⟩
    · simp only [Class.resolvePlaced, Env.declareClass, hglobal, Option.isSome_none,
        Bool.false_eq_true, if_false, Table.get?_set, if_true]
    · exact absurd (List.mem_map_of_mem (mem_of_lookup hsome)) hfree

/-- Every class with a name has its layout, right or wrong, and no offset is ever taken for one of the other
kind: resolution does not stop. The offsets of the members are numbers of 32 bits. A superclass is found if
and only if an earlier class has that name, and it is the first such class, whose virtual table is the one
that stays. -/
theorem Program.resolve_layouts {p : Program} (hb : Bare p.notes) (ht : Written p.types)
    (hn : p.nodes < 2 ^ 30) :
    ∃ r, p.resolve = .ok r ∧
      ∀ (before : List Class) (c : Class) (after : List Class) (name : Name),
        p.classes = before ++ c :: after → c.name = some name →
        ∃ earlier placed tree, Class.resolveAll .initial before = .ok earlier ∧
          c.place earlier.env = .ok placed ∧
          r.tree.classes[before.length]? = some tree ∧ tree.LaidOut r.classes placed.members ∧
          (∀ x e, placed.members.table.get? x = some e → -2 ^ 31 ≤ e.offset ∧ e.offset < 2 ^ 31) ∧
          (tree.superEntry.isSome = true ↔ ∃ s ∈ c.superclass, s.text ∈ Class.names before) ∧
          (name.text ∉ Class.names before → r.classes.get? name.text = some placed.members.table) := by
  obtain ⟨r, hr, -⟩ := Program.resolve_fits hb ht
  refine ⟨r, hr, fun before c after name hsplit hname => ?_⟩
  cases p with
  | expr body span => exact absurd hsplit (by simp [Program.classes])
  | letIn classes decls body span =>
    obtain rfl : classes = before ++ c :: after := hsplit
    simp only [Program.resolve, bind_eq_ok, pure_eq_ok] at hr
    obtain ⟨resolved, hresolved, rfl⟩ := hr
    simp only [Program.notes, Program.classes, bare_append, List.flatMap_append, List.flatMap_cons] at hb
    simp only [Program.types, Program.classes, written_append, List.flatMap_append, List.flatMap_cons] at ht
    obtain ⟨⟨⟨hbefore, hbare, hafter⟩, -⟩, -⟩ := hb
    obtain ⟨⟨htbefore, hwritten, htafter⟩, -⟩ := ht
    obtain ⟨earlier, first, rest, hearlier, hfirst, hrest, henv, htree⟩ := Class.resolveAll_split hresolved
    obtain ⟨hdeclares, -⟩ := Class.resolveAll_declares Env.declares_initial hbefore htbefore hearlier
    obtain ⟨hnext, hkeep⟩ := Class.resolve_declares hdeclares hbare hwritten hfirst
    obtain ⟨-, hkeep'⟩ := Class.resolveAll_declares hnext hafter htafter hrest
    obtain ⟨placed, hplaced, hlaid, hsuper, hrecorded⟩ :=
      Class.resolve_laidOut hdeclares hbare hwritten hname hfirst
    rw [Class.keys_declareShape, List.map_nil, List.nil_append] at hsuper hrecorded
    refine ⟨earlier, placed, first.tree, hearlier, hplaced, htree, hlaid.mono fun x table hx => ?_,
      fun x e he => ?_, hsuper, fun hfree => ?_⟩
    · exact henv ▸ hkeep' x table (hkeep x table hx)
    · obtain ⟨earlier', hearlier', hfits, -⟩ := Class.resolveAll_fits Env.fits_initial hbefore htbefore
      obtain rfl := Except.ok.inj (hearlier'.symm.trans hearlier)
      obtain ⟨placed', hplaced', hmembers, -⟩ := Class.place_fits hfits hbare hwritten
      obtain rfl := Except.ok.inj (hplaced'.symm.trans hplaced)
      have hmember := hmembers.table x e he
      have hsize := c.members_lt_nodes
      simp only [Program.nodes, Program.classes, List.map_append, List.map_cons, List.sum_append,
        List.sum_cons] at hn
      cases hkind : e.type.isMethod with
      | true =>
        have := hmember.method hkind
        omega
      | false =>
        have := hmember.field hkind
        omega
    · exact henv ▸ hkeep' _ _ (hrecorded hfree)

/-- A class, and another one that turns its field into a method and its method into a field, declares a
field twice and overrides what is left of it. The name of the first class is then taken once more. -/
def remodelled : Program :=
  .letIn
    [.plain "Shape" none [("side", .int)] [.plain "area" [] .int (.variable "side")],
      .plain "Square" (some "Shape") [("area", .bool), ("side", .bool), ("name", .int), ("name", .bool)]
        [.plain "side" [] .int (.number 1), .plain "area" [] .bool (.variable "corner"),
          .plain "rim" [] .int (.number 4)],
      .plain "Shape" (some "Square") [("name", .ref "Shape")] []]
    [] (.make "Square" []) .synthetic

theorem remodelled_square_laid_out :
    Bare remodelled.notes ∧ Written remodelled.types ∧ remodelled.nodes < 2 ^ 30 ∧
      ∃ r, remodelled.resolve = .ok r ∧
        ∃ earlier placed tree,
          Class.resolveAll .initial (remodelled.classes.take 1) = .ok earlier ∧
          (Class.plain "Square" (some "Shape") [("area", .bool), ("side", .bool), ("name", .int),
            ("name", .bool)] [.plain "side" [] .int (.number 1),
              .plain "area" [] .bool (.variable "corner"),
              .plain "rim" [] .int (.number 4)]).place earlier.env = .ok placed ∧
          r.tree.classes[1]? = some tree ∧ tree.LaidOut r.classes placed.members ∧
          tree.superEntry.isSome = true ∧ r.classes.get? "Square" = some placed.members.table := by
  refine ⟨by decide, by decide, by decide, ?_⟩
  obtain ⟨r, hr, hlayouts⟩ := Program.resolve_layouts (p := remodelled) (by decide) (by decide) (by decide)
  obtain ⟨earlier, placed, tree, hearlier, hplaced, htree, hlaid, -, hsuper, hrecorded⟩ :=
    hlayouts (remodelled.classes.take 1) _ (remodelled.classes.drop 2) (.plain "Square") rfl rfl
  exact ⟨r, hr, earlier, placed, tree, hearlier, hplaced, htree, hlaid, hsuper.2 ⟨_, rfl, by decide⟩,
    hrecorded (by decide)⟩

end Classlet

import Classlet.Resolution.Members
import Classlet.Proofs.Basic
import Mathlib.Data.List.Nodup
/-!
# Layouts and virtual tables agree

A class's members are kept twice: as layouts, by position, and as a virtual table, by name.
`Members.Named m fs ms` says that the two agree when the fields are called `fs` and the methods `ms`, in
layout order. Fields and methods are treated alike: `Slots` is the agreement for one kind of member, and
`Placing` is what a class changes in the layout of its superclass when all its members are placed.
-/

namespace Classlet

/-- The nesting level of members, which are bound by a scope right inside the outermost one. -/
def memberLevel : Nat := 1

/-! ## Names in layout order -/

/-- The names after a member called `x` was placed: it takes the place of the member of that name, or the
next one. -/
def adjoin (names : List String) (x : String) : List String := if x ∈ names then names else names ++ [x]

section Adjoin
variable {names : List String} {x y : String} {i : Nat}

theorem mem_adjoin : y ∈ adjoin names x ↔ y ∈ names ∨ y = x := by
  rw [adjoin]
  split
  · next hx => exact ⟨.inl, fun h => h.elim id (· ▸ hx)⟩
  · rw [List.mem_append, List.mem_singleton]

theorem prefix_adjoin (names : List String) (x : String) : names <+: adjoin names x := by
  rw [adjoin]
  split
  · exact List.prefix_refl _
  · exact List.prefix_append _ _

theorem nodup_adjoin (h : names.Nodup) (x : String) : (adjoin names x).Nodup := by
  rw [adjoin]
  split
  · exact h
  · next hx =>
    refine List.nodup_append.2 ⟨h, List.nodup_singleton x, ?_⟩
    rintro a ha b hb rfl
    exact hx (List.mem_singleton.1 hb ▸ ha)

/-- Names that are all different keep their order. -/
theorem foldl_adjoin {xs : List String} (h : xs.Nodup) (names : List String) :
    xs.foldl adjoin names = names ++ xs.filter (· ∉ names) := by
  induction xs generalizing names with
  | nil => simp
  | cons x xs ih =>
    rw [List.nodup_cons] at h
    rw [List.foldl_cons, ih h.2]
    have hfilter : xs.filter (· ∉ adjoin names x) = xs.filter (· ∉ names) := by
      refine List.filter_congr fun y hy => ?_
      have hne : y ≠ x := fun e => h.1 (e ▸ hy)
      simp [mem_adjoin, hne]
    rw [hfilter, adjoin]
    split
    · next hx => simp [hx]
    · next hx => simp [hx]

theorem prefix_foldl_adjoin (xs names : List String) : names <+: xs.foldl adjoin names := by
  induction xs generalizing names with
  | nil => exact List.prefix_refl _
  | cons x xs ih => exact (prefix_adjoin names x).trans (ih _)

end Adjoin

/-! ## One kind of member -/

/-- The members called `names` are in the layout and in the virtual table, where `entry i a` is what the
table has for the member `a` at position `i`. -/
structure Slots {α : Type} (names : List String) (layout : List α) (table : VirtualTable)
    (entry : Nat → α → Entry) : Prop where
  length : layout.length = names.length
  get (i : Nat) (x : String) : names[i]? = some x → ∃ a, layout[i]? = some a ∧
    table.get? x = some (entry i a)

section Slots
variable {α : Type} {names : List String} {layout : List α} {table : VirtualTable} {entry : Nat → α → Entry}
  {x : String} {i : Nat}

theorem Slots.empty (table : VirtualTable) (entry : Nat → α → Entry) : Slots [] [] table entry :=
  ⟨rfl, fun i x h => by simp at h⟩

/-- A member of another name changes nothing. -/
theorem Slots.set (h : Slots names layout table entry) (hx : x ∉ names) (e : Entry) :
    Slots names layout (table.set x e) entry := by
  refine ⟨h.length, fun i y hy => ?_⟩
  obtain ⟨a, ha, ht⟩ := h.get i y hy
  refine ⟨a, ha, ?_⟩
  rw [Table.get?_set, if_neg, ht]
  rintro rfl
  exact hx (List.mem_of_getElem? hy)

/-- Only the place of `x` changes in the layout. -/
theorem Slots.getElem?_putAt (h : Slots names layout table entry)
    (hi : (adjoin names x)[i]? = some x) (a : α) :
    (Members.putAt layout i a)[i]? = some a ∧ ∀ j, j ≠ i → (Members.putAt layout i a)[j]? = layout[j]? := by
  have hlt := (List.getElem?_eq_some_iff.1 hi).1
  rw [Members.putAt]
  split
  · next hl => exact ⟨by simp [hl], fun j hj => by rw [List.getElem?_set_ne (Ne.symm hj)]⟩
  · next hl =>
    have hlen : i = layout.length := by
      rw [adjoin] at hlt
      rw [h.length] at hl ⊢
      split at hlt
      · omega
      · rw [List.length_append, List.length_singleton] at hlt
        omega
    subst hlen
    refine ⟨by simp, fun j hj => ?_⟩
    rcases Nat.lt_or_ge j layout.length with hj' | hj'
    · rw [List.getElem?_append_left hj']
    · rw [List.getElem?_eq_none (by simp; omega), List.getElem?_eq_none hj']

/-- A member called `x` takes its place. -/
theorem Slots.put (h : Slots names layout table entry) (hn : names.Nodup)
    (hi : (adjoin names x)[i]? = some x) (a : α) :
    Slots (adjoin names x) (Members.putAt layout i a) (table.set x (entry i a)) entry := by
  obtain ⟨hput, hkeep⟩ := h.getElem?_putAt hi a
  refine ⟨?_, fun j y hy => ?_⟩
  · have hlt := (List.getElem?_eq_some_iff.1 hi).1
    rw [Members.putAt]
    rw [adjoin] at hi hlt ⊢
    split at hi
    · next hx =>
      rw [if_pos hx] at hlt ⊢
      rw [if_pos (by rw [h.length]; exact hlt), List.length_set, h.length]
    · next hx =>
      have hge : ¬ i < names.length := fun hlt' => by
        rw [List.getElem?_append_left hlt'] at hi
        exact hx (List.mem_of_getElem? hi)
      rw [if_neg hx, if_neg (by rw [h.length]; exact hge), List.length_append, List.length_append, h.length]
      rfl
  · by_cases hxy : y = x
    · subst hxy
      obtain rfl := getElem?_unique (nodup_adjoin hn y) hy hi
      exact ⟨a, hput, by rw [Table.get?_set, if_pos rfl]⟩
    · have hj : names[j]? = some y := by
        rw [adjoin] at hy
        split at hy
        · exact hy
        · rcases Nat.lt_or_ge j names.length with hlt | hge
          · rwa [List.getElem?_append_left hlt] at hy
          · rw [List.getElem?_append_right hge] at hy
            exact absurd (List.mem_singleton.1 (List.mem_of_getElem? hy)) hxy
      have hji : j ≠ i := by
        rintro rfl
        exact hxy (Option.some.inj (hy.symm.trans hi))
      obtain ⟨b, hb, ht⟩ := h.get j y hj
      exact ⟨b, by rw [hkeep j hji, hb], by rw [Table.get?_set, if_neg (Ne.symm hxy), ht]⟩

end Slots

/-! ## All members of a class -/

namespace Members

def fieldEntry (i : Nat) (t : Ty) : Entry := ⟨memberLevel, t, Layout.fieldOffset i⟩

def methodEntry (i : Nat) (s : Signature) : Entry := ⟨memberLevel, .method s, Layout.methodOffset i⟩

structure Named (m : Members) (fs ms : List String) : Prop where
  fieldSlots : Slots fs m.fields m.table fieldEntry
  methodSlots : Slots ms m.methods m.table methodEntry
  nodup : (fs ++ ms).Nodup
  values : ∀ t ∈ m.fields, t.isMethod = false
  complete (x : String) (e : Entry) : m.table.get? x = some e → x ∈ fs ∨ x ∈ ms

section Named
variable {m : Members} {fs ms : List String} {x : String} {i : Nat}

theorem named_empty : Members.empty.Named [] [] :=
  ⟨.empty _ _, .empty _ _, List.nodup_nil, by simp [Members.empty],
    fun x e h => by simp [Members.empty] at h⟩

/-- The names declared so far do not matter. -/
theorem Named.withOwn (h : m.Named fs ms) (own : List String) : Named { m with own := own } fs ms :=
  ⟨h.fieldSlots, h.methodSlots, h.nodup, h.values, h.complete⟩

theorem Named.fields (h : m.Named fs ms) : m.fields.length = fs.length := h.fieldSlots.length

theorem Named.field (h : m.Named fs ms) (i : Nat) (x : String) (hx : fs[i]? = some x) :
    ∃ t, m.fields[i]? = some t ∧ t.isMethod = false ∧
      m.table.get? x = some ⟨memberLevel, t, Layout.fieldOffset i⟩ := by
  obtain ⟨t, ht, htable⟩ := h.fieldSlots.get i x hx
  exact ⟨t, ht, h.values t (List.mem_of_getElem? ht), htable⟩

theorem Named.method (h : m.Named fs ms) (i : Nat) (x : String) (hx : ms[i]? = some x) :
    ∃ s, m.methods[i]? = some s ∧ m.table.get? x = some ⟨memberLevel, .method s, Layout.methodOffset i⟩ :=
  h.methodSlots.get i x hx

theorem Named.nodup_fields (h : m.Named fs ms) : fs.Nodup := (List.nodup_append.1 h.nodup).1

theorem Named.nodup_methods (h : m.Named fs ms) : ms.Nodup := (List.nodup_append.1 h.nodup).2.1

theorem Named.not_mem_methods (h : m.Named fs ms) (hx : x ∈ fs) : x ∉ ms :=
  fun hm => (List.nodup_append.1 h.nodup).2.2 x hx x hm rfl

/-- What a name stands for: a field, a method, or nothing. -/
theorem Named.get?_cases (h : m.Named fs ms) (x : String) :
    (∃ i t, fs[i]? = some x ∧ x ∉ ms ∧ t.isMethod = false ∧ m.table.get? x = some (fieldEntry i t)) ∨
      (∃ i s, ms[i]? = some x ∧ x ∉ fs ∧ m.table.get? x = some (methodEntry i s)) ∨
        (x ∉ fs ∧ x ∉ ms ∧ m.table.get? x = none) := by
  by_cases hf : x ∈ fs
  · obtain ⟨i, hi⟩ := List.mem_iff_getElem?.1 hf
    obtain ⟨t, -, ht, htable⟩ := h.field i x hi
    exact .inl ⟨i, t, hi, h.not_mem_methods hf, ht, htable⟩
  · by_cases hm : x ∈ ms
    · obtain ⟨i, hi⟩ := List.mem_iff_getElem?.1 hm
      obtain ⟨s, -, htable⟩ := h.method i x hi
      exact .inr (.inl ⟨i, s, hi, hf, htable⟩)
    · refine .inr (.inr ⟨hf, hm, ?_⟩)
      cases htable : m.table.get? x with
      | none => rfl
      | some e => exact absurd (h.complete x e htable) (not_or.2 ⟨hf, hm⟩)

theorem getElem?_adjoin_of_mem {names : List String} (hi : names[i]? = some x) :
    (adjoin names x)[i]? = some x := by
  rw [adjoin, if_pos (List.mem_of_getElem? hi), hi]

theorem getElem?_adjoin_of_not_mem {names : List String} (hx : x ∉ names) :
    (adjoin names x)[names.length]? = some x := by
  rw [adjoin, if_neg hx, List.getElem?_concat_length]

/-- A field is placed where the field of its name is, or after the fields there are. -/
theorem Named.fieldVerdict_placed (h : m.Named fs ms) {offset : Int}
    (hv : m.fieldVerdict x = .placed offset) :
    x ∉ m.own ∧ x ∉ ms ∧ ∃ i : Nat, offset = Layout.fieldOffset i ∧ (adjoin fs x)[i]? = some x := by
  unfold fieldVerdict at hv
  split at hv
  · cases hv
  · next hown =>
    refine ⟨by simpa using hown, ?_⟩
    rcases h.get?_cases x with ⟨i, t, hi, hm, ht, htable⟩ | ⟨i, s, -, -, htable⟩ | ⟨hf, hm, htable⟩
    · rw [htable] at hv
      simp only [fieldEntry, ht, Bool.false_eq_true, if_false, Verdict.placed.injEq] at hv
      exact ⟨hm, i, hv.symm, getElem?_adjoin_of_mem hi⟩
    · rw [htable] at hv
      cases hv
    · rw [htable, h.fieldSlots.length] at hv
      exact ⟨hm, fs.length, (Verdict.placed.inj hv).symm, getElem?_adjoin_of_not_mem hf⟩

/-- A method is placed where the method of its name is, or after the methods there are. -/
theorem Named.methodVerdict_placed (h : m.Named fs ms) {offset : Int}
    (hv : m.methodVerdict x = .placed offset) :
    x ∉ m.own ∧ x ∉ fs ∧ ∃ i : Nat, offset = Layout.methodOffset i ∧ (adjoin ms x)[i]? = some x := by
  unfold methodVerdict at hv
  split at hv
  · cases hv
  · next hown =>
    refine ⟨by simpa using hown, ?_⟩
    rcases h.get?_cases x with ⟨i, t, hi, hm, ht, htable⟩ | ⟨i, s, hi, hf, htable⟩ | ⟨hf, hm, htable⟩
    · rw [htable] at hv
      simp only [fieldEntry, ht, Bool.false_eq_true, if_false] at hv
      cases hv
    · rw [htable] at hv
      exact ⟨hf, i, (Verdict.placed.inj hv).symm, getElem?_adjoin_of_mem hi⟩
    · rw [htable, h.methodSlots.length] at hv
      exact ⟨hf, ms.length, (Verdict.placed.inj hv).symm, getElem?_adjoin_of_not_mem hm⟩

theorem fieldVerdict_repeated (hv : m.fieldVerdict x = .repeated) : x ∈ m.own := by
  unfold fieldVerdict at hv
  split at hv
  · next hown => simpa using hown
  · split at hv
    · split at hv <;> cases hv
    · cases hv

theorem methodVerdict_repeated (hv : m.methodVerdict x = .repeated) : x ∈ m.own := by
  unfold methodVerdict at hv
  split at hv
  · next hown => simpa using hown
  · split at hv
    · split at hv <;> cases hv
    · cases hv

theorem Named.fieldVerdict_clash (h : m.Named fs ms) (hv : m.fieldVerdict x = .clash) : x ∈ ms := by
  unfold fieldVerdict at hv
  split at hv
  · cases hv
  · rcases h.get?_cases x with ⟨i, t, -, -, ht, htable⟩ | ⟨i, s, hi, -, -⟩ | ⟨-, -, htable⟩
    · simp [htable, fieldEntry, ht] at hv
    · exact List.mem_of_getElem? hi
    · simp [htable] at hv

theorem Named.methodVerdict_clash (h : m.Named fs ms) (hv : m.methodVerdict x = .clash) : x ∈ fs := by
  unfold methodVerdict at hv
  split at hv
  · cases hv
  · rcases h.get?_cases x with ⟨i, t, hi, -, -, -⟩ | ⟨i, s, -, -, htable⟩ | ⟨-, -, htable⟩
    · exact List.mem_of_getElem? hi
    · simp [htable, methodEntry, Ty.isMethod] at hv
    · simp [htable] at hv

theorem fieldIndex_fieldOffset (i : Nat) : Layout.fieldIndex (Layout.fieldOffset i) = .ok i := by
  rw [Layout.fieldIndex, Layout.fieldOffset, if_pos (by omega)]
  congr 1
  omega

theorem methodIndex_methodOffset (i : Nat) : Layout.methodIndex (Layout.methodOffset i) = .ok i := by
  rw [Layout.methodIndex, Layout.methodOffset, if_pos (by omega)]
  rfl

/-- The members with a field `x` at position `i`. -/
def withField (m : Members) (x : String) (i : Nat) (t : Ty) : Members :=
  { m with fields := putAt m.fields i t, table := m.table.set x (fieldEntry i t) }

/-- The members with a method `x` at position `i`. -/
def withMethod (m : Members) (x : String) (i : Nat) (s : Signature) : Members :=
  { m with methods := putAt m.methods i s, table := m.table.set x (methodEntry i s) }

theorem addField_eq (m : Members) (x : String) (i : Nat) (t : Ty) :
    m.addField memberLevel x t (Layout.fieldOffset i) = .ok (m.withField x i t) := by
  rw [addField, fieldIndex_fieldOffset]
  rfl

theorem addMethod_eq (m : Members) (x : String) (i : Nat) (s : Signature) :
    m.addMethod memberLevel x s (Layout.methodOffset i) = .ok (m.withMethod x i s) := by
  rw [addMethod, methodIndex_methodOffset]
  rfl

theorem mem_putAt {α : Type} {l : List α} {a b : α} (h : b ∈ putAt l i a) : b ∈ l ∨ b = a := by
  rw [putAt] at h
  split at h
  · exact List.mem_or_eq_of_mem_set h
  · simpa using h

theorem get?_set_complete {table : VirtualTable} {e e' : Entry} {y : String}
    (h : (table.set x e).get? y = some e') :
    y = x ∨ table.get? y = some e' := by
  rw [Table.get?_set] at h
  split at h
  · next hxy => exact .inl hxy.symm
  · exact .inr h

theorem Named.withField (h : m.Named fs ms) (hx : x ∉ ms) (hi : (adjoin fs x)[i]? = some x) {t : Ty}
    (ht : t.isMethod = false) : (m.withField x i t).Named (adjoin fs x) ms where
  fieldSlots := h.fieldSlots.put h.nodup_fields hi t
  methodSlots := h.methodSlots.set hx _
  nodup := by
    refine List.nodup_append.2 ⟨nodup_adjoin h.nodup_fields x, h.nodup_methods, ?_⟩
    rintro a ha b hb rfl
    rcases mem_adjoin.1 ha with ha | rfl
    · exact h.not_mem_methods ha hb
    · exact hx hb
  values t' ht' := (mem_putAt ht').elim (h.values t') (· ▸ ht)
  complete y e hy := by
    rw [mem_adjoin, or_right_comm]
    rcases get?_set_complete hy with rfl | hy
    · exact .inr rfl
    · exact .inl (h.complete y e hy)

theorem Named.withMethod (h : m.Named fs ms) (hx : x ∉ fs) (hi : (adjoin ms x)[i]? = some x)
    (s : Signature) :
    (m.withMethod x i s).Named fs (adjoin ms x) where
  fieldSlots := h.fieldSlots.set hx _
  methodSlots := h.methodSlots.put h.nodup_methods hi s
  nodup := by
    refine List.nodup_append.2 ⟨h.nodup_fields, nodup_adjoin h.nodup_methods x, ?_⟩
    rintro a ha b hb rfl
    rcases mem_adjoin.1 hb with hb | rfl
    · exact h.not_mem_methods ha hb
    · exact hx ha
  values := h.values
  complete y e hy := by
    rw [mem_adjoin, ← or_assoc]
    rcases get?_set_complete hy with rfl | hy
    · exact .inr rfl
    · exact .inl (h.complete y e hy)

end Named

end Members

/-! ## The members that a class declares -/

/-- What a class that declares the members `own` makes of an inherited layout. -/
structure Placing {α : Type} (names : List String) (layout : List α) (own : List (String × α))
    (names' : List String) (layout' : List α) : Prop where
  names_eq : names' = (own.map Prod.fst).foldl adjoin names
  nodup : (own.map Prod.fst).Nodup
  keeps (i : Nat) : (∀ x, names'[i]? = some x → x ∉ own.map Prod.fst) → layout'[i]? = layout[i]?
  puts (x : String) (a : α) : (x, a) ∈ own → ∃ i : Nat, names'[i]? = some x ∧ layout'[i]? = some a

section Placing
variable {α : Type} {names names' : List String} {layout layout₁ layout' : List α} {own : List (String × α)}
  {x : String} {a : α} {i : Nat}

theorem Placing.nil (names : List String) (layout : List α) : Placing names layout [] names layout :=
  ⟨rfl, List.nodup_nil, fun _ _ => rfl, fun x a h => by simp at h⟩

theorem Placing.prefix_names (h : Placing names layout own names' layout') : names <+: names' :=
  h.names_eq ▸ prefix_foldl_adjoin _ _

theorem Placing.getElem?_of_mem (h : Placing names layout own names' layout') (hn : names'.Nodup)
    (ha : (x, a) ∈ own) (hi : names'[i]? = some x) : layout'[i]? = some a := by
  obtain ⟨j, hj, hput⟩ := h.puts x a ha
  obtain rfl := getElem?_unique hn hi hj
  exact hput

theorem Placing.cons (hi : (adjoin names x)[i]? = some x) (hput : layout₁[i]? = some a)
    (hkeep : ∀ j, j ≠ i → layout₁[j]? = layout[j]?) (hx : x ∉ own.map Prod.fst)
    (h : Placing (adjoin names x) layout₁ own names' layout') :
    Placing names layout ((x, a) :: own) names' layout' := by
  obtain ⟨r, hr⟩ := h.prefix_names
  have hi' : names'[i]? = some x := by
    rw [← hr, List.getElem?_append_left (List.getElem?_eq_some_iff.1 hi).1, hi]
  refine ⟨h.names_eq, List.nodup_cons.2 ⟨hx, h.nodup⟩, fun j hj => ?_, fun y b hb => ?_⟩
  · rw [h.keeps j fun y hy hmem => hj y hy (List.mem_cons_of_mem _ hmem), hkeep j]
    rintro rfl
    exact hj x hi' List.mem_cons_self
  · rcases List.mem_cons.1 hb with heq | hb
    · obtain ⟨rfl, rfl⟩ := Prod.mk.inj heq
      refine ⟨i, hi', ?_⟩
      rw [h.keeps i, hput]
      intro z hz
      obtain rfl := Option.some.inj (hi'.symm.trans hz)
      exact hx
    · exact h.puts y b hb

end Placing

/-- Name and type of a field that is complete. -/
def Field.member? (f : Field) : Option (String × Ty) :=
  f.declared?.map fun (name, type) => (name.text, type)

/-- Name and signature of a method that is complete. -/
def Method.member? (d : Method) : Option (String × Signature) :=
  d.function.declared?.map fun (name, signature) => (name.text, signature)

theorem Field.declares_of_member? {f : Field} {x : String} {t : Ty} (h : f.member? = some (x, t)) :
    ∃ name, f.name = some name ∧ f.type = some t := by
  rw [Field.member?, Field.declared?] at h
  split at h
  · next name type hname htype =>
    obtain ⟨-, rfl⟩ := Prod.mk.inj (Option.some.inj h)
    exact ⟨name, hname, htype⟩
  · cases h

theorem Method.declared?_of_member? {d : Method} {x : String} {s : Signature}
    (h : d.member? = some (x, s)) :
    ∃ name, d.function.declared? = some (name, s) ∧ name.text = x := by
  obtain ⟨⟨name, s'⟩, hdeclared, heq⟩ := Option.map_eq_some_iff.1 h
  obtain ⟨rfl, rfl⟩ := Prod.mk.inj heq
  exact ⟨name, hdeclared, rfl⟩

/-- A field that is complete has the offset of its name in the layout `fs`, any other field has none. -/
def Field.At (fs : List String) (f : Field) : Prop :=
  match f.member? with
  | none => f.offset = none
  | some (x, _) => ∃ i : Nat, f.offset = some (Layout.fieldOffset i) ∧ fs[i]? = some x

/-- A method that is complete has the offset of its name in the layout `ms`, any other method has none. -/
def Method.At (ms : List String) (d : Method) : Prop :=
  match d.member? with
  | none => d.offset = none
  | some (x, _) => ∃ i : Nat, d.offset = some (Layout.methodOffset i) ∧ ms[i]? = some x

section At
variable {fs ms : List String} {f : Field} {d : Method} {x : String}

theorem Field.At.offset {t : Ty} (h : f.At fs) (hm : f.member? = some (x, t)) :
    ∃ i : Nat, f.offset = some (Layout.fieldOffset i) ∧ fs[i]? = some x := by
  rwa [Field.At, hm] at h

theorem Method.At.offset_none (h : d.At ms) (hm : d.member? = none) :
    d.offset = none := by rwa [Method.At, hm] at h

theorem Method.At.offset {s : Signature} (h : d.At ms) (hm : d.member? = some (x, s)) :
    ∃ i : Nat, d.offset = some (Layout.methodOffset i) ∧ ms[i]? = some x := by
  rwa [Method.At, hm] at h

theorem Method.At.member? {o : Nat} (h : d.At ms) (ho : d.offset = some (Layout.methodOffset o)) :
    ∃ x s, d.member? = some (x, s) ∧ ms[o]? = some x := by
  cases hm : d.member? with
  | none => cases (h.offset_none hm).symm.trans ho
  | some q =>
    obtain ⟨i, ho', hi⟩ := h.offset hm
    obtain rfl : i = o := Int.ofNat.inj (Option.some.inj (ho'.symm.trans ho))
    exact ⟨q.1, q.2, rfl, hi⟩

end At

/-- The field `f'` is `f` with the offset of its name in the layout `fs`. -/
structure Field.PlacedAt (fs : List String) (f f' : Field) : Prop where
  eq : f' = { f with offset := f'.offset }
  placed : f'.At fs

/-- The method `d'` is `d` with the offset of its name in the layout `ms`. -/
structure Method.PlacedAt (ms : List String) (d d' : Method) : Prop where
  eq : d'.function = d.function
  placed : d'.At ms

theorem Field.PlacedAt.member? {fs : List String} {f f' : Field} (h : f.PlacedAt fs f') :
    f'.member? = f.member? := by
  rw [h.eq]
  rfl

theorem Method.PlacedAt.member? {ms : List String} {d d' : Method} (h : d.PlacedAt ms d') :
    d'.member? = d.member? := by
  rw [Method.member?, Method.member?, h.eq]

/-! ## What a place depends on -/

namespace Members

section Places
variable {level : Nat} {m m' : Members} {reports : List Diagnostic}

/-- A field gets the offset that every field of the same name and type would get. -/
theorem placeField_eq_ok {f e : Field} (h : m.placeField level f = .ok (e, m', reports)) :
    ∃ o : Option Int, e = { f with offset := f.offset.or o } ∧ ∀ f' : Field, f'.declared? = f.declared? →
      m.placeField level f' = .ok ({ f' with offset := f'.offset.or o }, m', reports) := by
  unfold placeField at h ⊢
  split at h
  · next hd =>
    cases h
    exact ⟨none, by rw [Option.or_none], fun f' hf' => by rw [hf', hd, Option.or_none]⟩
  · next name type hd =>
    split at h
    · next hv =>
      cases h
      exact ⟨none, by rw [Option.or_none], fun f' hf' => by simp only [hf', hd, hv, Option.or_none]⟩
    · next hv =>
      cases h
      exact ⟨none, by rw [Option.or_none], fun f' hf' => by simp only [hf', hd, hv, Option.or_none]⟩
    · next offset hv =>
      simp only [bind_eq_ok, pure_eq_ok, Prod.mk.injEq] at h
      obtain ⟨added, hadded, rfl, rfl, rfl⟩ := h
      refine ⟨some offset, rfl, fun f' hf' => ?_⟩
      simp only [hf', hd, hv, hadded, ok_bind]
      rfl

theorem placeMethod_eq_ok {d e : Method} (h : m.placeMethod level d = .ok (e, m', reports)) :
    ∃ o : Option Int, e = { d with offset := d.offset.or o } ∧
      ∀ d' : Method, d'.function.declared? = d.function.declared? →
      m.placeMethod level d' = .ok ({ d' with offset := d'.offset.or o }, m', reports) := by
  unfold placeMethod at h ⊢
  split at h
  · next hd =>
    cases h
    exact ⟨none, by rw [Option.or_none], fun d' hd' => by rw [hd', hd, Option.or_none]⟩
  · next name signature hd =>
    split at h
    · next hv =>
      cases h
      exact ⟨none, by rw [Option.or_none], fun d' hd' => by simp only [hd', hd, hv, Option.or_none]⟩
    · next hv =>
      cases h
      exact ⟨none, by rw [Option.or_none], fun d' hd' => by simp only [hd', hd, hv, Option.or_none]⟩
    · next offset hv =>
      simp only [bind_eq_ok, pure_eq_ok, Prod.mk.injEq] at h
      obtain ⟨added, hadded, rfl, rfl, rfl⟩ := h
      refine ⟨some offset, rfl, fun d' hd' => ?_⟩
      simp only [hd', hd, hv, hadded, ok_bind]
      rfl

end Places

end Members

end Classlet

import Classlet.Proofs.Layouts
import Classlet.Proofs.Lineage
import Classlet.Proofs.Subtyping
import Mathlib.Data.List.Chain
/-!
# The hierarchy of a program has no cycles

No check looks for a class that extends itself. A superclass has to be declared before the class that names
it, so the position of the declaration goes down along every edge, if only no class name is declared twice
(`Class.Ordered`). In a hierarchy without cycles the walk of `ancestors` is never cut off by its bound: it
goes on to a class without a superclass (`Hierarchy.Acyclic.isLineOf_ancestors`).
-/

namespace Classlet

/-! ## Hierarchies without cycles -/

namespace Hierarchy

/-- No class is strictly above itself. -/
def Acyclic (h : Hierarchy) : Prop := ∀ c, ¬ Relation.TransGen h.Edge c c

/-- `line` is the way from `c` to a class without a superclass. It meets every class strictly above `c`, and
no class twice. -/
structure IsLineOf (h : Hierarchy) (c : String) (line : List String) : Prop where
  steps : (c :: line).IsChain h.Edge
  ends : h.superclass? (line.getLastD c) = none
  nodup : (c :: line).Nodup
  mem_iff (d : String) : d ∈ line ↔ Relation.TransGen h.Edge c d

section Walk
variable {h : Hierarchy} {a b : String}

theorem transGen_iff_up : Relation.TransGen h.Edge a b ↔ ∃ k, h.up (k + 1) a = some b := by
  rw [Relation.TransGen.head'_iff]
  constructor
  · rintro ⟨c, hac, hcb⟩
    obtain ⟨k, hk⟩ := reaches_iff_up.1 hcb
    exact ⟨k, by rw [up, hac, Option.bind_some, hk]⟩
  · rintro ⟨k, hk⟩
    rw [up, Option.bind_eq_some_iff] at hk
    obtain ⟨c, hac, hk⟩ := hk
    exact ⟨c, hac, reaches_iff_up.2 ⟨k, hk⟩⟩

theorem isChain_chain (n : Nat) (a : String) : (a :: h.chain n a).IsChain h.Edge := by
  induction n generalizing a with
  | zero => exact .singleton a
  | succ n ih =>
    rw [chain]
    cases ha : h.superclass? a with
    | none => exact .singleton a
    | some d => exact .cons_cons ha (ih d)

/-- Cut off or not, the walk meets every class that is strictly above. -/
theorem mem_ancestors_iff : b ∈ h.ancestors a ↔ Relation.TransGen h.Edge a b := by
  rw [ancestors, mem_chain_iff, transGen_iff_up]
  constructor
  · rintro ⟨k, -, hk⟩
    exact ⟨k, hk⟩
  · rintro ⟨k, hk⟩
    exact exists_up_lt_size hk

/-- A walk that could go on has taken all of its steps. -/
theorem up_of_chain_goes_on {n : Nat} (hb : h.superclass? ((h.chain n a).getLastD a) = some b) :
    h.up (n + 1) a = some b := by
  induction n generalizing a with
  | zero => rw [up, show h.superclass? a = some b from hb]; rfl
  | succ n ih =>
    rw [chain] at hb
    cases ha : h.superclass? a with
    | none =>
      rw [ha] at hb
      cases ha.symm.trans hb
    | some d =>
      rw [ha, List.getLastD_cons] at hb
      rw [up, ha, Option.bind_some, ih hb]

/-- Without cycles a way has no more steps than there are edges. -/
theorem Acyclic.up_eq_none (hacyclic : h.Acyclic) (a : String) : h.up (h.size + 1) a = none := by
  rw [Option.eq_none_iff_forall_ne_some]
  intro b hb
  obtain ⟨i, j, hij, hj, heq⟩ := exists_up_eq (Nat.le_refl h.size) hb
  obtain ⟨m, rfl⟩ := Nat.exists_eq_add_of_lt hij
  obtain ⟨k, hk⟩ := Nat.exists_eq_add_of_le (Nat.le_trans (Nat.le_of_lt hij) hj)
  rw [hk, Nat.add_assoc, up_add, Option.bind_eq_some_iff] at hb
  obtain ⟨c, hc, -⟩ := hb
  -- the class `i` steps up comes again `m + 1` steps later
  rw [Nat.add_assoc, up_add, hc, Option.bind_some] at heq
  exact hacyclic c (transGen_iff_up.2 ⟨m, heq.symm⟩)

theorem Acyclic.isLineOf_ancestors (hacyclic : h.Acyclic) (c : String) : h.IsLineOf c (h.ancestors c) where
  steps := isChain_chain h.size c
  ends := by
    rw [Option.eq_none_iff_forall_ne_some]
    intro b hb
    cases (hacyclic.up_eq_none c).symm.trans (up_of_chain_goes_on hb)
  nodup := by
    have hchain : (c :: h.ancestors c).IsChain (Relation.TransGen h.Edge) :=
      (isChain_chain h.size c).imp fun _ _ => .single
    -- of two classes on the way, the second is above the first
    refine hchain.pairwise.imp fun {a b} hab heq => ?_
    exact hacyclic a (heq ▸ hab)
  mem_iff _ := mem_ancestors_iff

theorem acyclic_of_rank (rank : String → Nat) (hrank : ∀ a b, h.Edge a b → rank b < rank a) :
    h.Acyclic := by
  have hlt : ∀ {a b : String}, Relation.TransGen h.Edge a b → rank b < rank a := by
    intro a b hab
    induction hab with
    | single hedge => exact hrank _ _ hedge
    | tail _ hedge ih => exact Nat.lt_trans (hrank _ _ hedge) ih
  exact fun c hc => Nat.lt_irrefl _ (hlt hc)

end Walk

end Hierarchy

/-! ## The edges of the classes -/

namespace Table

variable {α : Type} {key : String} {value : α}

theorem assign_of_not_mem {l : List (String × α)} (hkey : key ∉ l.map Prod.fst) :
    assign key value l = l ++ [(key, value)] := by
  induction l with
  | nil => rfl
  | cons p l ih =>
    obtain ⟨k, v⟩ := p
    rw [List.map_cons, List.mem_cons, not_or] at hkey
    rw [assign, if_neg (Ne.symm hkey.1), ih hkey.2, List.cons_append]

theorem get?_eq_some_iff {t : Table α} : t.get? key = some value ↔ (key, value) ∈ t.entries := by
  obtain ⟨l, hl⟩ := t
  rw [get?]
  induction l with
  | nil => exact ⟨fun h => (by cases h), fun h => (by cases h)⟩
  | cons p l ih =>
    obtain ⟨k, v⟩ := p
    rw [List.map_cons, List.nodup_cons] at hl
    rw [find, List.mem_cons, Prod.mk.injEq]
    by_cases hk : k = key
    · subst hk
      have hnot : (k, value) ∉ l := fun hmem => hl.1 (List.mem_map.2 ⟨_, hmem, rfl⟩)
      simp [hnot, eq_comm]
    · rw [if_neg hk, ih hl.2]
      simp [Ne.symm hk]

end Table

/-- The edge of a class with a name whose superclass was found. -/
def Class.edge? (c : Class) : Option (String × String) :=
  match c.name, c.superclass, c.superEntry with
  | some name, some superclass, some _ => some (name.text, superclass.text)
  | _, _, _ => none

theorem Class.edge?_eq_some {c : Class} {a b : String} (hc : c.edge? = some (a, b)) :
    ∃ name s, c.name = some name ∧ c.superclass = some s ∧ c.superEntry.isSome = true ∧ name.text = a ∧
      s.text = b := by
  unfold Class.edge? at hc
  split at hc
  · next name s e hname hs he =>
    obtain ⟨rfl, rfl⟩ := Prod.mk.inj (Option.some.inj hc)
    exact ⟨name, s, hname, hs, by rw [he]; rfl, rfl, rfl⟩
  · cases hc

theorem Class.entries_extendHierarchy {c : Class} {h : Hierarchy}
    (hfree : ∀ x, c.name.map Name.text = some x → x ∉ h.supers.entries.map Prod.fst) :
    (c.extendHierarchy h).supers.entries = h.supers.entries ++ c.edge?.toList := by
  unfold Class.extendHierarchy Class.edge?
  cases hname : c.name with
  | none => exact (List.append_nil _).symm
  | some name =>
    cases c.superclass with
    | none => exact (List.append_nil _).symm
    | some s =>
      cases c.superEntry with
      | none => exact (List.append_nil _).symm
      | some e => exact Table.assign_of_not_mem (hfree _ (by rw [hname]; rfl))

/-- Checking classes adds their edges, one after the other. -/
theorem Class.checkAll_entries {cs : List Class} {h last : Hierarchy} {reports : List Diagnostic}
    (hn : (Class.names cs).Nodup) (hfree : ∀ x ∈ Class.names cs, x ∉ h.supers.entries.map Prod.fst)
    (hc : Class.checkAll h cs = .ok (last, reports)) :
    last.supers.entries = h.supers.entries ++ cs.filterMap Class.edge? := by
  induction cs generalizing h reports with
  | nil =>
    cases hc
    exact (List.append_nil _).symm
  | cons c cs ih =>
    simp only [Class.checkAll, bind_eq_ok, pure_eq_ok, Prod.exists, Prod.mk.injEq] at hc
    obtain ⟨-, -, last, rest, hrest, rfl, -⟩ := hc
    rw [Class.names_cons] at hn hfree
    obtain ⟨-, hn, hdisjoint⟩ := List.nodup_append.1 hn
    have hstep : (c.extendHierarchy h).supers.entries = h.supers.entries ++ c.edge?.toList :=
      Class.entries_extendHierarchy fun x hx => hfree x (List.mem_append_left _ (Option.mem_toList.2 hx))
    rw [ih hn (fun x hx => ?_) hrest, hstep, List.append_assoc, List.filterMap_cons]
    · cases c.edge? <;> rfl
    · rw [hstep, List.map_append, List.mem_append, not_or]
      refine ⟨hfree x (List.mem_append_right _ hx), fun hmem => ?_⟩
      obtain ⟨⟨a, b⟩, hab, rfl⟩ := List.mem_map.1 hmem
      obtain ⟨name, -, hname, -, -, rfl, -⟩ := Class.edge?_eq_some (Option.mem_toList.1 hab)
      exact hdisjoint _ (by simp [hname]) _ hx rfl

/-! ## Classes in the order of their declarations -/

/-- No two classes have one name, and a class has the entry of its superclass if and only if a class before
it has that name. -/
structure Class.Ordered (trees : List Class) : Prop where
  nodup : (Class.names trees).Nodup
  found (i : Nat) (c : Class) : trees[i]? = some c → c.name.isSome = true →
    (c.superEntry.isSome = true ↔ ∃ s ∈ c.superclass, s.text ∈ Class.names (trees.take i))

/-- Whether the diagnostic says that a class is declared twice. -/
def Diagnostic.repeatsClass (d : Diagnostic) : Bool :=
  match d.problem.cause with
  | .duplicateDeclaration .cls _ => true
  | _ => false

section Resolution
variable {env : Env} {classes : List (String × Shape)} {c : Class} {done : List Class}

theorem Class.resolve_heading {r : ResolvedClass} (hr : c.resolve env = .ok r) :
    r.tree.name = c.name ∧ r.tree.superclass = c.superclass := by
  unfold Class.resolve at hr
  split at hr
  · simp only [bind_eq_ok, pure_eq_ok] at hr
    obtain ⟨placed, -, rfl⟩ := hr
    exact ⟨rfl, rfl⟩
  · cases hr
    exact ⟨rfl, rfl⟩

/-- A class that is not reported as declared twice has a new name. -/
theorem Class.resolve_fresh (h : env.Declares classes) {name : Name} (hname : c.name = some name)
    {r : ResolvedClass} (hr : c.resolve env = .ok r) (hreports : ∀ d ∈ r.reports, d.repeatsClass = false) :
    name.text ∉ classes.map Prod.fst := by
  simp only [Class.resolve, hname, bind_eq_ok, pure_eq_ok] at hr
  obtain ⟨placed, -, rfl⟩ := hr
  rcases h.class_cases name.text with ⟨hnone, -, -⟩ | ⟨-, e, -, -, hglobal, -⟩
  · exact not_mem_keys_of_lookup hnone
  · refine absurd (hreports (.error (.duplicateDeclaration .cls name.text) name.span) ?_)
      Bool.true_eq_false_eq_False
    simp [Class.resolvePlaced, Env.classDuplicates, hglobal, Diagnostic.errors, Diagnostic.error]

theorem Class.Ordered.step (ho : Class.Ordered done) (h : env.Declares classes)
    (hkeys : classes.map Prod.fst = Class.names done) (hb : Bare c.notes) (ht : Written c.types)
    {r : ResolvedClass} (hr : c.resolve env = .ok r) (hreports : ∀ d ∈ r.reports, d.repeatsClass = false) :
    Class.Ordered (done ++ [r.tree]) := by
  obtain ⟨htreeName, htreeSuper⟩ := Class.resolve_heading hr
  constructor
  · rw [Class.names_append, Class.names_cons, htreeName]
    cases hname : c.name with
    | none => simpa [Class.names] using ho.nodup
    | some name =>
      have hfresh := Class.resolve_fresh h hname hr hreports
      rw [hkeys] at hfresh
      refine List.nodup_append.2 ⟨ho.nodup, List.nodup_singleton _, fun x hx y hy => ?_⟩
      rintro rfl
      exact hfresh (List.mem_singleton.1 hy ▸ hx)
  · intro i d hi hd
    -- the classes before are as they were, and only the last one is new
    rcases Nat.lt_or_ge i done.length with hlt | hge
    · rw [List.getElem?_append_left hlt] at hi
      rw [List.take_append_of_le_length (Nat.le_of_lt hlt)]
      exact ho.found i d hi hd
    · have hlength : i < (done ++ [r.tree]).length := (List.getElem?_eq_some_iff.1 hi).1
      rw [List.length_append, List.length_singleton] at hlength
      obtain rfl : i = done.length := by omega
      rw [List.getElem?_concat_length] at hi
      obtain rfl := Option.some.inj hi
      rw [htreeName] at hd
      obtain ⟨name, hname⟩ := Option.isSome_iff_exists.1 hd
      obtain ⟨-, -, -, hfound, -⟩ := Class.resolve_laidOut h hb ht hname hr
      rw [List.take_left', htreeSuper, ← hkeys]
      · exact hfound
      · rfl

theorem Class.Ordered.run {cs : List Class} (ho : Class.Ordered done) (h : env.Declares classes)
    (hkeys : classes.map Prod.fst = Class.names done) (hb : Bare (cs.flatMap Class.notes))
    (ht : Written (cs.flatMap Class.types)) {r : ResolvedClasses} (hr : Class.resolveAll env cs = .ok r)
    (hreports : ∀ d ∈ r.reports, d.repeatsClass = false) :
    Class.Ordered (done ++ r.trees) := by
  induction cs generalizing env classes done r with
  | nil =>
    cases hr
    rwa [List.append_nil]
  | cons c cs ih =>
    simp only [Class.resolveAll, bind_eq_ok, pure_eq_ok] at hr
    obtain ⟨first, hfirst, rest, hrest, rfl⟩ := hr
    rw [List.flatMap_cons, bare_append] at hb
    rw [List.flatMap_cons, written_append] at ht
    obtain ⟨hdeclares, -⟩ := Class.resolve_declares h hb.1 ht.1 hfirst
    rw [List.append_cons]
    refine ih (ho.step h hkeys hb.1 ht.1 hfirst fun d hd => hreports d (List.mem_append_left _ hd))
      hdeclares ?_ hb.2 ht.2 hrest
      fun d hd => hreports d (List.mem_append_right _ hd)
    rw [Class.names_append, Class.names_cons, (Class.resolve_heading hfirst).1, ← hkeys]
    have hkeys' := Class.keys_declareShape [c] classes
    rwa [Class.names_cons] at hkeys'

theorem Class.ordered_nil : Class.Ordered [] where
  nodup := List.nodup_nil
  found i c hi := by simp at hi

theorem Class.resolveAll_headings {cs : List Class} {r : ResolvedClasses}
    (hr : Class.resolveAll env cs = .ok r) :
    r.trees.map (fun c => (c.name, c.superclass)) = cs.map fun c => (c.name, c.superclass) := by
  induction cs generalizing env r with
  | nil =>
    cases hr
    rfl
  | cons c cs ih =>
    simp only [Class.resolveAll, bind_eq_ok, pure_eq_ok] at hr
    obtain ⟨first, hfirst, rest, hrest, rfl⟩ := hr
    obtain ⟨hname, hsuper⟩ := Class.resolve_heading hfirst
    rw [List.map_cons, List.map_cons, ih hrest, hname, hsuper]

end Resolution

/-! ## Programs -/

/-- The hierarchy is made of the superclasses that were found, all of which stand before the classes that
extend them. -/
structure Hierarchy.Follows (h : Hierarchy) (trees : List Class) : Prop where
  entries : h.supers.entries = trees.filterMap Class.edge?
  earlier (a b : String) : h.Edge a b → ∃ (i j : Nat) (c d : Class), j < i ∧ trees[i]? = some c ∧
    trees[j]? = some d ∧ c.name.map Name.text = some a ∧ d.name.map Name.text = some b

/-- Checking classes whose superclasses stand before them leaves just their edges. -/
theorem Class.Ordered.follows {trees : List Class} (ho : Class.Ordered trees) {last : Hierarchy}
    {reports : List Diagnostic} (hc : Class.checkAll .empty trees = .ok (last, reports)) :
    last.Follows trees := by
  have hentries : last.supers.entries = trees.filterMap Class.edge? :=
    Class.checkAll_entries ho.nodup (fun _ _ => List.not_mem_nil) hc
  refine ⟨hentries, fun a b hab => ?_⟩
  have hmem : (a, b) ∈ trees.filterMap Class.edge? := hentries ▸ Table.get?_eq_some_iff.1 hab
  obtain ⟨c, hc, hedge⟩ := List.mem_filterMap.1 hmem
  obtain ⟨i, hi⟩ := List.mem_iff_getElem?.1 hc
  obtain ⟨name, s, hname, hs, hentry, rfl, rfl⟩ := Class.edge?_eq_some hedge
  obtain ⟨s', hs', hmem⟩ := (ho.found i c hi (by rw [hname]; rfl)).1 hentry
  obtain rfl := Option.some.inj (hs.symm.trans hs')
  obtain ⟨j, d, name', hj, hname', htext⟩ := Class.mem_names.1 hmem
  rw [List.getElem?_take] at hj
  split at hj
  · next hlt => exact ⟨i, j, c, d, hlt, hi, hj, by rw [hname]; rfl, by rw [hname', Option.map_some, htext]⟩
  · cases hj

/-- The position of a name is the number of names before it. -/
theorem Class.idxOf_names {trees : List Class} (hn : (Class.names trees).Nodup) {i : Nat} {c : Class}
    {name : Name} (hi : trees[i]? = some c) (hname : c.name = some name) :
    (Class.names trees).idxOf name.text = (Class.names (trees.take i)).length := by
  obtain ⟨hlt, rfl⟩ := List.getElem?_eq_some_iff.1 hi
  have hsplit : Class.names trees =
      Class.names (trees.take i) ++ name.text :: Class.names (trees.drop (i + 1)) := by
    conv_lhs => rw [← List.take_append_drop i trees, List.drop_eq_getElem_cons hlt]
    rw [Class.names_append, Class.names_cons, hname]
    rfl
  have hnot : name.text ∉ Class.names (trees.take i) := by
    rw [hsplit] at hn
    exact fun hmem => (List.nodup_append.1 hn).2.2 _ hmem _ List.mem_cons_self rfl
  rw [hsplit, List.idxOf_append_of_notMem hnot, List.idxOf_cons_self, Nat.add_zero]

theorem Hierarchy.Follows.acyclic {h : Hierarchy} {trees : List Class} (hf : h.Follows trees)
    (hn : (Class.names trees).Nodup) :
    h.Acyclic := by
  refine Hierarchy.acyclic_of_rank (fun x => (Class.names trees).idxOf x) fun a b hab => ?_
  obtain ⟨i, j, c, d, hji, hi, hj, ha, hb⟩ := hf.earlier a b hab
  obtain ⟨name, hname, rfl⟩ := Option.map_eq_some_iff.1 ha
  obtain ⟨name', hname', rfl⟩ := Option.map_eq_some_iff.1 hb
  simp only [Class.idxOf_names hn hi hname, Class.idxOf_names hn hj hname']
  exact Class.length_names_take hj hname' hji

theorem Program.checkAll_of_check {p : Program} {h : Hierarchy} {checked : Checked}
    (hc : p.check h = .ok checked) :
    ∃ reports, Class.checkAll h p.classes = .ok (checked.hierarchy, reports) := by
  simp only [Program.check, bind_eq_ok, Prod.exists] at hc
  obtain ⟨last, reports, hall, hc⟩ := hc
  split at hc
  · obtain rfl := pure_eq_ok.1 hc
    exact ⟨reports, hall⟩
  · obtain rfl := pure_eq_ok.1 hc
    exact ⟨reports, hall⟩

theorem Program.resolve_classes {p : Program} {r : Resolved} (hb : Bare p.notes) (ht : Written p.types)
    (hr : p.resolve = .ok r) :
    r.tree.classes.map (fun c => (c.name, c.superclass)) = p.classes.map (fun c => (c.name, c.superclass)) ∧
      ((∀ d ∈ r.reports, d.repeatsClass = false) → Class.Ordered r.tree.classes) := by
  cases p with
  | expr body span =>
    cases hr
    exact ⟨rfl, fun _ => Class.ordered_nil⟩
  | letIn classes decls body span =>
    simp only [Program.resolve, bind_eq_ok, pure_eq_ok] at hr
    obtain ⟨resolved, hresolved, rfl⟩ := hr
    simp only [Program.notes, Program.classes, bare_append] at hb
    simp only [Program.types, Program.classes, written_append] at ht
    refine ⟨Class.resolveAll_headings hresolved, fun hreports => ?_⟩
    exact Class.ordered_nil.run Env.declares_initial rfl hb.1.1 ht.1 hresolved
      fun d hd => hreports d (List.mem_append_left _ hd)

/-- A program is resolved and checked whatever is wrong with it. If no class is reported as declared twice,
the hierarchy has the edges of its classes and no others, each to a class that stands before, and so it has
no cycles, and `ancestors` gives the whole way up from every class. -/
theorem Program.hierarchy_acyclic {p : Program} (hb : Bare p.notes) (ht : Written p.types) :
    ∃ r checked, p.resolve = .ok r ∧ r.tree.check .empty = .ok checked ∧
      r.tree.classes.map (fun c => (c.name, c.superclass)) =
        p.classes.map (fun c => (c.name, c.superclass)) ∧
      ((∀ d ∈ r.reports, d.repeatsClass = false) →
        Class.Ordered r.tree.classes ∧ checked.hierarchy.Follows r.tree.classes ∧
          checked.hierarchy.Acyclic ∧
          ∀ c, checked.hierarchy.IsLineOf c (checked.hierarchy.ancestors c)) := by
  obtain ⟨r, hr, hfits⟩ := Program.resolve_fits hb ht
  obtain ⟨checked, hchecked⟩ := Program.check_succeeds (h := .empty) hfits
  obtain ⟨reports, hall⟩ := Program.checkAll_of_check hchecked
  obtain ⟨hheadings, hordered⟩ := Program.resolve_classes hb ht hr
  refine ⟨r, checked, hr, hchecked, hheadings, fun hreports => ?_⟩
  have hfollows : checked.hierarchy.Follows r.tree.classes := (hordered hreports).follows hall
  have hacyclic : checked.hierarchy.Acyclic := hfollows.acyclic (hordered hreports).nodup
  exact ⟨hordered hreports, hfollows, hacyclic, hacyclic.isLineOf_ancestors⟩

/-- One class names a superclass that is declared nowhere, one has no name, and one declares a field twice
and overrides a method with another type. -/
def kennel : Program :=
  .letIn
    [.plain "Animal" none [("age", .int)] [.plain "older" [] .int (.variable "age")],
      .plain "Cat" (some "Feline") [] [],
      .plain "Dog" (some "Animal") [("tag", .int), ("tag", .bool)]
        [.plain "older" [] (.ref "Dog") (.variable "tag")],
      { Class.plain "Wolf" (some "Dog") [] [] with name := none },
      .plain "Puppy" (some "Dog") [] []]
    [] (.make "Puppy" []) .synthetic

theorem kennel_hierarchy_acyclic :
    Bare kennel.notes ∧ Written kennel.types ∧ ∃ r checked, kennel.resolve = .ok r ∧
      r.tree.check .empty = .ok checked ∧
      r.reports ≠ [] ∧ (∀ d ∈ r.reports, d.repeatsClass = false) ∧ checked.reports ≠ [] ∧
      checked.hierarchy.supers.entries = [("Dog", "Animal"), ("Puppy", "Dog")] ∧ checked.hierarchy.Acyclic ∧
      checked.hierarchy.IsLineOf "Puppy" ["Dog", "Animal"] := by
  refine ⟨by decide, by decide, ?_⟩
  obtain ⟨r, checked, hr, hchecked, hclasses, hordered⟩ :=
    Program.hierarchy_acyclic (p := kennel) (by decide) (by decide)
  obtain ⟨r', checked', hr', hchecked', htests⟩ :=
    Program.exists_checked (p := kennel) (P := fun r checked =>
    r.reports ≠ [] ∧ (∀ d ∈ r.reports, d.repeatsClass = false) ∧ checked.reports ≠ [] ∧
      checked.hierarchy.supers.entries = [("Dog", "Animal"), ("Puppy", "Dog")] ∧
      checked.hierarchy.ancestors "Puppy" = ["Dog", "Animal"]) (by decide +kernel)
  obtain rfl := Except.ok.inj (hr.symm.trans hr')
  obtain rfl := Except.ok.inj (hchecked.symm.trans hchecked')
  obtain ⟨hsome, hreports, hsome', hentries, hancestors⟩ := htests
  obtain ⟨-, -, hacyclic, hlines⟩ := hordered hreports
  exact ⟨r, checked, hr, hchecked, hsome, hreports, hsome', hentries, hacyclic, hancestors ▸ hlines "Puppy"⟩

end Classlet

import Classlet.Proofs.Order
/-!
# Least common supertypes

The lowest common ancestor of two types is looked for on one side only: the walk goes up from the class of
the first type and stops at the first class that the second type is below. Every class further up the walk
is above the one where it stops, so what is found is the least type above both, and without cycles the order
of the two types does not matter (`Hierarchy.lowestCommonAncestor?_isJoin`).
-/

namespace Classlet

/-- The types that values have: numbers, booleans, objects and `null`. -/
def Ty.isGround : Ty → Bool
  | int | bool | ref _ | empty => true
  | _ => false

namespace Hierarchy

/-- `t` is the least of the types that are above both `a` and `b`. -/
structure IsJoin (h : Hierarchy) (a b t : Ty) : Prop where
  left : h.isSubtype a t = true
  right : h.isSubtype b t = true
  least (u : Ty) : h.isSubtype a u = true → h.isSubtype b u = true → h.isSubtype t u = true

section Walk
variable {h : Hierarchy} {a b t u : Ty} {c d : String}

theorem IsJoin.symm (hj : h.IsJoin a b t) : h.IsJoin b a t :=
  ⟨hj.right, hj.left, fun u hb ha => hj.least u ha hb⟩

theorem Acyclic.isJoin_unique (hacyclic : h.Acyclic) (ht : h.IsJoin a b t) (hu : h.IsJoin a b u) : t = u :=
  hacyclic.isSubtype_antisymm t u (ht.least u hu.left hu.right) (hu.least t ht.left ht.right)

theorem isSubtype_ref_left : h.isSubtype (.ref c) t = true ↔ ∃ d, t = .ref d ∧ h.isSubclass c d = true := by
  constructor
  · intro ht
    cases t with
    | ref d => exact ⟨d, rfl, ht⟩
    | _ => cases ht
  · rintro ⟨d, rfl, hd⟩
    exact hd

theorem isSubtype_ref_right (ht : h.isSubtype t (.ref d) = true) : t = .empty ∨ ∃ c, t = .ref c := by
  cases t with
  | empty => exact .inl rfl
  | ref c => exact .inr ⟨c, rfl⟩
  | _ => cases ht

theorem isSubtype_int_right (ht : h.isSubtype t .int = true) : t = .int ∨ t = .bool := by
  cases t with
  | int => exact .inl rfl
  | bool => exact .inr rfl
  | _ => cases ht

/-- Of two classes on the way up from `c` the later one is above the earlier one. -/
theorem pairwise_ancestors (h : Hierarchy) (c : String) : (c :: h.ancestors c).Pairwise h.Reaches :=
  ((isChain_chain h.size c).imp fun _ _ => Relation.ReflTransGen.single).pairwise

/-- A type above `c` that is not `c` itself is met on the way up. -/
theorem mem_ancestors_of_isSubtype (hu : h.isSubtype (.ref c) u = true) (hne : u ≠ .ref c) :
    ∃ d ∈ h.ancestors c, u = .ref d := by
  obtain ⟨d, rfl, hd⟩ := isSubtype_ref_left.1 hu
  rcases Relation.reflTransGen_iff_eq_or_transGen.1 (isSubclass_iff.1 hd) with rfl | hstrict
  · exact absurd rfl hne
  · exact ⟨d, mem_ancestors_iff.2 hstrict, rfl⟩

/-- The first type on the way up that is above `b` is below all others that are. -/
theorem isJoin_of_find? (hnot : h.isSubtype b (.ref c) ≠ true)
    (hfind : ((h.ancestors c).map Ty.ref).find? (h.isSubtype b) = some t) : h.IsJoin (.ref c) b t := by
  rw [List.find?_map, Option.map_eq_some_iff] at hfind
  obtain ⟨x, hx, rfl⟩ := hfind
  obtain ⟨hright, before, after, hway, hbefore⟩ := List.find?_eq_some_iff_append.1 hx
  have hpairwise := h.pairwise_ancestors c
  rw [hway, List.pairwise_cons] at hpairwise
  obtain ⟨habove, hpairwise⟩ := hpairwise
  refine ⟨isSubclass_iff.2 (habove x (List.mem_append_right _ List.mem_cons_self)), hright,
    fun u hu hbu => ?_⟩
  obtain ⟨y, hy, rfl⟩ := mem_ancestors_of_isSubtype hu fun heq => hnot (heq ▸ hbu)
  have hyabove : y ∉ before := fun hmem => absurd (hbefore y hmem) (by simpa using hbu)
  rw [hway, List.mem_append] at hy
  rcases List.mem_cons.1 (hy.resolve_left hyabove) with rfl | hafter
  · exact isSubclass_iff.2 .refl
  · exact isSubclass_iff.2 ((List.pairwise_cons.1 (List.pairwise_append.1 hpairwise).2.1).1 y hafter)

theorem find?_isSome_of_isSubtype (hnot : h.isSubtype b (.ref c) ≠ true)
    (hu : h.isSubtype (.ref c) u = true) (hbu : h.isSubtype b u = true) :
    (((h.ancestors c).map Ty.ref).find? (h.isSubtype b)).isSome = true := by
  obtain ⟨d, hd, rfl⟩ := mem_ancestors_of_isSubtype hu fun heq => hnot (heq ▸ hbu)
  exact List.find?_isSome.2 ⟨.ref d, List.mem_map_of_mem hd, hbu⟩

end Walk

section Search
variable {h : Hierarchy} {a b t u : Ty}

theorem lowestCommonAncestor?_of_isSubtype (hab : h.isSubtype a b = true) :
    h.lowestCommonAncestor? a b = some b := by
  unfold lowestCommonAncestor?
  rw [if_pos hab]

theorem lowestCommonAncestor?_of_isSupertype (hab : h.isSubtype a b ≠ true) (hba : h.isSubtype b a = true) :
    h.lowestCommonAncestor? a b = some a := by
  unfold lowestCommonAncestor?
  rw [if_neg hab, if_pos hba]

/-- Types of which neither is below the other have a common ancestor only if both are classes. -/
theorem lowestCommonAncestor?_of_apart (hab : h.isSubtype a b ≠ true) (hba : h.isSubtype b a ≠ true) :
    (∃ c d, a = .ref c ∧ b = .ref d ∧
      h.lowestCommonAncestor? a b = ((h.ancestors c).map Ty.ref).find? (h.isSubtype b)) ∨
      ((∀ c d, a = .ref c → b ≠ .ref d) ∧ h.lowestCommonAncestor? a b = none) := by
  unfold lowestCommonAncestor?
  rw [if_neg hab, if_neg hba]
  cases a with
  | ref c =>
    by_cases hb : ∃ d, b = .ref d
    · obtain ⟨d, rfl⟩ := hb
      exact .inl ⟨c, d, rfl, rfl, rfl⟩
    · refine .inr ⟨fun _ d _ heq => hb ⟨d, heq⟩, List.find?_eq_none.2 fun u hu hbu => ?_⟩
      obtain ⟨d, -, rfl⟩ := List.mem_map.1 hu
      rcases isSubtype_ref_right hbu with rfl | hb'
      · exact hba rfl
      · exact hb hb'
  | _ => exact .inr ⟨nofun, rfl⟩

/-- Values' types with a common supertype are comparable, unless both are classes or `null`. -/
theorem isSubtype_of_isGround (ha : a.isGround = true) (hclasses : ∀ c d, a = .ref c → b ≠ .ref d)
    (hnull : ¬(a = .empty ∧ b = .empty)) (hu : h.isSubtype a u = true) (hbu : h.isSubtype b u = true) :
    h.isSubtype a b = true ∨ h.isSubtype b a = true := by
  cases u with
  | int =>
    rcases isSubtype_int_right hu with rfl | rfl
    · exact .inr hbu
    · rcases isSubtype_int_right hbu with rfl | rfl
      · exact .inl rfl
      · exact .inl rfl
  | ref d =>
    rcases isSubtype_ref_right hu with rfl | ⟨c, rfl⟩
    · rcases isSubtype_ref_right hbu with rfl | ⟨c', rfl⟩
      · exact absurd ⟨rfl, rfl⟩ hnull
      · exact .inl rfl
    · rcases isSubtype_ref_right hbu with rfl | ⟨c', rfl⟩
      · exact .inr rfl
      · exact absurd rfl (hclasses c c' rfl)
  | bool =>
    cases a with
    | bool => exact .inr hbu
    | _ => cases hu
  | arrow s =>
    obtain ⟨s', rfl⟩ := isSubtype_arrow_right hu
    cases ha
  | cls _ _ | method _ | empty => cases a <;> cases hu

/-- The upper one of two values' types is their join. -/
theorem isJoin_of_isSubtype (hb : b.isGround = true) (hab : h.isSubtype a b = true) : h.IsJoin a b b := by
  refine ⟨hab, isSubtype_refl b ?_, fun u _ hbu => hbu⟩
  cases b with
  | int | bool | ref _ => rfl
  | empty =>
    -- nothing is below `null`
    cases a <;> cases hab
  | _ => cases hb

theorem isJoin_of_lowestCommonAncestor? (ha : a.isGround = true) (hb : b.isGround = true)
    (ht : h.lowestCommonAncestor? a b = some t) : h.IsJoin a b t := by
  by_cases hab : h.isSubtype a b = true
  · rw [lowestCommonAncestor?_of_isSubtype hab] at ht
    exact Option.some.inj ht ▸ isJoin_of_isSubtype hb hab
  by_cases hba : h.isSubtype b a = true
  · rw [lowestCommonAncestor?_of_isSupertype hab hba] at ht
    exact Option.some.inj ht ▸ (isJoin_of_isSubtype ha hba).symm
  rcases lowestCommonAncestor?_of_apart hab hba with ⟨c, d, rfl, rfl, heq⟩ | ⟨-, heq⟩
  · exact isJoin_of_find? hba (heq.symm.trans ht)
  · cases heq.symm.trans ht

theorem lowestCommonAncestor?_isSome (ha : a.isGround = true) (hnull : ¬(a = .empty ∧ b = .empty))
    (hu : h.isSubtype a u = true) (hbu : h.isSubtype b u = true) :
    (h.lowestCommonAncestor? a b).isSome = true := by
  by_cases hab : h.isSubtype a b = true
  · rw [lowestCommonAncestor?_of_isSubtype hab, Option.isSome_some]
  by_cases hba : h.isSubtype b a = true
  · rw [lowestCommonAncestor?_of_isSupertype hab hba, Option.isSome_some]
  rcases lowestCommonAncestor?_of_apart hab hba with ⟨c, d, rfl, rfl, heq⟩ | ⟨hclasses, -⟩
  · rw [heq]
    exact find?_isSome_of_isSubtype hba hu hbu
  · exact ((isSubtype_of_isGround ha hclasses hnull hu hbu).elim hab hba).elim

/-- Going up from either of two classes leads to the same class, if there is no cycle. -/
theorem Acyclic.lowestCommonAncestor?_ref_comm (hacyclic : h.Acyclic) (c d : String) :
    h.lowestCommonAncestor? (.ref c) (.ref d) = h.lowestCommonAncestor? (.ref d) (.ref c) := by
  have hmeet {c d : String} {t : Ty} (ht : h.lowestCommonAncestor? (.ref c) (.ref d) = some t) :
      h.lowestCommonAncestor? (.ref d) (.ref c) = some t := by
    have hj := isJoin_of_lowestCommonAncestor? rfl rfl ht
    obtain ⟨t', ht'⟩ := Option.isSome_iff_exists.1
      (lowestCommonAncestor?_isSome rfl (by simp) hj.right hj.left)
    rw [ht', hacyclic.isJoin_unique hj (isJoin_of_lowestCommonAncestor? rfl rfl ht').symm]
  exact Option.ext fun t => ⟨hmeet, hmeet⟩

theorem Acyclic.lowestCommonAncestor?_comm (hacyclic : h.Acyclic) (a b : Ty) :
    h.lowestCommonAncestor? a b = h.lowestCommonAncestor? b a := by
  by_cases hab : h.isSubtype a b = true <;> by_cases hba : h.isSubtype b a = true
  · rw [hacyclic.isSubtype_antisymm a b hab hba]
  · rw [lowestCommonAncestor?_of_isSubtype hab, lowestCommonAncestor?_of_isSupertype hba hab]
  · rw [lowestCommonAncestor?_of_isSupertype hab hba, lowestCommonAncestor?_of_isSubtype hba]
  · rcases lowestCommonAncestor?_of_apart hab hba with ⟨c, d, rfl, rfl, -⟩ | ⟨hclasses, hnone⟩
    · exact hacyclic.lowestCommonAncestor?_ref_comm c d
    · rcases lowestCommonAncestor?_of_apart hba hab with ⟨c, d, rfl, rfl, -⟩ | ⟨-, hnone'⟩
      · exact absurd rfl (hclasses d c rfl)
      · rw [hnone, hnone']

end Search

/-- Without cycles the lowest common ancestor of any two types does not depend on their order. For the types
of values, unless both are that of `null`, it exists if and only if some type is above both, and is then the
least such type; cycles do not matter for this. -/
theorem lowestCommonAncestor?_isJoin (h : Hierarchy) :
    (h.Acyclic → ∀ a b, h.lowestCommonAncestor? a b = h.lowestCommonAncestor? b a) ∧
      ∀ a b, a.isGround = true → b.isGround = true → ¬(a = .empty ∧ b = .empty) →
        ((h.lowestCommonAncestor? a b).isSome = true ↔ ∃ u, h.isSubtype a u = true ∧
          h.isSubtype b u = true) ∧ ∀ t, h.lowestCommonAncestor? a b = some t → h.IsJoin a b t := by
  refine ⟨Acyclic.lowestCommonAncestor?_comm,
    fun a b ha hb hnull => ⟨⟨fun hsome => ?_, ?_⟩, fun t ht => ?_⟩⟩
  · obtain ⟨t, ht⟩ := Option.isSome_iff_exists.1 hsome
    have hj := isJoin_of_lowestCommonAncestor? ha hb ht
    exact ⟨t, hj.left, hj.right⟩
  · rintro ⟨u, hu, hbu⟩
    exact lowestCommonAncestor?_isSome ha hnull hu hbu
  · exact isJoin_of_lowestCommonAncestor? ha hb ht

/-- Two lines that meet above their first classes. -/
def pets : Hierarchy :=
  ofEdges [("Dog", "Mammal"), ("Puppy", "Dog"), ("Cat", "Mammal"), ("Mammal", "Animal")]

theorem acyclic_pets : pets.Acyclic := by
  refine acyclic_of_rank
    (fun x => if x = "Puppy" then 3 else if x = "Dog" ∨ x = "Cat" then 2 else if x = "Mammal" then 1 else 0)
      fun a b hab => ?_
  have hmem : (a, b) ∈ [("Dog", "Mammal"), ("Puppy", "Dog"), ("Cat", "Mammal"), ("Mammal", "Animal")] :=
    Table.get?_eq_some_iff.1 hab
  simp only [List.mem_cons, Prod.mk.injEq, List.not_mem_nil, or_false] at hmem
  rcases hmem with ⟨rfl, rfl⟩ | ⟨rfl, rfl⟩ | ⟨rfl, rfl⟩ | ⟨rfl, rfl⟩ <;> decide

theorem puppy_cat_isJoin_mammal :
    pets.Acyclic ∧ pets.lowestCommonAncestor? (.ref "Puppy") (.ref "Cat") = some (.ref "Mammal") ∧
      pets.lowestCommonAncestor? (.ref "Cat") (.ref "Puppy") = some (.ref "Mammal") ∧
      pets.IsJoin (.ref "Puppy") (.ref "Cat") (.ref "Mammal") ∧
      ¬ ∃ u, pets.isSubtype (.ref "Puppy") u = true ∧ pets.isSubtype .int u = true := by
  obtain ⟨hcomm, hjoin⟩ := lowestCommonAncestor?_isJoin pets
  have hup : pets.lowestCommonAncestor? (.ref "Puppy") (.ref "Cat") = some (.ref "Mammal") := rfl
  refine ⟨acyclic_pets, hup, (hcomm acyclic_pets _ _).trans hup, (hjoin _ _ rfl rfl (by simp)).2 _ hup,
    fun hu => ?_⟩
  exact absurd ((hjoin _ _ rfl rfl (by simp)).1.2 hu) Bool.false_ne_true

end Hierarchy

end Classlet

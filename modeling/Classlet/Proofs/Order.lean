import Classlet.Proofs.Ancestry
/-!
# Subclassing is reachability, and subtyping is an order

Edges are added to a hierarchy one after the other, and a later edge of a class takes the place of an
earlier one. Nothing keeps them from forming a cycle. A class is a subclass of another if and only if the
edges that are left lead from the one to the other (`Hierarchy.isSubclass_reachable`): the bound of the walk
is never too small.

Subtyping is transitive in every hierarchy and reflexive on just the types that can be written down. Without
cycles it is antisymmetric (`Hierarchy.isSubtype_isOrder`).
-/

namespace Classlet.Hierarchy

/-! ## Edges one after the other -/

/-- The hierarchy that is left after the edges were added, the first one first. -/
def ofEdges (edges : List (String × String)) : Hierarchy :=
  edges.foldl (fun h edge => h.extend edge.1 edge.2) empty

/-- The last edge of `a` leads to `b`. -/
def LastEdge (edges : List (String × String)) (a b : String) : Prop :=
  ∃ before after, edges = before ++ (a, b) :: after ∧ ∀ edge ∈ after, edge.1 ≠ a

section Edges
variable {edges : List (String × String)} {a b : String}

theorem lastEdge_cons {x y : String} :
    LastEdge ((x, y) :: edges) a b ↔ LastEdge edges a b ∨
    ((x, y) = (a, b) ∧ ∀ edge ∈ edges, edge.1 ≠ a) := by
  constructor
  · rintro ⟨before, after, heq, hafter⟩
    cases before with
    | nil =>
      obtain ⟨hedge, rfl⟩ := List.cons.inj heq
      exact .inr ⟨hedge, hafter⟩
    | cons first before => exact .inl ⟨before, after, (List.cons.inj heq).2, hafter⟩
  · rintro (⟨before, after, rfl, hafter⟩ | ⟨hedge, hedges⟩)
    · exact ⟨(x, y) :: before, after, rfl, hafter⟩
    · exact ⟨[], edges, by rw [hedge]; rfl, hedges⟩

/-- What a class extends after edges were added to a hierarchy. -/
theorem edge_foldl {h : Hierarchy} : (edges.foldl (fun h edge => h.extend edge.1 edge.2) h).Edge a b ↔
    LastEdge edges a b ∨ ((∀ edge ∈ edges, edge.1 ≠ a) ∧ h.Edge a b) := by
  induction edges generalizing h with
  | nil =>
    have hnone : ¬ LastEdge [] a b := by
      rintro ⟨before, after, heq, -⟩
      simp at heq
    simp [hnone]
  | cons edge edges ih =>
    obtain ⟨x, y⟩ := edge
    have hextend : (h.extend x y).Edge a b ↔ if x = a then y = b else h.Edge a b := by
      rw [Edge, superclass?, extend, Table.get?_set]
      split
      · exact Option.some_inj
      · rfl
    rw [List.foldl_cons, ih, lastEdge_cons, hextend, List.forall_mem_cons, Prod.mk.injEq]
    by_cases hx : x = a
    · simp [hx, and_comm]
    · simp [hx]

theorem edge_ofEdges : (ofEdges edges).Edge a b ↔ LastEdge edges a b := by
  have hempty : ¬ empty.Edge a b := fun hab => by cases hab
  rw [ofEdges, edge_foldl]
  simp [hempty]

end Edges

/-! ## Reachable classes -/

theorem length_chain_le (h : Hierarchy) (n : Nat) (c : String) : (h.chain n c).length ≤ n := by
  induction n generalizing c with
  | zero => exact Nat.le_refl 0
  | succ n ih =>
    rw [chain]
    cases h.superclass? c with
    | none => exact Nat.zero_le _
    | some d => exact Nat.succ_le_succ (ih d)

/-- Whatever edges were added, also where they replace each other or form cycles: the subclasses of a class
are those that the edges left over lead to it from, and the walk along direct superclasses takes no more
steps than there are such edges and meets every class on the way. -/
theorem isSubclass_reachable (edges : List (String × String)) (c : String) :
    (∀ d, (ofEdges edges).isSubclass c d = true ↔ Relation.ReflTransGen (LastEdge edges) c d) ∧
      ((ofEdges edges).ancestors c).length ≤ (ofEdges edges).size ∧
      (c :: (ofEdges edges).ancestors c).IsChain (LastEdge edges) ∧
      ∀ d, d ∈ (ofEdges edges).ancestors c ↔ Relation.TransGen (LastEdge edges) c d := by
  have hedges : (ofEdges edges).Edge = LastEdge edges := by
    funext a b
    exact propext edge_ofEdges
  rw [← hedges]
  exact ⟨fun _ => isSubclass_iff, length_chain_le _ _ c, isChain_chain _ c, fun _ => mem_ancestors_iff⟩

/-- A cycle that is entered from outside, after an edge that was replaced. -/
example : (ofEdges [("A", "Z"), ("A", "B"), ("B", "C"), ("C", "B"), ("D", "D")]).ancestors "A" =
      ["B", "C", "B", "C"] := by decide

/-! ## Types -/

section Types
variable {h : Hierarchy}

mutual
/-- Only types that can be written down are below themselves. -/
theorem isWritten_of_isSubtype_self : ∀ t : Ty, h.isSubtype t t = true → t.isWritten = true
  | .int, _ | .bool, _ | .ref _, _ => rfl
  | .arrow s, hs => isWritten_of_isArrowSubtype_self s hs
  | .cls _ _, ht | .method _, ht | .empty, ht => by cases ht

theorem isWritten_of_isArrowSubtype_self : ∀ s : Signature, h.isArrowSubtype s s = true → s.isWritten = true
  | ⟨ps, r⟩, hs => by
    obtain ⟨hret, hparams⟩ := isArrowSubtype_iff.1 hs
    rw [Signature.isWritten, Bool.and_eq_true]
    exact ⟨areWritten_of_forall₂_self ps hparams, isWritten_of_isSubtype_self r hret⟩

theorem areWritten_of_forall₂_self :
    ∀ ts : List Ty, List.Forall₂ (fun p q => h.isSubtype q p = true) ts ts →
    Ty.areWritten ts = true
  | [], _ => rfl
  | t :: ts, .cons ht hts => by
    rw [Ty.areWritten, Bool.and_eq_true]
    exact ⟨isWritten_of_isSubtype_self t ht, areWritten_of_forall₂_self ts hts⟩
end

theorem isSubtype_self_iff (t : Ty) : h.isSubtype t t = true ↔ t.isWritten = true :=
  ⟨isWritten_of_isSubtype_self t, isSubtype_refl t⟩

theorem Acyclic.isSubclass_antisymm (hacyclic : h.Acyclic) {a b : String} (hab : h.isSubclass a b = true)
    (hba : h.isSubclass b a = true) : a = b := by
  rw [isSubclass_iff] at hab hba
  rcases Relation.reflTransGen_iff_eq_or_transGen.1 hab with heq | hstrict
  · exact heq.symm
  · exact absurd (hstrict.trans_left hba) (hacyclic a)

theorem Acyclic.isAtomSubtype_antisymm (hacyclic : h.Acyclic) {a b : Ty} (hab : h.isAtomSubtype a b = true)
    (hba : h.isAtomSubtype b a = true) : a = b := by
  cases a with
  | ref a =>
    cases b with
    | ref b => exact congrArg Ty.ref (hacyclic.isSubclass_antisymm hab hba)
    | _ => cases hab
  | _ =>
    -- `bool` is below `int`, and `null` below classes, but never the other way round
    cases b <;> first | rfl | cases hab <;> cases hba

mutual
theorem Acyclic.isSubtype_antisymm (hacyclic : h.Acyclic) :
    ∀ a b : Ty, h.isSubtype a b = true → h.isSubtype b a = true → a = b
  | .arrow s, b, hab, hba => by
    obtain ⟨s', rfl⟩ := isSubtype_arrow_left hab
    rw [Acyclic.isArrowSubtype_antisymm hacyclic s s' hab hba]
  | .int, b, hab, hba | .bool, b, hab, hba | .ref _, b, hab, hba | .empty, b, hab, hba
  | .cls _ _, b, hab, hba | .method _, b, hab, hba =>
    hacyclic.isAtomSubtype_antisymm (isAtomSubtype_of_isSubtype (.inl rfl) hab)
      (isAtomSubtype_of_isSubtype (.inr rfl) hba)

theorem Acyclic.isArrowSubtype_antisymm (hacyclic : h.Acyclic) :
    ∀ a b : Signature, h.isArrowSubtype a b = true →
    h.isArrowSubtype b a = true → a = b
  | ⟨ps, r⟩, ⟨qs, t⟩, hab, hba => by
    obtain ⟨hret, hparams⟩ := isArrowSubtype_iff.1 hab
    obtain ⟨hret', hparams'⟩ := isArrowSubtype_iff.1 hba
    rw [Acyclic.isSubtype_antisymm hacyclic r t hret hret',
      Acyclic.forall₂_antisymm hacyclic ps qs hparams hparams']

/-- For parameters the two sides have changed places. -/
theorem Acyclic.forall₂_antisymm (hacyclic : h.Acyclic) : ∀ as bs : List Ty,
    List.Forall₂ (fun p q => h.isSubtype q p = true) as bs →
    List.Forall₂ (fun p q => h.isSubtype q p = true) bs as → as = bs
  | [], _, .nil, _ => rfl
  | a :: as, b :: bs, .cons hba hrest, .cons hab hrest' => by
    rw [Acyclic.isSubtype_antisymm hacyclic a b hab hba,
      Acyclic.forall₂_antisymm hacyclic as bs hrest hrest']
end

end Types

/-- Subtyping is transitive, with or without cycles among the classes, and is reflexive on the types that
can be written down and on no others. Without cycles no two types are below each other. -/
theorem isSubtype_isOrder (h : Hierarchy) :
    (∀ a b c, h.isSubtype a b = true → h.isSubtype b c = true → h.isSubtype a c = true) ∧
      (∀ t, h.isSubtype t t = true ↔ t.isWritten = true) ∧
      (h.Acyclic → ∀ a b, h.isSubtype a b = true → h.isSubtype b a = true → a = b) :=
  ⟨fun _ _ _ => isSubtype_trans, isSubtype_self_iff, Acyclic.isSubtype_antisymm⟩

/-- Two edges in a line. -/
def litter : Hierarchy := ofEdges [("Dog", "Animal"), ("Puppy", "Dog")]

theorem acyclic_litter : litter.Acyclic := by
  refine acyclic_of_rank (fun x => if x = "Puppy" then 2 else if x = "Dog" then 1 else 0) fun a b hab => ?_
  have hmem : (a, b) ∈ [("Dog", "Animal"), ("Puppy", "Dog")] := Table.get?_eq_some_iff.1 hab
  simp only [List.mem_cons, Prod.mk.injEq, List.not_mem_nil, or_false] at hmem
  rcases hmem with ⟨rfl, rfl⟩ | ⟨rfl, rfl⟩ <;> decide

/-- The type of a function that is given a function on objects of a class and returns such an object. -/
def chooser (cls : String) : Ty := .arrow ⟨[.arrow ⟨[.ref cls], .int⟩], .ref cls⟩

theorem litter_isOrder :
    litter.isSubtype (chooser "Puppy") (chooser "Dog") = true ∧
      litter.isSubtype (chooser "Dog") (chooser "Animal") = true ∧
      litter.isSubtype (chooser "Puppy") (chooser "Animal") = true ∧
      litter.isSubtype (chooser "Puppy") (chooser "Puppy") = true ∧
      litter.Acyclic ∧ litter.isSubtype (chooser "Dog") (chooser "Puppy") ≠ true := by
  obtain ⟨htrans, hself, hanti⟩ := isSubtype_isOrder litter
  have hup : litter.isSubtype (chooser "Puppy") (chooser "Dog") = true := by decide
  have hup' : litter.isSubtype (chooser "Dog") (chooser "Animal") = true := by decide
  refine ⟨hup, hup', htrans _ _ _ hup hup', (hself _).2 (by decide), acyclic_litter, fun hdown => ?_⟩
  exact absurd (hanti acyclic_litter _ _ hup hdown) (by simp [chooser])

end Classlet.Hierarchy

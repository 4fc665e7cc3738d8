import Classlet.Hierarchy
import Classlet.Proofs.Trees
import Mathlib.Data.Finset.Card
import Mathlib.Data.List.Forall2
import Mathlib.Logic.Relation
/-!
# Subtyping is an order

The walk along direct superclasses is cut off after as many steps as there are edges, and still meets every
class that can be reached (`Hierarchy.isSubclass_iff`): a longer way visits some class twice and has a
shorter one beside it. So subclassing is transitive and is kept when edges are added, and subtyping is too
(`isSubtype_trans`, `isSubtype_mono`). It is reflexive on types that can be written down (`isSubtype_refl`).
-/

namespace Classlet

namespace Hierarchy

/-! ## Reachable classes -/

/-- `b` is the direct superclass of `a`. -/
def Edge (h : Hierarchy) (a b : String) : Prop := h.superclass? a = some b

/-- `b` is `a` or is reached from it along direct superclasses. -/
def Reaches (h : Hierarchy) : String → String → Prop := Relation.ReflTransGen h.Edge

/-- The class `n` steps up from `a`. -/
def up (h : Hierarchy) : Nat → String → Option String
  | 0, a => some a
  | n + 1, a => (h.superclass? a).bind (h.up n)

section Reachable
variable {h : Hierarchy} {n k : Nat} {a b : String}

theorem up_add (h : Hierarchy) (m n : Nat) (a : String) : h.up (m + n) a = (h.up m a).bind (h.up n) := by
  induction m generalizing a with
  | zero => rw [Nat.zero_add]; rfl
  | succ m ih =>
    rw [Nat.add_right_comm, up, up]
    cases h.superclass? a with
    | none => rfl
    | some b => exact ih b

/-- The walk lists the classes up to `n` steps up. -/
theorem mem_chain_iff : b ∈ h.chain n a ↔ ∃ k, k < n ∧ h.up (k + 1) a = some b := by
  induction n generalizing a with
  | zero => simp [chain]
  | succ n ih =>
    rw [chain]
    cases ha : h.superclass? a with
    | none => simp [up, ha]
    | some d =>
      simp only [List.mem_cons, ih, up, ha, Option.bind_some]
      constructor
      · rintro (rfl | ⟨k, hk, hb⟩)
        · exact ⟨0, Nat.succ_pos n, rfl⟩
        · exact ⟨k + 1, Nat.succ_lt_succ hk, hb⟩
      · rintro ⟨k, hk, hb⟩
        cases k with
        | zero => exact .inl (Option.some.inj hb).symm
        | succ k => exact .inr ⟨k, Nat.lt_of_succ_lt_succ hk, hb⟩

theorem mem_keys_of_find {α : Type} {key : String} {value : α} {l : List (String × α)}
    (h : Table.find key l = some value) :
    key ∈ l.map Prod.fst := by
  induction l with
  | nil => cases h
  | cons p l ih =>
    obtain ⟨k, v⟩ := p
    rw [Table.find] at h
    split at h
    · next hk => exact hk ▸ List.mem_cons_self
    · exact List.mem_cons_of_mem _ (ih h)

/-- A way with more steps than there are edges comes to some class twice. -/
theorem exists_up_eq (hk : h.size ≤ k) (hb : h.up (k + 1) a = some b) :
    ∃ i j, i < j ∧ j ≤ k ∧ h.up i a = h.up j a := by
  have hmaps : ∀ i ∈ Finset.range (k + 1),
      (h.up i a).getD "" ∈ ((h.supers.entries.map Prod.fst).toFinset : Finset String) := by
    intro i hi
    have hi' : i ≤ k := Nat.le_of_lt_succ (Finset.mem_range.1 hi)
    obtain ⟨m, rfl⟩ := Nat.exists_eq_add_of_le hi'
    rw [Nat.add_assoc, up_add, Option.bind_eq_some_iff] at hb
    obtain ⟨c, hc, hb⟩ := hb
    rw [up, Option.bind_eq_some_iff] at hb
    obtain ⟨d, hd, -⟩ := hb
    rw [hc, Option.getD_some, List.mem_toFinset]
    exact mem_keys_of_find hd
  have hcard : ((h.supers.entries.map Prod.fst).toFinset).card < (Finset.range (k + 1)).card := by
    rw [Finset.card_range, List.toFinset_card_of_nodup h.supers.nodup, List.length_map]
    exact Nat.lt_succ_of_le hk
  obtain ⟨i, hi, j, hj, hne, heq⟩ := Finset.exists_ne_map_eq_of_card_lt_of_maps_to hcard hmaps
  have hsome {i : Nat} (hi : i ∈ Finset.range (k + 1)) : h.up i a = some ((h.up i a).getD "") := by
    obtain ⟨m, hm⟩ := Nat.exists_eq_add_of_le (Nat.le_of_lt (Finset.mem_range.1 hi))
    rw [hm, up_add, Option.bind_eq_some_iff] at hb
    obtain ⟨c, hc, -⟩ := hb
    rw [hc, Option.getD_some]
  have hup : h.up i a = h.up j a := by rw [hsome hi, hsome hj, heq]
  rw [Finset.mem_range] at hi hj
  rcases Nat.lt_or_gt_of_ne hne with hlt | hlt
  · exact ⟨i, j, hlt, Nat.le_of_lt_succ hj, hup⟩
  · exact ⟨j, i, hlt, Nat.le_of_lt_succ hi, hup.symm⟩

/-- What is reached at all is reached in no more steps than there are edges. -/
theorem exists_up_lt_size (hb : h.up (k + 1) a = some b) : ∃ m, m < h.size ∧ h.up (m + 1) a = some b := by
  induction k using Nat.strongRecOn with
  | ind k ih =>
    rcases Nat.lt_or_ge k h.size with hlt | hge
    · exact ⟨k, hlt, hb⟩
    -- leave out what lies between the two visits
    obtain ⟨i, j, hij, hj, heq⟩ := exists_up_eq hge hb
    refine ih (i + (k - j)) (by omega) ?_
    rw [Nat.add_assoc, up_add, heq, ← up_add, ← hb]
    congr 1
    omega

theorem reaches_iff_up : h.Reaches a b ↔ ∃ k, h.up k a = some b := by
  constructor
  · intro hab
    induction hab using Relation.ReflTransGen.head_induction_on with
    | refl => exact ⟨0, rfl⟩
    | head hac _ ih =>
      obtain ⟨k, hk⟩ := ih
      exact ⟨k + 1, by rw [up, hac, Option.bind_some, hk]⟩
  · rintro ⟨k, hk⟩
    induction k generalizing a with
    | zero => exact Option.some.inj hk ▸ .refl
    | succ k ih =>
      rw [up, Option.bind_eq_some_iff] at hk
      obtain ⟨c, hc, hk⟩ := hk
      exact .head hc (ih hk)

theorem isSubclass_iff : h.isSubclass a b = true ↔ h.Reaches a b := by
  rw [isSubclass, Bool.or_eq_true, beq_iff_eq, List.contains_iff_mem, ancestors, mem_chain_iff,
    reaches_iff_up]
  constructor
  · rintro (rfl | ⟨k, -, hk⟩)
    · exact ⟨0, rfl⟩
    · exact ⟨k + 1, hk⟩
  · rintro ⟨k, hk⟩
    cases k with
    | zero => exact .inl (Option.some.inj hk)
    | succ k => exact .inr (exists_up_lt_size hk)

theorem isSubclass_trans {c : String} (hab : h.isSubclass a b = true) (hbc : h.isSubclass b c = true) :
    h.isSubclass a c = true := by
  rw [isSubclass_iff] at hab hbc ⊢
  exact hab.trans hbc

end Reachable

/-! ## More edges -/

/-- Every edge of `h` is one of `h'`. -/
def IsPartOf (h h' : Hierarchy) : Prop := ∀ a b, h.Edge a b → h'.Edge a b

theorem IsPartOf.refl (h : Hierarchy) : h.IsPartOf h := fun _ _ => id

theorem IsPartOf.trans {h h' h'' : Hierarchy} (hh : h.IsPartOf h') (hh' : h'.IsPartOf h'') :
    h.IsPartOf h'' :=
  fun a b hab => hh' a b (hh a b hab)

/-- A class that had no superclass gets one. -/
theorem isPartOf_extend {h : Hierarchy} {a : String} (ha : h.superclass? a = none) (b : String) :
    h.IsPartOf (h.extend a b) := by
  intro c d hcd
  have hac : a ≠ c := by
    rintro rfl
    cases ha.symm.trans hcd
  rw [Edge, superclass?, extend, Table.get?_set, if_neg hac]
  exact hcd

theorem IsPartOf.isSubclass {h h' : Hierarchy} (hh : h.IsPartOf h') {a b : String}
    (hab : h.isSubclass a b = true) :
    h'.isSubclass a b = true := by
  rw [isSubclass_iff] at hab ⊢
  exact Relation.ReflTransGen.mono (r := h.Edge) hh a b hab

end Hierarchy

/-! ## Function types -/

def Ty.isArrow : Ty → Bool
  | arrow _ => true
  | _ => false

section Flip
variable (h : Hierarchy)

mutual
/-- Asking from the other side. -/
theorem Ty.isBelow_flip : ∀ (a b : Ty) (v : Variance), a.isBelow h v b = b.isBelow h v.flip a
  | .arrow s, b, v => by
    cases b with
    | arrow s' => exact s.isBelow_flip s' v
    | _ => cases v <;> rfl
  | .int, b, v | .bool, b, v | .ref _, b, v | .cls _ _, b, v | .method _, b, v | .empty, b, v => by
    cases b with
    | arrow s => cases v <;> rfl
    | _ => cases v <;> rfl

theorem Signature.isBelow_flip : ∀ (a b : Signature) (v : Variance), a.isBelow h v b = b.isBelow h v.flip a
  | ⟨ps, r⟩, ⟨qs, t⟩, v => by
    rw [Signature.isBelow, Signature.isBelow, r.isBelow_flip t v, Ty.areBelow_flip ps qs v.flip]
    simp only [BEq.comm (a := ps.length)]

theorem Ty.areBelow_flip : ∀ (as bs : List Ty) (v : Variance), Ty.areBelow h v as bs =
      Ty.areBelow h v.flip bs as
  | [], [], _ | [], _ :: _, _ | _ :: _, [], _ => by simp [Ty.areBelow]
  | a :: as, b :: bs, v => by
    rw [Ty.areBelow, Ty.areBelow, a.isBelow_flip b v, Ty.areBelow_flip as bs v]
end

end Flip

namespace Hierarchy

section Arrows
variable {h : Hierarchy}

theorem areBelow_contra_iff {ps qs : List Ty} (hlength : ps.length = qs.length) :
    Ty.areBelow h .contra ps qs = true ↔ List.Forall₂ (fun p q => h.isSubtype q p = true) ps qs := by
  induction ps generalizing qs with
  | nil =>
    obtain rfl := List.eq_nil_of_length_eq_zero hlength.symm
    simp [Ty.areBelow]
  | cons p ps ih =>
    cases qs with
    | nil => cases hlength
    | cons q qs =>
      rw [Ty.areBelow, Bool.and_eq_true, ih (Nat.succ.inj hlength), List.forall₂_cons, Ty.isBelow_flip]
      rfl

/-- What it means for a signature to be below another. -/
theorem isArrowSubtype_iff {s s' : Signature} : h.isArrowSubtype s s' = true ↔
    h.isSubtype s.ret s'.ret = true ∧
    List.Forall₂ (fun p q => h.isSubtype q p = true) s.params s'.params := by
  obtain ⟨ps, r⟩ := s
  rw [isArrowSubtype, Signature.isBelow, Bool.and_eq_true, Bool.and_eq_true, beq_iff_eq]
  constructor
  · rintro ⟨⟨hlength, hret⟩, hparams⟩
    exact ⟨hret, (areBelow_contra_iff hlength).1 hparams⟩
  · rintro ⟨hret, hparams⟩
    exact ⟨⟨hparams.length_eq, hret⟩, (areBelow_contra_iff hparams.length_eq).2 hparams⟩

theorem isSubtype_of_atom {a b : Ty} (hab : h.isAtomSubtype a b = true) : h.isSubtype a b = true := by
  cases a with
  | arrow s => cases hab
  | _ => exact hab

/-- Types of which one is not a function type. -/
theorem isAtomSubtype_of_isSubtype {a b : Ty} (ht : a.isArrow = false ∨ b.isArrow = false)
    (hab : h.isSubtype a b = true) : h.isAtomSubtype a b = true := by
  cases a with
  | arrow s =>
    cases b with
    | arrow s' => simp [Ty.isArrow] at ht
    | _ => cases hab
  | _ => exact hab

/-- Only function types are comparable with function types. -/
theorem isSubtype_arrow_left {s : Signature} {t : Ty} (ht : h.isSubtype (.arrow s) t = true) :
    ∃ s', t = .arrow s' := by
  cases t with
  | arrow s' => exact ⟨s', rfl⟩
  | _ => cases ht

theorem isSubtype_arrow_right {s : Signature} {t : Ty} (ht : h.isSubtype t (.arrow s) = true) :
    ∃ s', t = .arrow s' := by
  cases t with
  | arrow s' => exact ⟨s', rfl⟩
  | _ => cases ht

end Arrows

/-! ## The order -/

section Order
variable {h h' : Hierarchy}

mutual
theorem isSubtype_refl : ∀ t : Ty, t.isWritten = true → h.isSubtype t t = true
  | .int, _ | .bool, _ => rfl
  | .ref c, _ => isSubclass_iff.2 .refl
  | .arrow s, ht => isArrowSubtype_refl s ht
  | .cls _ _, ht | .method _, ht | .empty, ht => by cases ht

theorem isArrowSubtype_refl : ∀ s : Signature, s.isWritten = true → h.isArrowSubtype s s = true
  | ⟨ps, r⟩, hs => by
    rw [Signature.isWritten, Bool.and_eq_true] at hs
    exact isArrowSubtype_iff.2 ⟨isSubtype_refl r hs.2, isSubtype_refl_all ps hs.1⟩

theorem isSubtype_refl_all : ∀ ts : List Ty, Ty.areWritten ts = true →
    List.Forall₂ (fun p q => h.isSubtype q p = true) ts ts
  | [], _ => .nil
  | t :: ts, hts => by
    rw [Ty.areWritten, Bool.and_eq_true] at hts
    exact .cons (isSubtype_refl t hts.1) (isSubtype_refl_all ts hts.2)
end

theorem isAtomSubtype_trans {a b c : Ty} (hab : h.isAtomSubtype a b = true)
    (hbc : h.isAtomSubtype b c = true) :
    h.isAtomSubtype a c = true := by
  cases a <;> cases b <;> first | cases hab | skip
  all_goals cases c <;> first | cases hbc | skip
  all_goals first | rfl | exact isSubclass_trans hab hbc

mutual
/-- The induction is on the type in the middle, whose parts are in the middle of what is asked of the
parts. -/
theorem isSubtype_trans_mid : ∀ b a c : Ty, h.isSubtype a b = true → h.isSubtype b c = true →
    h.isSubtype a c = true
  | .arrow s, a, c, hab, hbc => by
    obtain ⟨s₁, rfl⟩ := isSubtype_arrow_right hab
    obtain ⟨s₂, rfl⟩ := isSubtype_arrow_left hbc
    exact isArrowSubtype_trans_mid s s₁ s₂ hab hbc
  | .int, a, c, hab, hbc | .bool, a, c, hab, hbc | .ref _, a, c, hab, hbc | .empty, a, c, hab, hbc
  | .cls _ _, a, c, hab, hbc | .method _, a, c, hab, hbc =>
    isSubtype_of_atom
      (isAtomSubtype_trans (isAtomSubtype_of_isSubtype (.inr rfl) hab)
        (isAtomSubtype_of_isSubtype (.inl rfl) hbc))

theorem isArrowSubtype_trans_mid :
    ∀ b a c : Signature, h.isArrowSubtype a b = true → h.isArrowSubtype b c = true →
    h.isArrowSubtype a c = true
  | ⟨ps, r⟩, a, c, hab, hbc => by
    obtain ⟨hret, hparams⟩ := isArrowSubtype_iff.1 hab
    obtain ⟨hret', hparams'⟩ := isArrowSubtype_iff.1 hbc
    exact isArrowSubtype_iff.2 ⟨isSubtype_trans_mid r _ _ hret hret',
      isSubtype_trans_mid_all ps _ _ hparams hparams'⟩

theorem isSubtype_trans_mid_all :
    ∀ bs as cs : List Ty, List.Forall₂ (fun p q => h.isSubtype q p = true) as bs →
    List.Forall₂ (fun p q => h.isSubtype q p = true) bs cs →
    List.Forall₂ (fun p q => h.isSubtype q p = true) as cs
  | [], _, _, .nil, .nil => .nil
  | b :: bs, _, _, .cons hab hrest, .cons hbc hrest' =>
    .cons (isSubtype_trans_mid b _ _ hbc hab) (isSubtype_trans_mid_all bs _ _ hrest hrest')
end

theorem isSubtype_trans {a b c : Ty} (hab : h.isSubtype a b = true) (hbc : h.isSubtype b c = true) :
    h.isSubtype a c = true :=
  isSubtype_trans_mid b a c hab hbc

theorem isArrowSubtype_trans {a b c : Signature} (hab : h.isArrowSubtype a b = true)
    (hbc : h.isArrowSubtype b c = true) :
    h.isArrowSubtype a c = true :=
  isArrowSubtype_trans_mid b a c hab hbc

theorem isAtomSubtype_mono (hh : h.IsPartOf h') {a b : Ty} (hab : h.isAtomSubtype a b = true) :
    h'.isAtomSubtype a b = true := by
  cases a <;> cases b <;> first | cases hab | skip
  all_goals first | rfl | exact hh.isSubclass hab

mutual
theorem isSubtype_mono (hh : h.IsPartOf h') :
    ∀ a b : Ty, (h.isSubtype a b = true → h'.isSubtype a b = true) ∧
    (h.isSubtype b a = true → h'.isSubtype b a = true)
  | .arrow s, b => by
    constructor
    · intro hab
      obtain ⟨s', rfl⟩ := isSubtype_arrow_left hab
      exact (isArrowSubtype_mono hh s s').1 hab
    · intro hba
      obtain ⟨s', rfl⟩ := isSubtype_arrow_right hba
      exact (isArrowSubtype_mono hh s s').2 hba
  | .int, b | .bool, b | .ref _, b | .empty, b | .cls _ _, b | .method _, b =>
    ⟨fun hab => isSubtype_of_atom (isAtomSubtype_mono hh (isAtomSubtype_of_isSubtype (.inl rfl) hab)),
      fun hba => isSubtype_of_atom (isAtomSubtype_mono hh (isAtomSubtype_of_isSubtype (.inr rfl) hba))⟩

theorem isArrowSubtype_mono (hh : h.IsPartOf h') : ∀ a b : Signature,
    (h.isArrowSubtype a b = true → h'.isArrowSubtype a b = true) ∧
    (h.isArrowSubtype b a = true → h'.isArrowSubtype b a = true)
  | ⟨ps, r⟩, b => by
    simp only [isArrowSubtype_iff]
    exact ⟨fun hab => ⟨(isSubtype_mono hh r _).1 hab.1, (isSubtype_mono_all hh ps _).1 hab.2⟩,
      fun hba => ⟨(isSubtype_mono hh r _).2 hba.1, (isSubtype_mono_all hh ps _).2 hba.2⟩⟩

theorem isSubtype_mono_all (hh : h.IsPartOf h') : ∀ as bs : List Ty,
    (List.Forall₂ (fun p q => h.isSubtype q p = true) as bs →
      List.Forall₂ (fun p q => h'.isSubtype q p = true) as bs) ∧
      (List.Forall₂ (fun p q => h.isSubtype q p = true) bs as →
        List.Forall₂ (fun p q => h'.isSubtype q p = true) bs as)
  | [], _ => ⟨fun | .nil => .nil, fun | .nil => .nil⟩
  | a :: as, _ =>
    ⟨fun | .cons hab hrest => .cons ((isSubtype_mono hh a _).2 hab) ((isSubtype_mono_all hh as _).1 hrest),
     fun | .cons hba hrest => .cons ((isSubtype_mono hh a _).1 hba) ((isSubtype_mono_all hh as _).2 hrest)⟩
end

end Order

end Hierarchy

end Classlet

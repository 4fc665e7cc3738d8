import Classlet.Typing.Expr
import Classlet.Proofs.Semantics
import Mathlib.Logic.Relation
/-!
# Values of a type

`Value.HasType` says which values a type has. Function types, method types and the types of class names have
none: such names are called or constructed but never evaluated. A reference has the type of every class that
the class of its object is or extends, where extending is read off the classes themselves and not off the
hierarchy of the type check.

Subtyping, operators and common types of branches respect this (`HasType.of_isSubtype`, `HasType.of_common`,
`BinaryOp.evaluate_hasType`).
-/

namespace Classlet

namespace Classes

/-- A class named `a` names `b` as its superclass. -/
def Extends (cs : List Class) (a b : String) : Prop :=
  ∃ c ∈ cs, c.isNamed a = true ∧ c.superclass.any (·.text = b) = true

/-- `a` is `b` or extends it, directly or not. -/
def Subclass (cs : List Class) : String → String → Prop := Relation.ReflTransGen (Extends cs)

end Classes

/-- Every edge of the hierarchy is declared by one of the classes. -/
def Hierarchy.Within (h : Hierarchy) (cs : List Class) : Prop :=
  ∀ a b, h.superclass? a = some b → Classes.Extends cs a b

theorem Hierarchy.Within.subclass_of_mem_chain {h : Hierarchy} {cs : List Class}
    (hh : h.Within cs) {n : Nat} {a b : String} (hb : b ∈ h.chain n a) : Classes.Subclass cs a b := by
  induction n generalizing a with
  | zero => simp [Hierarchy.chain] at hb
  | succ n ih =>
    rw [Hierarchy.chain] at hb
    split at hb
    · simp at hb
    · next d hd =>
      rcases List.mem_cons.1 hb with rfl | hb
      · exact .single (hh a b hd)
      · exact .head (hh a d hd) (ih hb)

theorem Hierarchy.Within.subclass_of_isSubclass {h : Hierarchy} {cs : List Class} (hh : h.Within cs)
    {a b : String} (hs : h.isSubclass a b = true) : Classes.Subclass cs a b := by
  rw [Hierarchy.isSubclass, Bool.or_eq_true, beq_iff_eq, List.contains_iff_mem] at hs
  rcases hs with rfl | hs
  · exact .refl
  · exact hh.subclass_of_mem_chain hs

namespace Value

/-- Whether a value has a type. -/
def HasType (cs : List Class) (store : List Object) : Value → Ty → Prop
  | int _, .int => True
  | bool _, .int => True
  | bool _, .bool => True
  | null, .empty => True
  | null, .ref _ => True
  | object id, .ref c => ∃ o, store[id]? = some o ∧ Classes.Subclass cs o.cls c
  | _, _ => False

variable {cs : List Class} {store : List Object} {v : Value}

theorem HasType.number (h : v.HasType cs store .int) : ∃ w, v.number? = some w := by
  cases v with
  | int w => exact ⟨w, rfl⟩
  | bool b => exact ⟨.ofBool b, rfl⟩
  | null => exact h.elim
  | object id => exact h.elim

theorem HasType.bool (h : v.HasType cs store .bool) : ∃ b, v = .bool b := by
  cases v with
  | bool b => exact ⟨b, rfl⟩
  | int _ | null | object _ => exact h.elim

theorem HasType.ref {c : String} (h : v.HasType cs store (.ref c)) :
    v = .null ∨ ∃ id o, v = .object id ∧ store[id]? = some o ∧ Classes.Subclass cs o.cls c := by
  cases v with
  | null => exact .inl rfl
  | object id =>
    obtain ⟨o, ho, hs⟩ := h
    exact .inr ⟨id, o, rfl, ho, hs⟩
  | int _ | bool _ => exact h.elim

theorem not_hasType_of_callable {t : Ty} (ht : t.callable?.isSome) : ¬ v.HasType cs store t := by
  cases t with
  | arrow _ | method _ => cases v <;> exact id
  | _ => simp [Ty.callable?] at ht

theorem not_hasType_of_members {t : Ty} (ht : t.members?.isSome) : ¬ v.HasType cs store t := by
  cases t with
  | cls _ _ => cases v <;> exact id
  | _ => simp [Ty.members?] at ht

/-- Objects stay where they are when others are made. -/
theorem HasType.mono {t : Ty} {store' : List Object} (h : v.HasType cs store t) (hs : store <+: store') :
    v.HasType cs store' t := by
  obtain ⟨new, rfl⟩ := hs
  cases v with
  | object id =>
    cases t with
    | ref c =>
      obtain ⟨o, ho, hsub⟩ := h
      exact ⟨o, by rw [List.getElem?_append_left (List.getElem?_eq_some_iff.1 ho).1, ho], hsub⟩
    | _ => exact h.elim
  | int _ | bool _ | null => cases t <;> exact h

/-! ## Subtyping -/

theorem HasType.of_isSubtype {h : Hierarchy} (hh : h.Within cs) {a b : Ty} (hv : v.HasType cs store a)
    (hs : h.isSubtype a b = true) : v.HasType cs store b := by
  cases a with
  | arrow s => exact absurd hv (not_hasType_of_callable rfl)
  | method s => exact absurd hv (not_hasType_of_callable rfl)
  | cls _ _ => exact absurd hv (not_hasType_of_members rfl)
  | int =>
    cases b with
    | int => exact hv
    | _ => simp [Hierarchy.isSubtype, Ty.isBelow, Hierarchy.isAtomSubtype] at hs
  | bool =>
    obtain ⟨c, rfl⟩ := hv.bool
    cases b with
    | int | bool => trivial
    | _ => simp [Hierarchy.isSubtype, Ty.isBelow, Hierarchy.isAtomSubtype] at hs
  | empty =>
    cases b with
    | ref c =>
      cases v with
      | null => trivial
      | _ => exact hv.elim
    | _ => simp [Hierarchy.isSubtype, Ty.isBelow, Hierarchy.isAtomSubtype] at hs
  | ref c =>
    cases b with
    | ref d =>
      have hcd : h.isSubclass c d = true := by
        simpa [Hierarchy.isSubtype, Ty.isBelow, Hierarchy.isAtomSubtype] using hs
      rcases hv.ref with rfl | ⟨id, o, rfl, ho, hsub⟩
      · trivial
      · exact ⟨o, ho, hsub.trans (hh.subclass_of_isSubclass hcd)⟩
    | _ => simp [Hierarchy.isSubtype, Ty.isBelow, Hierarchy.isAtomSubtype] at hs

/-- A common type of two branches has the values of both. -/
theorem HasType.of_common {h : Hierarchy} (hh : h.Within cs) {a b c : Ty}
    (hc : h.lowestCommonAncestor? a b = some c) (hv : v.HasType cs store a ∨ v.HasType cs store b) :
    v.HasType cs store c := by
  unfold Hierarchy.lowestCommonAncestor? at hc
  split at hc
  · next hab =>
    obtain rfl := Option.some.inj hc
    exact hv.elim (·.of_isSubtype hh hab) id
  · split at hc
    · next hba =>
      obtain rfl := Option.some.inj hc
      exact hv.elim id (·.of_isSubtype hh hba)
    · cases a with
      | ref d =>
        have hmem := List.mem_of_find?_eq_some hc
        have hbelow := List.find?_some hc
        obtain ⟨e, he, rfl⟩ := List.mem_map.1 hmem
        rcases hv with hv | hv
        · rcases hv.ref with rfl | ⟨id, o, rfl, ho, hsub⟩
          · trivial
          · exact ⟨o, ho, hsub.trans (hh.subclass_of_mem_chain he)⟩
        · exact hv.of_isSubtype hh hbelow
      | _ => simp at hc

end Value

/-! ## Operators -/

/-- The outcome of an operation: a value of type `t`, or trouble that is not due to types. -/
def Outcome (cs : List Class) (store : List Object) (t : Ty) : Except Trouble Value → Prop
  | .ok v => v.HasType cs store t
  | .error e => e ≠ .stuck

section Operators
variable {cs : List Class} {store : List Object} {h : Hierarchy} {a b : Value} {left right t : Ty}

theorem Arith.outcome_evaluate (op : Arith) (x y : Word) : Outcome cs store .int (op.evaluate x y) := by
  unfold Arith.evaluate
  split
  · exact Trouble.noConfusion
  · split
    · trivial
    · exact Trouble.noConfusion

/-- Operands of comparable types are both numbers or both references. -/
theorem Value.HasType.equals (hh : h.Within cs) (ha : a.HasType cs store left)
    (hb : b.HasType cs store right) (hs : h.isSubtype left right = true ∨ h.isSubtype right left = true) :
    ∃ r, a.equals? b = some r := by
  have hsame : ∃ t : Ty, a.HasType cs store t ∧ b.HasType cs store t := by
    rcases hs with hs | hs
    · exact ⟨right, ha.of_isSubtype hh hs, hb⟩
    · exact ⟨left, ha, hb.of_isSubtype hh hs⟩
  obtain ⟨t, ha, hb⟩ := hsame
  cases a <;> cases b <;> cases t <;> first | exact ha.elim | exact hb.elim | exact ⟨_, rfl⟩

theorem BinaryOp.outcome_evaluate (hh : h.Within cs) (guarded : Bool) {op : BinaryOp} {span : Span}
    (hop : op.opClass ≠ .logical) (ht : op.resultType h left right span = .ok t)
    (ha : a.HasType cs store left) (hb : b.HasType cs store right) :
    Outcome cs store t (op.evaluate guarded a b) := by
  have hnumbers {r : Ty} {what : String}
      (hr : (if h.isSubtype left .int && h.isSubtype right .int then Except.ok r
        else .error ⟨.typeMismatch ("non " ++ what ++ " operands for '" ++ op.text ++ "'"), span⟩) =
          (.ok t : Except Problem Ty)) :
      r = t ∧ ∃ x y, a.number? = some x ∧ b.number? = some y := by
    split at hr
    · next hs =>
      rw [Bool.and_eq_true] at hs
      obtain ⟨x, hx⟩ := (ha.of_isSubtype hh hs.1).number
      obtain ⟨y, hy⟩ := (hb.of_isSubtype hh hs.2).number
      exact ⟨Except.ok.inj hr, x, y, hx, hy⟩
    · cases hr
  cases op with
  | arith op =>
    obtain ⟨rfl, x, y, hx, hy⟩ := hnumbers ht
    simp only [BinaryOp.evaluate, reduceCtorEq, if_false, hx, hy]
    exact op.outcome_evaluate x y
  | lessEqual =>
    obtain ⟨rfl, x, y, hx, hy⟩ := hnumbers ht
    simp only [BinaryOp.evaluate, reduceCtorEq, if_false, hx, hy]
    trivial
  | greaterEqual =>
    obtain ⟨rfl, x, y, hx, hy⟩ := hnumbers ht
    simp only [BinaryOp.evaluate, reduceCtorEq, if_false, hx, hy, BinaryOp.onNumbers]
    split
    · exact Trouble.noConfusion
    · trivial
  | equal =>
    simp only [BinaryOp.resultType, BinaryOp.opClass] at ht
    split at ht
    · next hs =>
      obtain rfl := Except.ok.inj ht
      obtain ⟨r, hr⟩ := ha.equals hh hb (by simpa using hs)
      simp only [BinaryOp.evaluate, if_true, hr]
      trivial
    · cases ht
  | logic op => exact absurd rfl hop

end Operators

end Classlet

import Classlet.Proofs.Basic
import Classlet.Tree.Note
import Mathlib.Algebra.GroupWithZero.Nat
/-!
# Trees as they are written

What compilation is given: trees whose annotations are all empty (`Bare`) and whose declarations have only
types that can be written down (`Ty.isWritten`), which leaves out the types of methods, of class names and
of `null`.
-/

namespace Classlet

/-! ## Annotations -/

def Note.isEmpty : Note → Bool
  | cls _ entry superEntry => entry.isNone && superEntry.isNone
  | field _ offset | method _ offset => offset.isNone
  | ident _ target | call _ target => target.isNone
  | methodCall _ receiver _ target => receiver.isNone && target.isNone
  | new _ target => target.isNone

/-- All annotations are empty. -/
def Bare (notes : List Note) : Prop := ∀ n ∈ notes, n.isEmpty = true

instance (notes : List Note) : Decidable (Bare notes) :=
  inferInstanceAs (Decidable (∀ n ∈ notes, n.isEmpty = true))

theorem bare_append {a b : List Note} : Bare (a ++ b) ↔ Bare a ∧ Bare b := List.forall_mem_append

theorem bare_cons {n : Note} {a : List Note} : Bare (n :: a) ↔ n.isEmpty = true ∧ Bare a :=
  List.forall_mem_cons

theorem bare_flatMap {α : Type} {f : α → List Note} {l : List α} :
    Bare (l.flatMap f) ↔ ∀ a ∈ l, Bare (f a) := by
  simp only [Bare, List.mem_flatMap]
  exact ⟨fun h a ha n hn => h n ⟨a, ha, hn⟩, fun h n ⟨a, ha, hn⟩ => h a ha n hn⟩

theorem Class.bare_iff {c : Class} : Bare c.notes ↔ (c.entry = none ∧ c.superEntry = none) ∧
    (∀ f ∈ c.fields, f.offset = none) ∧ ∀ d ∈ c.methods, d.offset = none ∧ Bare d.function.notes := by
  have hfields : Bare (c.fields.map Field.note) ↔ ∀ f ∈ c.fields, f.offset = none := by
    simp only [Bare, List.forall_mem_map, Field.note, Note.isEmpty, Option.isNone_iff_eq_none]
  simp only [Class.notes, bare_cons, bare_append, bare_flatMap, hfields, Method.notes, Note.isEmpty,
    Bool.and_eq_true, Option.isNone_iff_eq_none]

/-! ## Types of declarations -/

mutual
def Ty.isWritten : Ty → Bool
  | .int | .bool | .ref _ => true
  | .arrow s => s.isWritten
  | .cls .. | .method _ | .empty => false

def Signature.isWritten : Signature → Bool
  | ⟨params, ret⟩ => Ty.areWritten params && ret.isWritten

def Ty.areWritten : List Ty → Bool
  | [] => true
  | t :: ts => t.isWritten && Ty.areWritten ts
end

theorem Ty.isMethod_of_isWritten {t : Ty} (h : t.isWritten = true) : t.isMethod = false := by
  cases t with
  | method s => simp [Ty.isWritten] at h
  | _ => rfl

mutual
/-- The types that a declaration and the declarations in it give. -/
def Decl.types : Decl → List Ty
  | .var v => v.type.toList
  | .function f => f.types

def Function.types : Function → List Ty
  | ⟨_, params, ret, locals, _, _⟩ => params.filterMap Param.type ++ ret.toList ++ Decl.listTypes locals

def Decl.listTypes : List Decl → List Ty
  | [] => []
  | d :: ds => d.types ++ Decl.listTypes ds
end

def Class.types (c : Class) : List Ty :=
  c.fields.filterMap Field.type ++ c.methods.flatMap (·.function.types)

def Program.types (p : Program) : List Ty := p.classes.flatMap Class.types ++ Decl.listTypes p.decls

/-- All types are written ones. -/
def Written (types : List Ty) : Prop := ∀ t ∈ types, t.isWritten = true

instance (types : List Ty) : Decidable (Written types) :=
  inferInstanceAs (Decidable (∀ t ∈ types, t.isWritten = true))

theorem written_append {a b : List Ty} : Written (a ++ b) ↔ Written a ∧ Written b := List.forall_mem_append

theorem written_filterMap_cons {α : Type} {f : α → Option Ty} {a : α} {as : List α} :
    Written ((a :: as).filterMap f) ↔ Written (f a).toList ∧ Written (as.filterMap f) := by
  rw [← written_append, List.filterMap_cons]
  cases f a <;> rfl

theorem Class.written_method {c : Class} (ht : Written c.types) {d : Method} (hd : d ∈ c.methods) :
    Written d.function.types :=
  fun t hmem => ht t (List.mem_append_right _ (List.mem_flatMap.2 ⟨d, hd, hmem⟩))

/-! ## Complete functions -/

/-- The parameter is complete and has type `t`. -/
def Param.Declares (p : Param) (t : Ty) : Prop := ∃ x, p.name = some x ∧ p.type = some t

theorem Param.declares_of_mapM {ps : List Param} {ts : List Ty} (h : ps.mapM Param.type = some ts)
    (hc : ps.all Param.isComplete = true) : List.Forall₂ Param.Declares ps ts := by
  induction ps generalizing ts with
  | nil =>
    obtain rfl := Option.some.inj h
    exact .nil
  | cons p ps ih =>
    rw [List.all_cons, Bool.and_eq_true, Param.isComplete, Bool.and_eq_true] at hc
    obtain ⟨x, hx⟩ := Option.isSome_iff_exists.1 hc.1.1
    obtain ⟨t, ht, hrest⟩ := Option.bind_eq_some_iff.1 ((List.mapM_cons ..).symm.trans h)
    obtain ⟨ts', hts, hlast⟩ := Option.bind_eq_some_iff.1 hrest
    obtain rfl := Option.some.inj hlast
    exact .cons ⟨x, hx, ht⟩ (ih hts hc.2)

/-- The parameters of a complete function. -/
theorem Function.declares_of_declared? {f : Function} {name : Name} {signature : Signature}
    (h : f.declared? = some (name, signature)) : List.Forall₂ Param.Declares f.params signature.params := by
  unfold Function.declared? at h
  split at h
  · next hc =>
    rw [Function.isComplete, Bool.and_eq_true] at hc
    split at h
    · next hs =>
      obtain ⟨rfl, rfl⟩ := Prod.mk.inj (Option.some.inj h)
      unfold Function.signature? at hs
      split at hs
      · next hps _ =>
        obtain rfl := Option.some.inj hs
        exact Param.declares_of_mapM hps hc.2
      · cases hs
    · cases h
  · cases h

theorem Function.ret_of_declared? {f : Function} {name : Name} {signature : Signature}
    (h : f.declared? = some (name, signature)) : f.ret = some signature.ret := by
  unfold Function.declared? Function.signature? at h
  split at h
  · split at h
    · next hs =>
      obtain ⟨rfl, rfl⟩ := Prod.mk.inj (Option.some.inj h)
      split at hs
      · next hret =>
        obtain rfl := Option.some.inj hs
        exact hret
      · cases hs
    · cases h
  · cases h

theorem Ty.areWritten_of_forall {ts : List Ty} (h : ∀ t ∈ ts, t.isWritten = true) :
    Ty.areWritten ts = true := by
  induction ts with
  | nil => rfl
  | cons t ts ih =>
    rw [List.forall_mem_cons] at h
    rw [Ty.areWritten, h.1, ih h.2]
    rfl

theorem Function.isWritten_of_declared? {f : Function} (ht : Written f.types) {name : Name}
    {signature : Signature} (h : f.declared? = some (name, signature)) : signature.isWritten = true := by
  have hparams := Function.declares_of_declared? h
  have hret := Function.ret_of_declared? h
  obtain ⟨_, params, ret, locals, body, span⟩ := f
  obtain ⟨types, result⟩ := signature
  simp only [Function.types, written_append] at ht
  rw [Signature.isWritten, Bool.and_eq_true]
  refine ⟨Ty.areWritten_of_forall fun t hmem => ?_, ht.1.2 _ (Option.mem_toList.2 hret)⟩
  obtain ⟨i, hi⟩ := List.mem_iff_getElem?.1 hmem
  obtain ⟨p, hp, hdeclares⟩ := getElem?_of_forall₂ hparams.flip hi
  obtain ⟨x, -, htype⟩ := hdeclares
  exact ht.1.1 t (List.mem_filterMap.2 ⟨p, List.mem_of_getElem? hp, htype⟩)

theorem Decl.isWritten_of_declared? {d : Decl} (ht : Written d.types) {name : Name} {t : Ty}
    (h : d.declared? = some (name, t)) : t.isWritten = true := by
  cases d with
  | var v =>
    simp only [Decl.declared?, Variable.declared?] at h
    split at h
    · next htype =>
      obtain ⟨-, rfl⟩ := Prod.mk.inj (Option.some.inj h)
      exact ht _ (Option.mem_toList.2 htype)
    · cases h
  | function f =>
    obtain ⟨⟨name', signature⟩, hdeclared, hp⟩ := Option.map_eq_some_iff.1 h
    obtain ⟨-, rfl⟩ := Prod.mk.inj hp
    exact Function.isWritten_of_declared? ht hdeclared

/-! ## Names -/

/-- The names of classes, in order. -/
def Class.names (cs : List Class) : List String := cs.filterMap fun c => c.name.map Name.text

/-! ## Nodes -/

mutual
def Expr.nodes : Expr → Nat
  | .int .. | .bool .. | .null _ | .ident .. => 1
  | .call _ args _ _ | .methodCall _ _ args _ _ _ | .new _ args _ _ => 1 + Expr.listNodes args
  | .ite c t e _ => 1 + c.nodes + t.nodes + e.nodes
  | .binary _ l r _ => 1 + l.nodes + r.nodes
  | .not e _ | .print e _ => 1 + e.nodes

def Expr.listNodes : List Expr → Nat
  | [] => 0
  | e :: es => e.nodes + Expr.listNodes es
end

mutual
def Decl.nodes : Decl → Nat
  | .var v => 1 + v.init.nodes
  | .function f => f.nodes

/-- A function, its parameters and what is inside it. -/
def Function.nodes : Function → Nat
  | ⟨_, params, _, locals, body, _⟩ => 1 + params.length + Decl.listNodes locals + body.nodes

def Decl.listNodes : List Decl → Nat
  | [] => 0
  | d :: ds => d.nodes + Decl.listNodes ds
end

def Class.nodes (c : Class) : Nat := 1 + c.fields.length + (c.methods.map (·.function.nodes)).sum

/-- The number of nodes of a program. -/
def Program.nodes (p : Program) : Nat :=
  1 + (p.classes.map Class.nodes).sum + Decl.listNodes p.decls + p.body.nodes

theorem Function.nodes_pos (f : Function) : 0 < f.nodes := by
  obtain ⟨name, params, ret, locals, body, span⟩ := f
  rw [Function.nodes]
  omega

theorem Decl.nodes_pos (d : Decl) : 0 < d.nodes := by
  cases d with
  | var v =>
    rw [Decl.nodes]
    omega
  | function f => exact f.nodes_pos

theorem Decl.length_le_listNodes (ds : List Decl) : ds.length ≤ Decl.listNodes ds := by
  induction ds with
  | nil => exact Nat.le_refl _
  | cons d ds ih =>
    have := d.nodes_pos
    rw [List.length_cons, Decl.listNodes]
    omega

/-! ## Building trees

Complete trees without annotations and without positions. -/

def Name.plain (x : String) : Name := ⟨x, .synthetic⟩

def Expr.number (n : Int) : Expr := .int (.ofInt n) .synthetic

def Expr.variable (x : String) : Expr := .ident (.plain x) none

def Expr.apply (f : String) (args : List Expr) : Expr := .call (.plain f) args .synthetic none

def Expr.send (object method : String) (args : List Expr) : Expr :=
  .methodCall (.plain object) (.plain method) args .synthetic none none

def Expr.make (cls : String) (args : List Expr) : Expr := .new (.plain cls) args .synthetic none

def Function.plain (f : String) (params : List (String × Ty)) (ret : Ty) (body : Expr) : Function :=
  ⟨some (.plain f), params.map fun (x, t) => ⟨some (.plain x), some t, .synthetic⟩, some ret, [],
    body, .synthetic⟩

def Variable.plain (x : String) (t : Ty) (init : Expr) : Variable :=
  ⟨some (.plain x), some t, init, .synthetic⟩

def Class.plain (c : String) (superclass : Option String) (fields : List (String × Ty))
    (methods : List Function) : Class :=
  ⟨some (.plain c), superclass.map .plain,
    fields.map fun (x, t) => ⟨some (.plain x), some t, .synthetic, none⟩,
    methods.map (⟨·, none⟩), .synthetic, none, none⟩

end Classlet

import Classlet.Compile
import Classlet.Proofs.Scopes
import Classlet.Proofs.Trees
/-!
# Incomplete declarations left out

`erase` removes every incomplete declaration of a tree, at all depths. Erasing commutes with annotating, and
neither the problems found in a declaration nor its type reports nor its code change. Of classes this holds
too as long as only complete members have an offset (`Class.Tidy`), except for one thing: the types of
fields are also looked at where the field has no name, so resolution may report something about a field that
is not there any more.
-/

namespace Classlet

/-! ## Erasing -/

def Variable.isComplete (v : Variable) : Bool := v.name.isSome && v.type.isSome

def Field.isComplete (f : Field) : Bool := f.name.isSome && f.type.isSome

def Decl.isComplete : Decl → Bool
  | .var v => v.isComplete
  | .function f => f.isComplete

mutual
/-- The declaration without the incomplete ones inside it. -/
def Decl.erase : Decl → Decl
  | .var v => .var v
  | .function f => .function f.erase

def Function.erase : Function → Function
  | ⟨name, params, ret, locals, body, span⟩ => ⟨name, params, ret, Decl.eraseAll locals, body, span⟩

/-- The complete declarations. -/
def Decl.eraseAll : List Decl → List Decl
  | [] => []
  | d :: ds => if d.isComplete then d.erase :: Decl.eraseAll ds else Decl.eraseAll ds
end

def Method.erase (d : Method) : Method := { d with function := d.function.erase }

def Method.eraseAll (ds : List Method) : List Method := (ds.filter (·.function.isComplete)).map Method.erase

def Class.erase (c : Class) : Class :=
  { c with fields := c.fields.filter Field.isComplete, methods := Method.eraseAll c.methods }

/-- The classes that have a name. -/
def Class.eraseAll (cs : List Class) : List Class := (cs.filter (·.name.isSome)).map Class.erase

def Program.erase : Program → Program
  | .letIn classes decls body span => .letIn (Class.eraseAll classes) (Decl.eraseAll decls) body span
  | .expr body span => .expr body span

/-! ## Complete declarations -/

theorem mapM_type_isSome {ps : List Param} (h : ps.all Param.isComplete = true) :
    (ps.mapM Param.type).isSome = true := by
  induction ps with
  | nil => rfl
  | cons p ps ih =>
    rw [List.all_cons, Bool.and_eq_true, Param.isComplete, Bool.and_eq_true] at h
    obtain ⟨t, ht⟩ := Option.isSome_iff_exists.1 h.1.2
    obtain ⟨ts, hts⟩ := Option.isSome_iff_exists.1 (ih h.2)
    simp [List.mapM_cons, ht, hts]

theorem Function.declared?_isSome (f : Function) : f.declared?.isSome = f.isComplete := by
  unfold Function.declared?
  split
  · next hc =>
    rw [hc]
    rw [Function.isComplete, Bool.and_eq_true, Bool.and_eq_true] at hc
    obtain ⟨⟨hname, hret⟩, hparams⟩ := hc
    obtain ⟨name, hname⟩ := Option.isSome_iff_exists.1 hname
    obtain ⟨ret, hret⟩ := Option.isSome_iff_exists.1 hret
    obtain ⟨ts, hts⟩ := Option.isSome_iff_exists.1 (mapM_type_isSome hparams)
    simp [Function.signature?, Function.paramTypes?, hname, hret, hts]
  · next hc => simpa using hc

theorem Variable.declared?_isSome (v : Variable) : v.declared?.isSome = v.isComplete := by
  unfold Variable.declared? Variable.isComplete
  cases v.name <;> cases v.type <;> rfl

theorem Field.declared?_isSome (f : Field) : f.declared?.isSome = f.isComplete := by
  unfold Field.declared? Field.isComplete
  cases f.name <;> cases f.type <;> rfl

theorem Decl.declared?_isSome (d : Decl) : d.declared?.isSome = d.isComplete := by
  cases d with
  | var v => exact v.declared?_isSome
  | function f =>
    rw [Decl.declared?, Option.isSome_map]
    exact f.declared?_isSome

theorem eq_none_of_isSome_eq {α : Type} {x : Option α} {b : Bool} (hx : x.isSome = b) (hb : b = false) :
    x = none := by
  simpa [hb] using hx

theorem Decl.declared?_eq_none {d : Decl} (h : d.isComplete = false) : d.declared? = none :=
  eq_none_of_isSome_eq d.declared?_isSome h

theorem Function.declared?_eq_none {f : Function} (h : f.isComplete = false) : f.declared? = none :=
  eq_none_of_isSome_eq f.declared?_isSome h

theorem Field.declared?_eq_none {f : Field} (h : f.isComplete = false) : f.declared? = none :=
  eq_none_of_isSome_eq f.declared?_isSome h

@[simp] theorem Function.declared?_erase (f : Function) : f.erase.declared? = f.declared? := by
  obtain ⟨name, params, ret, locals, body, span⟩ := f
  rfl

@[simp] theorem Decl.declared?_erase (d : Decl) : d.erase.declared? = d.declared? := by
  cases d with
  | var v => rfl
  | function f => rw [Decl.erase, Decl.declared?, Decl.declared?, Function.declared?_erase]

@[simp] theorem Decl.isComplete_annotate (classes : Table VirtualTable) (s : Scopes) (d : Decl) :
    (d.annotate classes s).isComplete = d.isComplete := by
  rw [← Decl.declared?_isSome, Decl.declared?_annotate, Decl.declared?_isSome]

theorem Decl.bind_erase (s : Scopes) (d : Decl) : d.erase.bind s = d.bind s := by
  rw [Decl.bind, Decl.declared?_erase, Decl.bind]

theorem Decl.bind_incomplete {d : Decl} (h : d.isComplete = false) (s : Scopes) : d.bind s = s := by
  rw [Decl.bind, Decl.declared?_eq_none h]

theorem Decl.bindAll_eraseAll (s : Scopes) (ds : List Decl) :
    Decl.bindAll s (Decl.eraseAll ds) = Decl.bindAll s ds := by
  induction ds generalizing s with
  | nil => rfl
  | cons d ds ih =>
    have hcons : Decl.bindAll s (d :: ds) = Decl.bindAll (d.bind s) ds := rfl
    rw [hcons, Decl.eraseAll]
    cases hd : d.isComplete with
    | true =>
      rw [if_pos rfl, ← ih, ← Decl.bind_erase]
      rfl
    | false => rw [if_neg Bool.false_ne_true, ih, Decl.bind_incomplete hd]

/-! ## Names -/

section Names
variable {classes : Table VirtualTable}

mutual
theorem Decl.erase_annotate : ∀ (d : Decl) (s : Scopes), (d.annotate classes s).erase =
      d.erase.annotate classes s
  | .var v, s => by
    rw [Decl.annotate, Decl.erase, Decl.annotate]
    cases v.declared? <;> rfl
  | .function f, s => by
    rw [Decl.annotate, Decl.erase, Decl.annotate, Function.declared?_erase]
    cases f.declared? with
    | none => rfl
    | some p => simp only [Decl.erase, Function.erase_annotate f]

theorem Function.erase_annotate :
    ∀ (f : Function) (s : Scopes), (f.annotate classes s).erase = f.erase.annotate classes s
  | ⟨name, params, ret, locals, body, span⟩, s => by
    rw [Function.annotate, Function.erase, Function.erase, Function.annotate,
      Decl.eraseAll_annotateAll locals, Decl.bindAll_eraseAll]

theorem Decl.eraseAll_annotateAll : ∀ (ds : List Decl) (s : Scopes),
    Decl.eraseAll (Decl.annotateAll classes s ds) = Decl.annotateAll classes s (Decl.eraseAll ds)
  | [], s => rfl
  | d :: ds, s => by
    rw [Decl.annotateAll, Decl.eraseAll, Decl.eraseAll, Decl.isComplete_annotate,
      Decl.eraseAll_annotateAll ds]
    cases hd : d.isComplete with
    | true => rw [if_pos rfl, if_pos rfl, Decl.annotateAll, Decl.erase_annotate d, Decl.bind_erase]
    | false => rw [if_neg Bool.false_ne_true, if_neg Bool.false_ne_true, Decl.bind_incomplete hd]
end

mutual
theorem Decl.nameProblems_erase :
    ∀ (d : Decl) (s : Scopes), d.erase.nameProblems classes s = d.nameProblems classes s
  | .var v, s => rfl
  | .function f, s => by
    rw [Decl.erase, Decl.nameProblems, Decl.nameProblems, Function.declared?_erase]
    cases f.declared? with
    | none => rfl
    | some p =>
      have hspan : f.erase.span = f.span := by cases f; rfl
      simp only [Function.nameProblems_erase f, hspan]

theorem Function.nameProblems_erase :
    ∀ (f : Function) (s : Scopes), f.erase.nameProblems classes s = f.nameProblems classes s
  | ⟨name, params, ret, locals, body, span⟩, s => by
    rw [Function.erase, Function.nameProblems, Function.nameProblems, Decl.allNameProblems_eraseAll locals,
      Decl.bindAll_eraseAll]

theorem Decl.allNameProblems_eraseAll : ∀ (ds : List Decl) (s : Scopes),
    Decl.allNameProblems classes s (Decl.eraseAll ds) = Decl.allNameProblems classes s ds
  | [], s => rfl
  | d :: ds, s => by
    rw [Decl.eraseAll, Decl.allNameProblems]
    cases hd : d.isComplete with
    | true =>
      rw [if_pos rfl, Decl.allNameProblems, Decl.nameProblems_erase d, Decl.bind_erase,
        Decl.allNameProblems_eraseAll ds]
    | false =>
      have hnone : d.nameProblems classes s = [] := by
        cases d with
        | var v => simp only [Decl.nameProblems, show v.declared? = none from Decl.declared?_eq_none hd]
        | function f => simp only [Decl.nameProblems, Function.declared?_eq_none hd]
      rw [if_neg Bool.false_ne_true, hnone, List.nil_append, Decl.bind_incomplete hd,
        Decl.allNameProblems_eraseAll ds]
end

end Names

/-! ## Types -/

section Types
variable {h : Hierarchy}

mutual
theorem Decl.typeReports_erase :
    ∀ (d : Decl) (severity : Severity), d.erase.typeReports h severity = d.typeReports h severity
  | .var v, severity => rfl
  | .function f, severity => by
    rw [Decl.erase, Decl.typeReports, Decl.typeReports, Function.typeReports_erase f]

theorem Function.typeReports_erase : ∀ (f : Function) (kind : DeclKind) (a b : Severity),
    f.erase.typeReports h kind a b = f.typeReports h kind a b
  | ⟨name, params, ret, locals, body, span⟩, kind, a, b => by
    have hdeclared := Function.declared?_erase ⟨name, params, ret, locals, body, span⟩
    rw [Function.erase] at hdeclared ⊢
    rw [Function.typeReports, Function.typeReports, hdeclared, Decl.allTypeReports_eraseAll locals]

theorem Decl.allTypeReports_eraseAll : ∀ (ds : List Decl) (severity : Severity),
    Decl.allTypeReports h severity (Decl.eraseAll ds) = Decl.allTypeReports h severity ds
  | [], severity => rfl
  | d :: ds, severity => by
    rw [Decl.eraseAll, Decl.allTypeReports]
    cases hd : d.isComplete with
    | true =>
      rw [if_pos rfl, Decl.allTypeReports, Decl.typeReports_erase d, Decl.allTypeReports_eraseAll ds]
    | false =>
      have hnone : d.typeReports h severity = [] := by
        cases d with
        | var v =>
          simp only [Decl.typeReports, Variable.typeProblem?,
            show v.declared? = none from Decl.declared?_eq_none hd, Option.toList_none, List.map_nil]
        | function f =>
          obtain ⟨name, params, ret, locals, body, span⟩ := f
          simp only [Decl.typeReports, Function.typeReports, Function.declared?_eq_none hd]
      rw [if_neg Bool.false_ne_true, hnone, List.nil_append, Decl.allTypeReports_eraseAll ds]
end

end Types

/-! ## Code -/

section Generation
variable {memory : Word}

theorem Decl.slots_eraseAll (ds : List Decl) : Decl.slots (Decl.eraseAll ds) = Decl.slots ds := by
  induction ds with
  | nil => rfl
  | cons d ds ih =>
    rw [Decl.eraseAll]
    cases hd : d.isComplete with
    | true => simpa [Decl.slots, List.countP_cons] using ih
    | false => simpa [Decl.slots, List.countP_cons, Decl.declared?_eq_none hd] using ih

mutual
theorem Decl.code_erase : ∀ (d : Decl) (s : Supply), d.erase.code memory s = d.code memory s
  | .var v, s => rfl
  | .function f, s => by
    rw [Decl.erase, Decl.code, Decl.code, Function.declared?_erase, Function.code_erase f]

theorem Function.code_erase : ∀ (f : Function) (s : Supply), f.erase.code memory s = f.code memory s
  | ⟨name, params, ret, locals, body, span⟩, s => by
    rw [Function.erase, Function.code, Function.code, Decl.codeAll_eraseAll locals, Decl.slots_eraseAll]

theorem Decl.codeAll_eraseAll : ∀ (ds : List Decl) (s : Supply),
    Decl.codeAll memory (Decl.eraseAll ds) s = Decl.codeAll memory ds s
  | [], s => rfl
  | d :: ds, s => by
    rw [Decl.eraseAll, Decl.codeAll]
    cases hd : d.isComplete with
    | true =>
      rw [if_pos rfl, Decl.codeAll, Decl.code_erase d]
      simp only [Decl.codeAll_eraseAll ds]
    | false =>
      have hnone : d.code memory s = .ok ⟨[], [], s⟩ := by
        cases d with
        | var v => simp [Decl.code, show v.declared? = none from Decl.declared?_eq_none hd]
        | function f => simp [Decl.code, Function.declared?_eq_none hd]
      rw [if_neg Bool.false_ne_true, hnone, ok_bind, Decl.codeAll_eraseAll ds]
      exact (bind_pure _).symm
end

end Generation

end Classlet

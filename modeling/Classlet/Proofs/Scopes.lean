import Classlet.Resolution.Decl
import Mathlib.Tactic.Common
/-!
# What scopes bind

Look-ups after a binding, after an offset was taken and in a new scope. Everything about the current scope
follows from `lookup?_eq`: a look-up asks the current scope first and then those around it, which a change
of the current scope leaves alone.
-/

namespace Classlet

theorem Scope.get?_bind (scope : Scope) (x y : String) (e : Entry) :
    (scope.bind x e).get? y = (scope.get? y).or (if x = y then some e else none) := by
  rw [Scope.bind]
  split
  · next hc =>
    by_cases hxy : x = y
    · subst hxy
      obtain ⟨e', he'⟩ := Option.isSome_iff_exists.1 hc
      rw [Scope.get?, he']
      rfl
    · rw [if_neg hxy, Option.or_none]
  · next hc =>
    rw [Scope.get?, Table.get?_set]
    by_cases hxy : x = y
    · subst hxy
      have hnone : scope.get? x = none := by simpa [Table.contains, Scope.get?] using hc
      rw [if_pos rfl, if_pos rfl, hnone, Option.none_or]
    · rw [if_neg hxy, if_neg hxy, Option.or_none]
      rfl

namespace Scopes

/-- The innermost binding of a name outside the current scope. -/
def lookupOuter? (s : Scopes) (x : String) : Option Entry :=
  match s.nested with
  | [] => none
  | _ :: rest => lookup? ⟨rest, s.global⟩ x

theorem lookup?_eq (s : Scopes) (x : String) :
    s.lookup? x = (s.lookupCurrent? x).or (s.lookupOuter? x) := by
  obtain ⟨nested, g⟩ := s
  cases nested with
  | nil => simp [lookup?, lookupCurrent?, lookupOuter?, current]
  | cons scope rest =>
    simp only [lookup?, lookupCurrent?, lookupOuter?, current, List.headD_cons, List.findSome?_cons]
    cases scope.get? x <;> simp

section Current
variable (s : Scopes) (f : Scope → Scope)

theorem level_modifyCurrent : (s.modifyCurrent f).level = s.level := by
  obtain ⟨nested, g⟩ := s
  cases nested <;> rfl

theorem current_modifyCurrent : (s.modifyCurrent f).current = f s.current := by
  obtain ⟨nested, g⟩ := s
  cases nested <;> rfl

theorem lookupOuter?_modifyCurrent (x : String) :
    (s.modifyCurrent f).lookupOuter? x = s.lookupOuter? x := by
  obtain ⟨nested, g⟩ := s
  cases nested <;> rfl

end Current

@[simp] theorem level_bind (s : Scopes) (x : String) (e : Entry) : (s.bind x e).level = s.level :=
  s.level_modifyCurrent _

@[simp] theorem level_takeOffset (s : Scopes) : s.takeOffset.level = s.level := s.level_modifyCurrent _

@[simp] theorem level_push (s : Scopes) (scope : Scope) : (s.push scope).level = s.level + 1 := rfl

/-- What opened the nested scopes, innermost first. -/
def kinds (s : Scopes) : List ScopeKind := s.nested.map Scope.kind

@[simp] theorem kinds_push (s : Scopes) (scope : Scope) :
    (s.push scope).kinds = scope.kind :: s.kinds := rfl

theorem kinds_modifyCurrent (s : Scopes) {f : Scope → Scope} (hf : ∀ scope, (f scope).kind = scope.kind) :
    (s.modifyCurrent f).kinds = s.kinds := by
  obtain ⟨nested, g⟩ := s
  cases nested with
  | nil => rfl
  | cons scope rest => simp [kinds, modifyCurrent, hf]

@[simp] theorem kinds_bind (s : Scopes) (x : String) (e : Entry) : (s.bind x e).kinds = s.kinds := by
  apply kinds_modifyCurrent
  intro scope
  rw [Scope.bind]
  split <;> rfl

@[simp] theorem kinds_takeOffset (s : Scopes) : s.takeOffset.kinds = s.kinds :=
  s.kinds_modifyCurrent fun _ => rfl

theorem lookupCurrent?_bind {s : Scopes} {x : String} {e : Entry} (h : s.lookupCurrent? x = none)
    (y : String) :
    (s.bind x e).lookupCurrent? y = if x = y then some e else s.lookupCurrent? y := by
  have hc : s.current.bindings.contains x = false := by
    rw [Table.contains, Option.isSome_eq_false_iff, Option.isNone_iff_eq_none]
    exact h
  rw [lookupCurrent?, bind, current_modifyCurrent, Scope.bind, hc]
  exact Table.get?_set _ _ _ _

theorem lookup?_bind {s : Scopes} {x : String} {e : Entry} (h : s.lookupCurrent? x = none) (y : String) :
    (s.bind x e).lookup? y = if x = y then some e else s.lookup? y := by
  rw [lookup?_eq, lookupCurrent?_bind h, bind, lookupOuter?_modifyCurrent, lookup?_eq s]
  split <;> simp

@[simp] theorem lookupCurrent?_takeOffset (s : Scopes) (x : String) :
    s.takeOffset.lookupCurrent? x = s.lookupCurrent? x := by
  rw [lookupCurrent?, takeOffset, current_modifyCurrent]
  rfl

@[simp] theorem lookup?_takeOffset (s : Scopes) (x : String) : s.takeOffset.lookup? x = s.lookup? x := by
  rw [lookup?_eq, lookupCurrent?_takeOffset, takeOffset, lookupOuter?_modifyCurrent, lookup?_eq s]

theorem lookup?_push_empty (s : Scopes) (kind : ScopeKind) (x : String) :
    (s.push (.opened kind .empty)).lookup? x = s.lookup? x := rfl

/-- Binding a name adds at most one entry. -/
theorem lookup?_bind_cases {s : Scopes} {x y : String} {e e' : Entry}
    (h : (s.bind x e).lookup? y = some e') :
    e' = e ∨ s.lookup? y = some e' := by
  cases hx : s.lookupCurrent? x with
  | none =>
    rw [lookup?_bind hx] at h
    split at h
    · exact .inl (Option.some.inj h).symm
    · exact .inr h
  | some old =>
    have hbound : s.bind x e = s := by
      have hcontains : s.current.bindings.contains x = true := by
        rw [Table.contains, Option.isSome_iff_exists]
        exact ⟨old, hx⟩
      obtain ⟨nested, g⟩ := s
      cases nested with
      | nil => simp_all [Scopes.bind, Scopes.modifyCurrent, Scope.bind, Scopes.current]
      | cons scope rest => simp_all [Scopes.bind, Scopes.modifyCurrent, Scope.bind, Scopes.current]
    rw [hbound] at h
    exact .inr h

/-! ## Offsets -/

@[simp] theorem nextOffset_takeOffset (s : Scopes) : s.takeOffset.nextOffset = s.nextOffset - 1 := by
  rw [nextOffset, takeOffset, current_modifyCurrent]
  rfl

@[simp] theorem nextOffset_bind (s : Scopes) (x : String) (e : Entry) :
    (s.bind x e).nextOffset = s.nextOffset := by
  rw [nextOffset, bind, current_modifyCurrent, Scope.bind]
  split <;> rfl

/-- What binding one of the parameters preserves, binding all of them preserves. -/
theorem bindParams_preserves {P : Scopes → Prop} {s : Scopes} {i : Nat} {ps : List Param} (hs : P s)
    (hbind : ∀ (s : Scopes) (k : Nat) (name : Name) (t : Ty), i ≤ k → k < i + ps.length →
      t ∈ ps.filterMap Param.type → P s →
      P (s.bind name.text ⟨s.level, t, Layout.paramOffset k⟩)) : P (s.bindParams i ps) := by
  induction ps generalizing s i with
  | nil => exact hs
  | cons p ps ih =>
    rw [List.length_cons] at hbind
    have hrest (s : Scopes) (hs : P s) : P (s.bindParams (i + 1) ps) := by
      refine ih hs fun s k name t hle hlt ht => hbind s k name t (by omega) (by omega) ?_
      obtain ⟨q, hq, hqt⟩ := List.mem_filterMap.1 ht
      exact List.mem_filterMap.2 ⟨q, List.mem_cons_of_mem _ hq, hqt⟩
    rw [bindParams]
    split
    · next name t _ htype =>
      exact hrest _ (hbind s i name t (Nat.le_refl i) (by omega)
        (List.mem_filterMap.2 ⟨p, List.mem_cons_self, htype⟩) hs)
    · exact hrest s hs

theorem nextOffset_bindParams (s : Scopes) (i : Nat) (ps : List Param) :
    (s.bindParams i ps).nextOffset = s.nextOffset :=
  bindParams_preserves (P := fun s' => s'.nextOffset = s.nextOffset) rfl fun s' _ _ _ _ _ _ h =>
    (s'.nextOffset_bind _ _).trans h

theorem nextOffset_enter (s : Scopes) (ps : List Param) :
    (s.enter ps).nextOffset = Layout.firstLocalOffset := by
  rw [enter, nextOffset_bindParams]
  rfl

/-! ## Levels inside functions -/

theorem level_bindParams (s : Scopes) (i : Nat) (ps : List Param) : (s.bindParams i ps).level = s.level :=
  bindParams_preserves (P := fun s' => s'.level = s.level) rfl fun s' _ _ _ _ _ _ h =>
    (s'.level_bind _ _).trans h

theorem level_enter (s : Scopes) (ps : List Param) : (s.enter ps).level = s.level + 1 := by
  rw [enter, level_bindParams]
  rfl

end Scopes

theorem Decl.level_bind (s : Scopes) (d : Decl) : (d.bind s).level = s.level := by
  unfold Decl.bind
  split
  · rw [Scopes.declareLocal, Scopes.level_bind, Scopes.level_takeOffset]
  · rfl

theorem Decl.level_bindAll (s : Scopes) (ds : List Decl) : (Decl.bindAll s ds).level = s.level :=
  List.foldlRecOn (motive := fun s' => s'.level = s.level) ds Decl.bind rfl fun s' h d _ =>
    (Decl.level_bind s' d).trans h

theorem Decl.nextOffset_bind (s : Scopes) (d : Decl) :
    (d.bind s).nextOffset = s.nextOffset - (if d.declared?.isSome then 1 else 0 : Nat) := by
  unfold Decl.bind
  cases d.declared? with
  | none => simp
  | some p =>
    obtain ⟨name, type⟩ := p
    simp [Scopes.declareLocal]

theorem Scopes.duplicates_eq_nil {s : Scopes} {kind : DeclKind} {name : Name}
    (h : s.duplicates kind name = []) :
    s.lookupCurrent? name.text = none := by
  rw [Scopes.duplicates] at h
  split at h
  · cases h
  · next hn => simpa using hn

/-! ## What annotating keeps -/

theorem Function.declared?_annotate (classes : Table VirtualTable) (s : Scopes) (f : Function) :
    (f.annotate classes s).declared? = f.declared? := by
  obtain ⟨name, params, ret, locals, body, span⟩ := f
  rfl

theorem Decl.declared?_annotate (classes : Table VirtualTable) (s : Scopes) (d : Decl) :
    (d.annotate classes s).declared? = d.declared? := by
  cases d with
  | var v =>
    rw [Decl.annotate]
    split
    · rfl
    · rfl
  | function f =>
    rw [Decl.annotate]
    split
    · simp only [Decl.declared?, Function.declared?_annotate]
    · rfl

theorem Decl.declared_annotateAll (classes : Table VirtualTable) (s : Scopes) (ds : List Decl) :
    (Decl.annotateAll classes s ds).filterMap Decl.declared? = ds.filterMap Decl.declared? := by
  induction ds generalizing s with
  | nil => rfl
  | cons d ds ih =>
    rw [Decl.annotateAll, List.filterMap_cons, List.filterMap_cons, Decl.declared?_annotate, ih]

end Classlet

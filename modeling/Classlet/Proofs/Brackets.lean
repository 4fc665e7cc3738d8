import Classlet.Proofs.Scopes
import Mathlib.Data.List.Infix
/-!
# Scopes are brackets

Operations on the open scopes in any order: scopes are opened and closed, names are bound in the current or
in the outermost scope and looked up, and offsets are handed out. `scopeAt?_apply` says once what an
operation does to a scope that is open before and after it. All else follows by induction over the
operations: a scope and everything inside it leave no trace but names in the outermost scope, and while a
scope is open it forgets no entry and hands out its offsets one after the other (`Scopes.lexical_after`).
-/

namespace Classlet

/-- A scope that has handed out `taken` offsets: none if it is new, or as many as it had when it was
closed. -/
structure UsedScope where
  scope : Scope
  taken : Nat
  next_eq : scope.nextOffset = Layout.firstLocalOffset - taken

/-- A new scope. -/
def UsedScope.new (kind : ScopeKind) (bindings : Table Entry) : UsedScope :=
  ⟨.opened kind bindings, 0, (Int.sub_zero Layout.firstLocalOffset).symm⟩

namespace Scopes

/-! ## Operations -/

inductive Operation where
  | push (kind : ScopeKind)
  | pushScope (scope : UsedScope)
  | pop
  | insert (name : String) (entry : Entry)
  | insertGlobal (name : String) (entry : Entry)
  | lookup (name : String)
  | nextOffset

/-- The scopes after an operation. Binding a name that is taken and closing the outermost scope change
nothing. -/
def Operation.apply (s : Scopes) : Operation → Scopes
  | push kind => s.push (.opened kind .empty)
  | pushScope used => s.push used.scope
  | pop =>
    match s.pop? with
    | some (_, s') => s'
    | none => s
  | insert name entry =>
    match s.insert name entry with
    | .ok s' => s'
    | .error _ => s
  | insertGlobal name entry =>
    match s.insertGlobal name entry with
    | .ok s' => s'
    | .error _ => s
  | lookup _ => s
  | nextOffset => s.takeOffset

/-- The scopes after operations, the first one first. -/
def after (s : Scopes) (ops : List Operation) : Scopes := ops.foldl Operation.apply s

/-- How many scopes more are open after an operation. -/
def Operation.opens : Operation → Int
  | push _ | pushScope _ => 1
  | pop => -1
  | _ => 0

def depth : List Operation → Int
  | [] => 0
  | op :: ops => op.opens + depth ops

/-- Operations that begin with the opening of a scope and end with its closing. What is in between closes no
scope that it has not opened. -/
def IsBracket (ops : List Operation) : Prop :=
  ∃ first inner, ops = first :: inner ++ [.pop] ∧ first.opens = 1 ∧ depth inner = 0 ∧
    ∀ p, p <+: inner → 0 ≤ depth p

/-- The open scope with `i` scopes around it. -/
def scopeAt? (s : Scopes) (i : Nat) : Option Scope := (s.global :: s.nested.reverse)[i]?

/-- The scope with `i` scopes around it is not closed by the operations. -/
def StaysOpen (i : Nat) (s : Scopes) (ops : List Operation) : Prop := ∀ p, p <+: ops → i ≤ (s.after p).level

/-- The offset that an operation hands out. -/
def Operation.offset? (s : Scopes) : Operation → Option Int
  | nextOffset => some s.nextOffset
  | _ => none

/-- The offsets that the scope with `i` scopes around it hands out. -/
def handedOut (i : Nat) (s : Scopes) : List Operation → List Int
  | [] => []
  | op :: ops => (if s.level = i then op.offset? s else none).toList ++ handedOut i (op.apply s) ops

/-- The entry that an operation offers for a name of the outermost scope. -/
def Operation.globalBinding? (name : String) : Operation → Option Entry
  | insertGlobal x entry => if x = name then some entry else none
  | _ => none

section Lists
variable (s : Scopes) (i : Nat) (op : Operation) (ops : List Operation)

@[simp] theorem after_nil : s.after [] = s := rfl

@[simp] theorem after_cons : s.after (op :: ops) = (op.apply s).after ops := rfl

theorem after_append (ops' : List Operation) : s.after (ops ++ ops') = (s.after ops).after ops' :=
  List.foldl_append

theorem staysOpen_cons : StaysOpen i s (op :: ops) ↔ i ≤ s.level ∧ StaysOpen i (op.apply s) ops := by
  constructor
  · intro h
    exact ⟨h [] List.nil_prefix, fun p hp => h (op :: p) (List.cons_prefix_cons.2 ⟨rfl, hp⟩)⟩
  · rintro ⟨hs, hops⟩ p hp
    rcases List.prefix_cons_iff.1 hp with rfl | ⟨q, rfl, hq⟩
    · exact hs
    · exact hops q hq

end Lists

variable {s : Scopes} {i : Nat} {op : Operation} {ops : List Operation}

theorem StaysOpen.here (h : StaysOpen i s ops) : i ≤ s.level := h [] List.nil_prefix

/-! ## One operation -/

theorem insert_eq_bind (name : String) (entry : Entry) :
    (Operation.insert name entry).apply s = s.bind name entry := by
  rw [Operation.apply, Scopes.insert]
  cases hold : s.lookupCurrent? name with
  | none => rfl
  | some old =>
    -- the scope keeps the entry, as `bind` does
    have hcontains : s.current.bindings.contains name = true := Option.isSome_iff_exists.2 ⟨old, hold⟩
    obtain ⟨nested, g⟩ := s
    cases nested with
    | nil => exact congrArg (Scopes.mk []) (if_pos hcontains).symm
    | cons scope rest => exact congrArg (fun scope' => Scopes.mk (scope' :: rest) g) (if_pos hcontains).symm

theorem insertGlobal_eq_bindGlobal (name : String) (entry : Entry) :
    (Operation.insertGlobal name entry).apply s = s.bindGlobal name entry := by
  rw [Operation.apply, Scopes.insertGlobal]
  cases hold : s.lookupGlobal? name with
  | none => rfl
  | some old =>
    have hcontains : s.global.bindings.contains name = true := Option.isSome_iff_exists.2 ⟨old, hold⟩
    exact congrArg (Scopes.mk s.nested) (if_pos hcontains).symm

/-- An operation changes the number of open scopes as it says, unless it would close the outermost one. -/
theorem level_apply (h : 0 ≤ s.level + op.opens) : ((op.apply s).level : Int) = s.level + op.opens := by
  cases op with
  | push kind => rfl
  | pushScope used => rfl
  | pop =>
    obtain ⟨nested, g⟩ := s
    cases nested with
    | nil => simp [level, Operation.opens] at h
    | cons scope rest => exact (Int.add_sub_cancel _ 1).symm
  | insert name entry => rw [insert_eq_bind, level_bind]; exact (Int.add_zero _).symm
  | insertGlobal name entry => rw [insertGlobal_eq_bindGlobal]; exact (Int.add_zero _).symm
  | lookup name => exact (Int.add_zero _).symm
  | nextOffset => rw [Operation.apply, level_takeOffset]; exact (Int.add_zero _).symm

theorem scopeAt?_push (scope : Scope) (hi : i ≤ s.level) : (s.push scope).scopeAt? i = s.scopeAt? i := by
  have hlt : i < (s.global :: s.nested.reverse).length := by simpa [level] using Nat.lt_succ_of_le hi
  rw [scopeAt?, push, List.reverse_cons, ← List.cons_append, List.getElem?_append_left hlt]
  rfl

theorem scopeAt?_level (s : Scopes) : s.scopeAt? s.level = some s.current := by
  obtain ⟨nested, g⟩ := s
  cases nested with
  | nil => rfl
  | cons scope rest => simp [scopeAt?, level, current]

theorem scopeAt?_pop (hi : i ≤ (Operation.pop.apply s).level) :
    (Operation.pop.apply s).scopeAt? i = s.scopeAt? i := by
  obtain ⟨nested, g⟩ := s
  cases nested with
  | nil => rfl
  | cons scope rest => exact (scopeAt?_push (s := ⟨rest, g⟩) scope hi).symm

theorem scopeAt?_modifyCurrent (f : Scope → Scope) (hi : i ≤ s.level) :
    (s.modifyCurrent f).scopeAt? i = (s.scopeAt? i).map (if i = s.level then f else id) := by
  obtain ⟨nested, g⟩ := s
  cases nested with
  | nil =>
    obtain rfl := Nat.le_zero.1 hi
    rfl
  | cons scope rest =>
    rcases Nat.lt_or_eq_of_le hi with hlt | rfl
    · -- a scope around the current one
      have hle : i ≤ (Scopes.mk rest g).level := Nat.le_of_lt_succ hlt
      rw [if_neg (Nat.ne_of_lt hlt), Option.map_id]
      exact (scopeAt?_push (f scope) hle).trans (scopeAt?_push scope hle).symm
    · rw [if_pos rfl, scopeAt?_level]
      exact scopeAt?_level (Scopes.mk (f scope :: rest) g)

theorem scopeAt?_bindGlobal (name : String) (entry : Entry) :
    (s.bindGlobal name entry).scopeAt? i =
      (s.scopeAt? i).map (if i = 0 then (·.bind name entry) else id) := by
  cases i with
  | zero => rfl
  | succ i => rw [if_neg (Nat.succ_ne_zero i), Option.map_id]; rfl

/-- What an operation does to one of the open scopes, which is the current or the outermost one or neither
of them. -/
def Operation.effect (isCurrent isGlobal : Bool) : Operation → Scope → Scope
  | insert name entry, scope => if isCurrent then scope.bind name entry else scope
  | insertGlobal name entry, scope => if isGlobal then scope.bind name entry else scope
  | nextOffset, scope => if isCurrent then scope.takeOffset else scope
  | _, scope => scope

/-- What happens to a scope that is open before an operation and after it. -/
theorem scopeAt?_apply (hi : i ≤ s.level) (hi' : i ≤ (op.apply s).level) :
    (op.apply s).scopeAt? i = (s.scopeAt? i).map (op.effect (i = s.level) (i = 0)) := by
  have hsame {o : Option Scope} : o.map (fun scope => scope) = o := Option.map_id_fun' ▸ rfl
  cases op with
  | push kind => exact (scopeAt?_push _ hi).trans hsame.symm
  | pushScope used => exact (scopeAt?_push _ hi).trans hsame.symm
  | pop => exact (scopeAt?_pop hi').trans hsame.symm
  | insert name entry =>
    rw [insert_eq_bind, Scopes.bind, scopeAt?_modifyCurrent _ hi]
    congr 1
    funext scope
    by_cases h : i = s.level <;> simp [Operation.effect, h]
  | insertGlobal name entry =>
    rw [insertGlobal_eq_bindGlobal, scopeAt?_bindGlobal]
    congr 1
    funext scope
    by_cases h : i = 0 <;> simp [Operation.effect, h]
  | lookup name => exact hsame.symm
  | nextOffset =>
    rw [Operation.apply, takeOffset, scopeAt?_modifyCurrent _ hi]
    congr 1
    funext scope
    by_cases h : i = s.level <;> simp [Operation.effect, h]

/-! ## Scopes around a bracket -/

/-- A scope with others inside it that stay open is changed by bindings in the outermost scope only. -/
theorem scopeAt?_after_of_staysOpen (h : StaysOpen (i + 1) s ops) :
    (s.after ops).scopeAt? i = (s.scopeAt? i).map fun scope =>
      ops.foldl (fun scope op => op.effect false (i = 0) scope) scope := by
  induction ops generalizing s with
  | nil => exact (congrFun Option.map_id _).symm
  | cons op ops ih =>
    obtain ⟨hs, hops⟩ := (staysOpen_cons s (i + 1) op ops).1 h
    have hne : i ≠ s.level := Nat.ne_of_lt hs
    rw [after_cons, ih hops, scopeAt?_apply (Nat.le_of_lt hs) (Nat.le_of_lt hops.here), Option.map_map]
    simp [hne, Function.comp_def]

theorem effect_inner (op : Operation) (scope : Scope) : op.effect false false scope = scope := by
  cases op <;> rfl

theorem foldl_effect_inner (ops : List Operation) (scope : Scope) :
    ops.foldl (fun scope op => op.effect false false scope) scope = scope := by
  induction ops with
  | nil => rfl
  | cons op ops ih => rw [List.foldl_cons, effect_inner, ih]

/-- From inside, names are added to the outermost scope and nothing else is changed there. -/
theorem foldl_effect_global (ops : List Operation) (scope : Scope) :
    (ops.foldl (fun scope op => op.effect false true scope) scope).kind = scope.kind ∧
      (ops.foldl (fun scope op => op.effect false true scope) scope).nextOffset = scope.nextOffset ∧
      ∀ name, (ops.foldl (fun scope op => op.effect false true scope) scope).get? name =
        (scope.get? name).or (ops.findSome? (·.globalBinding? name)) := by
  induction ops generalizing scope with
  | nil => exact ⟨rfl, rfl, fun name => Option.or_none.symm⟩
  | cons op ops ih =>
    obtain ⟨hkind, hnext, hget⟩ := ih (op.effect false true scope)
    have hop : (op.effect false true scope).kind = scope.kind ∧
        (op.effect false true scope).nextOffset = scope.nextOffset ∧
        ∀ name, (op.effect false true scope).get? name = (scope.get? name).or (op.globalBinding? name) := by
      cases op with
      | insertGlobal x entry =>
        refine ⟨?_, ?_, fun name => scope.get?_bind x name entry⟩
        all_goals
          rw [Operation.effect, if_pos rfl, Scope.bind]
          split <;> rfl
      | _ => exact ⟨rfl, rfl, fun name => Option.or_none.symm⟩
    refine ⟨hkind.trans hop.1, hnext.trans hop.2.1, fun name => ?_⟩
    rw [List.foldl_cons, hget name, hop.2.2 name, List.findSome?_cons, Option.or_assoc]
    cases op.globalBinding? name <;> rfl

/-- What is left of operations `ops` from `s` to `s'`: names that they bound in the outermost scope, where
they were not bound. -/
structure Restored (s : Scopes) (ops : List Operation) (s' : Scopes) : Prop where
  nested : s'.nested = s.nested
  kind : s'.global.kind = s.global.kind
  next : s'.global.nextOffset = s.global.nextOffset
  bindings (name : String) : s'.global.get? name =
    (s.global.get? name).or (ops.findSome? (·.globalBinding? name))

/-- Operations that keep to scopes of their own change the number of open scopes as they say. -/
theorem level_after (h : ∀ p, p <+: ops → 0 ≤ s.level + depth p) :
    ((s.after ops).level : Int) = s.level + depth ops := by
  induction ops generalizing s with
  | nil => exact (Int.add_zero _).symm
  | cons op ops ih =>
    have hop : ((op.apply s).level : Int) = s.level + op.opens := by
      refine level_apply ?_
      have hfirst := h [op] (List.cons_prefix_cons.2 ⟨rfl, List.nil_prefix⟩)
      rwa [depth, depth, Int.add_zero] at hfirst
    rw [after_cons, ih, hop, depth, Int.add_assoc]
    intro p hp
    have hrest := h (op :: p) (List.cons_prefix_cons.2 ⟨rfl, hp⟩)
    rw [depth] at hrest
    omega

/-- The scopes that are open are determined by their positions. -/
theorem nested_eq_of_scopeAt? {s' : Scopes} (hlevel : s'.level = s.level)
    (h : ∀ i, i < s.level → s'.scopeAt? (i + 1) = s.scopeAt? (i + 1)) : s'.nested = s.nested := by
  refine List.reverse_inj.1 (List.ext_getElem? fun i => ?_)
  rcases Nat.lt_or_ge i s.level with hlt | hge
  · exact h i hlt
  · have hge' : s'.level ≤ i := hlevel ▸ hge
    rw [level, ← List.length_reverse] at hge hge'
    rw [List.getElem?_eq_none hge, List.getElem?_eq_none hge']

theorem apply_of_opens (h : op.opens = 1) (s : Scopes) :
    ∃ used : UsedScope, op.apply s = s.push used.scope := by
  cases op with
  | push kind => exact ⟨.new kind .empty, rfl⟩
  | pushScope used => exact ⟨used, rfl⟩
  | _ => cases h

theorem globalBinding?_of_opens {name : String} (h : op.opens = 1) : op.globalBinding? name = none := by
  cases op with
  | insertGlobal x entry => cases h
  | _ => rfl

/-- Inside a bracket the scope that it opened stays open, and at the end it is the current one. -/
theorem staysOpen_push {inner : List Operation} (s : Scopes) (scope : Scope)
    (hinner : ∀ p, p <+: inner → 0 ≤ depth p) :
    StaysOpen (s.level + 1) (s.push scope) inner ∧
    (((s.push scope).after inner).level : Int) = s.level + 1 + depth inner := by
  have hlevel (p : List Operation) (hp : p <+: inner) :
      (((s.push scope).after p).level : Int) = s.level + 1 + depth p := by
    have hpush : ((s.push scope).level : Int) = s.level + 1 := rfl
    rw [level_after, hpush]
    intro q hq
    have hq' := hinner q (hq.trans hp)
    omega
  refine ⟨fun p hp => ?_, hlevel inner (List.prefix_refl inner)⟩
  have hp' := hlevel p hp
  have hnonneg := hinner p hp
  omega

theorem IsBracket.restored (h : IsBracket ops) (s : Scopes) : Restored s ops (s.after ops) := by
  obtain ⟨first, inner, rfl, hfirst, hdepth, hinner⟩ := h
  obtain ⟨used, hused⟩ := apply_of_opens hfirst s
  obtain ⟨hopen, hend⟩ := staysOpen_push s used.scope hinner
  have hrun : s.after (first :: inner ++ [.pop]) =
      Operation.pop.apply ((s.push used.scope).after inner) := by
    rw [List.cons_append, after_cons, after_append, hused]
    rfl
  have hlevel : (s.after (first :: inner ++ [.pop])).level = s.level := by
    have hpop : ((Operation.pop.apply ((s.push used.scope).after inner)).level : Int) =
        ((s.push used.scope).after inner).level + Operation.pop.opens :=
        level_apply (by rw [hend, hdepth, Operation.opens]; omega)
    rw [hend, hdepth, Operation.opens] at hpop
    rw [hrun]
    omega
  -- seen from a scope outside, only what is between the brackets happens
  have hscope (i : Nat) (hi : i ≤ s.level) : (s.after (first :: inner ++ [.pop])).scopeAt? i =
      (s.scopeAt? i).map fun scope =>
        inner.foldl (fun scope op => op.effect false (i = 0) scope) scope := by
    have hopen' : StaysOpen (i + 1) (s.push used.scope) inner :=
      fun p hp => Nat.le_trans (Nat.succ_le_succ hi) (hopen p hp)
    rw [hrun] at hlevel ⊢
    rw [scopeAt?_pop (hlevel ▸ hi), scopeAt?_after_of_staysOpen hopen', scopeAt?_push _ hi]
  have hglobal := Option.some.inj (hscope 0 (Nat.zero_le _))
  obtain ⟨hkind, hnext, hget⟩ := foldl_effect_global inner s.global
  refine ⟨nested_eq_of_scopeAt? hlevel fun i hi => ?_, ?_, ?_, fun name => ?_⟩
  · rw [hscope (i + 1) hi]
    simp [foldl_effect_inner]
  · rw [hglobal]
    simpa using hkind
  · rw [hglobal]
    simpa using hnext
  · have hsome : List.findSome? (·.globalBinding? name) (first :: inner ++ [.pop]) =
        inner.findSome? (·.globalBinding? name) := by
      rw [List.cons_append, List.findSome?_cons, globalBinding?_of_opens hfirst, List.findSome?_append]
      exact Option.or_none
    rw [hglobal, hsome]
    simpa using hget name

/-! ## Scopes while they are open -/

end Scopes

/-- What a scope may become: it keeps its entries, and hands out `offsets` one after the other. -/
structure Scope.Evolves (scope : Scope) (offsets : List Int) (scope' : Scope) : Prop where
  kind : scope'.kind = scope.kind
  keeps (name : String) (entry : Entry) : scope.get? name = some entry → scope'.get? name = some entry
  next : scope'.nextOffset = scope.nextOffset - offsets.length
  offsets : offsets = (List.range offsets.length).map fun j : Nat => scope.nextOffset - j

namespace Scope.Evolves
variable {a b c : Scope} {l l' : List Int}

theorem refl (scope : Scope) : scope.Evolves [] scope := ⟨rfl, fun _ _ => id, (Int.sub_zero _).symm, rfl⟩

theorem trans (hab : a.Evolves l b) (hbc : b.Evolves l' c) : a.Evolves (l ++ l') c where
  kind := hbc.kind.trans hab.kind
  keeps name entry h := hbc.keeps name entry (hab.keeps name entry h)
  next := by
    rw [hbc.next, hab.next, List.length_append, Int.natCast_add]
    omega
  offsets := by
    have hnext (j : Nat) : b.nextOffset - (j : Int) = a.nextOffset - ((l.length + j : Nat) : Int) := by
      rw [hab.next]
      omega
    rw [List.length_append, List.range_add, List.map_append, List.map_map, ← hab.offsets]
    refine congrArg (l ++ ·) (hbc.offsets.trans ?_)
    simp only [hnext]
    rfl

theorem bind (scope : Scope) (x : String) (entry : Entry) : scope.Evolves [] (scope.bind x entry) := by
  refine ⟨?_, fun name old hold => ?_, ?_, rfl⟩
  · rw [Scope.bind]
    split <;> rfl
  · rw [Scope.get?_bind, hold, Option.some_or]
  · rw [Scope.bind]
    split <;> exact (Int.sub_zero _).symm

theorem takeOffset (scope : Scope) : scope.Evolves [scope.nextOffset] scope.takeOffset :=
  ⟨rfl, fun _ _ => id, rfl, congrArg (fun o : Int => [o]) (Int.sub_zero _).symm⟩

end Scope.Evolves

namespace Scopes

variable {s : Scopes} {i : Nat} {op : Operation} {ops : List Operation} {scope : Scope}

theorem Operation.evolves (hscope : s.scopeAt? i = some scope) :
    scope.Evolves (if s.level = i then op.offset? s else none).toList
      (op.effect (i = s.level) (i = 0) scope) := by
  have hcurrent (h : i = s.level) : scope = s.current :=
    Option.some.inj (hscope.symm.trans (h ▸ s.scopeAt?_level))
  cases op with
  | nextOffset =>
    by_cases h : i = s.level
    · have htake := Scope.Evolves.takeOffset scope
      rw [Operation.offset?, if_pos h.symm, Operation.effect, if_pos (decide_eq_true h), Scopes.nextOffset,
        ← hcurrent h]
      exact htake
    · rw [if_neg (Ne.symm h), Operation.effect, if_neg (by simpa using h)]
      exact .refl scope
  | insert name entry =>
    simp only [Operation.offset?, ite_self, Operation.effect]
    split
    · exact .bind scope name entry
    · exact .refl scope
  | insertGlobal name entry =>
    simp only [Operation.offset?, ite_self, Operation.effect]
    split
    · exact .bind scope name entry
    · exact .refl scope
  | _ =>
    simp only [Operation.offset?, ite_self]
    exact .refl scope

/-- What becomes of a scope that stays open. -/
theorem StaysOpen.evolves (h : StaysOpen i s ops) (hscope : s.scopeAt? i = some scope) :
    ∃ scope', (s.after ops).scopeAt? i = some scope' ∧ scope.Evolves (handedOut i s ops) scope' := by
  induction ops generalizing s scope with
  | nil => exact ⟨scope, hscope, .refl scope⟩
  | cons op ops ih =>
    obtain ⟨hs, hops⟩ := (staysOpen_cons s i op ops).1 h
    have hstep := scopeAt?_apply hs hops.here
    rw [hscope, Option.map_some] at hstep
    obtain ⟨scope', hscope', hevolves⟩ := ih hops hstep
    exact ⟨scope', hscope', (Operation.evolves hscope).trans hevolves⟩

/-! ## Looking names up -/

/-- The open scopes, innermost first. -/
def opened (s : Scopes) : List Scope := s.nested ++ [s.global]

/-- `found` is the entry of `name` in the innermost of the open scopes that have one. -/
inductive Innermost (s : Scopes) (name : String) : (found : Option Entry) → Prop
  | bound {inner outer : List Scope} {scope : Scope} {entry : Entry} : s.opened = inner ++ scope :: outer →
    (∀ t ∈ inner, t.get? name = none) → scope.get? name = some entry → Innermost s name (some entry)
  | unbound : (∀ t ∈ s.opened, t.get? name = none) → Innermost s name none

theorem lookup?_innermost (s : Scopes) (name : String) : s.Innermost name (s.lookup? name) := by
  have heq : s.lookup? name = s.opened.findSome? (·.get? name) := by
    rw [opened, List.findSome?_append, lookup?, List.findSome?_singleton]
  rw [heq]
  cases hfound : s.opened.findSome? (·.get? name) with
  | none => exact .unbound (List.findSome?_eq_none_iff.1 hfound)
  | some entry =>
    obtain ⟨inner, scope, outer, hopened, hscope, hinner⟩ := List.findSome?_eq_some_iff.1 hfound
    exact .bound hopened hinner hscope

/-! ## Binding names -/

/-- What binding `name` in the scope with `i` scopes around it comes to: the entry that the name has there,
or scopes in which this one scope has the name added. -/
inductive Bound (s : Scopes) (i : Nat) (name : String) (entry : Entry) : Except Entry Scopes → Prop
  | taken {scope : Scope} {old : Entry} : s.scopeAt? i = some scope → scope.get? name = some old →
    Bound s i name entry (.error old)
  | added {scope scope' : Scope} {s' : Scopes} : s.scopeAt? i = some scope → scope.get? name = none →
    s'.scopeAt? i = some scope' → scope.Evolves [] scope' →
    (∀ x, scope'.get? x = if x = name then some entry else scope.get? x) → s'.level = s.level →
    (∀ j, j ≠ i → s'.scopeAt? j = s.scopeAt? j) → Bound s i name entry (.ok s')

theorem scopeAt?_eq_none (h : s.level < i) : s.scopeAt? i = none := by
  apply List.getElem?_eq_none
  rw [List.length_cons, List.length_reverse]
  exact h

theorem get?_bind_of_none {name : String} (entry : Entry) (h : scope.get? name = none) (x : String) :
    (scope.bind name entry).get? x = if x = name then some entry else scope.get? x := by
  rw [Scope.get?_bind]
  by_cases hx : x = name
  · subst hx
    simp [h]
  · simp [hx, Ne.symm hx]

theorem bound_insert (s : Scopes) (name : String) (entry : Entry) :
    s.Bound s.level name entry (s.insert name entry) := by
  unfold Scopes.insert
  cases hold : s.lookupCurrent? name with
  | some old => exact .taken s.scopeAt?_level hold
  | none =>
    have hlevel := s.level_bind name entry
    have hcurrent : (s.bind name entry).scopeAt? s.level = some (s.current.bind name entry) := by
      rw [Scopes.bind, scopeAt?_modifyCurrent _ (Nat.le_refl _), if_pos rfl, scopeAt?_level]
      rfl
    refine .added s.scopeAt?_level hold hcurrent (.bind _ _ _) (get?_bind_of_none entry hold) hlevel
      fun j hj => ?_
    rcases Nat.lt_or_ge s.level j with hlt | hge
    · rw [scopeAt?_eq_none hlt, scopeAt?_eq_none (hlevel.symm ▸ hlt)]
    · rw [Scopes.bind, scopeAt?_modifyCurrent _ hge, if_neg hj, Option.map_id]
      rfl

theorem bound_insertGlobal (s : Scopes) (name : String) (entry : Entry) :
    s.Bound 0 name entry (s.insertGlobal name entry) := by
  unfold Scopes.insertGlobal
  cases hold : s.lookupGlobal? name with
  | some old => exact .taken rfl hold
  | none =>
    refine .added rfl hold rfl (.bind _ _ _) (get?_bind_of_none entry hold) rfl fun j hj => ?_
    rw [scopeAt?_bindGlobal, if_neg hj, Option.map_id]
    rfl

/-! ## All together -/

/-- The offsets that a scope hands out after `taken` others. -/
def consecutive (taken count : Nat) : List Int :=
  (List.range count).map fun j => Layout.firstLocalOffset - (taken + j : Nat)

/-- What a scope hands out while it stays open, and that it can be opened again after it was closed. -/
theorem StaysOpen.exists_used (h : StaysOpen i s ops) (used : UsedScope)
    (hused : s.scopeAt? i = some used.scope) :
    handedOut i s ops = consecutive used.taken (handedOut i s ops).length ∧
      ∃ used' : UsedScope, (s.after ops).scopeAt? i = some used'.scope ∧
        used'.taken = used.taken + (handedOut i s ops).length := by
  obtain ⟨scope', hscope', hevolves⟩ := h.evolves hused
  refine ⟨hevolves.offsets.trans (List.map_congr_left fun j _ => ?_), ⟨scope', _, ?_⟩, hscope', rfl⟩
  · rw [used.next_eq]
    omega
  · rw [hevolves.next, used.next_eq]
    omega

/-- What holds of the open scopes at any time, for any operations from then on. -/
structure Lexical (s : Scopes) : Prop where
  /-- A bracket leaves no trace but names in the outermost scope. -/
  restores (ops : List Operation) : IsBracket ops → Restored s ops (s.after ops)
  innermost (name : String) : s.Innermost name (s.lookup? name)
  inserts (name : String) (entry : Entry) :
    s.Bound s.level name entry (s.insert name entry) ∧ s.Bound 0 name entry (s.insertGlobal name entry)
  /-- A scope keeps the entry of a name until it is closed. -/
  keeps (i : Nat) (scope : Scope) (name : String) (entry : Entry) (ops : List Operation) :
    s.scopeAt? i = some scope →
    scope.get? name = some entry → StaysOpen i s ops →
      ∃ scope', (s.after ops).scopeAt? i = some scope' ∧ scope'.get? name = some entry
  /-- A scope that is opened now hands out consecutive offsets until it is closed. -/
  offsets (used : UsedScope) (ops : List Operation) : StaysOpen (s.level + 1) (s.push used.scope) ops →
    handedOut (s.level + 1) (s.push used.scope) ops =
        consecutive used.taken (handedOut (s.level + 1) (s.push used.scope) ops).length ∧
      ∃ used' : UsedScope, ((s.push used.scope).after ops).scopeAt? (s.level + 1) = some used'.scope ∧
        used'.taken = used.taken + (handedOut (s.level + 1) (s.push used.scope) ops).length

theorem lexical (s : Scopes) : s.Lexical where
  restores _ h := h.restored s
  innermost := s.lookup?_innermost
  inserts name entry := ⟨s.bound_insert name entry, s.bound_insertGlobal name entry⟩
  keeps i scope name entry ops hscope hentry h := by
    obtain ⟨scope', hscope', hevolves⟩ := h.evolves hscope
    exact ⟨scope', hscope', hevolves.keeps name entry hentry⟩
  offsets used _ h := h.exists_used used (s.push used.scope).scopeAt?_level

/-- At any time after any operations, which start with the outermost scope alone: brackets leave no trace
but names in the outermost scope, a look-up finds the innermost entry, a name is bound where it was not, and
every scope keeps its entries and hands out consecutive offsets until it is closed. The outermost one is
never closed. -/
theorem lexical_after (history : List Operation) :
    (initial.after history).Lexical ∧
      handedOut 0 initial history = consecutive 0 (handedOut 0 initial history).length := by
  have hopen : StaysOpen 0 initial history := fun _ _ => Nat.zero_le _
  exact ⟨lexical _, (hopen.exists_used (.new .outermost .empty) rfl).1⟩

/-- A variable of the program, and the body of a function. -/
def entering : List Operation := [.nextOffset, .insert "x" ⟨0, .int, -2⟩, .push .function, .nextOffset]

/-- Inside a class, with a method in it: the class is bound in the outermost scope, and `x` is not, because
it is taken there. -/
def aside : List Operation :=
  [.insertGlobal "A" ⟨0, .cls [.bool] [], -3⟩, .insertGlobal "x" ⟨0, .int, -4⟩, .push .function,
    .insert "x" ⟨3, .ref "A", 1⟩, .nextOffset, .pop, .nextOffset]

/-- A class with a field that shadows `x`. -/
def detour : List Operation := .pushScope (.new .cls (.ofList [("x", ⟨2, .bool, -1⟩)])) :: aside ++ [.pop]

theorem detour_leaves_no_trace :
    IsBracket detour ∧ Restored (initial.after entering) detour ((initial.after entering).after detour) ∧
      (initial.after entering).level = 1 ∧ ((initial.after entering).after detour).level = 1 ∧
      ((initial.after entering).after detour).global.get? "A" = some ⟨0, .cls [.bool] [], -3⟩ ∧
      ((initial.after entering).after detour).lookup? "x" = some ⟨0, .int, -2⟩ ∧
      handedOut 0 initial (entering ++ detour ++ [.pop, .nextOffset]) = [-2, -3] := by
  have hbracket : IsBracket detour := by
    have hinits : ∀ p ∈ aside.inits, 0 ≤ depth p := by decide
    exact ⟨_, aside, rfl, rfl, rfl, fun p hp => hinits p ((List.mem_inits p aside).2 hp)⟩
  have hrestored := (lexical_after entering).1.restores detour hbracket
  refine ⟨hbracket, hrestored, rfl, ?_, ?_, ?_, ?_⟩
  · rw [level, hrestored.nested]
    rfl
  · rw [hrestored.bindings]
    rfl
  · rfl
  · exact (lexical_after (entering ++ detour ++ [Operation.pop, Operation.nextOffset])).2

end Scopes

end Classlet

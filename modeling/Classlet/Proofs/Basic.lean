import Mathlib.Data.List.Flatten
import Mathlib.Data.List.Forall2
import Mathlib.Tactic.Common
/-!
# Lists and computations that may fail
-/

namespace Classlet

/-- A computation that succeeds consists of steps that succeed. -/
theorem bind_eq_ok {ε α β : Type} {x : Except ε α} {f : α → Except ε β} {b : β} :
    (x >>= f) = .ok b ↔ ∃ a, x = .ok a ∧ f a = .ok b := by
  cases x with
  | error e => simp [bind, Except.bind]
  | ok a => simp [bind, Except.bind]

theorem ok_bind {ε α β : Type} (a : α) (f : α → Except ε β) : (Except.ok a >>= f) = f a := rfl

theorem pure_eq_ok {ε α : Type} {a b : α} : (pure a : Except ε α) = .ok b ↔ a = b := by
  simp [pure, Except.pure]

theorem exists_of_mem_mapM {ε α β : Type} {f : α → Except ε β} {l : List α} {bs : List β}
    (h : l.mapM f = .ok bs) {b : β} (hb : b ∈ bs) : ∃ a ∈ l, f a = .ok b := by
  induction l generalizing bs with
  | nil =>
    obtain rfl := pure_eq_ok.1 h
    cases hb
  | cons a l ih =>
    rw [List.mapM_cons] at h
    simp only [bind_eq_ok, pure_eq_ok] at h
    obtain ⟨c, hc, rest, hrest, rfl⟩ := h
    rcases List.mem_cons.1 hb with rfl | hb
    · exact ⟨a, List.mem_cons_self, hc⟩
    · obtain ⟨a', ha', hf⟩ := ih hrest hb
      exact ⟨a', List.mem_cons_of_mem _ ha', hf⟩

/-- The computation has a result. -/
def Succeeds {ε α : Type} (x : Except ε α) : Prop := ∃ a, x = .ok a

theorem succeeds_ok {ε α : Type} (a : α) : Succeeds (Except.ok a : Except ε α) := ⟨a, rfl⟩

theorem Succeeds.bind {ε α β : Type} {x : Except ε α} {f : α → Except ε β} (hx : Succeeds x)
    (hf : ∀ a, Succeeds (f a)) :
    Succeeds (x >>= f) := by
  obtain ⟨a, rfl⟩ := hx
  exact hf a

theorem Succeeds.mapError {ε ε' α : Type} {x : Except ε α} (hx : Succeeds x) (f : ε → ε') :
    Succeeds (x.mapError f) := by
  obtain ⟨a, rfl⟩ := hx
  exact succeeds_ok a

theorem succeeds_mapM {ε α β : Type} {f : α → Except ε β} {l : List α} (h : ∀ a ∈ l, Succeeds (f a)) :
    Succeeds (l.mapM f) := by
  induction l with
  | nil => exact succeeds_ok []
  | cons a l ih =>
    obtain ⟨ha, hl⟩ := List.forall_mem_cons.1 h
    rw [List.mapM_cons]
    exact ha.bind fun b => (ih hl).bind fun bs => succeeds_ok (b :: bs)

/-- Evaluates a test of a result. -/
theorem exists_ok {ε α : Type} {x : Except ε α} {P : α → Prop} [DecidablePred P]
    (h : x.toOption.any (P ·) = true) :
    ∃ a, x = .ok a ∧ P a := by
  cases x with
  | error e => cases h
  | ok a => exact ⟨a, rfl, of_decide_eq_true h⟩

/-- Only the error of a computation was renamed. -/
theorem ok_of_mapError {ε ε' α : Type} {f : ε → ε'} {x : Except ε α} {a : α} (h : x.mapError f = .ok a) :
    x = .ok a := by
  cases x with
  | error e => cases h
  | ok b => exact congrArg Except.ok (Except.ok.inj h)

theorem prefix_getElem? {α : Type} {l l' : List α} {i : Nat} {a : α} (h : l <+: l') (hi : l[i]? = some a) :
    l'[i]? = some a := by
  obtain ⟨r, rfl⟩ := h
  rw [List.getElem?_append_left (List.getElem?_eq_some_iff.1 hi).1, hi]

theorem getElem?_unique {α : Type} {l : List α} {i j : Nat} {a : α} (hn : l.Nodup) (hi : l[i]? = some a)
    (hj : l[j]? = some a) : i = j :=
  (List.getElem?_inj (List.getElem?_eq_some_iff.1 hi).1 hn).1 (hi.trans hj.symm)

theorem getElem?_of_forall₂ {α β : Type} {R : α → β → Prop} {l : List α} {l' : List β} {i : Nat} {a : α}
    (h : List.Forall₂ R l l') (hi : l[i]? = some a) : ∃ b, l'[i]? = some b ∧ R a b := by
  induction h generalizing i with
  | nil => simp at hi
  | cons hR _ ih =>
    cases i with
    | zero => exact ⟨_, rfl, by simpa using Option.some.inj hi ▸ hR⟩
    | succ i => exact ih (by simpa using hi)

theorem filterMap_eq_of_forall₂ {α β : Type} {R : α → α → Prop} {f : α → Option β} {as as' : List α}
    (h : List.Forall₂ R as as') (hf : ∀ a a', R a a' → f a' = f a) : as'.filterMap f = as.filterMap f := by
  induction h with
  | nil => rfl
  | cons ha _ ih => rw [List.filterMap_cons, List.filterMap_cons, hf _ _ ha, ih]

theorem forall_mem_of_forall₂ {α β : Type} {R : α → β → Prop} {P : β → Prop} {as : List α} {bs : List β}
    (h : List.Forall₂ R as bs) (hP : ∀ a b, R a b → P b) : ∀ b ∈ bs, P b := by
  induction h with
  | nil => exact List.forall_mem_nil _
  | cons hab _ ih => exact List.forall_mem_cons.2 ⟨hP _ _ hab, ih⟩

/-- Elements left out do not matter if nothing comes of them. -/
theorem flatMap_filter_eq_iff {α β : Type} {p : α → Bool} {f : α → List β} {l : List α} :
    (l.filter p).flatMap f = l.flatMap f ↔ ∀ a ∈ l.filter (! p ·), f a = [] := by
  induction l with
  | nil => simp
  | cons a l ih =>
    cases ha : p a with
    | true => simp [ha, ih]
    | false =>
      simp only [List.filter_cons, ha, Bool.false_eq_true, if_false, Bool.not_false, if_true,
        List.forall_mem_cons, ← ih, List.flatMap_cons]
      constructor
      · intro heq
        have hsub : ((l.filter p).flatMap f).Sublist (l.flatMap f) := List.filter_sublist.flatMap f
        have hlength := congrArg List.length heq
        have hle := hsub.length_le
        rw [List.length_append] at hlength
        have hnil : f a = [] := List.length_eq_zero_iff.1 (by omega)
        exact ⟨hnil, by rw [heq, hnil, List.nil_append]⟩
      · rintro ⟨hnil, heq⟩
        rw [hnil, heq, List.nil_append]

theorem lookup_of_getElem? {α : Type} {l : List (String × α)} {i : Nat} {x : String} {a : α}
    (hn : (l.map Prod.fst).Nodup) (hi : l[i]? = some (x, a)) : l.lookup x = some a := by
  induction l generalizing i with
  | nil => simp at hi
  | cons p l ih =>
    obtain ⟨y, b⟩ := p
    rw [List.map_cons, List.nodup_cons] at hn
    cases i with
    | zero =>
      obtain ⟨rfl, rfl⟩ := Prod.mk.inj (Option.some.inj hi)
      exact List.lookup_cons_self
    | succ i =>
      have hmem : x ∈ l.map Prod.fst := List.mem_map_of_mem (List.mem_of_getElem? (by simpa using hi))
      rw [List.lookup_cons, beq_false_of_ne (by rintro rfl; exact hn.1 hmem)]
      exact ih hn.2 (by simpa using hi)

end Classlet

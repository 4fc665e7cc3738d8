import Classlet.Machine
/-!
# Runs of the machine

`Steps image k s t`: from `s` the machine executes `k` instructions and is in `t`. A run is the same
computation with a bound on the number of instructions, so what `Steps` reaches decides how the run ends.

The stack and the heap share the memory. When they have met, the machine either refuses the next push or,
while it counts a word it has just put on the heap, has overwritten that word; `Exhausts` says that a
computation comes to one of the two.
-/

namespace Classlet.Machine

/-! ## Steps -/

inductive Steps (image : Image) : Nat → State → State → Prop where
  | refl (s : State) : Steps image 0 s s
  | next {k : Nat} {s t u : State} : s.step image = .ok t → Steps image k t u → Steps image (k + 1) s u

section Steps
variable {image : Image} {k m n : Nat} {s t u : State}

theorem Steps.single (h : s.step image = .ok t) : Steps image 1 s t := .next h (.refl t)

theorem Steps.trans (h : Steps image k s t) (h' : Steps image m t u) : Steps image (k + m) s u := by
  induction h with
  | refl => simpa using h'
  | next hs _ ih => rw [Nat.add_right_comm]; exact .next hs (ih h')

/-- Instructions that were executed count towards the bound of a run. -/
theorem Steps.run_add (h : Steps image k s t) (n : Nat) : s.run image (k + n) = t.run image n := by
  induction h with
  | refl => rw [Nat.zero_add]
  | next hs _ ih => rw [Nat.add_right_comm, State.run, hs]; exact ih

/-- A run that executes as many instructions as it may is given up. -/
theorem Steps.run_le (h : Steps image k s t) (hn : n ≤ k) : s.run image n = .fault .stepLimit := by
  induction h generalizing n with
  | refl => rw [Nat.le_zero.1 hn]; rfl
  | next hs _ ih =>
    cases n with
    | zero => rfl
    | succ n => rw [State.run, hs]; exact ih (Nat.le_of_succ_le_succ hn)

/-- A run that may execute one instruction more ends where the machine stops. -/
theorem Steps.run_eq {stop : Stop} (h : Steps image k s t) (hs : t.step image = .error stop) (hk : k < n) :
    s.run image n = stop := by
  obtain ⟨m, rfl⟩ : ∃ m, n = k + (m + 1) := ⟨n - k - 1, by omega⟩
  rw [h.run_add, State.run, hs]

end Steps

/-- The states in which the run of an assembly executes an instruction. -/
def Visits (a : Assembly) (size : Nat) (s : State) : Prop :=
  ∃ k, k < stepLimit ∧ Steps (.ofCode a.instructions) k (.initial size) s

/-- A run ends at the first instruction that cannot be executed, unless it is given up before. -/
theorem State.run_cases (image : Image) (n : Nat) (s : State) :
    (∃ k t, k < n ∧ Steps image k s t ∧ t.step image = .error (s.run image n)) ∨
      ((∃ t, Steps image n s t) ∧ s.run image n = .fault .stepLimit) := by
  induction n generalizing s with
  | zero => exact .inr ⟨⟨s, .refl s⟩, rfl⟩
  | succ n ih =>
    rw [State.run]
    cases hs : s.step image with
    | error stop => exact .inl ⟨0, s, Nat.succ_pos n, .refl s, hs⟩
    | ok t =>
      rcases ih t with ⟨k, u, hk, hu, hstop⟩ | ⟨⟨u, hu⟩, hlimit⟩
      · exact .inl ⟨k + 1, u, Nat.succ_lt_succ hk, .next hs hu, hstop⟩
      · exact .inr ⟨⟨u, .next hs hu⟩, hlimit⟩

section Run
variable {a : Assembly} {size k : Nat} {s : State}

/-- What the machine has reached counts, unless the run was given up. -/
theorem visits_or_stepLimit (h : Steps (.ofCode a.instructions) k (.initial size) s) :
    Visits a size s ∨ run a size = .fault .stepLimit := by
  rcases Nat.lt_or_ge k stepLimit with hk | hk
  · exact .inl ⟨k, hk, h⟩
  · exact .inr (h.run_le hk)

theorem Visits.run_eq {stop : Stop} (h : Visits a size s)
    (hs : s.step (.ofCode a.instructions) = .error stop) :
    run a size = stop := by
  obtain ⟨k, hk, hsteps⟩ := h
  exact hsteps.run_eq hs hk

end Run

/-! ## What a run passes -/

/-- Whether the next `n` states pass a test. -/
def State.passes (test : State → Bool) (image : Image) : Nat → State → Bool
  | 0, _ => false
  | n + 1, s =>
    test s || match s.step image with
      | .ok t => t.passes test image n
      | .error _ => false

theorem State.passes_iff {test : State → Bool} {image : Image} {n : Nat} {s : State} :
    s.passes test image n = true ↔ ∃ t, (∃ k, k < n ∧ Steps image k s t) ∧ test t = true := by
  induction n generalizing s with
  | zero => simp [State.passes]
  | succ n ih =>
    rw [State.passes, Bool.or_eq_true]
    constructor
    · rintro (hs | hrest)
      · exact ⟨s, ⟨0, Nat.succ_pos n, .refl s⟩, hs⟩
      · split at hrest
        · next t ht =>
          obtain ⟨u, ⟨k, hk, hu⟩, htest⟩ := ih.1 hrest
          exact ⟨u, ⟨k + 1, Nat.succ_lt_succ hk, .next ht hu⟩, htest⟩
        · cases hrest
    · rintro ⟨u, ⟨k, hk, hu⟩, htest⟩
      cases hu with
      | refl => exact .inl htest
      | next ht hu =>
        rw [ht]
        exact .inr (ih.2 ⟨u, ⟨_, Nat.lt_of_succ_lt_succ hk, hu⟩, htest⟩)

instance (a : Assembly) (size : Nat) (P : State → Prop) [DecidablePred P] :
    Decidable (∃ s, Visits a size s ∧ P s) :=
  decidable_of_iff ((State.initial size).passes (P ·) (.ofCode a.instructions) stepLimit)
    (by simp only [State.passes_iff, decide_eq_true_eq, Visits])

/-! ## Where stack and heap meet -/

/-- There is no room for the word that the next instruction pushes. -/
def Refuses (image : Image) (s : State) : Prop :=
  (s.sp : Int) = s.hp.val ∧ ∃ ip, s.step image = .error (.fault (.stackOverflow ip))

/-- The machine is about to add one to `hp`, but the stack already reaches down to the word at `hp`. -/
def Overwrites (image : Image) (s : State) : Prop :=
  (s.sp : Int) = s.hp.val ∧ (image.lines[s.ip]?).map Prod.fst = some (.arith .add) ∧
    (image.lines[s.ip + 1]?).map Prod.fst = some (.store .hp)

def Exhausts (image : Image) (s : State) : Prop :=
  ∃ k t, Steps image k s t ∧ (Refuses image t ∨ Overwrites image t)

/-- The memory is exhausted after fewer than `n` instructions. -/
def ExhaustsWithin (image : Image) (n : Nat) (s : State) : Prop :=
  ∃ k t, k < n ∧ Steps image k s t ∧ (Refuses image t ∨ Overwrites image t)

section Exhausts
variable {image : Image} {k m n : Nat} {s t : State}

theorem Exhausts.of_steps (h : Steps image k s t) (ht : Exhausts image t) : Exhausts image s := by
  obtain ⟨m, u, hm, hu⟩ := ht
  exact ⟨k + m, u, h.trans hm, hu⟩

theorem ExhaustsWithin.exhausts (h : ExhaustsWithin image n s) : Exhausts image s := by
  obtain ⟨k, t, -, hk, ht⟩ := h
  exact ⟨k, t, hk, ht⟩

theorem ExhaustsWithin.mono (h : ExhaustsWithin image n s) (hn : n ≤ m) : ExhaustsWithin image m s := by
  obtain ⟨k, t, hlt, hk, ht⟩ := h
  exact ⟨k, t, Nat.lt_of_lt_of_le hlt hn, hk, ht⟩

theorem ExhaustsWithin.of_steps (h : Steps image k s t) (ht : ExhaustsWithin image n t) :
    ExhaustsWithin image (k + n) s := by
  obtain ⟨m, u, hlt, hm, hu⟩ := ht
  exact ⟨k + m, u, Nat.add_lt_add_left hlt k, h.trans hm, hu⟩

end Exhausts

end Classlet.Machine

namespace Classlet.Code

/-! ## Code in place -/

/-- The instructions `c` stand in `code` from address `ip` on. -/
def At (code : Code) (ip : Nat) (c : Code) : Prop := c <+: code.drop ip

theorem at_append {code a b : Code} {ip : Nat} :
    code.At ip (a ++ b) ↔ code.At ip a ∧ code.At (ip + a.length) b := by
  constructor
  · rintro ⟨r, h⟩
    rw [List.append_assoc] at h
    refine ⟨⟨b ++ r, h⟩, r, ?_⟩
    rw [← List.drop_drop, ← h, List.drop_left]
  · rintro ⟨⟨r, h⟩, r', h'⟩
    refine ⟨r', ?_⟩
    rw [← List.drop_drop, ← h, List.drop_left] at h'
    rw [List.append_assoc, h', h]

theorem at_cons {code c : Code} {i : Instruction} {ip : Nat} :
    code.At ip (i :: c) ↔ code[ip]? = some i ∧ code.At (ip + 1) c := by
  rw [← List.singleton_append, at_append]
  refine and_congr_left fun _ => ?_
  constructor
  · rintro ⟨r, h⟩
    have hi : (code.drop ip)[0]? = some i := by rw [← h]; rfl
    simpa using hi
  · intro h
    obtain ⟨hlt, hi⟩ := List.getElem?_eq_some_iff.1 h
    exact ⟨code.drop (ip + 1), by rw [List.singleton_append, ← hi, ← List.drop_eq_getElem_cons]⟩

end Classlet.Code

namespace Classlet.Machine

theorem lines_ofCode (code : Code) (ip : Nat) :
    (Image.ofCode code).lines[ip]? = (code[ip]?).map fun i => (i, i.target?.bind (addressOf? · code)) := by
  simp [Image.ofCode]

theorem State.step_ofCode {code : Code} {s : State} {i : Instruction} (h : code[s.ip]? = some i) :
    s.step (.ofCode code) = { s with ip := s.ip + 1 }.exec (i.target?.bind (addressOf? · code)) i := by
  rw [State.step, lines_ofCode, h]
  rfl

end Classlet.Machine

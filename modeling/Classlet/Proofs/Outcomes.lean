import Classlet.Proofs.Guarded
import Classlet.Proofs.Programs
/-!
# How runs end

A run executes at most `stepLimit` instructions. Either stack and heap meet before that, or the run is given
up, or it ends as evaluation does (`Program.LinkedBy.outcome`). Stack and heap can meet in two ways: a push
is refused, which ends the run, or it is not and overwrites a word on the heap.
-/

namespace Classlet

namespace Machine

/-! ## Where stack and heap meet -/

/-- The run comes to a state where stack and heap have met. -/
def Meets (a : Assembly) (size : Nat) : Prop := ∃ s, Visits a size s ∧ (s.sp : Int) = s.hp.val

/-- The run comes to a state where the stack has overwritten the word that was put on the heap last. -/
def Clobbers (a : Assembly) (size : Nat) : Prop :=
  ∃ s, Visits a size s ∧ Overwrites (.ofCode a.instructions) s

/-- The run comes to a state where the next push is refused. -/
def IsRefused (a : Assembly) (size : Nat) : Prop :=
  ∃ s, Visits a size s ∧ Refuses (.ofCode a.instructions) s

instance (a : Assembly) (size : Nat) : Decidable (Meets a size) :=
  inferInstanceAs (Decidable (∃ s, Visits a size s ∧ (s.sp : Int) = s.hp.val))

instance (image : Image) (s : State) : Decidable (Overwrites image s) :=
  inferInstanceAs (Decidable (_ ∧ _ ∧ _))

instance (a : Assembly) (size : Nat) : Decidable (Clobbers a size) :=
  inferInstanceAs (Decidable (∃ s, Visits a size s ∧ Overwrites (.ofCode a.instructions) s))

theorem Clobbers.meets {a : Assembly} {size : Nat} (h : Clobbers a size) : Meets a size := by
  obtain ⟨s, hs, ho⟩ := h
  exact ⟨s, hs, ho.1⟩

theorem IsRefused.meets {a : Assembly} {size : Nat} (h : IsRefused a size) : Meets a size := by
  obtain ⟨s, hs, hr⟩ := h
  exact ⟨s, hs, hr.1⟩

/-- A run that exhausts the memory before it is given up. -/
theorem ExhaustsWithin.meets {a : Assembly} {size n : Nat}
    (h : ExhaustsWithin (.ofCode a.instructions) n (.initial size)) (hn : n ≤ stepLimit) :
    Meets a size := by
  obtain ⟨k, s, hlt, hsteps, hr | ho⟩ := h
  · exact ⟨s, ⟨k, Nat.lt_of_lt_of_le hlt hn, hsteps⟩, hr.1⟩
  · exact ⟨s, ⟨k, Nat.lt_of_lt_of_le hlt hn, hsteps⟩, ho.1⟩

/-! ## Outcomes -/

section Run
variable {a : Assembly} {size k n : Nat} {s : State}

theorem Shows.step_halt {code : Code} {c : Snapshot} (h : Shows size c s) (hi : code[c.ip]? = some .halt) :
    s.step (.ofCode code) = .error (.halted c.printed c.stack.head?) := by
  rw [State.step_ofCode (by rw [h.ip]; exact hi), ← h.printed, List.head?_eq_getElem?, ← h.stack 0]
  rfl

/-- The run ends as evaluation with the given outcome does: with a state that `P` accepts, or in trouble. -/
def Ends {α : Type} (a : Assembly) (size n : Nat) (P : α → Prop) : Except Trouble α → Prop
  | .ok v => P v
  | .error t => (t = .timeout ∧ n < stepLimit) ∨ t.Stops (run a size)

/-- From what the machine does to how the run ends. -/
theorem Heeds.ends {α : Type} {r : Except Trouble α} {Q : α → Snapshot → Prop}
    (h : Heeds a.instructions size n r Q (.initial size)) :
    IsRefused a size ∨ Clobbers a size ∨ run a size = .fault .stepLimit ∨
      Ends a size n (fun v => ∃ c s, Q v c ∧ Visits a size s ∧ Shows size c s) r := by
  rcases h with ⟨k, s, hsteps, hr | ho⟩ | h
  · exact (visits_or_stepLimit hsteps).imp (fun hv => ⟨s, hv, hr⟩) fun hlimit => .inr (.inl hlimit)
  · exact .inr ((visits_or_stepLimit hsteps).imp (fun hv => ⟨s, hv, ho⟩) .inl)
  · refine .inr (.inr ?_)
    cases r with
    | ok v =>
      obtain ⟨c, k, s, hQ, hsteps, hs⟩ := h
      exact (visits_or_stepLimit hsteps).symm.imp_right fun hv => ⟨c, s, hQ, hv, hs⟩
    | error t =>
      rcases h with ⟨ht, k, s, hk, hsteps⟩ | ⟨k, s, stop, hsteps, hstop, ht⟩
      · rcases Nat.lt_or_ge n stepLimit with hn | hn
        · exact .inr (.inl ⟨ht, hn⟩)
        · exact .inl (hsteps.run_le (Nat.le_trans hn hk))
      · refine (visits_or_stepLimit hsteps).symm.imp_right fun hv => .inr ?_
        rw [hv.run_eq hstop]
        exact ht

end Run

end Machine

open Machine

/-- A run of a compiled program halts with the word of a value. -/
structure Program.HaltsWith (a : Assembly) (t : Ty) (L : Linkage) (v : Value) (w : World) (c : Snapshot)
    (s : State) : Prop where
  finishes : L.Finishes t v w c
  visits : Visits a L.size s
  shows : Shows L.size c s
  run : Machine.run a L.size = .halted c.printed c.stack.head?

theorem Program.LinkedBy.outcome {p : Program} {memory : Word} {r : Resolved} {t : Ty} {a : Assembly}
    {L : Linkage} (h : p.LinkedBy memory r t a L) (n : Nat) :
    IsRefused a L.size ∨ Clobbers a L.size ∨ Machine.run a L.size = .fault .stepLimit ∨
      Ends a L.size n (fun (v, w) => ∃ c s, HaltsWith a t L v w c s) (p.eval true n) := by
  have hfollows := h.follows n
  rw [h.code] at hfollows
  have hends := (hfollows _ (shows_initial L.size)).ends
  generalize p.eval true n = r at hends ⊢
  cases r with
  | error trouble => exact hends
  | ok vw =>
    refine hends.imp_right fun hrest => hrest.imp_right fun hrun => hrun.imp_right ?_
    rintro ⟨c, s, hc, hv, hs⟩
    have hhalts := hc.halts
    rw [h.code] at hhalts
    exact ⟨c, s, hc, hv, hs, hv.run_eq (hs.step_halt hhalts)⟩

end Classlet

import Classlet.Layout
import Classlet.Proofs.Semantics
import Classlet.Proofs.Snapshots
/-!
# Machines that follow an evaluation

`Follows code size n r Q c`: from every state that shows `c` the machine does what the outcome `r` of an
evaluation says, unless the memory is exhausted. If `r` is a result `a`, it comes to a snapshot that `Q`
accepts for `a`; if `r` is trouble, it stops for the same reason; and if the fuel of the evaluation was too
little for calls nested `n` deep, it executes at least `n` instructions. An evaluation that is stuck has no
machine that follows it.
-/

namespace Classlet

open Machine

/-- How the machine stops when evaluation is in trouble. -/
def Trouble.Stops : Trouble → Stop → Prop
  | nullReceiver, stop => ∃ a ip, stop = .fault (.badAddress a ip) ∧ a.val = Layout.nullAddress
  | divisionByZero, stop => ∃ ip, stop = .fault (.divisionByZero ip)
  | overflow op, stop => stop = .abort (.overflow op)
  | noPredecessor, stop => stop = .abort (.overflow .sub)
  | stuck, _ => False
  | timeout, _ => False

/-- What the machine does from state `s` on when evaluation is in trouble. -/
def Trouble.Shown (image : Image) (n : Nat) (s : State) (t : Trouble) : Prop :=
  (t = .timeout ∧ ∃ k s', n ≤ k ∧ Steps image k s s') ∨
    ∃ k s' stop, Steps image k s s' ∧ s'.step image = .error stop ∧ t.Stops stop

theorem Trouble.Shown.of_steps {image : Image} {n k : Nat} {s s' : State} {t : Trouble}
    (hs : Steps image k s s') (h : t.Shown image n s') : t.Shown image n s := by
  rcases h with ⟨rfl, m, u, hm, hu⟩ | ⟨m, u, stop, hu, hstop⟩
  · exact .inl ⟨rfl, k + m, u, by omega, hs.trans hu⟩
  · exact .inr ⟨k + m, u, stop, hs.trans hu, hstop⟩

namespace Machine

/-- The machine does what the outcome `r` says from state `s` on, or exhausts the memory. -/
def Heeds {α : Type} (code : Code) (size n : Nat) (r : Except Trouble α) (Q : α → Snapshot → Prop)
    (s : State) : Prop :=
  Exhausts (.ofCode code) s ∨
    match r with
    | .ok a => ∃ c k s', Q a c ∧ Steps (.ofCode code) k s s' ∧ Shows size c s'
    | .error t => t.Shown (.ofCode code) n s

def Follows {α : Type} (code : Code) (size n : Nat) (r : Except Trouble α) (Q : α → Snapshot → Prop)
    (c : Snapshot) : Prop :=
  ∀ s, Shows size c s → Heeds code size n r Q s

section Follows
variable {α β : Type} {code : Code} {size n : Nat} {r : Except Trouble α} {Q Q' : α → Snapshot → Prop}
  {c c' : Snapshot} {a : α} {t : Trouble}

theorem Heeds.of_steps {k : Nat} {s s' : State} (hs : Steps (.ofCode code) k s s')
    (h : Heeds code size n r Q s') :
    Heeds code size n r Q s := by
  rcases h with he | h
  · exact .inl (.of_steps hs he)
  · cases r with
    | ok a =>
      obtain ⟨c, m, u, hQ, hu, hshows⟩ := h
      exact .inr ⟨c, k + m, u, hQ, hs.trans hu, hshows⟩
    | error t => exact .inr (h.of_steps hs)

theorem Follows.ok (h : Q a c) : Follows code size n (.ok a) Q c :=
  fun s hs => .inr ⟨c, 0, s, h, .refl s, hs⟩

/-- The next instruction stops the machine. -/
theorem Follows.stop (h : ∀ s, Shows size c s → ∃ stop, s.step (.ofCode code) = .error stop ∧
      t.Stops stop) :
    Follows code size n (.error t : Except Trouble α) Q c := by
  intro s hs
  obtain ⟨stop, hstep, ht⟩ := h s hs
  exact .inr (.inr ⟨0, s, stop, .refl s, hstep, ht⟩)

theorem Follows.timeout : Follows code size 0 (.error .timeout : Except Trouble α) Q c :=
  fun s _ => .inr (.inl ⟨rfl, 0, s, Nat.le_refl 0, .refl s⟩)

theorem Follows.of_goes (hg : Goes code size c c') (h : Follows code size n r Q c') :
    Follows code size n r Q c := by
  intro s hs
  rcases hg s hs with ⟨k, s', hk, hs'⟩ | he
  · exact (h s' hs').of_steps hk
  · exact .inl he

/-- Where the fuel was too little, the instruction counts. -/
theorem Follows.of_moves (hm : Moves code size c c') (h : Follows code size n r Q c') :
    Follows code size (n + 1) r Q c := by
  intro s hs
  rcases hm s hs with ⟨s', hstep, hs'⟩ | hr
  · have hheeds := h s' hs'
    cases r with
    | ok a => exact Heeds.of_steps (.single hstep) hheeds
    | error t =>
      rcases hheeds with he | ⟨rfl, m, u, hm, hu⟩ | hstop
      · exact .inl (.of_steps (.single hstep) he)
      · exact .inr (.inl ⟨rfl, m + 1, u, Nat.succ_le_succ hm, .next hstep hu⟩)
      · exact .inr (.of_steps (.single hstep) (.inr hstop))
  · exact .inl ⟨0, s, .refl s, .inl hr⟩

/-- The heap and the stack fit into the memory. -/
theorem Follows.of_fits (h : c.heap.length + c.stack.length ≤ size → Follows code size n r Q c) :
    Follows code size n r Q c := by
  intro s hs
  have hsp := hs.sp
  have hroom := hs.room
  exact h (by omega) s hs

theorem Follows.extend (h : Follows code size n r Q c)
    (hQ : ∀ a c', r = .ok a → Q a c' → ∃ c'', Goes code size c' c'' ∧ Q' a c'') :
    Follows code size n r Q' c := by
  cases r with
  | error t => exact h
  | ok a =>
    intro s hs
    rcases h s hs with he | ⟨c', k, s', ha, hk, hs'⟩
    · exact .inl he
    · obtain ⟨c'', hgo, ha'⟩ := hQ a c' rfl ha
      exact ((Follows.of_goes hgo (.ok ha')) s' hs').of_steps hk

theorem Follows.mono (h : Follows code size n r Q c) (hQ : ∀ a c', r = .ok a → Q a c' → Q' a c') :
    Follows code size n r Q' c :=
  h.extend fun a c' hr ha => ⟨c', .refl c', hQ a c' hr ha⟩

theorem Follows.bind {f : α → Except Trouble β} {P : β → Snapshot → Prop} (h : Follows code size n r Q c)
    (hf : ∀ a c', r = .ok a → Q a c' → Follows code size n (f a) P c') :
    Follows code size n (r >>= f) P c := by
  cases r with
  | error t => exact h
  | ok a =>
    intro s hs
    rcases h s hs with he | ⟨c', k, s', hQ, hk, hs'⟩
    · exact .inl he
    · exact (hf a c' rfl hQ s' hs').of_steps hk

end Follows

end Machine

end Classlet

import Classlet.Proofs.Basic
import Classlet.Proofs.Runs
import Mathlib.Algebra.Group.Nat.Defs
/-!
# Code of any kind stays in the memory

Nothing is assumed of the code here: registers are loaded with whatever is on the stack, and labels may be
missing. Every state that a run reaches still has the memory it started with and a stack pointer in it
(`State.Confined`), because an instruction pops only words that are there and pushes only where there is
room.

`execChecked` is the machine with a memory that refuses positions it does not have. On confined states it
does what `exec` does (`State.Confined.execChecked_eq`), so no access is out of bounds.

`Keeps` is what an instruction guarantees: of the state after it, and of the reason if it is abandoned. An
arithmetic operation can overflow, and the stack pointer can be asked to go below 0, but only after the heap
pointer did (`State.Confined.exec_keeps`). `runs_in_bounds` says all this of whole runs.
-/

namespace Classlet

/-- The instruction puts a word on the stack without taking one first. -/
def Instruction.grows : Instruction → Bool
  | .push _ | .pushLabel _ | .load _ => true
  | _ => false

namespace Machine

/-! ## Checked accesses -/

/-- Why a machine that checks its accesses stops: as the machine does, or because the memory has no such
position. -/
inductive Trap where
  | stop (s : Stop)
  | outside (position : Nat)
deriving DecidableEq

namespace State

def read (s : State) (i : Nat) : Except Trap Word :=
  match s.memory[i]? with
  | some w => .ok w
  | none => .error (.outside i)

def write (s : State) (i : Nat) (w : Word) : Except Trap State :=
  if i < s.memory.size then .ok { s with memory := s.memory.setIfInBounds i w } else .error (.outside i)

def pushChecked (s : State) (w : Word) : Except Trap State :=
  if (s.sp : Int) ≤ s.hp.val then .error (.stop (.fault (.stackOverflow s.ip)))
  else if s.sp = 0 then .error (.stop (.abort (.overflow .sub)))
  else { s with sp := s.sp - 1 }.write (s.sp - 1) w

def topChecked (s : State) : Except Trap Word :=
  if s.memory.size ≤ s.sp then .error (.stop (.fault (.stackUnderflow s.ip))) else s.read s.sp

def popChecked (s : State) : Except Trap (Word × State) := do
  let w ← s.topChecked
  return (w, { s with sp := s.sp + 1 })

/-- Executes an instruction as `exec` does, where every access to the memory is checked. -/
def execChecked (s : State) (address : Option Nat) : Instruction → Except Trap State
  | .push n => s.pushChecked n
  | .pushLabel label =>
    match address with
    | some a => s.pushChecked (.ofInt a)
    | none => .error (.stop (.fault (.undefinedLabel label)))
  | .pop => do
    let (_, s) ← s.popChecked
    return s
  | .arith op => do
    let (v1, s) ← s.popChecked
    let (v2, s) ← s.popChecked
    if op = .div ∧ v1.val = 0 then .error (.stop (.fault (.divisionByZero (s.ip - 1))))
    else
      match op.apply v2 v1 with
      | .ok w => s.pushChecked w
      | .error a => .error (.stop (.abort a))
  | .storeWord => do
    let (target, s) ← s.popChecked
    let (value, s) ← s.popChecked
    let i ← (s.cell target).mapError .stop
    s.write i value
  | .loadWord => do
    let (source, s) ← s.popChecked
    let i ← (s.cell source).mapError .stop
    let w ← s.read i
    s.pushChecked w
  | .branch label => (s.jump label address).mapError .stop
  | .branchEqual label => do
    let (v1, s) ← s.popChecked
    let (v2, s) ← s.popChecked
    if v2.val = v1.val then (s.jump label address).mapError .stop else .ok s
  | .branchLessEqual label => do
    let (v1, s) ← s.popChecked
    let (v2, s) ← s.popChecked
    if v2.val ≤ v1.val then (s.jump label address).mapError .stop else .ok s
  | .jumpSubroutine => do
    let (target, s) ← s.popChecked
    if target.val < 0 then .error (.stop (.fault (.badAddress target s.ip)))
    else .ok { s with ra := .ofInt s.ip, ip := target.val.toNat }
  | .load r => s.pushChecked (s.get r)
  | .store r => do
    let (w, s) ← s.popChecked
    return s.set r w
  | .copyFp => .ok { s with fp := .ofInt s.sp }
  | .print => do
    let w ← s.topChecked
    return { s with printed := s.printed.push w }
  | .halt => .error (.stop (.halted s.printed.toList s.top?))
  | .define _ => .ok s

def stepChecked (image : Image) (s : State) : Except Trap State :=
  match image.lines[s.ip]? with
  | some (i, address) => { s with ip := s.ip + 1 }.execChecked address i
  | none => .error (.stop (.fault .ranOffEnd))

def runChecked (image : Image) : Nat → State → Trap
  | 0, _ => .stop (.fault .stepLimit)
  | n + 1, s =>
    match s.stepChecked image with
    | .ok s' => runChecked image n s'
    | .error trap => trap

end State

/-- Runs the assembly like `run`, on a machine that checks its accesses. -/
def runChecked (a : Assembly) (size : Nat) : Trap :=
  (State.initial size).runChecked (.ofCode a.instructions) stepLimit

/-! ## Confined states -/

/-- The memory has `size` words, and the stack is in it. -/
structure State.Confined (size : Nat) (s : State) : Prop where
  memory : s.memory.size = size
  sp : s.sp ≤ size

theorem State.confined_initial (size : Nat) : (State.initial size).Confined size :=
  ⟨Array.size_replicate, Nat.le_refl size⟩

section Confined
variable {size : Nat} {s t : State} {w : Word}

theorem State.pop_eq_ok : s.pop = .ok (w, t) ↔ s.top? = some w ∧ t = { s with sp := s.sp + 1 } := by
  unfold State.pop
  cases s.top? with
  | none => simp
  | some v => simp [eq_comm]

theorem State.lt_of_top? (h : s.top? = some w) : s.sp < s.memory.size := by
  obtain ⟨hlt, -⟩ := Array.getElem?_eq_some_iff.1 h
  exact hlt

/-- A word can be popped only where there is one. -/
theorem State.Confined.pop (h : s.Confined size) (hp : s.pop = .ok (w, t)) :
    t.Confined size ∧ 0 < t.sp := by
  obtain ⟨htop, rfl⟩ := State.pop_eq_ok.1 hp
  have hlt := State.lt_of_top? htop
  have hmemory := h.memory
  exact ⟨⟨hmemory, by simp only; omega⟩, Nat.succ_pos _⟩

theorem State.Confined.write (h : s.Confined size) (i : Nat) (w : Word) :
    State.Confined size { s with memory := s.memory.setIfInBounds i w } :=
  ⟨by simpa using h.memory, h.sp⟩

end Confined

/-! ## The two machines agree -/

section Agreement
variable {size : Nat} {s : State}

theorem mapError_bind {ε ε' α β : Type} (x : Except ε α) (k : α → Except ε β) (f : ε → ε') :
    (x >>= k).mapError f = x.mapError f >>= fun a => (k a).mapError f := by
  cases x <;> rfl

theorem State.read_eq {i : Nat} (h : i < s.memory.size) (w : Word) :
    s.read i = .ok (s.memory.getD i w) := by
  simp [State.read, Array.getD, h]

theorem State.write_eq {i : Nat} (h : i < s.memory.size) (w : Word) :
    s.write i w = .ok { s with memory := s.memory.setIfInBounds i w } :=
  if_pos h

theorem State.Confined.pushChecked_eq (h : s.Confined size) (w : Word) :
    s.pushChecked w = (s.push w).mapError .stop := by
  have hmemory := h.memory
  have hsp := h.sp
  unfold State.pushChecked State.push
  split
  · rfl
  · split
    · rfl
    · rw [State.write_eq (by simp only; omega)]
      rfl

theorem State.topChecked_eq (s : State) :
    s.topChecked = match s.top? with
      | some w => .ok w
      | none => .error (.stop (.fault (.stackUnderflow s.ip))) := by
  unfold State.topChecked State.read State.top?
  split
  · next hle => rw [Array.getElem?_eq_none hle]
  · next hlt => rw [Array.getElem?_eq_getElem (by omega)]

theorem State.popChecked_eq (s : State) : s.popChecked = s.pop.mapError .stop := by
  unfold State.popChecked State.pop
  rw [State.topChecked_eq]
  cases s.top? <;> rfl

theorem State.cell_eq_ok {a : Word} {i : Nat} (h : s.cell a = .ok i) : i < s.memory.size := by
  unfold State.cell at h
  split at h
  · obtain rfl := Except.ok.inj h
    omega
  · cases h

/-- Both machines pop the same word, and what follows may rely on the state after it. -/
theorem State.Confined.popChecked_bind (h : s.Confined size) {k : Word × State → Except Stop State}
    {k' : Word × State → Except Trap State}
    (hk : ∀ w t, t.Confined size → k' (w, t) = (k (w, t)).mapError .stop) :
    s.popChecked >>= k' = (s.pop >>= k).mapError .stop := by
  rw [State.popChecked_eq, mapError_bind]
  cases hp : s.pop with
  | error stop => rfl
  | ok p =>
    obtain ⟨w, t⟩ := p
    exact hk w t (h.pop hp).1

/-- Both machines find the same position, which the memory has. -/
theorem State.cell_bind {a : Word} {k : Nat → Except Stop State} {k' : Nat → Except Trap State}
    (hk : ∀ i, i < s.memory.size → k' i = (k i).mapError .stop) :
    (s.cell a).mapError .stop >>= k' = (s.cell a >>= k).mapError .stop := by
  rw [mapError_bind]
  cases hc : s.cell a with
  | error stop => rfl
  | ok i => exact hk i (State.cell_eq_ok hc)

/-- Every access that an instruction makes is to a position that the memory has. -/
theorem State.Confined.execChecked_eq (h : s.Confined size) (address : Option Nat) (i : Instruction) :
    s.execChecked address i = (s.exec address i).mapError .stop := by
  cases i with
  | push n => exact h.pushChecked_eq n
  | pushLabel label =>
    cases address with
    | none => rfl
    | some a => exact h.pushChecked_eq _
  | pop => exact h.popChecked_bind fun w t ht => rfl
  | arith op =>
    refine h.popChecked_bind fun v1 t ht => ht.popChecked_bind fun v2 u hu => ?_
    simp only
    split
    · rfl
    · cases op.apply v2 v1 with
      | ok w => exact hu.pushChecked_eq w
      | error a => rfl
  | storeWord =>
    refine h.popChecked_bind fun target t ht => ht.popChecked_bind fun value u hu => ?_
    exact State.cell_bind fun i hi => State.write_eq hi value
  | loadWord =>
    refine h.popChecked_bind fun source t ht => State.cell_bind fun i hi => ?_
    rw [State.read_eq hi (.ofInt 0), ok_bind]
    exact ht.pushChecked_eq _
  | branch label => rfl
  | branchEqual label | branchLessEqual label =>
    refine h.popChecked_bind fun v1 t ht => ht.popChecked_bind fun v2 u hu => ?_
    simp only
    split
    · rfl
    · rfl
  | jumpSubroutine =>
    refine h.popChecked_bind fun target t ht => ?_
    simp only
    split
    · rfl
    · rfl
  | load r => exact h.pushChecked_eq _
  | store r => exact h.popChecked_bind fun w t ht => rfl
  | copyFp => rfl
  | print =>
    simp only [State.execChecked, State.exec, State.topChecked_eq]
    cases s.top? with
    | none => rfl
    | some w => rfl
  | halt => rfl
  | define l => rfl

end Agreement

/-! ## What an instruction guarantees -/

/-- `P` holds of the result, and `Q` of the reason if the computation is abandoned. -/
def Keeps {α : Type} (P : α → Prop) (Q : Abort → Prop) : Except Stop α → Prop
  | .ok a => P a
  | .error (.abort cause) => Q cause
  | .error (.halted ..) | .error (.fault _) => True

section Keeps
variable {α β : Type} {P P' : α → Prop} {Q Q' : Abort → Prop} {x : Except Stop α}

theorem Keeps.bind {R : β → Prop} {f : α → Except Stop β} (hx : Keeps P Q x)
    (hf : ∀ a, P a → Keeps R Q (f a)) :
    Keeps R Q (x >>= f) := by
  cases x with
  | ok a => exact hf a hx
  | error stop =>
    cases stop with
    | abort cause => exact hx
    | halted printed result => trivial
    | fault f => trivial

theorem Keeps.mono (hx : Keeps P Q x) (hP : ∀ a, P a → P' a) (hQ : ∀ cause, Q cause → Q' cause) :
    Keeps P' Q' x := by
  cases x with
  | ok a => exact hP a hx
  | error stop =>
    cases stop with
    | abort cause => exact hQ cause hx
    | halted printed result => trivial
    | fault f => trivial

end Keeps

namespace State

/-- The result of `op` on the two words on top of the stack is not a word. -/
def Overflows (s : State) (op : Arith) : Prop :=
  ∃ v₁ ∈ s.memory[s.sp]?, ∃ v₂ ∈ s.memory[s.sp + 1]?, Word.ofInt? (op.eval v₂.val v₁.val) = none

/-- The stack reaches down to address 0, and the heap pointer is still below it. -/
def Bottoms (s : State) : Prop := s.sp = 0 ∧ s.hp.val < 0

/-- Why an instruction is abandoned in state `s`. -/
inductive Abandons (s : State) : Instruction → Abort → Prop where
  | arith {op : Arith} : s.Overflows op → Abandons s (.arith op) (.overflow op)
  | push {i : Instruction} : i.grows = true → s.Bottoms → Abandons s i (.overflow .sub)

end State

section Guarantees
variable {size : Nat} {s : State} {Q : Abort → Prop}

theorem State.Confined.push_keeps (h : s.Confined size) (w : Word) :
    Keeps (fun t => t.Confined size ∧ t.hp = s.hp) (fun cause => cause = .overflow .sub ∧ s.Bottoms)
      (s.push w) := by
  have hsp := h.sp
  unfold State.push
  split
  · trivial
  · next hroom =>
    split
    · next hzero => exact ⟨rfl, hzero, by omega⟩
    · exact ⟨⟨by simpa using h.memory, by simp only; omega⟩, rfl⟩

/-- A push to where a word was popped. -/
theorem State.Confined.push_popped (h : s.Confined size) (hs : 0 < s.sp) (w : Word) :
    Keeps (fun t => t.Confined size ∧ t.hp = s.hp) Q (s.push w) :=
  (h.push_keeps w).mono (fun _ => id) fun _ hcause => absurd hcause.2.1 (Nat.ne_of_gt hs)

/-- What follows a pop may rely on the word that was there. -/
theorem State.Confined.pop_bind {α : Type} {P : α → Prop} {k : Word × State → Except Stop α}
    (h : s.Confined size) (hk : ∀ w, s.top? = some w → State.Confined size { s with sp := s.sp + 1 } →
      Keeps P Q (k (w, { s with sp := s.sp + 1 }))) :
    Keeps P Q (s.pop >>= k) := by
  cases htop : s.top? with
  | none =>
    rw [State.pop, htop]
    trivial
  | some w =>
    have hp := State.pop_eq_ok.2 ⟨htop, rfl⟩
    rw [hp, ok_bind]
    exact hk w htop (h.pop hp).1

theorem State.Confined.jump_keeps (h : s.Confined size) (label : Label) (address : Option Nat) :
    Keeps (fun t => t.Confined size ∧ t.hp = s.hp) Q (s.jump label address) := by
  cases address with
  | none => trivial
  | some a => exact ⟨⟨h.memory, h.sp⟩, rfl⟩

theorem State.cell_keeps (s : State) (a : Word) : Keeps (fun _ => True) Q (s.cell a) := by
  unfold State.cell
  split
  · trivial
  · trivial

/-- What holds after the instruction `i`: the state is confined, and only a store to `hp` changed the heap
pointer. -/
def State.After (size : Nat) (s : State) (i : Instruction) (t : State) : Prop :=
  t.Confined size ∧ (t.hp = s.hp ∨ i = .store .hp ∧ s.top? = some t.hp)

theorem Keeps.after {i : Instruction} {hp : Word} {x : Except Stop State}
    (h : Keeps (fun t => t.Confined size ∧ t.hp = hp) Q x) (hhp : hp = s.hp) : Keeps (s.After size i) Q x :=
  h.mono (fun _ ht => ⟨ht.1, .inl (ht.2.trans hhp)⟩) fun _ => id

theorem State.Confined.exec_keeps (h : s.Confined size) (address : Option Nat) (i : Instruction) :
    Keeps (s.After size i) (s.Abandons i) (s.exec address i) := by
  have hpush (i : Instruction) (hi : i.grows = true) (w : Word) :
      Keeps (s.After size i) (s.Abandons i) (s.push w) := by
    refine ((h.push_keeps w).mono (fun _ => id) ?_).after rfl
    rintro cause ⟨rfl, hbottoms⟩
    exact .push hi hbottoms
  cases i with
  | push n => exact hpush _ rfl n
  | pushLabel label =>
    cases address with
    | none => trivial
    | some a => exact hpush _ rfl _
  | load r => exact hpush _ rfl _
  | pop => exact h.pop_bind fun w _ ht => ⟨ht, .inl rfl⟩
  | arith op =>
    refine h.pop_bind fun v₁ htop ht => ht.pop_bind fun v₂ htop' hu => ?_
    simp only
    split
    · trivial
    · unfold Arith.apply Word.checked
      cases hresult : Word.ofInt? (op.eval v₂.val v₁.val) with
      | some w => exact (hu.push_popped (Nat.succ_pos _) w).after rfl
      | none => exact .arith ⟨v₁, htop, v₂, htop', hresult⟩
  | storeWord =>
    refine h.pop_bind fun target _ ht => ht.pop_bind fun value _ hu => ?_
    exact (State.cell_keeps _ target).bind fun i _ => ⟨hu.write i value, .inl rfl⟩
  | loadWord =>
    refine h.pop_bind fun source _ ht => (State.cell_keeps _ source).bind fun i _ => ?_
    exact (ht.push_popped (Nat.succ_pos _) _).after rfl
  | branch label => exact (h.jump_keeps label address).after rfl
  | branchEqual label | branchLessEqual label =>
    refine h.pop_bind fun v₁ _ ht => ht.pop_bind fun v₂ _ hu => ?_
    simp only
    split
    · exact (hu.jump_keeps label address).after rfl
    · exact ⟨hu, .inl rfl⟩
  | jumpSubroutine =>
    refine h.pop_bind fun target _ ht => ?_
    simp only
    split
    · trivial
    · exact ⟨⟨ht.memory, ht.sp⟩, .inl rfl⟩
  | store r =>
    refine h.pop_bind fun w htop ht => ?_
    cases r with
    | hp => exact ⟨⟨ht.memory, ht.sp⟩, .inr ⟨rfl, htop⟩⟩
    | ra | tm | fp => exact ⟨⟨ht.memory, ht.sp⟩, .inl rfl⟩
  | copyFp => exact ⟨⟨h.memory, h.sp⟩, .inl rfl⟩
  | print =>
    simp only [State.exec]
    cases s.top? with
    | none => trivial
    | some w => exact ⟨⟨h.memory, h.sp⟩, .inl rfl⟩
  | halt => trivial
  | define l => exact ⟨h, .inl rfl⟩

end Guarantees

/-! ## Steps and runs -/

/-- The instruction at the instruction pointer. -/
def State.next? (image : Image) (s : State) : Option Instruction := (image.lines[s.ip]?).map Prod.fst

/-- The next instruction puts a negative number into the heap pointer. -/
def State.StoresNegative (image : Image) (s : State) : Prop :=
  s.next? image = some (.store .hp) ∧ ∃ w ∈ s.memory[s.sp]?, w.val < 0

section Steps
variable {image : Image} {size k n : Nat} {s t : State}

theorem State.Confined.stepChecked_eq (h : s.Confined size) :
    s.stepChecked image = (s.step image).mapError .stop := by
  unfold State.stepChecked State.step
  cases image.lines[s.ip]? with
  | none => rfl
  | some line =>
    have hnext : State.Confined size { s with ip := s.ip + 1 } := ⟨h.memory, h.sp⟩
    exact hnext.execChecked_eq line.2 line.1

theorem State.Confined.step_keeps (h : s.Confined size) (image : Image) :
    Keeps (fun t => t.Confined size ∧
      (t.hp = s.hp ∨ s.next? image = some (.store .hp) ∧ s.memory[s.sp]? = some t.hp))
        (fun cause => ∃ i, s.next? image = some i ∧ s.Abandons i cause) (s.step image) := by
  unfold State.step State.next?
  cases image.lines[s.ip]? with
  | none => trivial
  | some line =>
    obtain ⟨i, address⟩ := line
    have hnext : State.Confined size { s with ip := s.ip + 1 } := ⟨h.memory, h.sp⟩
    refine (hnext.exec_keeps address i).mono (fun t ht => ⟨ht.1, ht.2.imp_right fun hstore => ?_⟩)
      fun cause hcause => ?_
    · exact ⟨congrArg some hstore.1, hstore.2⟩
    · refine ⟨i, rfl, ?_⟩
      cases hcause with
      | arith hoverflows => exact .arith hoverflows
      | push hi hbottoms => exact .push hi hbottoms

theorem Steps.confined (h : Steps image k s t) (hs : s.Confined size) : t.Confined size := by
  induction h with
  | refl => exact hs
  | next hstep _ ih =>
    have hkeeps := hs.step_keeps image
    rw [hstep] at hkeeps
    exact ih hkeeps.1

/-- The heap pointer gets below 0 only by a store. -/
theorem Steps.hp_nonneg (h : Steps image k s t) (hs : s.Confined size) (hhp : 0 ≤ s.hp.val)
    (hstores : ∀ j u, j < k → Steps image j s u → ¬u.StoresNegative image) : 0 ≤ t.hp.val := by
  induction h with
  | refl => exact hhp
  | @next k s t u hstep _ ih =>
    have hkeeps := hs.step_keeps image
    rw [hstep] at hkeeps
    obtain ⟨ht, hkept | ⟨hnext, hstored⟩⟩ := hkeeps
    · exact ih ht (hkept ▸ hhp) fun j u hj hu => hstores (j + 1) u (by omega) (.next hstep hu)
    · have hnonneg : 0 ≤ t.hp.val := by
        by_contra hneg
        exact hstores 0 s (Nat.succ_pos k) (.refl s) ⟨hnext, t.hp, hstored, by omega⟩
      exact ih ht hnonneg fun j u hj hu => hstores (j + 1) u (by omega) (.next hstep hu)

theorem State.Confined.runChecked_eq (h : s.Confined size) :
    s.runChecked image n = .stop (s.run image n) := by
  induction n generalizing s with
  | zero => rfl
  | succ n ih =>
    have hkeeps := h.step_keeps image
    rw [State.runChecked, State.run, h.stepChecked_eq]
    cases hstep : s.step image with
    | error stop => rfl
    | ok t =>
      rw [hstep] at hkeeps
      exact ih hkeeps.1

end Steps

/-! ## Runs of arbitrary code -/

/-- What is known of a state that is reached on a machine with `size` words. -/
structure State.InBounds (image : Image) (size : Nat) (s : State) : Prop where
  memory : s.memory.size = size
  sp : s.sp ≤ size
  /-- The stack pointer is a word. -/
  address : (Word.ofInt s.sp).val = s.sp
  accesses : s.stepChecked image = (s.step image).mapError .stop
  abort (cause : Abort) : s.step image = .error (.abort cause) → ∃ i, s.next? image = some i ∧
    s.Abandons i cause

/-- However a run goes, it stays in the memory. It is abandoned only by an overflow or after a negative
number was put into the heap pointer. -/
structure RunsInBounds (a : Assembly) (size : Nat) : Prop where
  reached (k : Nat) (s : State) : Steps (.ofCode a.instructions) k (.initial size) s →
    s.InBounds (.ofCode a.instructions) size
  accesses : runChecked a size = .stop (run a size)
  ends : (∃ s, Visits a size s ∧ s.step (.ofCode a.instructions) = .error (run a size)) ∨
    ((∃ s, Steps (.ofCode a.instructions) 1000000 (.initial size) s) ∧ run a size = .fault .stepLimit)
  answers : (∀ s, Visits a size s → ¬s.StoresNegative (.ofCode a.instructions) ∧
      ∀ op, s.next? (.ofCode a.instructions) = some (.arith op) → ¬s.Overflows op) →
    (∃ printed result, run a size = .halted printed result) ∨ ∃ f, run a size = .fault f

theorem State.Confined.inBounds {image : Image} {size : Nat} {s : State} (h : s.Confined size)
    (hsize : size < 2 ^ 63) :
    s.InBounds image size where
  memory := h.memory
  sp := h.sp
  address := by
    have hsp := h.sp
    exact Word.val_ofInt (by omega) (by omega)
  accesses := h.stepChecked_eq
  abort cause hcause := by
    have hkeeps := h.step_keeps image
    rw [hcause] at hkeeps
    exact hkeeps

theorem runs_in_bounds (a : Assembly) (size : Nat) (hsize : size < 2 ^ 63) : RunsInBounds a size where
  reached k s hs := (hs.confined (State.confined_initial size)).inBounds hsize
  accesses := (State.confined_initial size).runChecked_eq
  ends := by
    rcases State.run_cases (.ofCode a.instructions) stepLimit (.initial size) with
      ⟨k, s, hk, hs, hstop⟩ | hlimit
    · exact .inl ⟨s, ⟨k, hk, hs⟩, hstop⟩
    · exact .inr hlimit
  answers htame := by
    rcases State.run_cases (.ofCode a.instructions) stepLimit (.initial size) with
      ⟨k, s, hk, hs, hstop⟩ | ⟨-, hlimit⟩
    · have hstop' : s.step (.ofCode a.instructions) = .error (run a size) := hstop
      cases hrun : run a size with
      | halted printed result => exact .inl ⟨printed, result, rfl⟩
      | fault f => exact .inr ⟨f, rfl⟩
      | abort cause =>
        rw [hrun] at hstop'
        have hconfined := hs.confined (State.confined_initial size)
        obtain ⟨i, hnext, habandons⟩ := (hconfined.inBounds hsize).abort cause hstop'
        cases habandons with
        | arith hoverflows => exact absurd hoverflows ((htame s ⟨k, hk, hs⟩).2 _ hnext)
        | push _ hbottoms =>
          have hnonneg := hs.hp_nonneg (State.confined_initial size) (by decide : 0 ≤ (Word.ofInt 0).val)
            fun j u hj hu =>
            (htame u ⟨j, Nat.lt_trans hj hk, hu⟩).1
          exact absurd hbottoms.2 (by omega)
    · exact .inr ⟨_, hlimit⟩

instance {P : Arith → Prop} [DecidablePred P] : Decidable (∀ op, P op) :=
  decidable_of_iff (P .add ∧ P .sub ∧ P .mul ∧ P .div)
    ⟨fun ⟨hadd, hsub, hmul, hdiv⟩ op => by cases op <;> assumption, fun h => ⟨h _, h _, h _, h _⟩⟩

instance (s : State) (op : Arith) : Decidable (s.Overflows op) := inferInstanceAs (Decidable (∃ v₁ ∈ _, _))

instance (image : Image) (s : State) : Decidable (s.StoresNegative image) :=
  inferInstanceAs (Decidable (_ ∧ ∃ w ∈ _, _))

/-- Computes an address from `fp`, which is one past the end of the memory, and stores a word there. -/
def overshoot : Assembly :=
  ⟨[.push (.ofInt 9), .load .fp, .push (.ofInt 0), .arith .sub, .storeWord, .halt], []⟩

theorem overshoot_runs_in_bounds :
    (3 : Nat) < 2 ^ 63 ∧ RunsInBounds overshoot 3 ∧
      (∀ s, Visits overshoot 3 s → ¬s.StoresNegative (.ofCode overshoot.instructions) ∧
        ∀ op, s.next? (.ofCode overshoot.instructions) = some (.arith op) → ¬s.Overflows op) ∧
      run overshoot 3 = .fault (.badAddress (.ofInt 3) 5) := by
  refine ⟨by decide, runs_in_bounds overshoot 3 (by decide), ?_, by decide +kernel⟩
  have hnone : ¬∃ s, Visits overshoot 3 s ∧ ¬(¬s.StoresNegative (.ofCode overshoot.instructions) ∧
      ∀ op, s.next? (.ofCode overshoot.instructions) = some (.arith op) → ¬s.Overflows op) := by
    decide +kernel
  intro s hs
  by_contra hneg
  exact hnone ⟨s, hs, hneg⟩

/-- With a negative heap pointer nothing stops the stack above address 0. -/
example : run ⟨[.push (.ofInt (-1)), .store .hp, .push (.ofInt 5), .push (.ofInt 6), .halt], []⟩ 1 =
      .abort (.overflow .sub) := by
  decide +kernel

end Machine

end Classlet

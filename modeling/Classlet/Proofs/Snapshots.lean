import Classlet.Proofs.Runs
import Mathlib.Tactic.Common
/-!
# Memory as a stack and a heap

Between heap updates the memory of the machine is a heap that starts at address 0, some free words, and a
stack that ends with the memory. A `Snapshot` keeps the two used parts as lists, so what an instruction
leaves alone stays the same list. `Shows size c s` says that the state `s` of a machine with `size` words is
the one that `c` describes.

`Goes code size c c'`: from every state that shows `c` the code leads to one that shows `c'`, unless the
memory is exhausted on the way. `Moves` is the same for a single instruction, with one lemma for each of
them. `Advances` also counts the instructions and says how much memory is enough.
-/

namespace Classlet.Machine

structure Snapshot where
  ip : Nat
  fp : Word
  ra : Word
  tm : Word
  /-- The words on the stack, top first. -/
  stack : List Word
  /-- The words of the heap, from address 0 on. -/
  heap : List Word
  printed : List Word

structure Shows (size : Nat) (c : Snapshot) (s : State) : Prop where
  ip : s.ip = c.ip
  fp : s.fp = c.fp
  ra : s.ra = c.ra
  tm : s.tm = c.tm
  words : s.memory.size = size
  sp : s.sp + c.stack.length = size
  hp : s.hp.val = c.heap.length
  room : c.heap.length ≤ s.sp
  stack : ∀ i, s.memory[s.sp + i]? = c.stack[i]?
  heap : ∀ i, i < c.heap.length → s.memory[i]? = c.heap[i]?
  printed : s.printed.toList = c.printed

/-! ## Pushing and popping -/

section Stack
variable {size ip ip' : Nat} {fp ra tm w : Word} {σ heap out : List Word} {c : Snapshot} {s : State}

theorem Shows.setIp (h : Shows size ⟨ip, fp, ra, tm, σ, heap, out⟩ s) (ip' : Nat) :
    Shows size ⟨ip', fp, ra, tm, σ, heap, out⟩ { s with ip := ip' } :=
  ⟨rfl, h.fp, h.ra, h.tm, h.words, h.sp, h.hp, h.room, h.stack, h.heap, h.printed⟩

/-- The stack and the heap have met, and an instruction that pushes is refused. -/
def State.Full (s : State) (r : Except Stop State) : Prop :=
  (s.sp : Int) = s.hp.val ∧ r = .error (.fault (.stackOverflow s.ip))

/-- The state after a push that is not refused. -/
def State.pushed (s : State) (w : Word) : State :=
  { s with sp := s.sp - 1, memory := s.memory.setIfInBounds (s.sp - 1) w }

theorem State.memory_pushed {i : Nat} (h : i ≠ s.sp - 1) : (s.pushed w).memory[i]? = s.memory[i]? := by
  simp only [State.pushed, Array.getElem?_setIfInBounds]
  rw [if_neg (Ne.symm h)]

/-- After a pop, for instance, there is room for a push. -/
theorem Shows.push_of_lt (h : Shows size ⟨ip, fp, ra, tm, σ, heap, out⟩ s) (hr : heap.length < s.sp)
    (w : Word) :
    s.push w = .ok (s.pushed w) ∧ Shows size ⟨ip, fp, ra, tm, w :: σ, heap, out⟩ (s.pushed w) := by
  have hsp := h.sp
  have hhp := h.hp
  have hwords := h.words
  simp only at hsp hhp
  refine ⟨by rw [State.push, if_neg (by omega), if_neg (by omega)]; rfl, ?_⟩
  refine ⟨h.ip, h.fp, h.ra, h.tm, ?_, ?_, h.hp, Nat.le_sub_one_of_lt hr, ?_, ?_, h.printed⟩
  · simpa [State.pushed] using hwords
  · simp only [State.pushed, List.length_cons]
    omega
  · intro i
    cases i with
    | zero => simp only [State.pushed, Array.getElem?_setIfInBounds]; simp; omega
    | succ i =>
      have e : (s.pushed w).sp + (i + 1) = s.sp + i := by simp only [State.pushed]; omega
      rw [e, State.memory_pushed (by omega), h.stack i]
      rfl
  · intro i hi
    simp only at hi
    rw [State.memory_pushed (by omega), h.heap i hi]

theorem Shows.full (h : Shows size ⟨ip, fp, ra, tm, σ, heap, out⟩ s) (hr : s.sp ≤ heap.length) (w : Word) :
    s.Full (s.push w) := by
  have hhp := h.hp
  have hroom := h.room
  simp only at hhp hroom
  exact ⟨by omega, by rw [State.push, if_pos (by omega)]⟩

theorem Shows.push (h : Shows size ⟨ip, fp, ra, tm, σ, heap, out⟩ s) (w : Word) :
    (∃ s', s.push w = .ok s' ∧ Shows size ⟨ip, fp, ra, tm, w :: σ, heap, out⟩ s') ∨ s.Full (s.push w) := by
  rcases Nat.lt_or_ge heap.length s.sp with hlt | hge
  · exact .inl ⟨_, h.push_of_lt hlt w⟩
  · exact .inr (h.full hge w)

theorem Shows.top (h : Shows size ⟨ip, fp, ra, tm, w :: σ, heap, out⟩ s) : s.top? = some w := h.stack 0

theorem Shows.pop (h : Shows size ⟨ip, fp, ra, tm, w :: σ, heap, out⟩ s) :
    s.pop = .ok (w, { s with sp := s.sp + 1 }) ∧
      Shows size ⟨ip, fp, ra, tm, σ, heap, out⟩ { s with sp := s.sp + 1 } ∧ heap.length < s.sp + 1 := by
  have hsp := h.sp
  have hroom := h.room
  simp only [List.length_cons] at hsp hroom
  refine ⟨by rw [State.pop, h.top], ?_, by omega⟩
  refine ⟨h.ip, h.fp, h.ra, h.tm, h.words, ?_, h.hp, ?_, ?_, h.heap, h.printed⟩
  · simp only
    omega
  · simp only
    omega
  · intro i
    have hi := h.stack (i + 1)
    rw [List.getElem?_cons_succ, Nat.add_comm i 1, ← Nat.add_assoc] at hi
    exact hi

end Stack

/-! ## Addresses -/

/-- The stack holds `w` at address `a`. Counted from the end of memory, addresses do not depend on what is
pushed. -/
def Slot (size : Nat) (σ : List Word) (a : Int) (w : Word) : Prop :=
  ∃ i : Nat, σ.reverse[i]? = some w ∧ a + i + 1 = size

/-- The stack or the heap holds `w` at address `a`. -/
def Holds (size : Nat) (σ heap : List Word) (a : Int) (w : Word) : Prop :=
  Slot size σ a w ∨ ∃ i : Nat, heap[i]? = some w ∧ a = i

section Addresses
variable {size ip : Nat} {fp ra tm w : Word} {σ τ heap out : List Word} {a : Int} {s : State}

theorem Slot.append (h : Slot size σ a w) (τ : List Word) : Slot size (τ ++ σ) a w := by
  obtain ⟨i, hi, ha⟩ := h
  refine ⟨i, ?_, ha⟩
  rw [List.reverse_append, List.getElem?_append_left (List.getElem?_eq_some_iff.1 hi).1, hi]

theorem Slot.cons (h : Slot size σ a w) (v : Word) : Slot size (v :: σ) a w := h.append [v]

theorem Slot.of_suffix (h : Slot size σ a w) (hs : σ <:+ τ) : Slot size τ a w := by
  obtain ⟨ρ, rfl⟩ := hs
  exact h.append ρ

/-- The word at position `j`, counted from the top. -/
theorem Slot.of_getElem? {j : Nat} (h : σ[j]? = some w) (ha : a = size - σ.length + j) :
    Slot size σ a w := by
  obtain ⟨hj, -⟩ := List.getElem?_eq_some_iff.1 h
  refine ⟨σ.length - 1 - j, ?_, by omega⟩
  rw [List.getElem?_reverse (by omega), ← h]
  congr 1
  omega

theorem Holds.append (h : Holds size σ heap a w) (τ : List Word) : Holds size (τ ++ σ) heap a w :=
  h.imp_left (·.append τ)

theorem Shows.memory (h : Shows size ⟨ip, fp, ra, tm, σ, heap, out⟩ s) (ha : Holds size σ heap a w) :
    0 ≤ a ∧ a < size ∧ s.memory[a.toNat]? = some w := by
  have hsp := h.sp
  have hroom := h.room
  simp only at hsp hroom
  rcases ha with ⟨i, hi, ha⟩ | ⟨i, hi, rfl⟩
  · have hlt : i < σ.length := by simpa using (List.getElem?_eq_some_iff.1 hi).1
    rw [List.getElem?_reverse hlt, ← h.stack] at hi
    refine ⟨by omega, by omega, ?_⟩
    rw [← hi]
    congr 1
    omega
  · have hlt := (List.getElem?_eq_some_iff.1 hi).1
    rw [← h.heap i hlt] at hi
    exact ⟨by omega, by omega, by simpa using hi⟩

end Addresses

/-! ## Going from one snapshot to another -/

section Goes
variable {code : Code} {size : Nat} {c c' c'' : Snapshot}

/-- One instruction leads from `c` to `c'`, or there is no room for what it pushes. -/
def Moves (code : Code) (size : Nat) (c c' : Snapshot) : Prop :=
  ∀ s, Shows size c s →
    (∃ s', s.step (.ofCode code) = .ok s' ∧ Shows size c' s') ∨ Refuses (.ofCode code) s

/-- Some instructions lead from `c` to `c'`, or the memory is exhausted on the way. -/
def Goes (code : Code) (size : Nat) (c c' : Snapshot) : Prop :=
  ∀ s, Shows size c s → (∃ k s', Steps (.ofCode code) k s s' ∧ Shows size c' s') ∨ Exhausts (.ofCode code) s

theorem Goes.refl (c : Snapshot) : Goes code size c c := fun s h => .inl ⟨0, s, .refl s, h⟩

theorem Moves.goes (h : Moves code size c c') : Goes code size c c' := by
  intro s hs
  rcases h s hs with ⟨s', hstep, hs'⟩ | hr
  · exact .inl ⟨1, s', .single hstep, hs'⟩
  · exact .inr ⟨0, s, .refl s, .inl hr⟩

theorem Goes.trans (h : Goes code size c c') (h' : Goes code size c' c'') : Goes code size c c'' := by
  intro s hs
  rcases h s hs with ⟨k, t, hk, ht⟩ | he
  · rcases h' t ht with ⟨m, u, hm, hu⟩ | he
    · exact .inl ⟨k + m, u, hk.trans hm, hu⟩
    · exact .inr (.of_steps hk he)
  · exact .inr he

theorem Moves.trans (h : Moves code size c c') (h' : Goes code size c' c'') : Goes code size c c'' :=
  h.goes.trans h'

/-- The next `n` instructions lead from `c` to `c'`. Before that the memory may be exhausted, but only if it
has fewer than `words` words. -/
def Advances (code : Code) (size n words : Nat) (c c' : Snapshot) : Prop :=
  ∀ s, Shows size c s →
    (∃ s', Steps (.ofCode code) n s s' ∧ Shows size c' s') ∨
      (size < words ∧ ExhaustsWithin (.ofCode code) n s)

variable {n m words : Nat}

theorem Advances.refl (c : Snapshot) : Advances code size 0 words c c := fun s h => .inl ⟨s, .refl s, h⟩

theorem Advances.goes (h : Advances code size n words c c') : Goes code size c c' := by
  intro s hs
  rcases h s hs with ⟨s', hn, hs'⟩ | ⟨-, he⟩
  · exact .inl ⟨n, s', hn, hs'⟩
  · exact .inr he.exhausts

theorem Advances.trans (h : Advances code size n words c c') (h' : Advances code size m words c' c'') :
    Advances code size (n + m) words c c'' := by
  intro s hs
  rcases h s hs with ⟨t, hn, ht⟩ | ⟨hsize, he⟩
  · rcases h' t ht with ⟨u, hm, hu⟩ | ⟨hsize, he⟩
    · exact .inl ⟨u, hn.trans hm, hu⟩
    · exact .inr ⟨hsize, .of_steps hn he⟩
  · exact .inr ⟨hsize, he.mono (Nat.le_add_right n m)⟩

/-- A push is refused only where the words of the stack and of the heap are all there are. -/
theorem Moves.advances (h : Moves code size c c') (hwords : c.stack.length + c.heap.length < words) :
    Advances code size 1 words c c' := by
  intro s hs
  rcases h s hs with ⟨s', hstep, hs'⟩ | hr
  · exact .inl ⟨s', .single hstep, hs'⟩
  · have hsp := hs.sp
    have hhp := hs.hp
    have hmeet := hr.1
    exact .inr ⟨by omega, 0, s, Nat.one_pos, .refl s, .inl hr⟩

end Goes

/-! ## Instructions -/

/-- What an instruction does to the states that show `c`, once the instruction pointer has moved past it. -/
def Does (code : Code) (size : Nat) (i : Instruction) (c c' : Snapshot) : Prop :=
  ∀ s, Shows size c s →
    (∃ s', s.exec (i.target?.bind (addressOf? · code)) i = .ok s' ∧ Shows size c' s') ∨
      s.Full (s.exec (i.target?.bind (addressOf? · code)) i)

section Instructions
variable {code : Code} {size ip ip' : Nat} {fp ra tm v w : Word} {σ heap out : List Word} {i : Instruction}
  {c' : Snapshot}

theorem Does.moves (hi : code[ip]? = some i) (h : Does code size i ⟨ip + 1, fp, ra, tm, σ, heap, out⟩ c') :
    Moves code size ⟨ip, fp, ra, tm, σ, heap, out⟩ c' := by
  intro s hs
  have hip : s.ip = ip := hs.ip
  have hstep := State.step_ofCode (s := s) (by rw [hip]; exact hi)
  rw [hip] at hstep
  rcases h _ (hs.setIp (ip + 1)) with ⟨s', he, hs'⟩ | ⟨hmeet, he⟩
  · exact .inl ⟨s', hstep.trans he, hs'⟩
  · exact .inr ⟨hmeet, _, hstep.trans he⟩

theorem Moves.push (hi : code[ip]? = some (.push w)) :
    Moves code size ⟨ip, fp, ra, tm, σ, heap, out⟩ ⟨ip + 1, fp, ra, tm, w :: σ, heap, out⟩ :=
  Does.moves hi fun _ hs => hs.push w

theorem Moves.pushLabel {l : Label} {a : Nat} (hi : code[ip]? = some (.pushLabel l))
    (ha : addressOf? l code = some a) :
    Moves code size ⟨ip, fp, ra, tm, σ, heap, out⟩ ⟨ip + 1, fp, ra, tm, .ofInt a :: σ, heap, out⟩ := by
  refine Does.moves hi fun s hs => ?_
  have he : s.exec ((Instruction.pushLabel l).target?.bind (addressOf? · code)) (.pushLabel l) =
      s.push (.ofInt a) := by
    simp only [Instruction.target?, Option.bind_some, ha]
    rfl
  rw [he]
  exact hs.push _

theorem Moves.load (r : Register) (hi : code[ip]? = some (.load r))
    (hr : ∀ s, Shows size ⟨ip + 1, fp, ra, tm, σ, heap, out⟩ s → s.get r = w) :
    Moves code size ⟨ip, fp, ra, tm, σ, heap, out⟩ ⟨ip + 1, fp, ra, tm, w :: σ, heap, out⟩ := by
  refine Does.moves hi fun s hs => ?_
  rw [State.exec, hr s hs]
  exact hs.push w

theorem Moves.loadFp (hi : code[ip]? = some (.load .fp)) :
    Moves code size ⟨ip, fp, ra, tm, σ, heap, out⟩ ⟨ip + 1, fp, ra, tm, fp :: σ, heap, out⟩ :=
  Moves.load .fp hi fun _ hs => hs.fp

theorem Moves.loadRa (hi : code[ip]? = some (.load .ra)) :
    Moves code size ⟨ip, fp, ra, tm, σ, heap, out⟩ ⟨ip + 1, fp, ra, tm, ra :: σ, heap, out⟩ :=
  Moves.load .ra hi fun _ hs => hs.ra

theorem Moves.loadTm (hi : code[ip]? = some (.load .tm)) :
    Moves code size ⟨ip, fp, ra, tm, σ, heap, out⟩ ⟨ip + 1, fp, ra, tm, tm :: σ, heap, out⟩ :=
  Moves.load .tm hi fun _ hs => hs.tm

theorem Moves.loadHp (hi : code[ip]? = some (.load .hp)) :
    Moves code size ⟨ip, fp, ra, tm, σ, heap, out⟩
      ⟨ip + 1, fp, ra, tm, .ofInt heap.length :: σ, heap, out⟩ := by
  refine Moves.load .hp hi fun s hs => ?_
  have hhp : s.hp.val = heap.length := hs.hp
  rw [← hhp, Word.ofInt_val]
  rfl

theorem Moves.pop (hi : code[ip]? = some .pop) :
    Moves code size ⟨ip, fp, ra, tm, w :: σ, heap, out⟩ ⟨ip + 1, fp, ra, tm, σ, heap, out⟩ := by
  refine Does.moves hi fun s hs => .inl ?_
  obtain ⟨hp, hs', -⟩ := hs.pop
  exact ⟨_, by rw [State.exec, hp]; rfl, hs'⟩

theorem Moves.store (r : Register) (hi : code[ip]? = some (.store r))
    (hr : ∀ s, Shows size ⟨ip + 1, fp, ra, tm, σ, heap, out⟩ s → Shows size c' (s.set r w)) :
    Moves code size ⟨ip, fp, ra, tm, w :: σ, heap, out⟩ c' := by
  refine Does.moves hi fun s hs => .inl ?_
  obtain ⟨hp, hs', -⟩ := hs.pop
  exact ⟨_, by rw [State.exec, hp]; rfl, hr _ hs'⟩

theorem Moves.storeFp (hi : code[ip]? = some (.store .fp)) :
    Moves code size ⟨ip, fp, ra, tm, w :: σ, heap, out⟩ ⟨ip + 1, w, ra, tm, σ, heap, out⟩ :=
  Moves.store .fp hi fun _ hs =>
    ⟨hs.ip, rfl, hs.ra, hs.tm, hs.words, hs.sp, hs.hp, hs.room, hs.stack, hs.heap, hs.printed⟩

theorem Moves.storeRa (hi : code[ip]? = some (.store .ra)) :
    Moves code size ⟨ip, fp, ra, tm, w :: σ, heap, out⟩ ⟨ip + 1, fp, w, tm, σ, heap, out⟩ :=
  Moves.store .ra hi fun _ hs =>
    ⟨hs.ip, hs.fp, rfl, hs.tm, hs.words, hs.sp, hs.hp, hs.room, hs.stack, hs.heap, hs.printed⟩

theorem Moves.storeTm (hi : code[ip]? = some (.store .tm)) :
    Moves code size ⟨ip, fp, ra, tm, w :: σ, heap, out⟩ ⟨ip + 1, fp, ra, w, σ, heap, out⟩ :=
  Moves.store .tm hi fun _ hs =>
    ⟨hs.ip, hs.fp, hs.ra, rfl, hs.words, hs.sp, hs.hp, hs.room, hs.stack, hs.heap, hs.printed⟩

theorem Moves.copyFp (hi : code[ip]? = some .copyFp) :
    Moves code size ⟨ip, fp, ra, tm, σ, heap, out⟩
      ⟨ip + 1, .ofInt (size - σ.length : Int), ra, tm, σ, heap, out⟩ := by
  refine Does.moves hi fun s hs =>
    .inl ⟨_, rfl, hs.ip, ?_, hs.ra, hs.tm, hs.words, hs.sp, hs.hp, hs.room, hs.stack, hs.heap, hs.printed⟩
  have hsp : s.sp + σ.length = size := hs.sp
  simp only [← hsp]
  congr 1
  omega

theorem Moves.print (hi : code[ip]? = some .print) :
    Moves code size ⟨ip, fp, ra, tm, w :: σ, heap, out⟩ ⟨ip + 1, fp, ra, tm, w :: σ, heap, out ++ [w]⟩ := by
  refine Does.moves hi fun s hs => .inl ⟨{ s with printed := s.printed.push w }, by rw [State.exec, hs.top],
    hs.ip, hs.fp, hs.ra, hs.tm, hs.words, hs.sp, hs.hp, hs.room, hs.stack, hs.heap, ?_⟩
  rw [Array.toList_push, hs.printed]

theorem Moves.define {l : Label} (hi : code[ip]? = some (.define l)) :
    Moves code size ⟨ip, fp, ra, tm, σ, heap, out⟩ ⟨ip + 1, fp, ra, tm, σ, heap, out⟩ :=
  Does.moves hi fun s hs => .inl ⟨s, rfl, hs⟩

theorem Moves.arith {op : Arith} (hi : code[ip]? = some (.arith op))
    (hd : ¬ (op = .div ∧ w.val = 0)) {x : Word} (hx : op.apply v w = .ok x) :
    Moves code size ⟨ip, fp, ra, tm, w :: v :: σ, heap, out⟩ ⟨ip + 1, fp, ra, tm, x :: σ, heap, out⟩ := by
  refine Does.moves hi fun s hs => .inl ?_
  obtain ⟨hp, hs', -⟩ := hs.pop
  obtain ⟨hp', hs'', hr⟩ := hs'.pop
  obtain ⟨hpush, hshows⟩ := hs''.push_of_lt hr x
  refine ⟨_, ?_, hshows⟩
  simp only [State.exec, hp, hp', bind, Except.bind]
  rw [if_neg hd, hx]
  exact hpush

/-! ### Branches -/

theorem Moves.branch {l : Label} (hi : code[ip]? = some (.branch l)) (ha : addressOf? l code = some ip') :
    Moves code size ⟨ip, fp, ra, tm, σ, heap, out⟩ ⟨ip', fp, ra, tm, σ, heap, out⟩ := by
  refine Does.moves hi fun s hs => .inl ⟨_, ?_, hs.setIp ip'⟩
  simp only [State.exec, Instruction.target?, Option.bind_some, ha]
  rfl

theorem Moves.branchEqual {l : Label} {taken : Bool} (hi : code[ip]? = some (.branchEqual l))
    (ha : addressOf? l code = some ip') (ht : v = w ↔ taken = true) :
    Moves code size ⟨ip, fp, ra, tm, w :: v :: σ, heap, out⟩
      ⟨if taken then ip' else ip + 1, fp, ra, tm, σ, heap, out⟩ := by
  refine Does.moves hi fun s hs => .inl ?_
  obtain ⟨hp, hs', -⟩ := hs.pop
  obtain ⟨hp', hs'', -⟩ := hs'.pop
  simp only [State.exec, hp, hp', bind, Except.bind, Instruction.target?, Option.bind_some, ha,
    ← Word.ext_iff, ht]
  cases taken with
  | true => exact ⟨_, rfl, hs''.setIp ip'⟩
  | false => exact ⟨_, rfl, hs''⟩

theorem Moves.branchLessEqual {l : Label} {taken : Bool} (hi : code[ip]? = some (.branchLessEqual l))
    (ha : addressOf? l code = some ip') (ht : v.val ≤ w.val ↔ taken = true) :
    Moves code size ⟨ip, fp, ra, tm, w :: v :: σ, heap, out⟩
      ⟨if taken then ip' else ip + 1, fp, ra, tm, σ, heap, out⟩ := by
  refine Does.moves hi fun s hs => .inl ?_
  obtain ⟨hp, hs', -⟩ := hs.pop
  obtain ⟨hp', hs'', -⟩ := hs'.pop
  simp only [State.exec, hp, hp', bind, Except.bind, Instruction.target?, Option.bind_some, ha, ht]
  cases taken with
  | true => exact ⟨_, rfl, hs''.setIp ip'⟩
  | false => exact ⟨_, rfl, hs''⟩

theorem Moves.jumpSubroutine (hi : code[ip]? = some .jumpSubroutine) (hw : w.val = ip') :
    Moves code size ⟨ip, fp, ra, tm, w :: σ, heap, out⟩
      ⟨ip', fp, .ofInt (ip + 1 : Nat), tm, σ, heap, out⟩ := by
  refine Does.moves hi fun s hs => .inl ?_
  obtain ⟨hp, hs', -⟩ := hs.pop
  refine ⟨{ s with sp := s.sp + 1, ra := .ofInt (ip + 1 : Nat), ip := ip' }, ?_, rfl, hs'.fp, rfl,
    hs'.tm, hs'.words, hs'.sp, hs'.hp, hs'.room, hs'.stack, hs'.heap, hs'.printed⟩
  simp only [State.exec, hp, bind, Except.bind]
  rw [if_neg (by omega), hw, hs.ip]
  rfl

/-! ### Loads from memory -/

theorem Moves.loadWord {a : Word} (hi : code[ip]? = some .loadWord) (ha : Holds size σ heap a.val w) :
    Moves code size ⟨ip, fp, ra, tm, a :: σ, heap, out⟩ ⟨ip + 1, fp, ra, tm, w :: σ, heap, out⟩ := by
  refine Does.moves hi fun s hs => .inl ?_
  obtain ⟨hp, hs', hr⟩ := hs.pop
  obtain ⟨h0, hlt, hmem⟩ := hs'.memory ha
  obtain ⟨hpush, hshows⟩ := hs'.push_of_lt hr w
  refine ⟨_, ?_, hshows⟩
  have hcell : { s with sp := s.sp + 1 }.cell a = .ok a.val.toNat := by
    rw [State.cell, if_pos ⟨h0, by rw [hs'.words]; exact hlt⟩]
  simp only [State.exec, hp, bind, Except.bind, hcell, Array.getD_eq_getD_getElem?, hmem, Option.getD_some]
  exact hpush

/-- There is no word at a negative address. -/
theorem Shows.step_loadWord {a : Word} {s : State} (hi : code[ip]? = some .loadWord) (ha : a.val < 0)
    (hs : Shows size ⟨ip, fp, ra, tm, a :: σ, heap, out⟩ s) :
    s.step (.ofCode code) = .error (.fault (.badAddress a (ip + 1))) := by
  have hip : s.ip = ip := hs.ip
  obtain ⟨hp, -, -⟩ := (hs.setIp (ip + 1)).pop
  have hcell : { s with ip := ip + 1, sp := s.sp + 1 }.cell a =
      .error (.fault (.badAddress a (ip + 1))) := by
    rw [State.cell, if_neg (by omega)]
  rw [State.step_ofCode (by rw [hip]; exact hi), hip]
  simp only [State.exec, hp, bind, Except.bind, hcell]

end Instructions

end Classlet.Machine

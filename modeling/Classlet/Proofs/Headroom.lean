import Classlet.Proofs.Heights
import Classlet.Proofs.Runs
/-!
# Room on the stack

The heights that `Code.Rises` gives to code are those that the machine finds: while it is in code without
calls and without heap words, its stack is as high as what is left of the code starts
(`Machine.Ready.step`). So if the highest of these heights, the `peak` of the code, fits into the memory, no
push is refused; and since branches only go forward, the machine is through after at most as many steps as
there are instructions (`Machine.Ready.run`).
-/

namespace Classlet

namespace Instruction

/-- What the code of operators is made of. -/
def computes : Instruction → Bool
  | push _ | arith _ | branch _ | branchEqual _ | branchLessEqual _ | print | define _ => true
  | _ => false

theorem jump?_of_isPlain {i : Instruction} (h : i.isPlain = true) : i.jump? = none := by
  cases i <;> first | rfl | cases h

theorem pushes_of_jump? {i : Instruction} {l : Label} (h : i.jump? = some l) : i.pushes = 0 := by
  cases i <;> first | rfl | cases h

end Instruction

/-! ## One instruction -/

namespace Machine

/-- What an instruction, whose label is at `address`, does to the stack pointer, the heap pointer and the
instruction pointer. -/
structure State.Changes (s : State) (address : Option Nat) (i : Instruction) (t : State) : Prop where
  sp : t.sp + i.pushes = s.sp + i.pops
  hp : t.hp = s.hp
  ip : (i.continues = true ∧ t.ip = s.ip) ∨ (i.jump?.isSome = true ∧ address = some t.ip)

section Instructions
variable {s t : State} {address : Option Nat} {i : Instruction} {w : Word}

theorem State.push_eq_ok (h : s.push w = .ok t) : t.sp + 1 = s.sp ∧ t.hp = s.hp ∧ t.ip = s.ip := by
  unfold State.push at h
  split at h
  · cases h
  · split at h
    · cases h
    · obtain rfl := Except.ok.inj h
      exact ⟨by simp only; omega, rfl, rfl⟩

theorem State.sp_le_of_push {ip : Nat} (h : s.push w = .error (.fault (.stackOverflow ip))) :
    (s.sp : Int) ≤ s.hp.val := by
  unfold State.push at h
  split at h
  · assumption
  · split at h
    · cases h
    · cases h

theorem State.pop_eq {w : Word} (h : s.pop = .ok (w, t)) : t = { s with sp := s.sp + 1 } := by
  unfold State.pop at h
  split at h
  · exact (Prod.mk.inj (Except.ok.inj h)).2.symm
  · cases h

theorem State.jump_eq_ok {l : Label} (h : s.jump l address = .ok t) :
    t = { s with ip := t.ip } ∧ address = some t.ip := by
  unfold State.jump at h
  split at h
  · obtain rfl := Except.ok.inj h
    exact ⟨rfl, rfl⟩
  · cases h

theorem State.exec_changes (hi : i.computes = true) (h : s.exec address i = .ok t) :
    s.Changes address i t := by
  cases i with
  | push n =>
    obtain ⟨hsp, hhp, hip⟩ := State.push_eq_ok h
    exact ⟨hsp, hhp, .inl ⟨rfl, hip⟩⟩
  | arith op =>
    simp only [State.exec, bind_eq_ok, Prod.exists] at h
    obtain ⟨v₁, s₁, h₁, v₂, s₂, h₂, h⟩ := h
    obtain rfl := State.pop_eq h₁
    obtain rfl := State.pop_eq h₂
    split at h
    · cases h
    · split at h
      · obtain ⟨hsp, hhp, hip⟩ := State.push_eq_ok h
        exact ⟨hsp, hhp, .inl ⟨rfl, hip⟩⟩
      · cases h
  | branch l =>
    obtain ⟨ht, haddress⟩ := State.jump_eq_ok h
    exact ⟨by rw [ht]; rfl, by rw [ht], .inr ⟨rfl, haddress⟩⟩
  | branchEqual l | branchLessEqual l =>
    simp only [State.exec, bind_eq_ok, Prod.exists] at h
    obtain ⟨v₁, s₁, h₁, v₂, s₂, h₂, h⟩ := h
    obtain rfl := State.pop_eq h₁
    obtain rfl := State.pop_eq h₂
    split at h
    · obtain ⟨ht, haddress⟩ := State.jump_eq_ok h
      exact ⟨by rw [ht]; rfl, by rw [ht], .inr ⟨rfl, haddress⟩⟩
    · obtain rfl := Except.ok.inj h
      exact ⟨rfl, rfl, .inl ⟨rfl, rfl⟩⟩
  | print =>
    simp only [State.exec] at h
    split at h
    · obtain rfl := Except.ok.inj h
      exact ⟨rfl, rfl, .inl ⟨rfl, rfl⟩⟩
    · cases h
  | define l =>
    obtain rfl := Except.ok.inj h
    exact ⟨rfl, rfl, .inl ⟨rfl, rfl⟩⟩
  | _ => cases hi

/-- A pop itself never overflows the stack. -/
theorem State.pop_bind_overflow {f : Word × State → Except Stop State} {ip : Nat}
    (h : s.pop >>= f = .error (.fault (.stackOverflow ip))) :
    ∃ w, f (w, { s with sp := s.sp + 1 }) = .error (.fault (.stackOverflow ip)) := by
  unfold State.pop at h
  split at h
  · next w _ => exact ⟨w, h⟩
  · cases h

/-- An instruction is refused only if there is no room for what it pushes in place of what it pops. -/
theorem State.exec_refused {ip : Nat} (hi : i.computes = true)
    (h : s.exec address i = .error (.fault (.stackOverflow ip))) :
    i.pushes = 1 ∧ ((s.sp + i.pops : Nat) : Int) ≤ s.hp.val := by
  cases i with
  | push n => exact ⟨rfl, State.sp_le_of_push h⟩
  | arith op =>
    obtain ⟨v₁, h⟩ := State.pop_bind_overflow h
    obtain ⟨v₂, h⟩ := State.pop_bind_overflow h
    simp only at h
    split at h
    · cases h
    · split at h
      · exact ⟨rfl, State.sp_le_of_push h⟩
      · cases h
  | branch l =>
    cases address with
    | none => cases h
    | some a => cases h
  | branchEqual l | branchLessEqual l =>
    obtain ⟨v₁, h⟩ := State.pop_bind_overflow h
    obtain ⟨v₂, h⟩ := State.pop_bind_overflow h
    simp only at h
    split at h
    · cases address with
      | none => cases h
      | some a => cases h
    · cases h
  | print =>
    simp only [State.exec] at h
    split at h
    · cases h
    · cases h
  | define l => cases h
  | _ => cases hi

end Instructions

end Machine

/-! ## Heights of what is left of the code -/

namespace Code

/-- The height after an instruction, where the labels have the heights `H`. -/
def after (H : Nat → Nat) (i : Instruction) (s : Option Nat) : Option Nat :=
  match i with
  | .branch _ => none
  | .define (.branch l) => some (H l)
  | i => s.map fun h => h - i.pops + i.pushes

/-- The greatest height on the way through the code. -/
def peak (H : Nat → Nat) : Code → Option Nat → Nat
  | [], s => s.getD 0
  | i :: c, s => max (s.getD 0) (peak H c (after H i s))

section Heights
variable {H : Nat → Nat} {a b c : Code} {i : Instruction} {s s' s'' : Option Nat}

theorem le_peak (c : Code) (s : Option Nat) : s.getD 0 ≤ peak H c s := by
  cases c with
  | nil => exact Nat.le_refl _
  | cons i c => exact Nat.le_max_left _ _

theorem after_plain (hi : i.isPlain = true) (s : Option Nat) :
    after H i s = s.map fun h => h - i.pops + i.pushes := by
  cases i <;> first | rfl | cases hi

theorem Rises.tail (h : Rises H (i :: c) [] s s') : Rises H c [] (after H i s) s' := by
  cases h with
  | plain hi hc =>
    rw [after_plain hi, Option.map_some, Nat.add_sub_cancel]
    exact hc
  | branch _ hc => exact hc
  | branchEqual _ hc | branchLessEqual _ hc => exact hc
  | define hl _ hc =>
    rw [after, hl]
    exact hc

/-- The height at the end is the one that the instructions lead to. -/
theorem Rises.last_eq (h : Rises H c [] s s') : s' = c.foldl (fun s i => after H i s) s := by
  induction c generalizing s with
  | nil =>
    cases h
    rfl
  | cons i c ih => exact ih h.tail

/-- Where an instruction goes on, the height changes by what it pops and pushes. -/
theorem Rises.after_eq {k : Nat} (h : Rises H (i :: c) [] (some k) s') (hi : i.continues = true) :
    i.pops ≤ k ∧ after H i (some k) = some (k - i.pops + i.pushes) := by
  cases h with
  | plain hplain _ => exact ⟨Nat.le_add_left _ _, after_plain hplain _⟩
  | branch _ _ => cases hi
  | branchEqual _ _ | branchLessEqual _ _ => exact ⟨Nat.le_add_left _ _, rfl⟩
  | define hl hs _ => exact ⟨Nat.zero_le _, congrArg some (hl.trans (hs k rfl).symm)⟩

/-- Where an instruction may jump, the label has the height that is left. -/
theorem Rises.jump {l : Label} (h : Rises H (i :: c) [] s s') (hl : i.jump? = some l) :
    ∃ n, l = .branch n ∧ s = some (H n + i.pops) := by
  cases h with
  | plain hplain _ => cases (Instruction.jump?_of_isPlain hplain).symm.trans hl
  | branch hn _ | branchEqual hn _ | branchLessEqual hn _ =>
    obtain rfl := Option.some.inj hl
    exact ⟨_, rfl, by rw [hn]; rfl⟩
  | define _ _ _ => cases hl

/-- A height between two pieces of code. -/
theorem Rises.split (h : Rises H (a ++ b) [] s s'') :
    ∃ s', Rises H a [] s s' ∧ Rises H b [] s' s'' ∧ peak H (a ++ b) s = max (peak H a s) (peak H b s') := by
  induction a generalizing s with
  | nil => exact ⟨s, .nil, h, (Nat.max_eq_right (le_peak b s)).symm⟩
  | cons i a ih =>
    obtain ⟨s', ha, hb, hpeak⟩ := ih h.tail
    refine ⟨s', ?_, hb, ?_⟩
    · rw [List.cons_append] at h
      cases h with
      | plain hi _ =>
        rw [after_plain hi, Option.map_some, Nat.add_sub_cancel] at ha
        exact .plain hi ha
      | branch hl _ => exact .branch hl ha
      | branchEqual hl _ => exact .branchEqual hl ha
      | branchLessEqual hl _ => exact .branchLessEqual hl ha
      | define hl hs _ =>
        rw [after, hl] at ha
        exact .define hl hs ha
    · rw [List.cons_append, peak, peak, hpeak, Nat.max_assoc]

/-- At a label the code goes on from the height of the label. -/
theorem Rises.at_label {code : Code} {j l : Nat} (h : Rises H code [] s s')
    (hj : code[j]? = some (.define (.branch l))) :
    Rises H (code.drop j) [] (some (H l)) s' ∧ peak H (code.drop j) (some (H l)) ≤ peak H code s := by
  obtain ⟨hlt, hget⟩ := List.getElem?_eq_some_iff.1 hj
  rw [← List.take_append_drop j code] at h
  obtain ⟨s₁, -, hrest, hpeak⟩ := h.split
  rw [List.take_append_drop] at hpeak
  rw [List.drop_eq_getElem_cons hlt, hget] at hrest hpeak ⊢
  have htop : H l ≤ peak H (code.drop (j + 1)) (some (H l)) := le_peak _ (some (H l))
  refine ⟨.define rfl (fun k hk => (Option.some.inj hk).symm) hrest.tail, ?_⟩
  simp only [peak, after, Option.getD_some] at hpeak ⊢
  omega

end Heights

/-- Code of operators that is gone through once, from its start to its end. -/
structure OneWay (code : Code) : Prop where
  computes (i : Instruction) : i ∈ code → i.computes = true
  forward : Forward [] code
  nodup : (labels code).Nodup

end Code

/-! ## Runs through the code -/

namespace Machine

open Code

/-- The machine is in the code with an empty heap. Its stack is as high as what is left of the code starts,
and will not get higher than `bound`. -/
structure Ready (H : Nat → Nat) (code : Code) (size bound : Nat) (s : State) : Prop where
  hp : s.hp.val = 0
  inside : s.ip ≤ code.length
  height : ∃ h last, s.sp + h = size ∧ Rises H (code.drop s.ip) [] (some h) last ∧
    peak H (code.drop s.ip) (some h) ≤ bound

theorem ready_initial {H : Nat → Nat} {code : Code} {bound : Nat} {last : Option Nat}
    (h : Rises H code [] (some 0) last) (hpeak : peak H code (some 0) ≤ bound) (size : Nat) :
    Ready H code size bound (.initial size) :=
  ⟨rfl, Nat.zero_le _, 0, last, rfl, h, hpeak⟩

section Ready
variable {H : Nat → Nat} {code : Code} {size bound k : Nat} {s t : State} (hc : code.OneWay)
include hc

/-- The instruction that is executed next, unless it is the last one. -/
theorem Ready.next (h : Ready H code size bound s) :
    (code ++ [.halt])[s.ip]? = some .halt ∨
      ∃ i, code[s.ip]? = some i ∧ (code ++ [.halt])[s.ip]? = some i ∧ i.computes = true ∧
        code.drop s.ip = i :: code.drop (s.ip + 1) := by
  rcases Nat.lt_or_eq_of_le h.inside with hlt | heq
  · have hget := List.getElem?_eq_getElem hlt
    refine .inr ⟨_, hget, ?_, hc.computes _ (List.getElem_mem hlt), List.drop_eq_getElem_cons hlt⟩
    rw [List.getElem?_append_left hlt, hget]
  · refine .inl ?_
    rw [heq, List.getElem?_concat_length]

theorem Ready.step (h : Ready H code size bound s) (hs : s.step (.ofCode (code ++ [.halt])) = .ok t) :
    Ready H code size bound t ∧ s.ip < t.ip := by
  rcases h.next hc with hhalt | ⟨i, hi, hcode, hcomputes, hdrop⟩
  · rw [State.step_ofCode hhalt] at hs
    cases hs
  rw [State.step_ofCode hcode] at hs
  obtain ⟨hsp, hhp, hip⟩ := State.exec_changes hcomputes hs
  obtain ⟨k, last, hheight, hrises, hpeak⟩ := h.height
  rw [hdrop] at hrises hpeak
  rw [peak, Option.getD_some] at hpeak
  simp only at hsp hhp hip
  have hlt := (List.getElem?_eq_some_iff.1 hi).1
  rcases hip with ⟨hcontinues, hip⟩ | ⟨hjump, haddress⟩
  · obtain ⟨hpops, hafter⟩ := hrises.after_eq hcontinues
    have htail := hrises.tail
    rw [hafter] at htail hpeak
    refine ⟨⟨by rw [hhp, h.hp], by omega, k - i.pops + i.pushes, last, by omega, ?_, ?_⟩, by omega⟩
    · rw [hip]
      exact htail
    · rw [hip]
      omega
  · -- the label is defined further on, and the machine finds it there
    obtain ⟨l, hl⟩ := Option.isSome_iff_exists.1 hjump
    obtain ⟨n, rfl, hk⟩ := hrises.jump hl
    obtain ⟨j, hj, hdefine⟩ := hc.forward.exists_define hi (Instruction.target?_of_jump? hl)
    have hjlt := (List.getElem?_eq_some_iff.1 hdefine).1
    have hdefine' : (code ++ [.halt])[j]? = some (.define (.branch n)) := by
      rw [List.getElem?_append_left hjlt, hdefine]
    have hnodup : (labels (code ++ [.halt])).Nodup := by
      simpa [labels_cons, Instruction.defines?] using hc.nodup
    rw [Instruction.target?_of_jump? hl, Option.bind_some, addressOf?_eq_some hnodup hdefine'] at haddress
    obtain rfl := Option.some.inj haddress
    have hpushes := Instruction.pushes_of_jump? hl
    obtain rfl := Option.some.inj hk
    obtain ⟨m, hm⟩ := Nat.exists_eq_add_of_lt hj
    have hrest : (code.drop (s.ip + 1))[m]? = some (.define (.branch n)) := by
      rw [List.getElem?_drop, ← hdefine]
      congr 1
      omega
    obtain ⟨hthere, hbelow⟩ := hrises.tail.at_label hrest
    have hsame : (code.drop (s.ip + 1)).drop m = code.drop t.ip := by
      rw [List.drop_drop]
      congr 1
      omega
    rw [hsame] at hthere hbelow
    exact ⟨⟨by rw [hhp, h.hp], by omega, H n, last, by omega, hthere, by omega⟩, hj⟩

/-- No instruction is refused where the bound fits into the memory. -/
theorem Ready.not_refuses (h : Ready H code size bound s) (hbound : bound ≤ size) :
    ¬ Refuses (.ofCode (code ++ [.halt])) s := by
  rintro ⟨-, ip, hs⟩
  rcases h.next hc with hhalt | ⟨i, -, hcode, hcomputes, hdrop⟩
  · rw [State.step_ofCode hhalt] at hs
    cases hs
  rw [State.step_ofCode hcode] at hs
  obtain ⟨hpushes, hsp⟩ := State.exec_refused hcomputes hs
  obtain ⟨k, last, hheight, hrises, hpeak⟩ := h.height
  rw [hdrop] at hrises hpeak
  have hcontinues : i.continues = true := by
    cases i <;> first | rfl | cases hpushes
  obtain ⟨-, hafter⟩ := hrises.after_eq hcontinues
  have hnext := le_peak (H := H) (code.drop (s.ip + 1)) (after H i (some k))
  rw [peak, hafter] at hpeak
  rw [hafter] at hnext
  have hhp := h.hp
  simp only [Option.getD_some] at hpeak hnext hsp
  omega

/-- No word on the heap is about to be counted. -/
theorem not_overwrites (s : State) : ¬ Overwrites (.ofCode (code ++ [.halt])) s := by
  rintro ⟨-, -, hstore⟩
  rw [lines_ofCode, Option.map_map, Option.map_eq_some_iff] at hstore
  obtain ⟨i, hi, rfl⟩ := hstore
  rcases List.mem_append.1 (List.mem_of_getElem? hi) with hmem | hmem
  · cases hc.computes _ hmem
  · cases List.mem_singleton.1 hmem

/-- A run through the code goes on to higher addresses. -/
theorem Ready.run (h : Ready H code size bound s) (hs : Steps (.ofCode (code ++ [.halt])) k s t) :
    Ready H code size bound t ∧ s.ip + k ≤ t.ip := by
  induction hs with
  | refl => exact ⟨h, Nat.le_refl _⟩
  | next hstep _ ih =>
    obtain ⟨hready, hlt⟩ := h.step hc hstep
    obtain ⟨hready', hle⟩ := ih hready
    exact ⟨hready', by omega⟩

/-- Every instruction is executed at most once. -/
theorem Ready.steps_le (h : Ready H code size bound s) (hs : Steps (.ofCode (code ++ [.halt])) k s t) :
    k ≤ code.length := by
  obtain ⟨hready, hle⟩ := h.run hc hs
  have hinside := hready.inside
  omega

end Ready

end Machine

end Classlet

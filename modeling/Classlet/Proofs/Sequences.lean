import Classlet.Proofs.Snapshots
/-!
# The sequences of the calling convention

What the sequences that code is built from do to a snapshot. Sequences that write to the heap pass through
states that no snapshot describes: the word is stored at `hp` first and `hp` is moved afterwards, by
instructions that push. `Pending` says that such a word is there. With one or two free words those pushes
reach it, and the memory is exhausted; otherwise the word becomes part of the heap.
-/

namespace Classlet.Code

/-- Stores the last word of an object and leaves the address of that word. -/
def finishObject : Code := [.load .hp, .storeWord, .load .hp] ++ bumpHeap

end Classlet.Code

namespace Classlet.Machine

/-! ## Words -/

theorem apply_add {a b : Word} {n : Int} (h : a.val + b.val = n) (lower : -9223372036854775808 ≤ n)
    (upper : n < 9223372036854775808) : Arith.add.apply a b = .ok (.ofInt n) := by
  have hn : Word.ofInt? n = some (.ofInt n) := by
    rw [Word.ofInt?, dif_pos ⟨lower, upper⟩]
    congr 1
    exact Word.ext (Word.val_ofInt lower upper).symm
  simp only [Arith.apply, Arith.eval, h, Word.checked, hn]

/-! ## Storing on the heap -/

/-- The word `w` is stored right after the heap, below the stack. -/
structure Pending (size : Nat) (c : Snapshot) (w : Word) (s : State) : Prop where
  state : Shows size c s
  cell : s.memory[c.heap.length]? = some w
  room : c.heap.length < s.sp

section Heap
variable {code : Code} {size ip : Nat} {fp ra tm v w : Word} {σ heap out : List Word} {s : State}

theorem Pending.setIp (h : Pending size ⟨ip, fp, ra, tm, σ, heap, out⟩ w s) (ip' : Nat) :
    Pending size ⟨ip', fp, ra, tm, σ, heap, out⟩ w { s with ip := ip' } :=
  ⟨h.state.setIp ip', h.cell, h.room⟩

theorem Pending.push (h : Pending size ⟨ip, fp, ra, tm, σ, heap, out⟩ w s) (hr : heap.length + 1 < s.sp)
    (v : Word) :
    s.push v = .ok (s.pushed v) ∧ Pending size ⟨ip, fp, ra, tm, v :: σ, heap, out⟩ w (s.pushed v) := by
  obtain ⟨hpush, hshows⟩ := h.state.push_of_lt h.room v
  refine ⟨hpush, hshows, ?_, Nat.lt_sub_of_add_lt hr⟩
  have hcell := h.cell
  simp only at hcell ⊢
  rw [State.memory_pushed (by omega), hcell]

theorem Pending.pop (h : Pending size ⟨ip, fp, ra, tm, v :: σ, heap, out⟩ w s) :
    s.pop = .ok (v, { s with sp := s.sp + 1 }) ∧
      Pending size ⟨ip, fp, ra, tm, σ, heap, out⟩ w { s with sp := s.sp + 1 } := by
  obtain ⟨hpop, hshows, -⟩ := h.state.pop
  exact ⟨hpop, hshows, h.cell, Nat.lt_succ_of_lt h.room⟩

/-- Moving `hp` makes the word a part of the heap. -/
theorem Pending.commit (h : Pending size ⟨ip, fp, ra, tm, σ, heap, out⟩ w s)
    (hv : v.val = heap.length + 1) :
    Shows size ⟨ip, fp, ra, tm, σ, heap ++ [w], out⟩ (s.set .hp v) := by
  have hs := h.state
  refine ⟨hs.ip, hs.fp, hs.ra, hs.tm, hs.words, hs.sp, ?_, ?_, hs.stack, ?_, hs.printed⟩
  · simpa [State.set] using hv
  · simpa [State.set] using Nat.succ_le_of_lt h.room
  · intro i hi
    simp only [List.length_append, List.length_singleton] at hi
    rcases Nat.lt_or_eq_of_le (Nat.le_of_lt_succ hi) with hlt | rfl
    · rw [List.getElem?_append_left hlt]
      exact hs.heap i hlt
    · rw [List.getElem?_concat_length]
      exact h.cell

theorem Pending.storeWord {t : Word} (ht : t.val = heap.length) (hi : code[ip]? = some .storeWord)
    (h : Shows size ⟨ip, fp, ra, tm, t :: w :: σ, heap, out⟩ s) :
    ∃ s', s.step (.ofCode code) = .ok s' ∧ Pending size ⟨ip + 1, fp, ra, tm, σ, heap, out⟩ w s' := by
  have hip : s.ip = ip := h.ip
  obtain ⟨hp, h', hr⟩ := (h.setIp (ip + 1)).pop
  obtain ⟨hp', h'', hr'⟩ := h'.pop
  have hsp := h''.sp
  have hwords := h.words
  simp only at hsp hr hr'
  have hcell : { s with ip := ip + 1, sp := s.sp + 1 + 1 }.cell t = .ok heap.length := by
    rw [State.cell, ht, if_pos ⟨by omega, by rw [hwords]; omega⟩, Int.toNat_natCast]
  refine ⟨{ s with ip := ip + 1, sp := s.sp + 1 + 1, memory := s.memory.setIfInBounds heap.length w }, ?_,
    ?state, ?cell, ?_⟩
  · rw [State.step_ofCode (by rw [hip]; exact hi), hip]
    simp only [State.exec, hp, hp', bind, Except.bind, hcell]
    rfl
  case cell =>
    rw [Array.getElem?_setIfInBounds_self_of_lt]
    omega
  case state =>
    refine ⟨h''.ip, h''.fp, h''.ra, h''.tm, ?_, h''.sp, h''.hp, h''.room, ?_, ?_, h''.printed⟩
    · simpa using hwords
    · intro i
      simp only [Array.getElem?_setIfInBounds]
      rw [if_neg (by omega)]
      exact h''.stack i
    · intro i hlt
      simp only at hlt
      simp only [Array.getElem?_setIfInBounds]
      rw [if_neg (by omega)]
      exact h''.heap i hlt
  · simp only
    omega

/-- An instruction that pushes away from the pending word. -/
theorem Pending.pushes {i : Instruction} (hi : code[ip]? = some i)
    (he : ∀ t : State, t.hp.val = heap.length → t.exec (i.target?.bind (addressOf? · code)) i = t.push v)
    (hr : heap.length + 1 + σ.length < size) (h : Pending size ⟨ip, fp, ra, tm, σ, heap, out⟩ w s) :
    ∃ s', s.step (.ofCode code) = .ok s' ∧ Pending size ⟨ip + 1, fp, ra, tm, v :: σ, heap, out⟩ w s' := by
  have hip : s.ip = ip := h.state.ip
  have hsp : s.sp + σ.length = size := h.state.sp
  obtain ⟨hpush, h'⟩ := (h.setIp (ip + 1)).push (by simp only; omega) v
  refine ⟨_, ?_, h'⟩
  rw [State.step_ofCode (by rw [hip]; exact hi), hip, ← hpush]
  exact he _ h.state.hp

theorem Pending.loadHp (hi : code[ip]? = some (.load .hp)) (hr : heap.length + 1 + σ.length < size)
    (h : Pending size ⟨ip, fp, ra, tm, σ, heap, out⟩ w s) :
    ∃ s', s.step (.ofCode code) = .ok s' ∧
      Pending size ⟨ip + 1, fp, ra, tm, .ofInt heap.length :: σ, heap, out⟩ w s' := by
  refine h.pushes hi (fun t ht => ?_) hr
  rw [← ht, Word.ofInt_val]
  rfl

theorem Pending.adds (hi : code[ip]? = some (.arith .add)) {x y : Word} (hv : Arith.add.apply y x = .ok v)
    (h : Pending size ⟨ip, fp, ra, tm, x :: y :: σ, heap, out⟩ w s) :
    ∃ s', s.step (.ofCode code) = .ok s' ∧ Pending size ⟨ip + 1, fp, ra, tm, v :: σ, heap, out⟩ w s' := by
  have hip : s.ip = ip := h.state.ip
  obtain ⟨hp, h1⟩ := (h.setIp (ip + 1)).pop
  obtain ⟨hp', h2⟩ := h1.pop
  obtain ⟨hpush, h3⟩ := h2.push (Nat.succ_lt_succ h1.room) v
  refine ⟨_, ?_, h3⟩
  rw [State.step_ofCode (by rw [hip]; exact hi), hip]
  simp only [State.exec, hp, hp', bind, Except.bind]
  rw [if_neg (by simp), hv]
  exact hpush

theorem Pending.storeHp (hi : code[ip]? = some (.store .hp)) (hv : v.val = heap.length + 1)
    (h : Pending size ⟨ip, fp, ra, tm, v :: σ, heap, out⟩ w s) :
    ∃ s', s.step (.ofCode code) = .ok s' ∧ Shows size ⟨ip + 1, fp, ra, tm, σ, heap ++ [w], out⟩ s' := by
  have hip : s.ip = ip := h.state.ip
  obtain ⟨hp, h1⟩ := (h.setIp (ip + 1)).pop
  refine ⟨_, ?_, h1.commit hv⟩
  rw [State.step_ofCode (by rw [hip]; exact hi), hip]
  simp only [State.exec, hp, bind, Except.bind]
  rfl

theorem Pending.bumpHeap (hsize : (size : Int) < 9223372036854775808) (hc : code.At ip Code.bumpHeap)
    (h : Pending size ⟨ip, fp, ra, tm, σ, heap, out⟩ w s) :
    (∃ s', Steps (.ofCode code) 4 s s' ∧ Shows size ⟨ip + 4, fp, ra, tm, σ, heap ++ [w], out⟩ s') ∨
      (size ≤ σ.length + heap.length + 2 ∧ ExhaustsWithin (.ofCode code) 4 s) := by
  obtain ⟨h0, h1, h2, h3, -⟩ : code[ip]? = some (.load .hp) ∧ code[ip + 1]? = some (.push (.ofInt 1)) ∧
      code[ip + 1 + 1]? = some (.arith .add) ∧ code[ip + 1 + 1 + 1]? = some (.store .hp) ∧
      code.At (ip + 1 + 1 + 1 + 1) [] := by
    simpa only [Code.bumpHeap, Code.at_cons] using hc
  have hsp : s.sp + σ.length = size := h.state.sp
  have hhp : s.hp.val = heap.length := h.state.hp
  have hroom : heap.length < s.sp := h.room
  -- with one free word `push 1` is refused, with two it overwrites `w`
  rcases (show s.sp = heap.length + 1 ∨ s.sp = heap.length + 2 ∨ heap.length + 2 < s.sp by omega) with
    hg | hg | hg
  · rcases Moves.loadHp h0 s h.state with ⟨s1, hs1, sh1⟩ | hr
    · have hsp1 := sh1.sp
      have hip1 : s1.ip = ip + 1 := sh1.ip
      simp only [List.length_cons] at hsp1
      obtain ⟨hmeet, hfull⟩ := (sh1.setIp (ip + 1 + 1)).full (by simp only; omega) (.ofInt 1)
      refine .inr ⟨by omega, 1, s1, by decide, .single hs1, .inl ⟨hmeet, ip + 1 + 1, ?_⟩⟩
      rw [State.step_ofCode (by rw [hip1]; exact h1), hip1]
      exact hfull
    · exact .inr ⟨by omega, 0, s, by decide, .refl s, .inl hr⟩
  · have htwo : Advances code size 2 (size + 1) ⟨ip, fp, ra, tm, σ, heap, out⟩ _ :=
      ((Moves.loadHp h0).advances (by simp only; omega)).trans
        ((Moves.push h1).advances (by simp only [List.length_cons]; omega))
    rcases htwo s h.state with ⟨s2, hs2, sh2⟩ | ⟨-, he⟩
    · have hsp2 := sh2.sp
      have hhp2 := sh2.hp
      have hip2 : s2.ip = ip + 1 + 1 := sh2.ip
      simp only [List.length_cons] at hsp2 hhp2
      refine .inr ⟨by omega, 2, s2, by decide, hs2, .inr ⟨by omega, ?_, ?_⟩⟩
      · rw [hip2, lines_ofCode, h2]
        rfl
      · rw [hip2, lines_ofCode, h3]
        rfl
    · exact .inr ⟨by omega, he.mono (by decide)⟩
  · have hval : (Word.ofInt (heap.length + 1)).val = heap.length + 1 := Word.val_ofInt (by omega) (by omega)
    have hadd : Arith.add.apply (.ofInt heap.length) (.ofInt 1) = .ok (.ofInt (heap.length + 1)) :=
      apply_add (by rw [Word.val_ofInt (by omega) (by omega), Word.val_ofInt (by decide) (by decide)])
        (by omega) (by omega)
    obtain ⟨s1, hs1, p1⟩ := h.loadHp h0 (by omega)
    obtain ⟨s2, hs2, p2⟩ := p1.pushes h1 (v := .ofInt 1) (fun _ _ => rfl)
      (by simp only [List.length_cons]; omega)
    obtain ⟨s3, hs3, p3⟩ := p2.adds h2 hadd
    obtain ⟨s4, hs4, p4⟩ := p3.storeHp h3 hval
    exact .inl ⟨s4, .next hs1 (.next hs2 (.next hs3 (.single hs4))), p4⟩

/-- Besides the new word, two words are pushed while it is stored. -/
theorem Advances.storeOnHeap {words : Nat} (hsize : (size : Int) < 9223372036854775808)
    (hwords : σ.length + heap.length + 2 < words) (hc : code.At ip Code.storeOnHeap) :
    Advances code size 6 words ⟨ip, fp, ra, tm, w :: σ, heap, out⟩
      ⟨ip + 6, fp, ra, tm, σ, heap ++ [w], out⟩ := by
  obtain ⟨h0, h1, hb⟩ : code[ip]? = some (.load .hp) ∧ code[ip + 1]? = some .storeWord ∧
      code.At (ip + 1 + 1) Code.bumpHeap := by
    simpa only [Code.storeOnHeap, List.cons_append, List.nil_append, Code.at_cons] using hc
  have hload : Advances code size 1 words ⟨ip, fp, ra, tm, w :: σ, heap, out⟩ _ :=
    (Moves.loadHp h0).advances (by simp only [List.length_cons]; omega)
  intro s hs
  rcases hload s hs with ⟨s1, hs1, sh1⟩ | ⟨hsmall, he⟩
  · have hroom := sh1.room
    have hsp := sh1.sp
    simp only [List.length_cons] at hsp hroom
    obtain ⟨s2, hs2, pend⟩ := Pending.storeWord (Word.val_ofInt (by omega) (by omega)) h1 sh1
    have h2 : Steps (.ofCode code) 2 s s2 := hs1.trans (.single hs2)
    rcases pend.bumpHeap hsize hb with ⟨s', hs', sh'⟩ | ⟨hfull, he⟩
    · exact .inl ⟨s', h2.trans hs', sh'⟩
    · exact .inr ⟨by omega, .of_steps h2 he⟩
  · exact .inr ⟨hsmall, he.mono (by decide)⟩

theorem Goes.storeOnHeap (hsize : (size : Int) < 9223372036854775808) (hc : code.At ip Code.storeOnHeap) :
    Goes code size ⟨ip, fp, ra, tm, w :: σ, heap, out⟩ ⟨ip + 6, fp, ra, tm, σ, heap ++ [w], out⟩ :=
  (Advances.storeOnHeap hsize (Nat.lt_succ_self _) hc).goes

/-- Stores several words, the top of the stack first. -/
theorem Goes.storeAll (hsize : (size : Int) < 9223372036854775808) (τ : List Word)
    (hc : code.At ip (List.replicate τ.length Code.storeOnHeap).flatten) :
    Goes code size ⟨ip, fp, ra, tm, τ ++ σ, heap, out⟩
      ⟨ip + (List.replicate τ.length Code.storeOnHeap).flatten.length, fp, ra, tm, σ, heap ++ τ, out⟩ := by
  induction τ generalizing ip heap with
  | nil =>
    rw [List.append_nil]
    exact .refl _
  | cons w τ ih =>
    rw [List.length_cons, List.replicate_succ, List.flatten_cons, Code.at_append] at hc
    refine (Goes.storeOnHeap hsize hc.1).trans ?_
    rw [List.length_cons, List.replicate_succ, List.flatten_cons, List.length_append, ← Nat.add_assoc,
      List.append_cons heap w τ]
    exact ih hc.2

theorem Goes.finishObject (hsize : (size : Int) < 9223372036854775808) (hc : code.At ip Code.finishObject) :
    Goes code size ⟨ip, fp, ra, tm, w :: σ, heap, out⟩
      ⟨ip + 7, fp, ra, tm, .ofInt heap.length :: σ, heap ++ [w], out⟩ := by
  obtain ⟨h0, h1, h2, hb⟩ : code[ip]? = some (.load .hp) ∧ code[ip + 1]? = some .storeWord ∧
      code[ip + 1 + 1]? = some (.load .hp) ∧ code.At (ip + 1 + 1 + 1) Code.bumpHeap := by
    simpa only [Code.finishObject, List.cons_append, List.nil_append, Code.at_cons] using hc
  intro s hs
  rcases Moves.loadHp h0 s hs with ⟨s1, hs1, sh1⟩ | hr
  · have hroom := sh1.room
    have hsp := sh1.sp
    simp only [List.length_cons] at hsp hroom
    obtain ⟨s2, hs2, pend⟩ := Pending.storeWord (Word.val_ofInt (by omega) (by omega)) h1 sh1
    obtain ⟨s3, hs3, pend'⟩ := pend.loadHp h2 (by omega)
    have h3 : Steps (.ofCode code) 3 s s3 := .next hs1 (.next hs2 (.single hs3))
    rcases pend'.bumpHeap hsize hb with ⟨s', hs', sh'⟩ | ⟨-, he⟩
    · exact .inl ⟨7, s', h3.trans hs', sh'⟩
    · exact .inr (.of_steps h3 he.exhausts)
  · exact .inr ⟨0, s, .refl s, .inl hr⟩

end Heap

/-! ## Frames -/

/-- `hops` access links lead from the frame at `fp` to the frame at `fp'`. -/
inductive Chain (size : Nat) (σ : List Word) : Int → Nat → Int → Prop where
  | here (fp : Int) : Chain size σ fp 0 fp
  | up {fp fp' : Int} {link : Word} {hops : Nat} :
    Slot size σ fp link → Chain size σ link.val hops fp' → Chain size σ fp (hops + 1) fp'

section Frames
variable {code : Code} {size ip : Nat} {fp ra tm v w : Word} {σ heap out : List Word}

/-- What access links lead to is a word. -/
theorem Chain.exists_val {hops : Nat} {a : Word} {fp' : Int} (h : Chain size σ a.val hops fp') :
    ∃ b : Word, b.val = fp' := by
  induction hops generalizing a with
  | zero =>
    cases h
    exact ⟨a, rfl⟩
  | succ hops ih =>
    cases h with
    | up _ hrest => exact ih hrest

theorem Goes.followChain {hops : Nat} {a b : Word} {fp' : Int}
    (hc : code.At ip (List.replicate hops .loadWord)) (h : Chain size σ a.val hops fp') (hb : b.val = fp') :
    Goes code size ⟨ip, fp, ra, tm, a :: σ, heap, out⟩ ⟨ip + hops, fp, ra, tm, b :: σ, heap, out⟩ := by
  induction hops generalizing ip a with
  | zero =>
    cases h
    rw [Word.ext hb]
    exact .refl _
  | succ hops ih =>
    rw [List.replicate_succ, Code.at_cons] at hc
    cases h with
    | up hslot hrest =>
      refine (Moves.loadWord hc.1 (.inl hslot)).trans ?_
      rw [Nat.add_comm hops 1, ← Nat.add_assoc]
      exact ih hc.2 hrest

theorem Goes.frameAt {hops : Nat} {b : Word} (hc : code.At ip (Code.frameAt hops))
    (h : Chain size σ fp.val hops b.val) :
    Goes code size ⟨ip, fp, ra, tm, σ, heap, out⟩
      ⟨ip + (Code.frameAt hops).length, fp, ra, tm, b :: σ, heap, out⟩ := by
  rw [Code.frameAt, Code.at_cons] at hc
  refine (Moves.loadFp hc.1).trans ?_
  rw [Code.frameAt, List.length_cons, List.length_replicate, Nat.add_comm hops 1, ← Nat.add_assoc]
  exact Goes.followChain hc.2 h rfl

theorem Goes.loadAt {offset : Int} (hsize : (size : Int) < 9223372036854775808)
    (hc : code.At ip (Code.loadAt offset)) (hv : 0 ≤ v.val) (h : Holds size σ heap (v.val + offset) w) :
    Goes code size ⟨ip, fp, ra, tm, v :: σ, heap, out⟩ ⟨ip + 3, fp, ra, tm, w :: σ, heap, out⟩ := by
  obtain ⟨h0, h1, h2, -⟩ : code[ip]? = some (.push (.ofInt offset)) ∧ code[ip + 1]? = some (.arith .add) ∧
      code[ip + 1 + 1]? = some .loadWord ∧ code.At (ip + 1 + 1 + 1) [] := by
    simpa only [Code.loadAt, Code.at_cons] using hc
  intro s hs
  -- the address is inside the memory, so the offset is a word
  have hrange : 0 ≤ v.val + offset ∧ v.val + offset < size := by
    obtain ⟨lower, upper, -⟩ := hs.memory (h.append [v])
    exact ⟨lower, upper⟩
  have hupper := v.upper
  have hsum : Arith.add.apply v (.ofInt offset) = .ok (.ofInt (v.val + offset)) :=
    apply_add (by rw [Word.val_ofInt (by omega) (by omega)]) (by omega) (by omega)
  refine (Moves.push h0).trans ((Moves.arith h1 (by simp) hsum).trans (Moves.loadWord h2 ?_).goes) s hs
  rw [Word.val_ofInt (by omega) (by omega)]
  exact h

theorem Goes.duplicate (hc : code.At ip Code.duplicate) :
    Goes code size ⟨ip, fp, ra, tm, w :: σ, heap, out⟩ ⟨ip + 3, fp, ra, w, w :: w :: σ, heap, out⟩ := by
  obtain ⟨h0, h1, h2, -⟩ : code[ip]? = some (.store .tm) ∧ code[ip + 1]? = some (.load .tm) ∧
      code[ip + 1 + 1]? = some (.load .tm) ∧ code.At (ip + 1 + 1 + 1) [] := by
    simpa only [Code.duplicate, Code.at_cons] using hc
  exact (Moves.storeTm h0).trans ((Moves.loadTm h1).trans (Moves.loadTm h2).goes)

theorem Goes.pops {τ : List Word} (hc : code.At ip (Code.pops τ.length)) :
    Goes code size ⟨ip, fp, ra, tm, τ ++ σ, heap, out⟩ ⟨ip + τ.length, fp, ra, tm, σ, heap, out⟩ := by
  induction τ generalizing ip with
  | nil => exact .refl _
  | cons w τ ih =>
    rw [List.length_cons, Code.pops, List.replicate_succ, Code.at_cons] at hc
    refine (Moves.pop hc.1).trans ?_
    rw [List.length_cons, Nat.add_comm τ.length 1, ← Nat.add_assoc]
    exact ih hc.2

/-- The frame pointer of a function is the address of its access link. -/
theorem Goes.enterFrame {l : Label} (hc : code.At ip (Code.enterFrame l)) :
    Moves code size ⟨ip, fp, ra, tm, σ, heap, out⟩ ⟨ip + 1, fp, ra, tm, σ, heap, out⟩ ∧
      Goes code size ⟨ip + 1, fp, ra, tm, σ, heap, out⟩
        ⟨ip + 3, .ofInt (size - σ.length : Int), ra, tm, ra :: σ, heap, out⟩ := by
  obtain ⟨h0, h1, h2, -⟩ : code[ip]? = some (.define l) ∧ code[ip + 1]? = some .copyFp ∧
      code[ip + 1 + 1]? = some (.load .ra) ∧ code.At (ip + 1 + 1 + 1) [] := by
    simpa only [Code.enterFrame, Code.at_cons] using hc
  exact ⟨Moves.define h0, (Moves.copyFp h1).trans (Moves.loadRa h2).goes⟩

/-- Returns the top of the stack from a frame with the given words below it: locals, return address, access
link, parameters and the caller's frame pointer. -/
theorem Goes.leaveFrame {locals params : List Word} {ret link control : Word} {target : Nat}
    (hc : code.At ip (Code.leaveFrame locals.length params.length)) (hret : ret.val = target) :
    Goes code size ⟨ip, fp, ra, tm, w :: (locals ++ ret :: link :: (params ++ control :: σ)), heap, out⟩
      ⟨target, control, .ofInt (ip + (Code.leaveFrame locals.length params.length).length : Nat), w,
        w :: σ, heap, out⟩ := by
  simp only [Code.leaveFrame, List.append_assoc, List.cons_append, List.nil_append, Code.at_cons,
    Code.at_append, Code.pops, List.length_replicate] at hc
  obtain ⟨h0, hlocals, h1, h2, hparams, h3, h4, h5, h6, -⟩ := hc
  refine (Moves.storeTm h0).trans ((Goes.pops hlocals).trans ((Moves.storeRa h1).trans ((Moves.pop h2).trans
    ((Goes.pops hparams).trans ((Moves.storeFp h3).trans
      ((Moves.loadTm h4).trans ((Moves.loadRa h5).trans ?_)))))))
  have hip : ip + (Code.leaveFrame locals.length params.length).length =
      ip + 1 + locals.length + 1 + 1 + params.length + 1 + 1 + 1 + 1 := by
    simp only [Code.leaveFrame, Code.pops, List.length_append, List.length_replicate, List.length_cons,
      List.length_nil]
    omega
  rw [hip]
  exact (Moves.jumpSubroutine h6 hret).goes

end Frames

end Classlet.Machine

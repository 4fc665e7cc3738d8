import Classlet.Proofs.Jumps
import Classlet.Proofs.Simulation
/-!
# Heights of the stack

Instructions are weighed by the words they take off the stack and put on it, where the call of a function
with `n` arguments takes the target, the access link, the arguments and the control link and puts the
result. Along every path through the code of an expression the stack ends one word higher, wherever two
paths meet they agree on its height, and no path takes a word that was there before (`Expr.code_pushesOne`).
-/

namespace Classlet

/-! ## Weights -/

namespace Instruction

/-- The words that an instruction takes off the stack. -/
def pops : Instruction → Nat
  | push _ | pushLabel _ | load _ | branch _ | copyFp | halt | define _ => 0
  | pop | loadWord | store _ | print | jumpSubroutine => 1
  | arith _ | storeWord | branchEqual _ | branchLessEqual _ => 2

/-- The words that an instruction puts on the stack. -/
def pushes : Instruction → Nat
  | push _ | pushLabel _ | load _ | arith _ | loadWord | print => 1
  | _ => 0

/-- Where an instruction may go other than to the next one. -/
def jump? : Instruction → Option Label
  | branch l | branchEqual l | branchLessEqual l => some l
  | _ => none

/-- Whether the next instruction may follow. -/
def continues : Instruction → Bool
  | branch _ | halt => false
  | _ => true

/-- Neither a label nor a jump nor the end. -/
def isPlain : Instruction → Bool
  | branch _ | branchEqual _ | branchLessEqual _ | jumpSubroutine | halt | define _ => false
  | _ => true

theorem target?_of_jump? {i : Instruction} {l : Label} (h : i.jump? = some l) : i.target? = some l := by
  cases i <;> first | exact h | cases h

end Instruction

namespace Code

/-- The words that each instruction takes and puts. The numbers of arguments of the calls are given in the
order of the calls; a jump to a subroutine beyond those only takes its target. -/
def weights : List Nat → Code → List (Nat × Nat)
  | _, [] => []
  | n :: calls, .jumpSubroutine :: c => (n + 3, 1) :: weights calls c
  | calls, i :: c => (i.pops, i.pushes) :: weights calls c

/-- A path through code from its start to the instruction at `i` that has changed the height of the stack by
`w`. -/
inductive Path (calls : List Nat) (code : Code) : Nat → Int → Prop
  | start : Path calls code 0 0
  | next {i a b : Nat} {w : Int} {instruction : Instruction} : Path calls code i w →
      code[i]? = some instruction →
    instruction.continues = true → (weights calls code)[i]? = some (a, b) →
    Path calls code (i + 1) (w - a + b)
  | jump {i j a b : Nat} {w : Int} {instruction : Instruction} {l : Label} : Path calls code i w →
      code[i]? = some instruction →
    instruction.jump? = some l → code[j]? = some (.define l) → (weights calls code)[i]? = some (a, b) →
    Path calls code j (w - a + b)

/-- Whatever path is taken, the code leaves one word more, and takes only words that it has put there
itself. -/
structure PushesOne (calls : List Nat) (code : Code) : Prop where
  passes : ∃ w, Path calls code code.length w
  ends (w : Int) : Path calls code code.length w → w = 1
  agree (i : Nat) (w w' : Int) : Path calls code i w → Path calls code i w' → w = w'
  above (i a b : Nat) (w : Int) : Path calls code i w → (weights calls code)[i]? = some (a, b) →
    (a : Int) ≤ w

end Code

/-! ## Assigning heights -/

/-- Code that takes the stack from one height to another, where the labels have the heights `H`. Where no
instruction before leads to, there is no height. -/
inductive Code.Rises (H : Nat → Nat) : Code → List Nat → Option Nat → Option Nat → Prop
  | nil {s : Option Nat} : Rises H [] [] s s
  | plain {i : Instruction} {c : Code} {calls : List Nat} {h : Nat} {s : Option Nat} : i.isPlain = true →
    Rises H c calls (some (h + i.pushes)) s → Rises H (i :: c) calls (some (h + i.pops)) s
  | call {n h : Nat} {c : Code} {calls : List Nat} {s : Option Nat} :
    Rises H c calls (some (h + 1)) s → Rises H (.jumpSubroutine :: c) (n :: calls) (some (h + (n + 3))) s
  | branch {l h : Nat} {c : Code} {calls : List Nat} {s : Option Nat} : H l = h →
    Rises H c calls none s → Rises H (.branch (.branch l) :: c) calls (some h) s
  | branchEqual {l h : Nat} {c : Code} {calls : List Nat} {s : Option Nat} : H l = h →
    Rises H c calls (some h) s → Rises H (.branchEqual (.branch l) :: c) calls (some (h + 2)) s
  | branchLessEqual {l h : Nat} {c : Code} {calls : List Nat} {s : Option Nat} : H l = h →
    Rises H c calls (some h) s → Rises H (.branchLessEqual (.branch l) :: c) calls (some (h + 2)) s
  | define {l h : Nat} {c : Code} {calls : List Nat} {s s' : Option Nat} : H l = h → (∀ k ∈ s, k = h) →
    Rises H c calls (some h) s' → Rises H (.define (.branch l) :: c) calls s s'

theorem Code.Rises.append {H : Nat → Nat} {a b : Code} {calls calls' : List Nat} {s s' s'' : Option Nat}
    (ha : Rises H a calls s s') (hb : Rises H b calls' s' s'') :
    Rises H (a ++ b) (calls ++ calls') s s'' := by
  induction ha with
  | nil => exact hb
  | plain hi _ ih => exact .plain hi (ih hb)
  | call _ ih => exact .call (ih hb)
  | branch hl _ ih => exact .branch hl (ih hb)
  | branchEqual hl _ ih => exact .branchEqual hl (ih hb)
  | branchLessEqual hl _ ih => exact .branchLessEqual hl (ih hb)
  | define hl hs _ ih => exact .define hl hs (ih hb)

/-! ## Paths follow the heights -/

namespace Code

theorem weights_cons {i : Instruction} (h : i ≠ .jumpSubroutine) (calls : List Nat) (c : Code) :
    weights calls (i :: c) = (i.pops, i.pushes) :: weights calls c := by
  cases i with
  | jumpSubroutine => exact absurd rfl h
  | _ => cases calls <;> rfl

theorem length_weights (calls : List Nat) (c : Code) : (weights calls c).length = c.length := by
  induction c generalizing calls with
  | nil => cases calls <;> rfl
  | cons i c ih =>
    by_cases hi : i = .jumpSubroutine
    · subst hi
      cases calls with
      | nil => exact congrArg (· + 1) (ih [])
      | cons n calls => exact congrArg (· + 1) (ih calls)
    · rw [weights_cons hi, List.length_cons, List.length_cons, ih]

/-- A height `K i` before each instruction, which the instructions, the labels and both ends agree with. -/
structure Assigns (H : Nat → Nat) (code : Code) (calls : List Nat) (s s' : Option Nat)
    (K : Nat → Nat) : Prop where
  first : ∀ h ∈ s, K 0 = h
  last : ∀ h ∈ s', K code.length = h
  label (i l : Nat) : code[i]? = some (.define (.branch l)) → K i = H l
  step (i a b : Nat) (instruction : Instruction) : code[i]? = some instruction →
    (weights calls code)[i]? = some (a, b) →
    a ≤ K i ∧ (instruction.continues = true → K (i + 1) + a = K i + b) ∧
      ∀ l, instruction.jump? = some l → ∃ n, l = .branch n ∧ H n + a = K i + b

section Assigns
variable {H : Nat → Nat} {c code : Code} {calls calls' : List Nat} {s s' : Option Nat} {K : Nat → Nat}

/-- The heights of code with one more instruction before it, which starts at the height `h`. -/
def precede (h : Nat) (K : Nat → Nat) : Nat → Nat
  | 0 => h
  | i + 1 => K i

theorem Assigns.cons {i : Instruction} {h a b : Nat} {s₀ : Option Nat} (hK : Assigns H c calls' s s' K)
    (hw : weights calls (i :: c) = (a, b) :: weights calls' c) (hfirst : ∀ h' ∈ s₀, h' = h) (ha : a ≤ h)
    (hlabel : ∀ l, i = .define (.branch l) → h = H l) (hnext : i.continues = true → K 0 + a = h + b)
    (hjump : ∀ l, i.jump? = some l → ∃ n, l = .branch n ∧ H n + a = h + b) :
    Assigns H (i :: c) calls s₀ s' (precede h K) where
  first h' hh' := (hfirst h' hh').symm
  last := hK.last
  label j l hj := by
    cases j with
    | zero => exact hlabel l (Option.some.inj hj)
    | succ j => exact hK.label j l (by simpa using hj)
  step j a' b' instruction hj hwj := by
    rw [hw] at hwj
    cases j with
    | zero =>
      obtain rfl := Option.some.inj hj
      obtain ⟨rfl, rfl⟩ := Prod.mk.inj (Option.some.inj hwj)
      exact ⟨ha, hnext, hjump⟩
    | succ j => exact hK.step j a' b' instruction (by simpa using hj) (by simpa using hwj)

/-- Code that branches to a label if a test of two words succeeds. -/
theorem Assigns.test {i : Instruction} {l h : Nat} (hK : Assigns H c calls (some h) s' K)
    (hi : i = .branchEqual (.branch l) ∨ i = .branchLessEqual (.branch l)) (hl : H l = h) :
    ∃ K, Assigns H (i :: c) calls (some (h + 2)) s' K := by
  have hfirst : K 0 = h := hK.first h rfl
  refine ⟨precede (h + 2) K, ?_⟩
  rcases hi with rfl | rfl
  all_goals
    refine hK.cons (weights_cons (by simp) calls c) (fun k hk => (Option.some.inj hk).symm)
      (Nat.le_add_left _ _) (by simp)
      (fun _ => by rw [hfirst]; rfl) fun l' hl' => ⟨l, (Option.some.inj hl').symm, by rw [hl]; rfl⟩

theorem Rises.exists_assigns (h : Rises H c calls s s') : ∃ K, Assigns H c calls s s' K := by
  induction h with
  | @nil s =>
    exact ⟨fun _ => s.getD 0, fun k hk => by rw [hk]; rfl, fun k hk => by rw [hk]; rfl,
      fun i l hi => (nomatch hi), fun i a b instruction hi => (nomatch hi)⟩
  | @plain i c calls k s hi _ ih =>
    obtain ⟨K, hK⟩ := ih
    have hne : i ≠ .jumpSubroutine := by
      rintro rfl
      cases hi
    refine ⟨_, hK.cons (weights_cons hne calls c) (fun k' hk' => (Option.some.inj hk').symm)
      (Nat.le_add_left _ _) ?_ ?_ ?_⟩
    · rintro l rfl
      cases hi
    · intro _
      rw [hK.first _ rfl, Nat.add_right_comm]
    · intro l hl
      cases i <;> simp [Instruction.isPlain, Instruction.jump?] at hi hl
  | @call n k c calls s _ ih =>
    obtain ⟨K, hK⟩ := ih
    refine ⟨_, hK.cons rfl (fun k' hk' => (Option.some.inj hk').symm) (Nat.le_add_left _ _) (by simp) ?_
      (by simp [Instruction.jump?])⟩
    intro _
    rw [hK.first _ rfl, Nat.add_right_comm]
  | @branch l k c calls s hl _ ih =>
    obtain ⟨K, hK⟩ := ih
    refine ⟨_, hK.cons (weights_cons (by simp) calls c) (fun k' hk' => (Option.some.inj hk').symm)
      (Nat.zero_le _) (by simp)
      (by simp [Instruction.continues]) fun l' hl' => ⟨l, (Option.some.inj hl').symm, by rw [hl]; rfl⟩⟩
  | branchEqual hl _ ih =>
    obtain ⟨K, hK⟩ := ih
    exact hK.test (.inl rfl) hl
  | branchLessEqual hl _ ih =>
    obtain ⟨K, hK⟩ := ih
    exact hK.test (.inr rfl) hl
  | @define l k c calls s s' hl hsame _ ih =>
    obtain ⟨K, hK⟩ := ih
    refine ⟨_, hK.cons (weights_cons (by simp) calls c) hsame (Nat.zero_le _) ?_ (fun _ => hK.first _ rfl)
      (by simp [Instruction.jump?])⟩
    intro l' hl'
    rw [← Label.branch.inj (Instruction.define.inj hl'), hl]

theorem Path.height {i : Nat} {w : Int} (hK : Assigns H code calls s s' K) (h : Path calls code i w) :
    (K i : Int) = K 0 + w := by
  induction h with
  | start => exact (Int.add_zero _).symm
  | next _ hi hcontinues hw ih =>
    have hnext := (hK.step _ _ _ _ hi hw).2.1 hcontinues
    omega
  | jump _ hi hjump hj hw ih =>
    obtain ⟨n, rfl, hn⟩ := (hK.step _ _ _ _ hi hw).2.2 _ hjump
    have hlabel := hK.label _ _ hj
    omega

/-- The code does not end in the middle. -/
theorem Rises.continues (h : Rises H c calls s s') :
    ∀ i ∈ c, i.continues = true ∨ ∃ l, i = .branch (.branch l) := by
  induction h with
  | nil => exact List.forall_mem_nil _
  | @plain i c _ _ _ hi _ ih =>
    refine List.forall_mem_cons.2 ⟨.inl ?_, ih⟩
    cases i <;> first | rfl | cases hi
  | call _ ih | branchEqual _ _ ih | branchLessEqual _ _ ih | define _ _ _ ih =>
    exact List.forall_mem_cons.2 ⟨.inl rfl, ih⟩
  | @branch l => exact List.forall_mem_cons.2 ⟨.inr ⟨l, rfl⟩, ‹_›⟩

/-- Each instruction leads further on, so there is a path to the end. -/
theorem Path.exists_end (hc : ∀ i ∈ code, i.continues = true ∨ ∃ l, i = .branch (.branch l))
    (hf : Forward [] code) {i : Nat} {w : Int} (h : Path calls code i w) (hi : i ≤ code.length) :
    ∃ w', Path calls code code.length w' := by
  -- by induction on what is left of the code, since branches only go forward
  obtain ⟨n, hn⟩ : ∃ n, n = code.length - i := ⟨_, rfl⟩
  induction n using Nat.strongRecOn generalizing i w with
  | _ n ih =>
    rcases Nat.lt_or_eq_of_le hi with hlt | rfl
    · have hget : code[i]? = some code[i] := List.getElem?_eq_getElem hlt
      have hlt' : i < (weights calls code).length := by rwa [length_weights]
      have hweight : (weights calls code)[i]? = some (weights calls code)[i] :=
        List.getElem?_eq_getElem hlt'
      rcases hc code[i] (List.getElem_mem hlt) with hnext | ⟨l, hl⟩
      · exact ih _ (by omega) (.next h hget hnext hweight) hlt rfl
      · obtain ⟨j, hij, hj⟩ := hf.exists_define hget (n := l) (by rw [hl]; rfl)
        have hjlt := (List.getElem?_eq_some_iff.1 hj).1
        exact ih _ (by omega) (.jump h hget (by rw [hl]; rfl) hj hweight) (Nat.le_of_lt hjlt) rfl
    · exact ⟨w, h⟩

theorem Rises.pushesOne (h : Rises H code calls (some 0) (some 1)) (hf : Forward [] code) :
    PushesOne calls code := by
  obtain ⟨K, hK⟩ := h.exists_assigns
  have hfirst : K 0 = 0 := hK.first 0 rfl
  refine ⟨Path.exists_end h.continues hf .start (Nat.zero_le _), fun w hw => ?_, fun i w w' hw hw' => ?_,
    fun i a b w hw hweight => ?_⟩
  · have hheight := hw.height hK
    have hlast : K code.length = 1 := hK.last 1 rfl
    omega
  · have hheight := hw.height hK
    have hheight' := hw'.height hK
    omega
  · have hheight := hw.height hK
    have hi : i < code.length := length_weights calls code ▸ (List.getElem?_eq_some_iff.1 hweight).1
    have htaken := (hK.step i a b code[i] (List.getElem?_eq_getElem hi) hweight).1
    omega

end Assigns

end Code

/-! ## Straight code -/

namespace Code

/-- The height after code without labels and jumps that starts with `k` words, if it never takes more than
there are. -/
def rise : Code → Nat → Option Nat
  | [], k => some k
  | i :: c, k => if i.isPlain = true ∧ i.pops ≤ k then rise c (k - i.pops + i.pushes) else none

section Straight
variable {H : Nat → Nat} {c : Code} {k k' : Nat}

theorem Rises.of_rise (hc : c.rise k = some k') (h : Nat) :
    Rises H c [] (some (h + k)) (some (h + k')) := by
  induction c generalizing k with
  | nil =>
    obtain rfl := Option.some.inj hc
    exact .nil
  | cons i c ih =>
    rw [rise] at hc
    split at hc
    · next hi =>
      have hrest := ih hc
      rw [← Nat.add_assoc] at hrest
      rw [← Nat.sub_add_cancel hi.2, ← Nat.add_assoc]
      exact .plain hi.1 hrest
    · cases hc

theorem rise_append (a b : Code) (k : Nat) : (a ++ b).rise k = (a.rise k).bind b.rise := by
  induction a generalizing k with
  | nil => rfl
  | cons i a ih =>
    rw [List.cons_append, rise, rise]
    split
    · exact ih _
    · rfl

theorem rise_links (hops k : Nat) : rise (List.replicate hops .loadWord) (k + 1) = some (k + 1) := by
  induction hops with
  | zero => rfl
  | succ hops ih =>
    rw [List.replicate_succ, rise, if_pos ⟨rfl, Nat.le_add_left 1 k⟩]
    exact ih

theorem rise_frameAt (hops k : Nat) : (frameAt hops).rise k = some (k + 1) := by
  rw [frameAt, rise, if_pos ⟨rfl, Nat.zero_le k⟩]
  exact rise_links hops k

theorem rise_loadAt (offset : Int) (k : Nat) : (loadAt offset).rise (k + 1) = some (k + 1) := rfl

theorem rise_duplicate (k : Nat) : duplicate.rise (k + 1) = some (k + 2) := rfl

theorem rise_bumpHeap (k : Nat) : bumpHeap.rise k = some k := rfl

theorem rise_storeOnHeap (k : Nat) : storeOnHeap.rise (k + 1) = some k := by
  rw [storeOnHeap, rise_append]
  exact rise_bumpHeap k

theorem rise_stores (count k : Nat) :
    rise (List.replicate count storeOnHeap).flatten (k + count) = some k := by
  induction count with
  | zero => rfl
  | succ count ih =>
    rw [List.replicate_succ, List.flatten_cons, rise_append, ← Nat.add_assoc, rise_storeOnHeap]
    exact ih

end Straight

end Code

/-! ## Composed code -/

/-- The same heights for the labels from `n` up to `n'`. -/
def Agree (n n' : Nat) (H H' : Nat → Nat) : Prop := ∀ l, n ≤ l → l < n' → H l = H' l

namespace Agree
variable {n m n' : Nat} {H H₁ H₂ : Nat → Nat}

/-- The heights `H₁` below `m` and `H₂` from `m` on. -/
def join (m : Nat) (H₁ H₂ : Nat → Nat) (l : Nat) : Nat := if l < m then H₁ l else H₂ l

theorem left (h : Agree n n' H (join m H₁ H₂)) (hm : m ≤ n') : Agree n m H H₁ := by
  intro l hl hl'
  rw [h l hl (Nat.lt_of_lt_of_le hl' hm), join, if_pos hl']

theorem right (h : Agree n n' H (join m H₁ H₂)) (hm : n ≤ m) : Agree m n' H H₂ := by
  intro l hl hl'
  rw [h l (Nat.le_trans hm hl) hl', join, if_neg (Nat.not_lt.2 hl)]

/-- The heights of two labels of one expression: one where it starts and one where it ends. -/
def own (n h l : Nat) : Nat := if l = n then h else h + 1

theorem ends {h : Nat} (ha : Agree n (n + 2) H (own n h)) : H n = h ∧ H (n + 1) = h + 1 := by
  refine ⟨(ha n (Nat.le_refl n) (by omega)).trans (if_pos rfl),
    (ha (n + 1) (by omega) (by omega)).trans (if_neg (by omega))⟩

end Agree

/-- Code with the labels from `n` up to `n'` that leaves the stack `k` words higher, from whatever height it
starts. -/
structure Code.Grows (n n' : Nat) (calls : List Nat) (k : Nat) (c : Code) : Prop where
  le : n ≤ n'
  rises (h : Nat) : ∃ H₀, ∀ H, Agree n n' H H₀ → Rises H c calls (some h) (some (h + k))

namespace Code.Grows
variable {n m n' k k' : Nat} {calls calls' : List Nat} {a b : Code}

theorem of_rise (h : a.rise 0 = some k) : Grows n n [] k a :=
  ⟨Nat.le_refl n, fun h₀ => ⟨fun _ => 0, fun _ _ => .of_rise h h₀⟩⟩

theorem append (ha : Grows n m calls k a) (hb : Grows m n' calls' k' b) :
    Grows n n' (calls ++ calls') (k + k') (a ++ b) := by
  refine ⟨Nat.le_trans ha.le hb.le, fun h => ?_⟩
  obtain ⟨H₁, h₁⟩ := ha.rises h
  obtain ⟨H₂, h₂⟩ := hb.rises (h + k)
  refine ⟨Agree.join m H₁ H₂, fun H hH => ?_⟩
  rw [← Nat.add_assoc]
  exact (h₁ H (hH.left hb.le)).append (h₂ H (hH.right ha.le))

/-- Straight code at the end. -/
theorem thenStraight (ha : Grows n n' calls k a) (hb : b.rise k = some k') :
    Grows n n' calls k' (a ++ b) := by
  refine ⟨ha.le, fun h => ?_⟩
  obtain ⟨H₀, h₀⟩ := ha.rises h
  refine ⟨H₀, fun H hH => ?_⟩
  have hrises := (h₀ H hH).append (Rises.of_rise (H := H) hb h)
  rwa [List.append_nil] at hrises

/-- A call with `count` arguments, after everything it needs is on the stack. -/
theorem thenCall {count : Nat} (ha : Grows n n' calls (count + 3) a) :
    Grows n n' (calls ++ [count]) 1 (a ++ [.jumpSubroutine]) := by
  refine ⟨ha.le, fun h => ?_⟩
  obtain ⟨H₀, h₀⟩ := ha.rises h
  exact ⟨H₀, fun H hH => (h₀ H hH).append (.call .nil)⟩

theorem call {count : Nat} (ha : Grows n n' calls count a) (r : Resolution) :
    Grows n n' (calls ++ [count]) 1 (call a r) := by
  have hlink : Grows n n [] 1 [.load .fp] := of_rise rfl
  have hargs := hlink.append ha
  rw [List.nil_append, Nat.add_comm] at hargs
  have hframe := hargs.thenStraight (rise_frameAt r.hops _)
  have htwice := hframe.thenStraight (rise_duplicate _)
  -- a sibling method is found through the dispatch pointer, one load further on
  have htarget : Grows n n' calls (count + 3) ([.load .fp] ++ a ++ frameAt r.hops ++ duplicate ++
      if r.entry.type.isMethod then [.loadWord] else []) := by
    refine htwice.thenStraight ?_
    split
    · exact rise_links 1 (count + 2)
    · rfl
  exact (htarget.thenStraight (rise_loadAt r.entry.offset (count + 2))).thenCall

theorem callMethod {count : Nat} (ha : Grows n n' calls count a) (r : Resolution) (method : Entry) :
    Grows n n' (calls ++ [count]) 1 (callMethod a r method) := by
  have hlink : Grows n n [] 1 [.load .fp] := of_rise rfl
  have hargs := hlink.append ha
  rw [List.nil_append, Nat.add_comm] at hargs
  have hobject := (hargs.thenStraight (rise_frameAt r.hops _)).thenStraight (rise_loadAt r.entry.offset _)
  have htable := (hobject.thenStraight (rise_duplicate _)).thenStraight (b := [.loadWord])
    (rise_links 1 (count + 2))
  exact (htable.thenStraight (rise_loadAt method.offset (count + 2))).thenCall

theorem construct {count : Nat} (ha : Grows n n' calls count a) (table : Word) :
    Grows n n' calls 1 (construct a count table) := by
  have hstores : rise (List.replicate count storeOnHeap).flatten count = some 0 := by
    have hrise := rise_stores count 0
    rwa [Nat.zero_add] at hrise
  have hpointer : rise [.push table, .loadWord, .load .hp, .storeWord, .load .hp] 0 = some 1 := rfl
  exact ((ha.thenStraight hstores).thenStraight hpointer).thenStraight (rise_bumpHeap 1)

end Code.Grows

/-! ## Branches -/

namespace Code
variable {H : Nat → Nat} {l l' h : Nat}

/-- Both values are pushed at the same height. -/
theorem Rises.select (hl : H l = h) (hl' : H l' = h + 1) (x y : Bool) :
    Rises H (select (.branch l) (.branch l') x y) [] (some h) (some (h + 1)) := by
  refine .plain (h := h) rfl (.branch hl'
    (.define hl (fun k hk => (nomatch hk)) (.plain (h := h) rfl (.define hl' ?_ .nil))))
  intro k hk
  exact (Option.some.inj hk).symm

/-- A value is compared with another one and both are taken. -/
theorem Rises.test (hl : H l = h) (b : Bool) :
    Rises H [pushBool b, .branchEqual (.branch l)] [] (some (h + 1)) (some h) :=
  .plain (h := h + 1) rfl (.branchEqual hl .nil)

namespace Grows
variable {n m m' n' : Nat} {calls calls' calls'' : List Nat} {a b c : Code}

theorem conditional (hc : Grows (n + 2) m calls 1 c) (hb : Grows m m' calls' 1 b)
    (ha : Grows m' n' calls'' 1 a) :
    Grows n n' (calls ++ calls' ++ calls'') 1 (conditional c a b n) := by
  have hle := hc.le
  have hle' := hb.le
  have hle'' := ha.le
  refine ⟨by omega, fun h => ?_⟩
  obtain ⟨H₁, h₁⟩ := hc.rises h
  obtain ⟨H₂, h₂⟩ := hb.rises h
  obtain ⟨H₃, h₃⟩ := ha.rises h
  refine ⟨Agree.join (n + 2) (Agree.own n h) (Agree.join m H₁ (Agree.join m' H₂ H₃)), fun H hH => ?_⟩
  obtain ⟨hn, hn'⟩ := (hH.left (by omega)).ends
  have hrest := hH.right (by omega)
  have hcond := h₁ H (hrest.left (by omega))
  have helse := h₂ H ((hrest.right hle).left hle'')
  have hthen := h₃ H ((hrest.right hle).right hle')
  -- the else branch jumps over the then branch, which starts where the condition ended
  have hjump : Rises H [.branch (.branch (n + 1)), .define (.branch n)] [] (some (h + 1)) (some h) :=
    .branch hn' (.define hn (fun k hk => (nomatch hk)) .nil)
  have hend : Rises H [.define (.branch (n + 1))] [] (some (h + 1)) (some (h + 1)) :=
    .define hn' (fun k hk => (Option.some.inj hk).symm) .nil
  have hall := ((((hcond.append (Rises.test hn true)).append helse).append hjump).append hthen).append hend
  simp only [List.append_nil] at hall
  exact hall

theorem negation (ha : Grows (n + 2) n' calls 1 a) : Grows n n' calls 1 (negation a n) := by
  have hle := ha.le
  refine ⟨by omega, fun h => ?_⟩
  obtain ⟨H₁, h₁⟩ := ha.rises h
  refine ⟨Agree.join (n + 2) (Agree.own n h) H₁, fun H hH => ?_⟩
  obtain ⟨hn, hn'⟩ := (hH.left hle).ends
  have hall := ((h₁ H (hH.right (by omega))).append (Rises.test hn false)).append
    (Rises.select hn hn' false true)
  simp only [List.append_nil] at hall
  exact hall

/-- Both operands are compared, and then one of two values is pushed. -/
theorem compare (ha : Grows n m calls 1 a) (hb : Grows (m + 2) n' calls' 1 b)
    (hc : ∀ (H : Nat → Nat) (h : Nat), H m = h → Rises H c [] (some (h + 2)) (some h)) (x y : Bool) :
    Grows n n' (calls ++ calls') 1 (a ++ b ++ c ++ select (.branch m) (.branch (m + 1)) x y) := by
  have hle := ha.le
  have hle' := hb.le
  refine ⟨by omega, fun h => ?_⟩
  obtain ⟨H₁, h₁⟩ := ha.rises h
  obtain ⟨H₂, h₂⟩ := hb.rises (h + 1)
  refine ⟨Agree.join m H₁ (Agree.join (m + 2) (Agree.own m h) H₂), fun H hH => ?_⟩
  have hrest := hH.right hle
  obtain ⟨hm, hm'⟩ := (hrest.left hle').ends
  have hall :=
    (((h₁ H (hH.left (by omega))).append (h₂ H (hrest.right (by omega)))).append (hc H h hm)).append
      (Rises.select hm hm' x y)
  simp only [List.append_nil] at hall
  exact hall

/-- The second operand is passed over if the first one decides. -/
theorem logic (ha : Grows n m calls 1 a) (hb : Grows (m + 2) n' calls' 1 b) (x y z : Bool) :
    Grows n n' (calls ++ calls') 1 (a ++ [pushBool x, .branchEqual (.branch m)] ++ b ++
      [pushBool x, .branchEqual (.branch m)] ++ select (.branch m) (.branch (m + 1)) y z) := by
  have hle := ha.le
  have hle' := hb.le
  refine ⟨by omega, fun h => ?_⟩
  obtain ⟨H₁, h₁⟩ := ha.rises h
  obtain ⟨H₂, h₂⟩ := hb.rises h
  refine ⟨Agree.join m H₁ (Agree.join (m + 2) (Agree.own m h) H₂), fun H hH => ?_⟩
  have hrest := hH.right hle
  obtain ⟨hm, hm'⟩ := (hrest.left hle').ends
  -- both tests go to the same label, one of them from before the second operand
  have hfirst := (h₁ H (hH.left (by omega))).append (Rises.test hm x)
  have hsecond := (h₂ H (hrest.right (by omega))).append (Rises.test hm x)
  have hall := (hfirst.append hsecond).append (Rises.select hm hm' y z)
  simp only [List.append_nil, ← List.append_assoc] at hall
  exact hall

end Grows

end Code

open Code in
theorem BinaryOp.code_grows (op : BinaryOp) {n m n' : Nat} {calls calls' : List Nat} {left right : Code}
    (hl : Grows n m calls 1 left) (hr : Grows (m + op.branches) n' calls' 1 right) :
    Grows n n' (calls ++ calls') 1 (op.code left right m) := by
  cases op with
  | arith op => exact (hl.append hr).thenStraight rfl
  | equal => exact hl.compare hr (fun H h hm => .branchEqual hm .nil) false true
  | lessEqual => exact hl.compare hr (fun H h hm => .branchLessEqual hm .nil) false true
  | greaterEqual =>
    refine hl.compare hr (fun H h hm => ?_) true false
    exact .plain (h := h + 2) rfl (.plain (h := h + 1) rfl (.branchLessEqual hm .nil))
  | logic op => exact hl.logic hr op.decisive (!op.decisive) op.decisive

/-! ## Expressions -/

mutual
/-- The numbers of arguments of the calls in the code of an expression, in their order there. -/
def Expr.arities : Expr → List Nat
  | .int .. | .bool .. | .null _ | .ident .. => []
  | .call _ args _ _ | .methodCall _ _ args _ _ _ => Expr.reversedArities args ++ [args.length]
  | .new _ args _ _ => Expr.listArities args
  | .ite c t e _ => c.arities ++ e.arities ++ t.arities
  | .binary _ l r _ => l.arities ++ r.arities
  | .not e _ | .print e _ => e.arities

def Expr.listArities : List Expr → List Nat
  | [] => []
  | e :: es => e.arities ++ Expr.listArities es

def Expr.reversedArities : List Expr → List Nat
  | [] => []
  | e :: es => Expr.reversedArities es ++ e.arities
end

section Expressions
variable {memory : Word}

open Code in
mutual
theorem Expr.code_grows : ∀ (e : Expr) {n n' : Nat} {c : Code}, e.code memory n = .ok (c, n') →
    Grows n n' e.arities 1 c
  | .int .., _, _, _, h | .bool .., _, _, _, h | .null _, _, _, _, h => by
    obtain ⟨rfl, rfl⟩ := Prod.mk.inj (Except.ok.inj h)
    exact .of_rise rfl
  | .ident name target, _, _, _, h => by
    simp only [Expr.code, bind_eq_ok, required_eq_ok, pure_eq_ok, Prod.mk.injEq] at h
    obtain ⟨r, -, rfl, rfl⟩ := h
    exact (Grows.of_rise (rise_frameAt r.hops 0)).thenStraight (rise_loadAt r.entry.offset 0)
  | .call callee args span target, _, _, _, h => by
    simp only [Expr.code, bind_eq_ok, required_eq_ok, pure_eq_ok, Prod.exists, Prod.mk.injEq] at h
    obtain ⟨r, -, c, m, hargs, rfl, rfl⟩ := h
    exact (Expr.codeReversed_grows args hargs).call r
  | .methodCall object method args span receiver target, _, _, _, h => by
    simp only [Expr.code, bind_eq_ok, required_eq_ok, pure_eq_ok, Prod.exists, Prod.mk.injEq] at h
    obtain ⟨r, -, entry, -, c, m, hargs, rfl, rfl⟩ := h
    exact (Expr.codeReversed_grows args hargs).callMethod r entry
  | .new cls args span target, _, _, _, h => by
    simp only [Expr.code, bind_eq_ok, required_eq_ok, pure_eq_ok, Prod.exists, Prod.mk.injEq] at h
    obtain ⟨entry, -, c, m, hargs, address, -, rfl, rfl⟩ := h
    exact (Expr.codeAll_grows args hargs).construct address
  | .ite c t e span, n, _, _, h => by
    simp only [Expr.code, bind_eq_ok, pure_eq_ok, Prod.exists, Prod.mk.injEq] at h
    obtain ⟨cond, m₁, hc, elseCode, m₂, he, thenCode, m₃, ht, rfl, rfl⟩ := h
    exact (c.code_grows hc).conditional (e.code_grows he) (t.code_grows ht)
  | .binary op l r span, _, _, _, h => by
    simp only [Expr.code, bind_eq_ok, pure_eq_ok, Prod.exists, Prod.mk.injEq] at h
    obtain ⟨left, m₁, hl, right, m₂, hr, rfl, rfl⟩ := h
    exact op.code_grows (l.code_grows hl) (r.code_grows hr)
  | .not e span, n, _, _, h => by
    simp only [Expr.code, bind_eq_ok, pure_eq_ok, Prod.exists, Prod.mk.injEq] at h
    obtain ⟨operand, m, he, rfl, rfl⟩ := h
    exact (e.code_grows he).negation
  | .print e span, _, _, _, h => by
    simp only [Expr.code, bind_eq_ok, pure_eq_ok, Prod.exists, Prod.mk.injEq] at h
    obtain ⟨value, m, he, rfl, rfl⟩ := h
    exact (e.code_grows he).thenStraight rfl

theorem Expr.codeAll_grows : ∀ (es : List Expr) {n n' : Nat} {c : Code}, Expr.codeAll memory es n =
      .ok (c, n') →
    Grows n n' (Expr.listArities es) es.length c
  | [], _, _, _, h => by
    obtain ⟨rfl, rfl⟩ := Prod.mk.inj (Except.ok.inj h)
    exact .of_rise rfl
  | e :: es, _, _, _, h => by
    simp only [Expr.codeAll, bind_eq_ok, pure_eq_ok, Prod.exists, Prod.mk.injEq] at h
    obtain ⟨first, m₁, hfirst, rest, m₂, hrest, rfl, rfl⟩ := h
    rw [List.length_cons, Nat.add_comm]
    exact (e.code_grows hfirst).append (Expr.codeAll_grows es hrest)

theorem Expr.codeReversed_grows :
    ∀ (es : List Expr) {n n' : Nat} {c : Code}, Expr.codeReversed memory es n = .ok (c, n') →
    Grows n n' (Expr.reversedArities es) es.length c
  | [], _, _, _, h => by
    obtain ⟨rfl, rfl⟩ := Prod.mk.inj (Except.ok.inj h)
    exact .of_rise rfl
  | e :: es, _, _, _, h => by
    simp only [Expr.codeReversed, bind_eq_ok, pure_eq_ok, Prod.exists, Prod.mk.injEq] at h
    obtain ⟨rest, m₁, hrest, first, m₂, hfirst, rfl, rfl⟩ := h
    exact (Expr.codeReversed_grows es hrest).append (e.code_grows hfirst)
end

theorem Code.Grows.pushesOne {n n' : Nat} {calls : List Nat} {c : Code} (h : c.Grows n n' calls 1)
    (hf : c.Forward []) :
    c.PushesOne calls := by
  obtain ⟨H₀, h₀⟩ := h.rises 0
  exact (h₀ H₀ fun l _ _ => rfl).pushesOne hf

/-- The code of an expression leaves one word. -/
theorem Expr.code_pushesOne {e : Expr} {n n' : Nat} {c : Code} (h : e.code memory n = .ok (c, n')) :
    c.PushesOne e.arities :=
  (e.code_grows h).pushesOne (e.code_closed memory h).forward

end Expressions

end Classlet

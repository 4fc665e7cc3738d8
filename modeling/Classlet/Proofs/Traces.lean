import Classlet.Proofs.Heights
/-!
# Where the words on the stack come from

A path through code is followed together with the words on the stack, each known by the instruction that put
it there (`Code.Trace`). Code that follows other code takes up its stack (`Code.trace_append`), straight
code has one stack at its end (`Code.trace_straight`), and code whose heights never fall below where it
started leaves all words below as they were (`Code.Grows.trace`).
-/

namespace Classlet

/-- Where a word on the stack comes from: it was there before, or the instruction at position `i` put it
there. -/
inductive Origin where
  | given (k : Nat)
  | put (i : Nat)
deriving DecidableEq

namespace Instruction

/-- Goes on to the next instruction only, and no branch leads here. -/
def isStraight : Instruction → Bool
  | branch _ | branchEqual _ | branchLessEqual _ | jumpSubroutine | halt | define (.branch _) => false
  | _ => true

theorem continues_of_isStraight {i : Instruction} (h : i.isStraight = true) : i.continues = true := by
  cases i <;> first | rfl | cases h

theorem jump?_of_isStraight {i : Instruction} (h : i.isStraight = true) : i.jump? = none := by
  cases i <;> first | rfl | cases h

end Instruction

namespace Code

/-- The stack after the instruction at position `i` has taken `a` words and put `b`. -/
def exchange (i a b : Nat) (σ : List Origin) : List Origin := List.replicate b (.put i) ++ σ.drop a

/-- A path through code to the instruction at `i`, with the words on the stack there. The code stands at
position `base`, and `σ` are the words on the stack where it starts. -/
inductive Trace (base : Nat) (calls : List Nat) (code : Code) (σ : List Origin) : Nat → List Origin → Prop
  | start : Trace base calls code σ 0 σ
  | next {i a b : Nat} {τ : List Origin} {instruction : Instruction} : Trace base calls code σ i τ →
    code[i]? = some instruction → instruction.continues = true → (weights calls code)[i]? = some (a, b) →
    Trace base calls code σ (i + 1) (exchange (base + i) a b τ)
  | jump {i j a b : Nat} {τ : List Origin} {instruction : Instruction} {l : Label} :
      Trace base calls code σ i τ →
    code[i]? = some instruction → instruction.jump? = some l → code[j]? = some (.define l) →
    (weights calls code)[i]? = some (a, b) → Trace base calls code σ j (exchange (base + i) a b τ)

section Traces
variable {base : Nat} {calls calls' : List Nat} {a b c code : Code} {σ τ τ' : List Origin}

/-- The words on the stack can be followed along every path. -/
theorem Path.exists_trace {i : Nat} {w : Int} (h : Path calls code i w) :
    ∃ τ, Trace base calls code σ i τ := by
  induction h with
  | start => exact ⟨σ, .start⟩
  | next _ hi hcontinues hw ih =>
    obtain ⟨τ, hτ⟩ := ih
    exact ⟨_, hτ.next hi hcontinues hw⟩
  | jump _ hi hjump hj hw ih =>
    obtain ⟨τ, hτ⟩ := ih
    exact ⟨_, hτ.jump hi hjump hj hw⟩

/-- Nothing leads back to the start of code without jumps. -/
theorem trace_zero (hc : ∀ i ∈ c, i.jump? = none) : Trace base calls c σ 0 τ ↔ τ = σ := by
  constructor
  · intro h
    cases h with
    | start => rfl
    | jump _ hi hjump _ _ => cases (hc _ (List.mem_of_getElem? hi)).symm.trans hjump
  · rintro rfl
    exact .start

/-! ## Code after code -/

/-- No jump of one of them leads into the other. -/
def Apart (a b : Code) : Prop := ∀ i l, i.jump? = some l → (i ∈ a → .define l ∉ b) ∧ (i ∈ b → .define l ∉ a)

theorem weights_append (calls' : List Nat) (b : Code) (h : a.count .jumpSubroutine = calls.length) :
    weights (calls ++ calls') (a ++ b) = weights calls a ++ weights calls' b := by
  induction a generalizing calls with
  | nil =>
    obtain rfl := List.length_eq_zero_iff.1 h.symm
    rw [weights]
    rfl
  | cons i a ih =>
    by_cases hi : i = .jumpSubroutine
    · subst hi
      cases calls with
      | nil => simp at h
      | cons n calls =>
        rw [List.count_cons_self, List.length_cons, Nat.add_right_cancel_iff] at h
        rw [List.cons_append, List.cons_append, weights, weights, ih h, List.cons_append]
    · rw [List.count_cons_of_ne (Ne.symm (Ne.symm hi))] at h
      rw [List.cons_append, weights_cons hi, weights_cons hi, ih h, List.cons_append]

theorem getElem?_append_add {α : Type} {l l' : List α} {n : Nat} (hl : l.length = n) (i : Nat) :
    (l ++ l')[n + i]? = l'[i]? := by
  rw [← hl, List.getElem?_append_right (Nat.le_add_right _ _), Nat.add_sub_cancel_left]

theorem Trace.left (hcount : a.count .jumpSubroutine = calls.length) {i : Nat}
    (h : Trace base calls a σ i τ) :
    Trace base (calls ++ calls') (a ++ b) σ i τ := by
  have hweights := weights_append calls' b hcount
  have hleft {α : Type} {x : α} {l l' : List α} {i : Nat} (hx : l[i]? = some x) : (l ++ l')[i]? = some x :=
    (List.getElem?_append_left (List.getElem?_eq_some_iff.1 hx).1).trans hx
  induction h with
  | start => exact .start
  | next _ hi hcontinues hw ih => exact ih.next (hleft hi) hcontinues (hweights ▸ hleft hw)
  | jump _ hi hjump hj hw ih => exact ih.jump (hleft hi) hjump (hleft hj) (hweights ▸ hleft hw)

theorem Trace.right (hcount : a.count .jumpSubroutine = calls.length)
    (ha : Trace base calls a σ a.length τ') {j : Nat} (h : Trace (base + a.length) calls' b τ' j τ) :
    Trace base (calls ++ calls') (a ++ b) σ (a.length + j) τ := by
  have hweights := weights_append calls' b hcount
  have hright {α : Type} {x : α} {l l' : List α} (hl : l.length = a.length) {i : Nat}
      (hx : l'[i]? = some x) :
      (l ++ l')[a.length + i]? = some x := (getElem?_append_add hl i).trans hx
  have hlength := length_weights calls a
  induction h with
  | start => exact ha.left hcount
  | next _ hi hcontinues hw ih =>
    rw [Nat.add_assoc]
    exact ih.next (hright rfl hi) hcontinues (hweights ▸ hright hlength hw)
  | jump _ hi hjump hj hw ih =>
    rw [Nat.add_assoc]
    exact ih.jump (hright rfl hi) hjump (hright rfl hj) (hweights ▸ hright hlength hw)

/-- A path through `a ++ b` stays in `a` until it has come to its end, and then in `b`. -/
theorem Trace.split (hcount : a.count .jumpSubroutine = calls.length) (hab : Apart a b) {i : Nat}
    (h : Trace base (calls ++ calls') (a ++ b) σ i τ) : (i < a.length → Trace base calls a σ i τ) ∧
      ∀ j, i = a.length + j → ∃ τ', Trace base calls a σ a.length τ' ∧
        Trace (base + a.length) calls' b τ' j τ := by
  have hweights := weights_append calls' b hcount
  have hlength := length_weights calls a
  induction h with
  | start =>
    refine ⟨fun _ => .start, fun j hj => ?_⟩
    obtain ⟨hnil, rfl⟩ := Nat.add_eq_zero_iff.1 hj.symm
    exact ⟨σ, hnil ▸ .start, .start⟩
  | @next i x y τ instruction _ hi hcontinues hw ih =>
    rw [hweights] at hw
    rcases Nat.lt_or_ge i a.length with hlt | hge
    · rw [List.getElem?_append_left hlt] at hi
      rw [List.getElem?_append_left (hlength.symm ▸ hlt)] at hw
      have hnext := (ih.1 hlt).next hi hcontinues hw
      refine ⟨fun _ => hnext, fun j hj => ?_⟩
      obtain rfl : j = 0 := by omega
      have hlast : i + 1 = a.length := hj
      exact ⟨_, hlast ▸ hnext, .start⟩
    · obtain ⟨k, rfl⟩ := Nat.exists_eq_add_of_le hge
      obtain ⟨τ', ha, hb⟩ := ih.2 k rfl
      rw [getElem?_append_add rfl] at hi
      rw [getElem?_append_add hlength] at hw
      refine ⟨fun hlt => by omega, fun j hj => ?_⟩
      obtain rfl : j = k + 1 := by omega
      rw [← Nat.add_assoc base]
      exact ⟨τ', ha, hb.next hi hcontinues hw⟩
  | @jump i j x y τ instruction l _ hi hjump hj hw ih =>
    rw [hweights] at hw
    -- the label is defined in the part that the jump is in
    rcases Nat.lt_or_ge i a.length with hlt | hge
    · rw [List.getElem?_append_left hlt] at hi
      rw [List.getElem?_append_left (hlength.symm ▸ hlt)] at hw
      have hj' : j < a.length := by
        by_contra hge
        obtain ⟨k, rfl⟩ := Nat.exists_eq_add_of_le (Nat.not_lt.1 hge)
        rw [getElem?_append_add rfl] at hj
        exact (hab _ l hjump).1 (List.mem_of_getElem? hi) (List.mem_of_getElem? hj)
      rw [List.getElem?_append_left hj'] at hj
      exact ⟨fun _ => (ih.1 hlt).jump hi hjump hj hw, fun k hk => by omega⟩
    · obtain ⟨k, rfl⟩ := Nat.exists_eq_add_of_le hge
      obtain ⟨τ', ha, hb⟩ := ih.2 k rfl
      rw [getElem?_append_add rfl] at hi
      rw [getElem?_append_add hlength] at hw
      have hj' : a.length ≤ j := by
        by_contra hlt
        rw [List.getElem?_append_left (Nat.not_le.1 hlt)] at hj
        exact (hab _ l hjump).2 (List.mem_of_getElem? hi) (List.mem_of_getElem? hj)
      refine ⟨fun hlt => by omega, fun m hm => ?_⟩
      subst hm
      rw [getElem?_append_add rfl] at hj
      rw [← Nat.add_assoc base]
      exact ⟨τ', ha, hb.jump hi hjump hj hw⟩

theorem trace_append (hcount : a.count .jumpSubroutine = calls.length) (hab : Apart a b) {j : Nat} :
    Trace base (calls ++ calls') (a ++ b) σ (a.length + j) τ ↔
      ∃ τ', Trace base calls a σ a.length τ' ∧ Trace (base + a.length) calls' b τ' j τ :=
  ⟨fun h => (h.split hcount hab).2 j rfl, fun ⟨_, ha, hb⟩ => ha.right hcount hb⟩

/-! ## Straight code -/

/-- The stack at the end of straight code. -/
def walk (base : Nat) : Code → List Origin → List Origin
  | [], σ => σ
  | i :: c, σ => walk (base + 1) c (exchange base i.pops i.pushes σ)

theorem walk_append (a b : Code) (base : Nat) (σ : List Origin) :
    walk base (a ++ b) σ = walk (base + a.length) b (walk base a σ) := by
  induction a generalizing base σ with
  | nil => rfl
  | cons i a ih =>
    rw [List.cons_append, walk, ih, walk, List.length_cons, Nat.add_right_comm, Nat.add_assoc]

theorem walk_pops (base n : Nat) (σ : List Origin) : walk base (pops n) σ = σ.drop n := by
  induction n generalizing base σ with
  | zero => rfl
  | succ n ih =>
    have hpop : exchange base Instruction.pop.pops Instruction.pop.pushes σ = σ.drop 1 := rfl
    rw [pops, List.replicate_succ, walk, hpop, ← pops, ih, List.drop_drop, Nat.add_comm]

/-- Code of straight instructions. -/
def Straight (c : Code) : Prop := ∀ i ∈ c, i.isStraight = true

instance (c : Code) : Decidable c.Straight := inferInstanceAs (Decidable (∀ i ∈ c, i.isStraight = true))

theorem Straight.append (ha : a.Straight) (hb : b.Straight) : (a ++ b).Straight :=
  List.forall_mem_append.2 ⟨ha, hb⟩

theorem straight_replicate {i : Instruction} (h : i.isStraight = true) (n : Nat) :
    Straight (List.replicate n i) := by
  intro j hj
  rw [List.eq_of_mem_replicate hj, h]

theorem Straight.jump? (h : c.Straight) : ∀ i ∈ c, i.jump? = none :=
  fun i hi => Instruction.jump?_of_isStraight (h i hi)

theorem Straight.count_eq (h : c.Straight) : c.count .jumpSubroutine = ([] : List Nat).length := by
  refine List.count_eq_zero.2 fun hmem => ?_
  cases h _ hmem

/-- The jumps of the code go to branch labels. -/
def Branches (c : Code) : Prop := ∀ i ∈ c, ∀ l, i.jump? = some l → ∃ n, l = .branch n

theorem Straight.branches (h : c.Straight) : c.Branches := by
  intro i hi l hl
  cases (h.jump? i hi).symm.trans hl

theorem Plain.branches (h : c.Plain) : c.Branches := by
  intro i hi l hl
  cases (h i hi).1.symm.trans (Instruction.target?_of_jump? hl)

theorem Branches.append (ha : a.Branches) (hb : b.Branches) : (a ++ b).Branches :=
  List.forall_mem_append.2 ⟨ha, hb⟩

/-- Straight code before other code. -/
theorem Straight.apart (ha : a.Straight) (hb : b.Branches) : Apart a b := by
  intro i l hl
  refine ⟨fun hi => ?_, fun hi hmem => ?_⟩
  · cases (ha.jump? i hi).symm.trans hl
  · obtain ⟨n, rfl⟩ := hb i hi l hl
    cases ha _ hmem

theorem Apart.symm (h : Apart a b) : Apart b a := fun i l hl => (h i l hl).symm

/-- Code that has nothing to do with labels after other code. -/
theorem Plain.apart (hb : b.Plain) : Apart a b := by
  intro i l hl
  refine ⟨fun _ hmem => ?_, fun hi => ?_⟩
  · cases (hb _ hmem).2
  · cases (hb i hi).1.symm.trans (Instruction.target?_of_jump? hl)

theorem trace_singleton {i : Instruction} (hi : i.isStraight = true) :
    Trace base [] [i] σ 1 τ ↔ τ = exchange base i.pops i.pushes σ := by
  have hne : i ≠ .jumpSubroutine := by
    rintro rfl
    cases hi
  have hweights : weights [] [i] = [(i.pops, i.pushes)] := weights_cons hne [] []
  have hjump : ∀ k ∈ [i], k.jump? = none := List.forall_mem_singleton.2 (Instruction.jump?_of_isStraight hi)
  constructor
  · intro h
    cases h with
    | @next k x y τ' instruction h _ _ hw =>
      rw [hweights] at hw
      obtain ⟨rfl, rfl⟩ := Prod.mk.inj (Option.some.inj hw)
      rw [(trace_zero hjump).1 h]
      rfl
    | jump _ hk hl _ _ => cases (hjump _ (List.mem_of_getElem? hk)).symm.trans hl
  · rintro rfl
    exact Trace.start.next rfl (Instruction.continues_of_isStraight hi) (by rw [hweights]; rfl)

theorem trace_straight (hc : c.Straight) : Trace base [] c σ c.length τ ↔ τ = walk base c σ := by
  induction c generalizing base σ with
  | nil => exact trace_zero (List.forall_mem_nil _)
  | cons i c ih =>
    obtain ⟨hi, hrest⟩ := List.forall_mem_cons.1 hc
    have hc : Straight c := hrest
    have hfirst : Straight [i] := List.forall_mem_singleton.2 hi
    have happend : Trace base [] ([i] ++ c) σ (1 + c.length) τ ↔
        ∃ τ', Trace base [] [i] σ 1 τ' ∧ Trace (base + 1) [] c τ' c.length τ :=
      trace_append hfirst.count_eq (hfirst.apart hc.branches)
    rw [List.length_cons, Nat.add_comm]
    refine happend.trans ⟨?_, fun h => ?_⟩
    · rintro ⟨τ', hτ', hτ⟩
      rw [(ih hc).1 hτ, (trace_singleton hi).1 hτ']
      rfl
    · exact ⟨_, (trace_singleton hi).2 rfl, (ih hc).2 h⟩

/-! ## Words below -/

theorem exchange_append {i x y : Nat} {t : List Origin} (h : x ≤ t.length) :
    exchange i x y (t ++ σ) = exchange i x y t ++ σ := by
  rw [exchange, exchange, List.drop_append_of_le_length h, List.append_assoc]

theorem length_exchange (i x y : Nat) (t : List Origin) :
    (exchange i x y t).length = y + (t.length - x) := by
  rw [exchange, List.length_append, List.length_replicate, List.length_drop]

/-- Code whose heights start at 0 takes only words that it has put on the stack itself. -/
theorem Trace.keeps {H K : Nat → Nat} {s s' : Option Nat} (hK : Assigns H code calls s s' K)
    (hfirst : K 0 = 0) {i : Nat} (h : Trace base calls code σ i τ) : ∃ t, t.length = K i ∧ τ = t ++ σ := by
  induction h with
  | start => exact ⟨[], hfirst.symm, rfl⟩
  | next _ hi hcontinues hw ih =>
    obtain ⟨t, ht, rfl⟩ := ih
    obtain ⟨htaken, hnext, -⟩ := hK.step _ _ _ _ hi hw
    have hheight := hnext hcontinues
    refine ⟨_, ?_, exchange_append (by omega)⟩
    rw [length_exchange]
    omega
  | jump _ hi hjump hj hw ih =>
    obtain ⟨t, ht, rfl⟩ := ih
    obtain ⟨htaken, -, hjumps⟩ := hK.step _ _ _ _ hi hw
    obtain ⟨n, rfl, hn⟩ := hjumps _ hjump
    have hlabel := hK.label _ _ hj
    refine ⟨_, ?_, exchange_append (by omega)⟩
    rw [length_exchange]
    omega

end Traces

section Grows
variable {H : Nat → Nat} {n n' k : Nat} {calls : List Nat} {s s' : Option Nat} {c pre post rest : Code}

theorem Rises.count_eq (h : Rises H c calls s s') : c.count .jumpSubroutine = calls.length := by
  induction h with
  | nil => rfl
  | @plain i c _ _ _ hi _ ih =>
    have hne : i ≠ .jumpSubroutine := by
      rintro rfl
      cases hi
    rw [List.count_cons_of_ne hne, ih]
  | call _ ih => rw [List.count_cons_self, ih, List.length_cons]
  | branch _ _ ih | branchEqual _ _ ih | branchLessEqual _ _ ih | define _ _ _ ih =>
    rw [List.count_cons_of_ne (by simp), ih]

theorem Rises.branches (h : Rises H c calls s s') : c.Branches := by
  induction h with
  | nil => exact List.forall_mem_nil _
  | @plain i c _ _ _ hi _ ih =>
    refine List.forall_mem_cons.2 ⟨fun l hl => ?_, ih⟩
    cases i <;> simp [Instruction.isPlain, Instruction.jump?] at hi hl
  | call _ ih | define _ _ _ ih => exact List.forall_mem_cons.2 ⟨fun l hl => (by cases hl), ih⟩
  | @branch n _ _ _ _ _ _ ih | @branchEqual n _ _ _ _ _ _ ih | @branchLessEqual n _ _ _ _ _ _ ih =>
    exact List.forall_mem_cons.2 ⟨fun l hl => ⟨n, (Option.some.inj hl).symm⟩, ih⟩

theorem Grows.exists_rises (h : c.Grows n n' calls k) : ∃ H, Rises H c calls (some 0) (some k) := by
  obtain ⟨H, hH⟩ := h.rises 0
  exact ⟨H, Nat.zero_add k ▸ hH H fun _ _ _ => rfl⟩

/-- Code that leaves the stack `k` words higher has put `k` words on it, and the others are where they
were. -/
theorem Grows.trace (h : c.Grows n n' calls k) (hf : c.Forward []) (base : Nat) (σ : List Origin) :
    (∃ τ, Trace base calls c σ c.length τ) ∧ ∀ τ, Trace base calls c σ c.length τ → ∃ t, t.length = k ∧
      τ = t ++ σ := by
  obtain ⟨H, hrises⟩ := h.exists_rises
  obtain ⟨K, hK⟩ := hrises.exists_assigns
  obtain ⟨w, hw⟩ := Path.exists_end hrises.continues hf (.start : Path calls c 0 0) (Nat.zero_le _)
  refine ⟨hw.exists_trace, fun τ hτ => ?_⟩
  obtain ⟨t, ht, rfl⟩ := hτ.keeps hK (hK.first 0 rfl)
  exact ⟨t, ht.trans (hK.last k rfl), rfl⟩

/-- Such code between straight code: the stack at the end, before the rest. -/
theorem Grows.trace_between (h : c.Grows n n' calls k) (hf : c.Forward []) (hpre : pre.Straight)
    (hpost : post.Straight) (hrest : rest.Plain) (base : Nat) (calls' : List Nat) (σ : List Origin) :
    (∃ τ, Trace base (calls ++ calls') (pre ++ (c ++ (post ++ rest))) σ
      (pre.length + (c.length + post.length)) τ) ∧
      ∀ τ, Trace base (calls ++ calls') (pre ++ (c ++ (post ++ rest))) σ
        (pre.length + (c.length + post.length)) τ →
        ∃ t, t.length = k ∧ τ = walk (base + pre.length + c.length) post (t ++ walk base pre σ) := by
  obtain ⟨H, hrises⟩ := h.exists_rises
  obtain ⟨⟨τ₀, hτ₀⟩, hkeeps⟩ := h.trace hf (base + pre.length) (walk base pre σ)
  -- the rest has no jumps, so its first instruction is reached from before only
  have hend {base : Nat} {σ τ : List Origin} : Trace base calls' (post ++ rest) σ post.length τ ↔
      τ = walk base post σ := by
    have happend : Trace base ([] ++ calls') (post ++ rest) σ (post.length + 0) τ ↔
        ∃ τ', Trace base [] post σ post.length τ' ∧ Trace (base + post.length) calls' rest τ' 0 τ :=
      trace_append hpost.count_eq hrest.apart
    have hzero (i : Instruction) (hi : i ∈ rest) : i.jump? = none := by
      cases hl : i.jump? with
      | none => rfl
      | some l => cases (hrest i hi).1.symm.trans (Instruction.target?_of_jump? hl)
    simp only [trace_straight hpost, trace_zero hzero, exists_eq_left] at happend
    exact happend
  have hapart : Apart c (post ++ rest) := by
    intro i l hl
    have hpost' := (hpost.apart hrises.branches).symm i l hl
    have hrest' : (i ∈ c → .define l ∉ rest) ∧ (i ∈ rest → .define l ∉ c) := hrest.apart i l hl
    refine ⟨fun hi hmem => ?_, fun hi => ?_⟩
    · exact (List.mem_append.1 hmem).elim (hpost'.1 hi) (hrest'.1 hi)
    · exact (List.mem_append.1 hi).elim hpost'.2 hrest'.2
  have hbranches : (c ++ (post ++ rest)).Branches :=
    hrises.branches.append (hpost.branches.append hrest.branches)
  have hiff {τ : List Origin} : Trace base (calls ++ calls') (pre ++ (c ++ (post ++ rest))) σ
      (pre.length + (c.length + post.length)) τ ↔
        ∃ τ', Trace (base + pre.length) calls c (walk base pre σ) c.length τ' ∧
        τ = walk (base + pre.length + c.length) post τ' := by
    have hall : Trace base ([] ++ (calls ++ calls')) (pre ++ (c ++ (post ++ rest))) σ
        (pre.length + (c.length + post.length)) τ ↔
        ∃ τ', Trace base [] pre σ pre.length τ' ∧
          Trace (base + pre.length) (calls ++ calls') (c ++ (post ++ rest)) τ' (c.length + post.length) τ :=
      trace_append hpre.count_eq (hpre.apart hbranches)
    simp only [List.nil_append, trace_straight hpre, exists_eq_left, trace_append hrises.count_eq hapart,
      hend] at hall
    exact hall
  refine ⟨⟨_, hiff.2 ⟨τ₀, hτ₀, rfl⟩⟩, fun τ hτ => ?_⟩
  obtain ⟨τ', hτ', rfl⟩ := hiff.1 hτ
  obtain ⟨t, ht, rfl⟩ := hkeeps τ' hτ'
  exact ⟨t, ht, rfl⟩

end Grows

end Code

end Classlet

import Classlet.Proofs.Slots
import Classlet.Proofs.Traces
/-!
# Calls and returns

A call puts the control link, the arguments and the access link on the stack, and then the target, which the
jump takes (`Code.Calls`). The block of a function takes off all of them but the target, and puts the
result: whatever path is taken, it ends `params + 1` words lower, and the words that it takes as return
address, access link and control link are the one that it saved itself and the two that the call put there
(`Code.Returns`). This holds of every block of every program for which code is generated
(`Program.generate_balanced`).
-/

namespace Classlet

namespace Code

/-- The stack where a function starts. -/
def passed (link : Origin) (args : List Origin) (control : Origin) (σ : List Origin) : List Origin :=
  link :: (args ++ control :: σ)

/-- Code that calls a function with `count` arguments. -/
structure Calls (calls : List Nat) (count : Nat) (code : Code) : Prop where
  control : code[0]? = some (.load .fp)
  /-- The access link is put on the stack twice; one of them is used up in finding the target. -/
  passes : ∃ link last, code[link]? = some (.load .tm) ∧ code[last]? = some .jumpSubroutine ∧
    code.length = last + 1 ∧ ∀ σ,
    (∃ τ, Trace 0 calls code σ last τ) ∧ ∀ τ, Trace 0 calls code σ last τ →
      ∃ target args, args.length = count ∧ τ = .put target :: passed (.put link) args (.put 0) σ

/-- The words that a block with the given number of parameters takes to return, where it restores the return
address at `r`. -/
structure Unwinds (calls : List Nat) (params r : Nat) (block : Code) : Prop where
  save : block[2]? = some (.load .ra)
  restore (i : Nat) : block[i]? = some (.store .ra) ↔ i = r
  drop : block[r + 1]? = some .pop
  leave (i : Nat) : block[i]? = some (.store .fp) ↔ i = r + params + 2
  last : block.getLast? = some .jumpSubroutine
  returnAddress (σ τ : List Origin) : Trace 0 calls block σ r τ ↔ τ = .put 2 :: σ
  accessLink (link : Origin) (args : List Origin) (control : Origin) (σ τ : List Origin) :
    Trace 0 calls block (passed link args control σ) (r + 1) τ ↔ τ = link :: (args ++ control :: σ)
  controlLink (link : Origin) (args : List Origin) (control : Origin) (σ τ : List Origin) :
    args.length = params →
    (Trace 0 calls block (passed link args control σ) (r + params + 2) τ ↔ τ = control :: σ)

/-- Whatever path is taken through the block, it leaves the stack lower by the parameters and one word, and
takes the right words on its way out. -/
structure Returns (calls : List Nat) (params : Nat) (block : Code) : Prop where
  passes : ∃ w, Path calls block block.length w
  ends (w : Int) : Path calls block block.length w → w = -(params + 1)
  agree (i : Nat) (w w' : Int) : Path calls block i w → Path calls block i w' → w = w'
  /-- Nothing below the control link is touched. -/
  above (i a b : Nat) (w : Int) : Path calls block i w → (weights calls block)[i]? = some (a, b) →
    (a : Int) ≤ w + (params + 2)
  unwinds : ∃ r, block.Unwinds calls params r

/-- The instruction between two parts of code. -/
theorem getElem?_at {a b code : Code} {i : Instruction} (h : code = a ++ i :: b) {k : Nat}
    (hk : k = a.length) :
    code[k]? = some i := by
  subst h hk
  rw [List.getElem?_append_right (Nat.le_refl _), Nat.sub_self, List.getElem?_cons_zero]

/-! ## Calls -/

section Calls
variable {n n' count : Nat} {calls : List Nat} {args : Code}

theorem walk_links (base x hops : Nat) (σ : List Origin) :
    ∃ y, walk base (List.replicate hops .loadWord) (.put x :: σ) = .put y :: σ := by
  induction hops generalizing base x with
  | zero => exact ⟨x, rfl⟩
  | succ hops ih => exact ih (base + 1) base

theorem walk_frameAt (base hops : Nat) (σ : List Origin) : ∃ y, walk base (frameAt hops) σ = .put y :: σ :=
  walk_links (base + 1) base hops σ

theorem straight_frameAt (hops : Nat) : (frameAt hops).Straight :=
  List.forall_mem_cons.2 ⟨rfl, straight_replicate rfl hops⟩

theorem straight_loadAt (offset : Int) : (loadAt offset).Straight := by
  simp [Straight, loadAt, Instruction.isStraight]

/-- A call, where `find` replaces the second copy of the access link by the target. -/
theorem Grows.calling (h : args.Grows n n' calls count) (hf : args.Forward []) {access find : Code}
    (haccess : access.Straight) (hfind : find.Straight)
    (hlink : ∀ base σ, ∃ y, walk base access σ = .put y :: σ)
    (htarget : ∀ base x σ, ∃ y, walk base find (.put x :: σ) = .put y :: σ) :
    Calls (calls ++ [count]) count
      ([.load .fp] ++ args ++ access ++ duplicate ++ find ++ [.jumpSubroutine]) := by
  have hstraight : (access ++ (duplicate ++ find)).Straight :=
    haccess.append (Straight.append (by decide) hfind)
  have hcode : [.load .fp] ++ args ++ access ++ duplicate ++ find ++ [.jumpSubroutine] =
      [.load .fp] ++ (args ++ ((access ++ (duplicate ++ find)) ++ [.jumpSubroutine])) := by
    simp only [List.append_assoc]
  rw [hcode]
  refine ⟨rfl, 1 + args.length + access.length + 1,
    1 + (args.length + (access ++ (duplicate ++ find)).length), ?_, ?_, ?_, fun σ => ?_⟩
  · have hsplit : [.load .fp] ++ (args ++ ((access ++ (duplicate ++ find)) ++ [.jumpSubroutine])) =
        ([.load .fp] ++ args ++ access ++ [.store .tm]) ++ .load .tm ::
          (.load .tm :: find ++ [.jumpSubroutine]) := by
      simp [duplicate]
    refine getElem?_at hsplit ?_
    simp only [List.length_append, List.length_singleton]
  · have hsplit : [.load .fp] ++ (args ++ ((access ++ (duplicate ++ find)) ++ [.jumpSubroutine])) =
        ([.load .fp] ++ (args ++ (access ++ (duplicate ++ find)))) ++ .jumpSubroutine :: [] := by
      simp only [List.append_assoc]
    refine getElem?_at hsplit ?_
    simp only [List.length_append, List.length_singleton]
  · simp only [List.length_append, List.length_singleton]
    omega
  · have hfirst : Straight [.load .fp] := by decide
    have hlast : Plain [.jumpSubroutine] := by decide
    obtain ⟨hexists, hall⟩ := h.trace_between hf hfirst hstraight hlast 0 [count] σ
    refine ⟨hexists, fun τ hτ => ?_⟩
    obtain ⟨t, ht, rfl⟩ := hall τ hτ
    have hstart : walk 0 [.load .fp] σ = .put 0 :: σ := rfl
    rw [hstart, walk_append, walk_append]
    obtain ⟨y, hy⟩ := hlink (0 + 1 + args.length) (t ++ .put 0 :: σ)
    rw [List.length_singleton, hy]
    obtain ⟨z, hz⟩ := htarget (0 + 1 + args.length + access.length + duplicate.length)
      (0 + 1 + args.length + access.length + 2)
        (.put (0 + 1 + args.length + access.length + 1) :: (t ++ .put 0 :: σ))
    refine ⟨z, t, ht, hz.trans ?_⟩
    rw [passed, Nat.zero_add]

theorem Grows.calls_call (h : args.Grows n n' calls count) (hf : args.Forward []) (r : Resolution) :
    Calls (calls ++ [count]) count (Code.call args r) := by
  have hfind : Straight ((if r.entry.type.isMethod then [.loadWord] else []) ++ loadAt r.entry.offset) := by
    refine Straight.append ?_ (straight_loadAt _)
    split <;> decide
  have hcall := h.calling hf (straight_frameAt r.hops) hfind (fun base σ => walk_frameAt base r.hops σ)
    fun base x σ => by
    split
    · exact ⟨_, rfl⟩
    · exact ⟨_, rfl⟩
  simpa only [Code.call, List.append_assoc] using hcall

theorem Grows.calls_callMethod (h : args.Grows n n' calls count) (hf : args.Forward []) (r : Resolution)
    (method : Entry) :
    Calls (calls ++ [count]) count (Code.callMethod args r method) := by
  have hfind : Straight ([.loadWord] ++ loadAt method.offset) :=
    Straight.append (by decide) (straight_loadAt _)
  -- the access link is the object, which is found in a frame
  have hobject (base : Nat) (σ : List Origin) : ∃ y, walk base (frameAt r.hops ++ loadAt r.entry.offset) σ =
      .put y :: σ := by
    obtain ⟨y, hy⟩ := walk_frameAt base r.hops σ
    rw [walk_append, hy]
    exact ⟨_, rfl⟩
  have hcall := h.calling hf ((straight_frameAt r.hops).append (straight_loadAt r.entry.offset))
    hfind hobject
    fun base x σ => ⟨_, rfl⟩
  simpa only [Code.callMethod, List.append_assoc] using hcall

end Calls

/-! ## Saved registers -/

/-- Neither the return address nor the frame is restored in the code. -/
def Spares (c : Code) : Prop := ∀ i ∈ c, i ≠ .store .ra ∧ i ≠ .store .fp

instance (c : Code) : Decidable c.Spares :=
  inferInstanceAs (Decidable (∀ i ∈ c, i ≠ .store .ra ∧ i ≠ .store .fp))

@[simp] theorem spares_nil : Spares [] := List.forall_mem_nil _

@[simp] theorem spares_cons {i : Instruction} {c : Code} :
    Spares (i :: c) ↔ (i ≠ .store .ra ∧ i ≠ .store .fp) ∧ c.Spares :=
  List.forall_mem_cons

@[simp] theorem spares_append {a b : Code} : Spares (a ++ b) ↔ a.Spares ∧ b.Spares := List.forall_mem_append

theorem spares_replicate {c : Code} (h : c.Spares) (n : Nat) : Spares (List.replicate n c).flatten := by
  induction n with
  | zero => exact spares_nil
  | succ n ih => exact spares_append.2 ⟨h, ih⟩

theorem spares_frameAt (hops : Nat) : (frameAt hops).Spares := by
  refine List.forall_mem_cons.2 ⟨by simp, fun i hi => ?_⟩
  rw [List.eq_of_mem_replicate hi]
  simp

theorem spares_pops (n : Nat) : (pops n).Spares := by
  intro i hi
  rw [List.eq_of_mem_replicate hi]
  simp

theorem spares_select (l l' : Label) (x y : Bool) : (select l l' x y).Spares := by simp [select, pushBool]

end Code

open Code in
theorem BinaryOp.code_spares (op : BinaryOp) {left right : Code} (hl : left.Spares)
    (hr : right.Spares) (n : Nat) :
    (op.code left right n).Spares := by
  cases op <;> simp [BinaryOp.code, hl, hr, spares_select, pushBool]

section Expressions
variable {memory : Word}

open Code in
mutual
theorem Expr.code_spares : ∀ (e : Expr) {n n' : Nat} {c : Code}, e.code memory n = .ok (c, n') → c.Spares
  | .int .., _, _, _, h | .bool .., _, _, _, h | .null _, _, _, _, h => by
    obtain ⟨rfl, -⟩ := Prod.mk.inj (Except.ok.inj h)
    simp [pushBool]
  | .ident name target, _, _, _, h => by
    simp only [Expr.code, bind_eq_ok, required_eq_ok, pure_eq_ok, Prod.mk.injEq] at h
    obtain ⟨r, -, rfl, -⟩ := h
    simp [spares_frameAt, loadAt]
  | .call callee args span target, _, _, _, h => by
    simp only [Expr.code, bind_eq_ok, required_eq_ok, pure_eq_ok, Prod.exists, Prod.mk.injEq] at h
    obtain ⟨r, -, c, m, hargs, rfl, -⟩ := h
    have hspares := Expr.codeReversed_spares args hargs
    by_cases hr : r.entry.type.isMethod <;> simp [Code.call, hr, hspares, spares_frameAt, duplicate, loadAt]
  | .methodCall object method args span receiver target, _, _, _, h => by
    simp only [Expr.code, bind_eq_ok, required_eq_ok, pure_eq_ok, Prod.exists, Prod.mk.injEq] at h
    obtain ⟨r, -, entry, -, c, m, hargs, rfl, -⟩ := h
    simp [Code.callMethod, Expr.codeReversed_spares args hargs, spares_frameAt, duplicate, loadAt]
  | .new cls args span target, _, _, _, h => by
    simp only [Expr.code, bind_eq_ok, required_eq_ok, pure_eq_ok, Prod.exists, Prod.mk.injEq] at h
    obtain ⟨entry, -, c, m, hargs, address, -, rfl, -⟩ := h
    have hstores : Spares (List.replicate args.length storeOnHeap).flatten := spares_replicate (by decide) _
    simp [construct, Expr.codeAll_spares args hargs, hstores, bumpHeap]
  | .ite c t e span, _, _, _, h => by
    simp only [Expr.code, bind_eq_ok, pure_eq_ok, Prod.exists, Prod.mk.injEq] at h
    obtain ⟨cond, m₁, hc, elseCode, m₂, he, thenCode, m₃, ht, rfl, -⟩ := h
    simp [conditional, c.code_spares hc, e.code_spares he, t.code_spares ht, pushBool]
  | .binary op l r span, _, _, _, h => by
    simp only [Expr.code, bind_eq_ok, pure_eq_ok, Prod.exists, Prod.mk.injEq] at h
    obtain ⟨left, m₁, hl, right, m₂, hr, rfl, -⟩ := h
    exact op.code_spares (l.code_spares hl) (r.code_spares hr) m₁
  | .not e span, _, _, _, h => by
    simp only [Expr.code, bind_eq_ok, pure_eq_ok, Prod.exists, Prod.mk.injEq] at h
    obtain ⟨operand, m, he, rfl, -⟩ := h
    simp [negation, e.code_spares he, spares_select, pushBool]
  | .print e span, _, _, _, h => by
    simp only [Expr.code, bind_eq_ok, pure_eq_ok, Prod.exists, Prod.mk.injEq] at h
    obtain ⟨value, m, he, rfl, -⟩ := h
    simp [e.code_spares he]

theorem Expr.codeAll_spares : ∀ (es : List Expr) {n n' : Nat} {c : Code}, Expr.codeAll memory es n =
      .ok (c, n') → c.Spares
  | [], _, _, _, h => by
    obtain ⟨rfl, -⟩ := Prod.mk.inj (Except.ok.inj h)
    exact spares_nil
  | e :: es, _, _, _, h => by
    simp only [Expr.codeAll, bind_eq_ok, pure_eq_ok, Prod.exists, Prod.mk.injEq] at h
    obtain ⟨first, m₁, hfirst, rest, m₂, hrest, rfl, -⟩ := h
    exact spares_append.2 ⟨e.code_spares hfirst, Expr.codeAll_spares es hrest⟩

theorem Expr.codeReversed_spares :
    ∀ (es : List Expr) {n n' : Nat} {c : Code}, Expr.codeReversed memory es n = .ok (c, n') →
    c.Spares
  | [], _, _, _, h => by
    obtain ⟨rfl, -⟩ := Prod.mk.inj (Except.ok.inj h)
    exact spares_nil
  | e :: es, _, _, _, h => by
    simp only [Expr.codeReversed, bind_eq_ok, pure_eq_ok, Prod.exists, Prod.mk.injEq] at h
    obtain ⟨rest, m₁, hrest, first, m₂, hfirst, rfl, -⟩ := h
    exact spares_append.2 ⟨Expr.codeReversed_spares es hrest, e.code_spares hfirst⟩
end

/-- The number of arguments of a call. -/
def Expr.argumentCount? : Expr → Option Nat
  | .call _ args _ _ | .methodCall _ _ args _ _ _ => some args.length
  | _ => none

theorem Expr.code_calls {e : Expr} {n n' count : Nat} {c : Code} (h : e.code memory n = .ok (c, n'))
    (he : e.argumentCount? = some count) : c.Calls e.arities count := by
  cases e with
  | call callee args span target =>
    obtain rfl := Option.some.inj he
    simp only [Expr.code, bind_eq_ok, required_eq_ok, pure_eq_ok, Prod.exists, Prod.mk.injEq] at h
    obtain ⟨r, -, c, m, hargs, rfl, -⟩ := h
    exact (Expr.codeReversed_grows args hargs).calls_call
      (Expr.codeReversed_closed memory args hargs).forward r
  | methodCall object method args span receiver target =>
    obtain rfl := Option.some.inj he
    simp only [Expr.code, bind_eq_ok, required_eq_ok, pure_eq_ok, Prod.exists, Prod.mk.injEq] at h
    obtain ⟨r, -, entry, -, c, m, hargs, rfl, -⟩ := h
    exact (Expr.codeReversed_grows args hargs).calls_callMethod
      (Expr.codeReversed_closed memory args hargs).forward r entry
  | _ => cases he

end Expressions

/-! ## Blocks -/

namespace Code

theorem Assigns.snoc {H K : Nat → Nat} {c : Code} {calls : List Nat} {s : Option Nat} {i : Instruction}
    {h a b : Nat} (hK : Assigns H c calls s (some h) K)
    (hw : weights calls (c ++ [i]) = weights calls c ++ [(a, b)]) (ha : a ≤ h)
    (hlabel : ∀ l, i ≠ .define (.branch l)) (hjump : i.jump? = none) :
    Assigns H (c ++ [i]) calls s (some (h - a + b)) fun j => if j ≤ c.length then K j else h - a + b where
  first := hK.first
  last h' hh' := by
    obtain rfl := Option.some.inj hh'
    rw [List.length_append, List.length_singleton, if_neg (Nat.not_succ_le_self _)]
  label j l hj := by
    rcases Nat.lt_or_ge j c.length with hlt | hge
    · rw [List.getElem?_append_left hlt] at hj
      rw [if_pos (Nat.le_of_lt hlt), hK.label j l hj]
    · rw [List.getElem?_append_right hge] at hj
      exact absurd (List.mem_singleton.1 (List.mem_of_getElem? hj)).symm (hlabel l)
  step j x y instruction hj hwj := by
    have hlength := length_weights calls c
    rw [hw] at hwj
    rcases Nat.lt_or_ge j c.length with hlt | hge
    · rw [List.getElem?_append_left hlt] at hj
      rw [List.getElem?_append_left (hlength.symm ▸ hlt)] at hwj
      simp only [if_pos (Nat.le_of_lt hlt), if_pos (Nat.succ_le_of_lt hlt)]
      exact hK.step j x y instruction hj hwj
    · rw [List.getElem?_append_right hge] at hj
      rw [List.getElem?_append_right (hlength.symm ▸ hge)] at hwj
      obtain rfl := List.mem_singleton.1 (List.mem_of_getElem? hj)
      obtain ⟨rfl, rfl⟩ := Prod.mk.inj (List.mem_singleton.1 (List.mem_of_getElem? hwj))
      obtain rfl : j = c.length := by
        have hlt := (List.getElem?_eq_some_iff.1 hj).1
        rw [List.length_singleton] at hlt
        omega
      have hheight : K c.length = h := hK.last h rfl
      rw [if_pos (Nat.le_refl _), if_neg (Nat.not_succ_le_self _), hheight]
      refine ⟨ha, fun _ => by omega, fun l hl => ?_⟩
      cases hjump.symm.trans hl

theorem rise_pops (n k : Nat) : (pops n).rise (k + n) = some k := by
  induction n with
  | zero => rfl
  | succ n ih =>
    rw [pops, List.replicate_succ, rise, if_pos ⟨rfl, Nat.le_add_left 1 _⟩]
    exact ih

/-- Keeps the result and drops the local declarations. -/
def discard (slots : Nat) : Code := .store .tm :: pops slots

/-- Restores the return address and drops the access link and the parameters. -/
def dropLinks (params : Nat) : Code := .store .ra :: .pop :: pops params

/-- A block up to where it restores the return address. -/
def leading (k : Nat) (inner : Code) (slots : Nat) : Code :=
  enterFrame (.function k) ++ inner ++ discard slots

theorem block_eq (k : Nat) (inner : Code) (slots params : Nat) :
    enterFrame (.function k) ++ inner ++ leaveFrame slots params =
    leading k inner slots ++ (dropLinks params ++ [.store .fp, .load .tm, .load .ra, .jumpSubroutine]) := by
  simp [leading, leaveFrame, discard, dropLinks]

@[simp] theorem length_pops (n : Nat) : (pops n).length = n := List.length_replicate

theorem length_dropLinks (params : Nat) : (dropLinks params).length = params + 2 := by simp [dropLinks]

theorem straight_pops (n : Nat) : (pops n).Straight := straight_replicate rfl n

theorem rise_unwind (slots params : Nat) :
    rise (discard slots ++ (dropLinks params ++ [.store .fp, .load .tm, .load .ra]))
      (params + 3 + slots + 1) = some 2 := by
  have hdiscard : rise (discard slots) (params + 3 + slots + 1) = some (params + 3) :=
    rise_pops slots (params + 3)
  have hlinks : rise (dropLinks params) (params + 3) = some 1 := by
    have hpops := rise_pops params 1
    rw [Nat.add_comm] at hpops
    exact hpops
  have hreturn : rise [.store .fp, .load .tm, .load .ra] 1 = some 2 := rfl
  simp only [rise_append, hdiscard, hlinks, hreturn, Option.bind_some]

section Blocks
variable {n n' slots : Nat} {calls : List Nat} {inner : Code}

/-- The heights in a block, which starts with the access link, the parameters and the control link. -/
theorem Grows.exists_assigns_block (h : inner.Grows n n' calls (slots + 1)) (k params : Nat) :
    ∃ H K, Assigns H (enterFrame (.function k) ++ inner ++ leaveFrame slots params) calls
      (some (params + 2)) (some 1) K := by
  obtain ⟨H, hH⟩ := h.rises (params + 3)
  have hstart : Rises H [.copyFp, .load .ra] [] (some (0 + (params + 2))) (some (0 + (params + 3))) :=
    .of_rise rfl 0
  have hend : Rises H (discard slots ++ (dropLinks params ++ [.store .fp, .load .tm, .load .ra])) []
      (some (0 + (params + 3 + slots + 1))) (some (0 + 2)) := .of_rise (rise_unwind slots params) 0
  rw [Nat.zero_add, Nat.zero_add] at hstart hend
  have hrises := (hstart.append (hH H fun _ _ _ => rfl)).append hend
  rw [List.nil_append, List.append_nil] at hrises
  obtain ⟨K, hK⟩ := hrises.exists_assigns
  -- the label of the function comes before that, and the jump to the return address after it
  have hne : Instruction.define (.function k) ≠ .jumpSubroutine := by simp
  have hfirst : Assigns H (.define (.function k) :: _) calls (some (params + 2)) (some 2)
      (precede (params + 2) K) :=
    hK.cons (weights_cons hne calls _) (fun _ hh => (Option.some.inj hh).symm) (Nat.zero_le _) (by simp)
      (fun _ => hK.first _ rfl) (by simp [Instruction.jump?])
  have hweights := weights_append [] [.jumpSubroutine] ((List.count_cons_of_ne hne).trans hrises.count_eq)
  rw [List.append_nil] at hweights
  have hblock : enterFrame (.function k) ++ inner ++ leaveFrame slots params =
      .define (.function k) :: ([.copyFp, .load .ra] ++
      inner ++ (discard slots ++ (dropLinks params ++ [.store .fp, .load .tm, .load .ra]))) ++
        [.jumpSubroutine] := by
    simp [enterFrame, leaveFrame, discard, dropLinks]
  rw [hblock]
  exact ⟨H, _, hfirst.snoc hweights (by decide) (by simp) rfl⟩

/-- The stack in a block on its way out, after the part `out` of it. -/
theorem Grows.trace_leaving (h : inner.Grows n n' calls (slots + 1)) (hf : inner.Forward []) (k : Nat)
    {out rest : Code} (hout : out.Straight) (hrest : rest.Plain) (σ τ : List Origin) :
    Trace 0 calls (leading k inner slots ++ (out ++ rest)) σ
      ((leading k inner slots).length + out.length) τ ↔
      τ = walk (leading k inner slots).length out (.put 2 :: σ) := by
  have henter : Straight (enterFrame (.function k)) := by
    simp [Straight, enterFrame, Instruction.isStraight]
  have hdiscard : Straight (discard slots) := List.forall_mem_cons.2 ⟨rfl, straight_pops slots⟩
  obtain ⟨⟨τ₀, hτ₀⟩, hall⟩ := h.trace_between hf henter (hdiscard.append hout) hrest 0 [] σ
  have hcode : enterFrame (.function k) ++ (inner ++ (discard slots ++ out ++ rest)) =
      leading k inner slots ++ (out ++ rest) := by
    simp only [leading, List.append_assoc]
  have hposition : (enterFrame (.function k)).length + (inner.length + (discard slots ++ out).length) =
      (leading k inner slots).length + out.length := by
    simp only [leading, List.length_append, Nat.add_assoc]
  rw [List.append_nil, hcode, hposition] at hτ₀ hall
  have hstack (τ : List Origin)
      (hτ : Trace 0 calls (leading k inner slots ++ (out ++ rest)) σ
        ((leading k inner slots).length + out.length) τ) :
      τ = walk (leading k inner slots).length out (.put 2 :: σ) := by
    obtain ⟨t, ht, rfl⟩ := hall τ hτ
    -- of what the declarations and the body have put there nothing is left
    have hgone (base : Nat) (σ : List Origin) : walk base (discard slots) (t ++ σ) = σ := by
      refine (walk_pops (base + 1) slots ((t ++ σ).drop 1)).trans ?_
      rw [List.drop_drop, Nat.add_comm, ← ht, List.drop_left]
    have hstart : walk 0 (enterFrame (.function k)) σ = .put 2 :: σ := rfl
    rw [hstart, walk_append, hgone, leading, List.length_append, List.length_append, Nat.zero_add]
  refine ⟨hstack τ, fun hτ => ?_⟩
  rw [hτ, ← hstack τ₀ hτ₀]
  exact hτ₀

/-- An instruction that stands in one place only. -/
theorem getElem?_iff_at {a b code : Code} {i : Instruction} (h : code = a ++ i :: b) (ha : i ∉ a)
    (hb : i ∉ b) (k : Nat) :
    code[k]? = some i ↔ k = a.length := by
  refine ⟨fun hk => ?_, fun hk => getElem?_at h hk⟩
  subst h
  rcases Nat.lt_trichotomy k a.length with hlt | heq | hgt
  · rw [List.getElem?_append_left hlt] at hk
    exact absurd (List.mem_of_getElem? hk) ha
  · exact heq
  · obtain ⟨j, rfl⟩ := Nat.exists_eq_add_of_lt hgt
    rw [List.getElem?_append_right (by omega), Nat.add_assoc, Nat.add_sub_cancel_left,
      List.getElem?_cons_succ] at hk
    exact absurd (List.mem_of_getElem? hk) hb

theorem Grows.unwinds (h : inner.Grows n n' calls (slots + 1)) (hf : inner.Forward []) (hs : inner.Spares)
    (k params : Nat) :
    Unwinds calls params (leading k inner slots).length
      (enterFrame (.function k) ++ inner ++ leaveFrame slots params) := by
  have hleading : (leading k inner slots).Spares := by simp [leading, enterFrame, discard, hs, spares_pops]
  have hpops (r : Register) : .store r ∉ pops params := fun hmem => by cases List.eq_of_mem_replicate hmem
  have hreturn : Plain [.store .fp, .load .tm, .load .ra, .jumpSubroutine] := by decide
  have hpopsPlain := plain_pops params
  rw [block_eq]
  refine ⟨rfl, getElem?_iff_at rfl ?_ ?_, ?_, fun i => ?_, ?_, fun σ τ => ?_,
    fun link args control σ τ => ?_, fun link args control σ τ hargs => ?_⟩
  · exact fun hmem => (hleading _ hmem).1 rfl
  · simp [hpops]
  · refine getElem?_at (List.append_assoc (leading k inner slots) [.store .ra] _).symm ?_
    rw [List.length_append, List.length_singleton]
  · have hsplit := (List.append_assoc (leading k inner slots) (dropLinks params)
      [.store .fp, .load .tm, .load .ra, .jumpSubroutine]).symm
    rw [getElem?_iff_at hsplit ?_ (by simp), List.length_append, length_dropLinks, Nat.add_assoc]
    intro hmem
    rcases List.mem_append.1 hmem with hmem | hmem
    · exact (hleading _ hmem).2 rfl
    · simp [dropLinks, hpops] at hmem
  · rw [List.getLast?_append, List.getLast?_append]
    rfl
  · exact h.trace_leaving hf k (List.forall_mem_nil _)
      (Plain.append (List.forall_mem_cons.2 ⟨⟨rfl, rfl⟩, List.forall_mem_cons.2 ⟨⟨rfl, rfl⟩, hpopsPlain⟩⟩)
        hreturn) σ τ
  · have hfirst : Straight [.store .ra] := by decide
    have hrest : Plain (.pop :: pops params ++ [.store .fp, .load .tm, .load .ra, .jumpSubroutine]) :=
      Plain.append (List.forall_mem_cons.2 ⟨⟨rfl, rfl⟩, hpopsPlain⟩) hreturn
    exact h.trace_leaving hf k hfirst hrest (passed link args control σ) τ
  · have hlinks : (dropLinks params).Straight :=
      List.forall_mem_cons.2 ⟨rfl, List.forall_mem_cons.2 ⟨rfl, straight_pops params⟩⟩
    have hlast := h.trace_leaving hf k hlinks hreturn (passed link args control σ) τ
    have hwalk (base : Nat) : walk base (dropLinks params) (.put 2 :: passed link args control σ) =
        control :: σ := by
      refine (walk_pops (base + 2) params (args ++ control :: σ)).trans ?_
      rw [← hargs, List.drop_left]
    rwa [hwalk, length_dropLinks, ← Nat.add_assoc] at hlast

theorem Grows.returns (h : inner.Grows n n' calls (slots + 1)) (hf : inner.Forward []) (hs : inner.Spares)
    (k params : Nat) :
    Returns calls params (enterFrame (.function k) ++ inner ++ leaveFrame slots params) := by
  obtain ⟨H, K, hK⟩ := h.exists_assigns_block k params
  obtain ⟨H', hrises⟩ := h.exists_rises
  have hfirst : K 0 = params + 2 := hK.first _ rfl
  have henter : Forward [] (enterFrame (.function k)) := by simp [enterFrame, Forward, Instruction.target?]
  have hforward := (henter.append hf).append ((plain_leaveFrame slots params).forward [])
  have hcontinues : ∀ i ∈ enterFrame (.function k) ++ inner ++ leaveFrame slots params,
      i.continues = true ∨ ∃ l, i = .branch (.branch l) := by
    have hleave : ∀ i ∈ leaveFrame slots params, i.continues = true := by
      simp [leaveFrame, pops, Instruction.continues, or_imp, forall_and]
    refine List.forall_mem_append.2
      ⟨List.forall_mem_append.2 ⟨?_, hrises.continues⟩, fun i hi => .inl (hleave i hi)⟩
    simp [enterFrame, Instruction.continues]
  refine ⟨Path.exists_end hcontinues hforward .start (Nat.zero_le _), fun w hw => ?_,
    fun i w w' hw hw' => ?_, fun i a b w hw hweight => ?_, ⟨_, h.unwinds hf hs k params⟩⟩
  · have hheight := hw.height hK
    have hlast : K _ = 1 := hK.last 1 rfl
    omega
  · have hheight := hw.height hK
    have hheight' := hw'.height hK
    omega
  · have hheight := hw.height hK
    have hi := length_weights calls _ ▸ (List.getElem?_eq_some_iff.1 hweight).1
    have htaken := (hK.step i a b _ (List.getElem?_eq_getElem hi) hweight).1
    omega

end Blocks

end Code

/-! ## Programs -/

/-- The numbers of arguments of the calls in the code of a declaration, in its frame. -/
def Decl.calls (d : Decl) : List Nat := if d.declared?.isSome then d.arities else []

/-- The numbers of arguments of the calls in the block of a function, in their order there. -/
def Function.calls (f : Function) : List Nat := f.locals.flatMap Decl.calls ++ f.body.arities

mutual
/-- The functions that blocks are generated for, in the order of the blocks. -/
def Decl.compiled : Decl → List Function
  | .var _ => []
  | .function f => if f.declared?.isSome then f.compiled else []

def Function.compiled : Function → List Function
  | ⟨name, params, ret, locals, body, span⟩ =>
    Decl.listCompiled locals ++ [⟨name, params, ret, locals, body, span⟩]

def Decl.listCompiled : List Decl → List Function
  | [] => []
  | d :: ds => d.compiled ++ Decl.listCompiled ds
end

def Method.compiled (d : Method) : List Function := if d.offset.isSome then d.function.compiled else []

def Class.compiled (c : Class) : List Function :=
  if c.name.isSome && c.entry.isSome then c.methods.flatMap Method.compiled else []

def Program.compiled (p : Program) : List Function :=
  p.classes.flatMap Class.compiled ++ Decl.listCompiled p.decls

/-- The block is that of the function, and returns as it should. -/
structure Function.Balanced (memory : Word) (f : Function) (block : Code) : Prop where
  code : ∃ s blocks s', f.code memory s = .ok (blocks ++ [block], s')
  returns : block.Returns f.calls f.params.length

/-- Labels that are not used have no heights to agree on. -/
theorem Code.Grows.mono {n m n' k : Nat} {calls : List Nat} {c : Code} (h : c.Grows n m calls k)
    (hle : m ≤ n') :
    c.Grows n n' calls k := by
  refine ⟨Nat.le_trans h.le hle, fun h₀ => ?_⟩
  obtain ⟨H₀, hH₀⟩ := h.rises h₀
  exact ⟨H₀, fun H hH => hH₀ H fun l hl hl' => hH l hl (Nat.lt_of_lt_of_le hl' hle)⟩

section Programs
variable {memory : Word}

open Code in
mutual
theorem Decl.code_balanced : ∀ (d : Decl) {s : Supply} {out : Output}, d.code memory s = .ok out →
    (out.code.Grows s.branch out.supply.branch d.calls (Decl.slots [d]) ∧ out.code.Spares) ∧
      List.Forall₂ (Function.Balanced memory) d.compiled out.blocks
  | .var v, s, out, h => by
    rw [Decl.slots_cons, Decl.calls, Decl.compiled, Decl.declared?]
    rcases Decl.code_var_cases h with ⟨hv, rfl⟩ | ⟨p, c, n, hv, hc, rfl⟩
    · rw [hv]
      exact ⟨⟨.of_rise rfl, spares_nil⟩, .nil⟩
    · rw [hv]
      exact ⟨⟨v.init.code_grows hc, v.init.code_spares hc⟩, .nil⟩
  | .function f, s, out, h => by
    rw [Decl.slots_cons, Decl.calls, Decl.compiled, Decl.declared?, Option.isSome_map]
    rcases Decl.code_function_cases h with ⟨hf, rfl⟩ | ⟨p, blocks, s', hf, hcode, rfl⟩
    · rw [hf]
      exact ⟨⟨.of_rise rfl, spares_nil⟩, .nil⟩
    · obtain ⟨hle, hblocks⟩ := f.code_balanced hcode
      have haddress : Grows s.branch s.branch [] 1 [.pushLabel (.function s.function)] := .of_rise rfl
      rw [hf]
      exact ⟨⟨haddress.mono hle, by simp⟩, hblocks⟩

theorem Function.code_balanced :
    ∀ (f : Function) {s s' : Supply} {blocks : List Code}, f.code memory s = .ok (blocks, s') →
    s.branch ≤ s'.branch ∧ List.Forall₂ (Function.Balanced memory) f.compiled blocks
  | ⟨name, params, ret, locals, body, span⟩, s, s', blocks, h => by
    have hall := h
    simp only [Function.code, bind_eq_ok, pure_eq_ok, Prod.exists, Prod.mk.injEq] at h
    obtain ⟨decls, hd, value, branch, hv, rfl, rfl⟩ := h
    obtain ⟨⟨hgrows, hspares⟩, hblocks⟩ := Decl.codeAll_balanced locals hd
    have hbody := body.code_grows hv
    have hforward := (Decl.codeAll_labelled memory locals hd).forward.append
      (body.code_closed memory hv).forward
    have hreturns := (hgrows.append hbody).returns hforward
      (spares_append.2 ⟨hspares, body.code_spares hv⟩) s.function
      params.length
    rw [← List.append_assoc] at hreturns
    refine ⟨Nat.le_trans hgrows.le hbody.le, ?_⟩
    rw [Function.compiled]
    exact List.rel_append hblocks (.cons ⟨⟨s, _, _, hall⟩, hreturns⟩ .nil)

theorem Decl.codeAll_balanced :
    ∀ (ds : List Decl) {s : Supply} {out : Output}, Decl.codeAll memory ds s = .ok out →
    (out.code.Grows s.branch out.supply.branch (ds.flatMap Decl.calls) (Decl.slots ds) ∧ out.code.Spares) ∧
      List.Forall₂ (Function.Balanced memory) (Decl.listCompiled ds) out.blocks
  | [], s, out, h => by
    obtain rfl := Except.ok.inj h
    exact ⟨⟨.of_rise rfl, spares_nil⟩, .nil⟩
  | d :: ds, s, out, h => by
    simp only [Decl.codeAll, bind_eq_ok, pure_eq_ok] at h
    obtain ⟨first, hfirst, rest, hrest, rfl⟩ := h
    obtain ⟨⟨hgrows, hspares⟩, hblocks⟩ := d.code_balanced hfirst
    obtain ⟨⟨hgrows', hspares'⟩, hblocks'⟩ := Decl.codeAll_balanced ds hrest
    have hslots : Decl.slots (d :: ds) = Decl.slots [d] + Decl.slots ds := by
      rw [Decl.slots_cons, Decl.slots_cons]
      rfl
    rw [hslots, List.flatMap_cons, Decl.listCompiled]
    exact ⟨⟨hgrows.append hgrows', spares_append.2 ⟨hspares, hspares'⟩⟩, List.rel_append hblocks hblocks'⟩
end

theorem Class.methodCode_balanced {cls : String} {span : Span} {ds : List Method} {table : DispatchTable}
    {s : Supply} {out : MethodOutput} (h : Class.methodCode memory cls span ds table s = .ok out) :
    List.Forall₂ (Function.Balanced memory) (ds.flatMap Method.compiled) out.blocks := by
  induction ds generalizing table s out with
  | nil =>
    obtain rfl := Except.ok.inj h
    exact .nil
  | cons d ds ih =>
    rw [List.flatMap_cons, Method.compiled]
    cases hoffset : d.offset with
    | none =>
      simp only [Class.methodCode, hoffset] at h
      exact ih h
    | some offset =>
      simp only [Class.methodCode, hoffset, bind_eq_ok, pure_eq_ok, Prod.exists] at h
      obtain ⟨blocks, s', hcode, i, -, table', -, rest, hrest, rfl⟩ := h
      exact List.rel_append (d.function.code_balanced hcode).2 (ih hrest)

theorem Class.codeAll_balanced {cs : List Class} {tables : List DispatchTable} {s : Supply}
    {out : Output × List DispatchTable} (h : Class.codeAll memory cs tables s = .ok out) :
    List.Forall₂ (Function.Balanced memory) (cs.flatMap Class.compiled) out.1.blocks := by
  induction cs generalizing tables s out with
  | nil =>
    obtain rfl := Except.ok.inj h
    exact .nil
  | cons c cs ih =>
    simp only [Class.codeAll, bind_eq_ok, pure_eq_ok, Prod.exists] at h
    obtain ⟨first, tables', hfirst, rest, tables'', hrest, rfl⟩ := h
    rw [List.flatMap_cons]
    refine List.rel_append ?_ (ih hrest)
    rw [Class.compiled]
    rcases Class.code_cases hfirst with
      ⟨hnone, hout⟩ | ⟨name, entry, inherited, methods, slot, recorded, hname, hentry, -,
      hmethods, -, -, hout⟩
    · obtain ⟨rfl, -⟩ := Prod.mk.inj hout
      rcases hnone with hnone | hnone <;> simp [hnone]
    · obtain ⟨rfl, -⟩ := Prod.mk.inj hout
      rw [hname, hentry]
      exact Class.methodCode_balanced hmethods

/-- Whatever the annotations are, if code is generated, then every expression leaves one word, every call
passes what the function that it calls takes, and every function returns with that taken and nothing
else. -/
theorem Program.generate_balanced {p : Program} {a : Assembly} (h : p.generate memory = .ok a) :
    (∀ (e : Expr) (n n' : Nat) (c : Code), e.code memory n = .ok (c, n') →
      c.PushesOne e.arities ∧ ∀ count, e.argumentCount? = some count → c.Calls e.arities count) ∧
    List.Forall₂ (Function.Balanced memory) p.compiled a.functions := by
  refine ⟨fun e n n' c hc => ⟨Expr.code_pushesOne hc, fun count hcount => Expr.code_calls hc hcount⟩, ?_⟩
  cases p with
  | letIn classes decls body span =>
    simp only [Program.generate, bind_eq_ok, pure_eq_ok, Prod.exists] at h
    obtain ⟨first, tables, hclasses, second, hdecls, value, branch, -, rfl⟩ := h
    exact List.rel_append (Class.codeAll_balanced hclasses) (Decl.codeAll_balanced decls hdecls).2
  | expr body span =>
    simp only [Program.generate, bind_eq_ok, pure_eq_ok, Prod.exists] at h
    obtain ⟨value, branch, -, rfl⟩ := h
    exact .nil

/-- A method and a function with a function in it, with calls in arguments, in a conditional and in a
declaration. -/
def nestedCalls : Program :=
  .letIn
    [.plain "Cell" none [("n", .int)] [.plain "add" [("x", .int), ("y", .int)] .int
      (.ite (.binary .lessEqual (.variable "x") (.variable "y") .synthetic)
        (.apply "add" [.apply "add" [.variable "y", .variable "n"], .number 1])
          (.variable "n") .synthetic)]]
    [.var (.plain "cell" (.ref "Cell") (.make "Cell" [.number 7])),
      .function { Function.plain "twice" [("x", .int)] .int (.variable "z") with
        locals := [.function (.plain "once" [] .int (.send "cell" "add" [.variable "x", .number 2])),
          .var (.plain "z" .int (.binary (.arith .add) (.apply "once" []) (.apply "once" []) .synthetic))]
            }]
    (.apply "twice" [.apply "twice" [.number 3]]) .synthetic

theorem nestedCalls_balanced : ∃ r a, nestedCalls.resolve = .ok r ∧ r.tree.generate (.ofInt 100) = .ok a ∧
    r.tree.compiled.map (fun f => (f.params.length, f.calls)) = [(2, [2, 2]), (0, [2]), (1, [0, 0])] ∧
      (∀ (e : Expr) (n n' : Nat) (c : Code), e.code (.ofInt 100) n = .ok (c, n') →
        c.PushesOne e.arities ∧ ∀ count, e.argumentCount? = some count → c.Calls e.arities count) ∧
      List.Forall₂ (Function.Balanced (.ofInt 100)) r.tree.compiled a.functions := by
  obtain ⟨r, hr, hcalls, hgenerates⟩ : ∃ r, nestedCalls.resolve = .ok r ∧
      r.tree.compiled.map (fun f => (f.params.length, f.calls)) = [(2, [2, 2]), (0, [2]), (1, [0, 0])] ∧
      ((r.tree.generate (.ofInt 100)).toOption.any fun a => a.functions.length = 3) = true :=
      exists_ok (by decide +kernel)
  obtain ⟨a, ha, -⟩ := exists_ok hgenerates
  exact ⟨r, a, hr, ha, hcalls, Program.generate_balanced ha⟩

end Programs

end Classlet

import Classlet.Proofs.Labels
import Classlet.Proofs.Trees
import Classlet.Resolution.Program
import Mathlib.Data.List.Perm.Basic
/-!
# References to labels

The code of an expression refers to branch labels only, and each of them is defined further on in the same
code (`Code.Closed`). Function labels are referred to by declarations and dispatch tables, and only once the
number was taken for a block that starts with it (`Labelled`). Together with the counting of definitions
this gives `Program.generate_consistent`: every reference in an assembly has one definition, and a branch
goes forward within its block.
-/

namespace Classlet

namespace Code

/-- The labels that code refers to. -/
def targets (c : Code) : List Label := c.filterMap Instruction.target?

@[simp] theorem targets_nil : targets [] = [] := rfl

@[simp] theorem targets_append (a b : Code) : targets (a ++ b) = targets a ++ targets b :=
  List.filterMap_append

theorem targets_cons (i : Instruction) (c : Code) : targets (i :: c) = i.target?.toList ++ targets c := by
  rw [targets, List.filterMap_cons]
  cases i.target? <;> rfl

/-- Each reference to a branch label comes before its definition, which is in the code or among the labels
`later`. -/
def Forward (later : List Label) : Code → Prop
  | [] => True
  | i :: c => (∀ n, i.target? = some (.branch n) → .branch n ∈ labels c ++ later) ∧ Forward later c

theorem Forward.mono {later later' : List Label} {c : Code} (h : Forward later c) (hl : later ⊆ later') :
    Forward later' c := by
  induction c with
  | nil => trivial
  | cons i c ih =>
    refine ⟨fun n hn => ?_, ih h.2⟩
    rcases List.mem_append.1 (h.1 n hn) with hmem | hmem
    · exact List.mem_append_left _ hmem
    · exact List.mem_append_right _ (hl hmem)

theorem forward_append {later : List Label} {a b : Code} :
    Forward later (a ++ b) ↔ Forward (labels b ++ later) a ∧ Forward later b := by
  induction a with
  | nil => simp [Forward]
  | cons i a ih => simp only [List.cons_append, Forward, ih, labels_append, List.append_assoc, and_assoc]

theorem Forward.append {later : List Label} {a b : Code} (ha : Forward [] a) (hb : Forward later b) :
    Forward later (a ++ b) :=
  forward_append.2 ⟨ha.mono (List.nil_subset _), hb⟩

/-- A branch goes to a definition further on. -/
theorem Forward.exists_define {code : Code} (h : Forward [] code) {i n : Nat} {instruction : Instruction}
    (hi : code[i]? = some instruction) (hn : instruction.target? = some (.branch n)) :
    ∃ j, i < j ∧ code[j]? = some (.define (.branch n)) := by
  induction code generalizing i with
  | nil => simp at hi
  | cons first code ih =>
    cases i with
    | zero =>
      obtain rfl := Option.some.inj hi
      have hmem := h.1 n hn
      rw [List.append_nil, labels, List.mem_filterMap] at hmem
      obtain ⟨d, hd, hdefines⟩ := hmem
      obtain ⟨j, hj⟩ := List.mem_iff_getElem?.1 hd
      cases d with
      | define l =>
        obtain rfl := Option.some.inj hdefines
        exact ⟨j + 1, Nat.succ_pos j, hj⟩
      | _ => cases hdefines
    | succ i =>
      obtain ⟨j, hlt, hj⟩ := ih h.2 hi
      exact ⟨j + 1, Nat.succ_lt_succ hlt, hj⟩

theorem entryLabel?_append {a b : Code} (ha : a.entryLabel? = none) (hb : b.entryLabel? = none) :
    (a ++ b).entryLabel? = none := by
  cases a with
  | nil => exact hb
  | cons i a =>
    cases i with
    | define l => cases ha
    | _ => rfl

/-- Code that can stand anywhere: it does not start with a label, and refers to nothing outside. -/
structure Closed (c : Code) : Prop where
  forward : Forward [] c
  inside (n : Nat) : .function n ∉ c.targets
  start : c.entryLabel? = none

theorem Closed.append {a b : Code} (ha : a.Closed) (hb : b.Closed) : (a ++ b).Closed where
  forward := ha.forward.append hb.forward
  inside n := by
    rw [targets_append, List.mem_append, not_or]
    exact ⟨ha.inside n, hb.inside n⟩
  start := entryLabel?_append ha.start hb.start

/-- Instructions that have nothing to do with labels. -/
def Plain (c : Code) : Prop := ∀ i ∈ c, i.target? = none ∧ i.defines? = none

instance (c : Code) : Decidable c.Plain :=
  inferInstanceAs (Decidable (∀ i ∈ c, i.target? = none ∧ i.defines? = none))

theorem Plain.targets_eq {c : Code} (h : c.Plain) : c.targets = [] :=
  List.filterMap_eq_nil_iff.2 fun i hi => (h i hi).1

theorem Plain.forward {c : Code} (h : c.Plain) (later : List Label) : Forward later c := by
  induction c with
  | nil => trivial
  | cons i c ih =>
    obtain ⟨hi, hc⟩ := List.forall_mem_cons.1 h
    refine ⟨fun n hn => ?_, ih hc⟩
    rw [hi.1] at hn
    cases hn

theorem Plain.closed {c : Code} (h : c.Plain) : c.Closed where
  forward := h.forward []
  inside n := by
    rw [h.targets_eq]
    exact List.not_mem_nil
  start := by
    cases c with
    | nil => rfl
    | cons i c =>
      cases i with
      | define l => cases (h _ List.mem_cons_self).2
      | _ => rfl

theorem Plain.append {a b : Code} (ha : a.Plain) (hb : b.Plain) : (a ++ b).Plain :=
  List.forall_mem_append.2 ⟨ha, hb⟩

theorem plain_replicate {c : Code} (h : c.Plain) (n : Nat) : Plain (List.replicate n c).flatten := by
  induction n with
  | zero => exact List.forall_mem_nil _
  | succ n ih => exact h.append ih

theorem plain_frameAt (hops : Nat) : (frameAt hops).Plain := by
  refine List.forall_mem_cons.2 ⟨⟨rfl, rfl⟩, fun i hi => ?_⟩
  obtain rfl := List.eq_of_mem_replicate hi
  exact ⟨rfl, rfl⟩

theorem plain_loadAt (offset : Int) : (loadAt offset).Plain := by
  intro i hi
  simp only [loadAt, List.mem_cons, List.not_mem_nil, or_false] at hi
  rcases hi with rfl | rfl | rfl <;> exact ⟨rfl, rfl⟩

/-! ## Expressions -/

section Expressions
variable {args cond thenBranch elseBranch test operand : Code} {n : Nat}

theorem Closed.call (h : args.Closed) (r : Resolution) : (call args r).Closed := by
  have hmethod : Plain (if r.entry.type.isMethod then [.loadWord] else []) := by
    split
    · decide
    · exact List.forall_mem_nil _
  have hafter := ((((plain_frameAt r.hops).append (b := duplicate) (by decide)).append hmethod).append
    (plain_loadAt r.entry.offset)).append (b := [.jumpSubroutine]) (by decide)
  have hbefore : Plain [.load .fp] := by decide
  simpa only [Code.call, List.append_assoc] using (hbefore.closed.append h).append hafter.closed

theorem Closed.callMethod (h : args.Closed) (receiver : Resolution) (method : Entry) :
    (callMethod args receiver method).Closed := by
  have hobject := (plain_frameAt receiver.hops).append (plain_loadAt receiver.entry.offset)
  have hfind := (hobject.append (b := duplicate) (by decide)).append (b := [.loadWord]) (by decide)
  have hafter := (hfind.append (plain_loadAt method.offset)).append (b := [.jumpSubroutine]) (by decide)
  have hbefore : Plain [.load .fp] := by decide
  simpa only [Code.callMethod, List.append_assoc] using (hbefore.closed.append h).append hafter.closed

theorem Closed.construct (h : args.Closed) (count : Nat) (table : Word) :
    (construct args count table).Closed := by
  have hobject : Plain ([.push table, .loadWord, .load .hp, .storeWord, .load .hp] ++ bumpHeap) := by
    refine Plain.append ?_ (by decide)
    exact List.forall_mem_cons.2 ⟨⟨rfl, rfl⟩, by decide⟩
  have hstores : Plain (List.replicate count storeOnHeap).flatten := plain_replicate (by decide) count
  simpa only [Code.construct, List.append_assoc] using (h.append hstores.closed).append hobject.closed

/-- A test that branches to `n` if it succeeds, and then one of two truth values. -/
theorem closed_select (hf : Forward [.branch n] test) (hi : ∀ k, .function k ∉ test.targets)
    (hs : test.entryLabel? = none) (fallthrough whenTaken : Bool) :
    (test ++ select (.branch n) (.branch (n + 1)) fallthrough whenTaken).Closed where
  forward := by
    have hselect : Forward [] (select (.branch n) (.branch (n + 1)) fallthrough whenTaken) := by
      simp [select, pushBool, Forward, labels_cons, Instruction.target?, Instruction.defines?]
    -- the label that the test branches to is the first of the two defined behind it
    refine forward_append.2 ⟨hf.mono ?_, hselect⟩
    simp [select, pushBool, labels_cons, Instruction.defines?]
  inside k := by
    rw [targets_append, List.mem_append, not_or]
    exact ⟨hi k, by simp [select, pushBool, targets_cons, Instruction.target?]⟩
  start := entryLabel?_append hs rfl

theorem Closed.negation (h : operand.Closed) (n : Nat) : (negation operand n).Closed := by
  rw [Code.negation, List.append_assoc]
  refine h.append (closed_select ?_ (fun k => ?_) rfl false true)
  · simp [pushBool, Forward, Instruction.target?]
  · simp [pushBool, targets_cons, Instruction.target?]

theorem Closed.conditional (hc : cond.Closed) (ht : thenBranch.Closed) (he : elseBranch.Closed) (n : Nat) :
    (conditional cond thenBranch elseBranch n).Closed where
  forward := by
    have hc' (later : List Label) : Forward later cond := hc.forward.mono (List.nil_subset _)
    have ht' (later : List Label) : Forward later thenBranch := ht.forward.mono (List.nil_subset _)
    have he' (later : List Label) : Forward later elseBranch := he.forward.mono (List.nil_subset _)
    simp [Code.conditional, pushBool, forward_append, Forward, hc', ht', he', labels_cons,
      Instruction.target?, Instruction.defines?]
  inside k := by
    simp [Code.conditional, pushBool, targets_cons, Instruction.target?, hc.inside k, ht.inside k,
      he.inside k]
  start := by
    rw [Code.conditional]
    simp only [List.append_assoc]
    exact entryLabel?_append hc.start rfl

end Expressions

end Code

theorem BinaryOp.code_closed (op : BinaryOp) {left right : Code} (hl : left.Closed)
    (hr : right.Closed) (n : Nat) :
    (op.code left right n).Closed := by
  cases op with
  | arith op => exact (hl.append hr).append (Code.Plain.closed (List.forall_mem_singleton.2 ⟨rfl, rfl⟩))
  | equal | lessEqual | greaterEqual =>
    rw [BinaryOp.code, List.append_assoc]
    refine (hl.append hr).append (Code.closed_select ?_ (fun k => ?_) rfl _ _)
    · simp [Code.Forward, Instruction.target?]
    · simp [Code.targets_cons, Instruction.target?]
  | logic op =>
    have hr' (later : List Label) : Code.Forward later right := hr.forward.mono (List.nil_subset _)
    have htest : (BinaryOp.logic op).code left right n =
        left ++ (([Code.pushBool op.decisive, .branchEqual (.branch n)] ++ right ++
          [Code.pushBool op.decisive, .branchEqual (.branch n)]) ++
          Code.select (.branch n) (.branch (n + 1)) (!op.decisive) op.decisive) := by
      simp only [BinaryOp.code, List.append_assoc]
    rw [htest]
    refine hl.append (Code.closed_select ?_ (fun k => ?_) rfl _ _)
    · simp [Code.forward_append, Code.Forward, Code.pushBool, hr', Instruction.target?]
    · simp [Code.targets_cons, Code.pushBool, Instruction.target?, hr.inside k]

mutual
theorem Expr.code_closed (memory : Word) :
    ∀ (e : Expr) {n n' : Nat} {c : Code}, e.code memory n = .ok (c, n') → c.Closed
  | .int .., n, n', c, h | .bool .., n, n', c, h | .null _, n, n', c, h => by
    simp only [Expr.code, Except.ok.injEq, Prod.mk.injEq] at h
    obtain ⟨rfl, rfl⟩ := h
    exact Code.Plain.closed (List.forall_mem_singleton.2 ⟨rfl, rfl⟩)
  | .ident .., n, n', c, h => by
    simp only [Expr.code, bind_eq_ok, pure_eq_ok, Prod.mk.injEq] at h
    obtain ⟨r, -, rfl, rfl⟩ := h
    exact ((Code.plain_frameAt _).append (Code.plain_loadAt _)).closed
  | .call _ args _ _, n, n', c, h => by
    simp only [Expr.code, bind_eq_ok, pure_eq_ok, Prod.exists, Prod.mk.injEq] at h
    obtain ⟨r, -, code, m, hargs, rfl, rfl⟩ := h
    exact (Expr.codeReversed_closed memory args hargs).call r
  | .methodCall _ _ args _ _ _, n, n', c, h => by
    simp only [Expr.code, bind_eq_ok, pure_eq_ok, Prod.exists, Prod.mk.injEq] at h
    obtain ⟨r, -, entry, -, code, m, hargs, rfl, rfl⟩ := h
    exact (Expr.codeReversed_closed memory args hargs).callMethod r entry
  | .new _ args _ _, n, n', c, h => by
    simp only [Expr.code, bind_eq_ok, pure_eq_ok, Prod.exists, Prod.mk.injEq] at h
    obtain ⟨entry, -, code, m, hargs, address, -, rfl, rfl⟩ := h
    exact (Expr.codeAll_closed memory args hargs).construct args.length address
  | .ite c t e _, n, n', code, h => by
    simp only [Expr.code, bind_eq_ok, pure_eq_ok, Prod.exists, Prod.mk.injEq] at h
    obtain ⟨cond, m, hc, elseCode, m', he, thenCode, m'', ht, rfl, rfl⟩ := h
    exact (c.code_closed memory hc).conditional (t.code_closed memory ht) (e.code_closed memory he) n
  | .binary op l r _, n, n', c, h => by
    simp only [Expr.code, bind_eq_ok, pure_eq_ok, Prod.exists, Prod.mk.injEq] at h
    obtain ⟨left, m, hl, right, m', hr, rfl, rfl⟩ := h
    exact op.code_closed (l.code_closed memory hl) (r.code_closed memory hr) m
  | .not e _, n, n', c, h => by
    simp only [Expr.code, bind_eq_ok, pure_eq_ok, Prod.exists, Prod.mk.injEq] at h
    obtain ⟨operand, m, he, rfl, rfl⟩ := h
    exact (e.code_closed memory he).negation n
  | .print e _, n, n', c, h => by
    simp only [Expr.code, bind_eq_ok, pure_eq_ok, Prod.exists, Prod.mk.injEq] at h
    obtain ⟨value, m, he, rfl, rfl⟩ := h
    exact (e.code_closed memory he).append (Code.Plain.closed (by decide))

theorem Expr.codeAll_closed (memory : Word) :
    ∀ (es : List Expr) {n n' : Nat} {c : Code}, Expr.codeAll memory es n = .ok (c, n') → c.Closed
  | [], n, n', c, h => by
    simp only [Expr.codeAll, Except.ok.injEq, Prod.mk.injEq] at h
    obtain ⟨rfl, rfl⟩ := h
    exact Code.Plain.closed (List.forall_mem_nil _)
  | e :: es, n, n', c, h => by
    simp only [Expr.codeAll, bind_eq_ok, pure_eq_ok, Prod.exists, Prod.mk.injEq] at h
    obtain ⟨first, m, he, rest, m', hes, rfl, rfl⟩ := h
    exact (e.code_closed memory he).append (Expr.codeAll_closed memory es hes)

theorem Expr.codeReversed_closed (memory : Word) :
    ∀ (es : List Expr) {n n' : Nat} {c : Code}, Expr.codeReversed memory es n = .ok (c, n') → c.Closed
  | [], n, n', c, h => by
    simp only [Expr.codeReversed, Except.ok.injEq, Prod.mk.injEq] at h
    obtain ⟨rfl, rfl⟩ := h
    exact Code.Plain.closed (List.forall_mem_nil _)
  | e :: es, n, n', c, h => by
    simp only [Expr.codeReversed, bind_eq_ok, pure_eq_ok, Prod.exists, Prod.mk.injEq] at h
    obtain ⟨rest, m, hes, first, m', he, rfl, rfl⟩ := h
    exact (Expr.codeReversed_closed memory es hes).append (e.code_closed memory he)
end

/-! ## Blocks -/

/-- Code and blocks that take the function numbers from `s` up to `t`: each block starts with one of them,
and function labels that are referred to have a number below `t`. -/
structure Labelled (s t : Supply) (c : Code) (blocks : List Code) : Prop where
  le : s.function ≤ t.function
  forward : c.Forward []
  blocks_forward (block : Code) : block ∈ blocks → block.Forward []
  below (k : Nat) : .function k ∈ (c ++ blocks.flatten).targets → k < t.function
  entries : (blocks.map Code.entryLabel?).Perm
    ((List.range' s.function (t.function - s.function)).map fun k => some (.function k))

namespace Labelled
variable {s t u : Supply} {a b c : Code} {as bs blocks : List Code}

theorem append (h : Labelled s t a as) (h' : Labelled t u b bs) : Labelled s u (a ++ b) (as ++ bs) where
  le := Nat.le_trans h.le h'.le
  forward := h.forward.append h'.forward
  blocks_forward block hblock :=
    (List.mem_append.1 hblock).elim (h.blocks_forward block) (h'.blocks_forward block)
  below k hk := by
    have hfirst := h.below k
    have hsecond := h'.below k
    have hle := h'.le
    simp only [List.flatten_append, Code.targets_append, List.mem_append] at hfirst hsecond hk
    rcases hk with (hk | hk) | hk | hk
    · exact Nat.lt_of_lt_of_le (hfirst (.inl hk)) hle
    · exact hsecond (.inl hk)
    · exact Nat.lt_of_lt_of_le (hfirst (.inr hk)) hle
    · exact hsecond (.inr hk)
  entries := by
    have hle := h.le
    have hle' := h'.le
    -- the second part goes on counting where the first one stopped
    have hrange : List.range' s.function (t.function - s.function) ++
        List.range' t.function (u.function - t.function) =
        List.range' s.function (u.function - s.function) := by
      have hlength : t.function - s.function + (u.function - t.function) = u.function - s.function := by
        omega
      rw [← hlength, ← List.range'_append_1, Nat.add_sub_cancel' hle]
    rw [List.map_append, ← hrange, List.map_append]
    exact h.entries.append h'.entries

/-- Code of an expression, with no blocks. -/
theorem of_closed (h : c.Closed) (hs : t.function = s.function) : Labelled s t c [] where
  le := Nat.le_of_eq hs.symm
  forward := h.forward
  blocks_forward block hblock := by cases hblock
  below k hk := by
    rw [List.flatten_nil, List.append_nil] at hk
    exact absurd hk (h.inside k)
  entries := by
    rw [hs, Nat.sub_self]
    exact .refl _

/-- Blocks alone. -/
theorem weaken (h : Labelled s t c blocks) : Labelled s t [] blocks where
  le := h.le
  forward := trivial
  blocks_forward := h.blocks_forward
  below k hk := h.below k (by rw [Code.targets_append]; exact List.mem_append_right _ hk)
  entries := h.entries

/-- The block of a function comes after those of the functions in it, but takes its number before them. -/
theorem function {decls value last : Code}
    (hd : Labelled { s with function := s.function + 1 } t decls blocks) (hv : value.Closed)
    (hl : last.Plain) (n : Nat) :
    Labelled s { t with branch := n } [.pushLabel (.function s.function)]
      (blocks ++ [Code.enterFrame (.function s.function) ++ decls ++ value ++ last]) where
  le := Nat.le_of_succ_le hd.le
  forward := ⟨fun k hk => (nomatch hk), trivial⟩
  blocks_forward block hblock := by
    rcases List.mem_append.1 hblock with hblock | hblock
    · exact hd.blocks_forward block hblock
    · obtain rfl := List.mem_singleton.1 hblock
      have henter : Code.Forward [] (Code.enterFrame (.function s.function)) := by
        simp [Code.enterFrame, Code.Forward, Instruction.target?]
      exact ((henter.append hd.forward).append hv.forward).append (hl.forward [])
  below k hk := by
    have hle := hd.le
    have hbelow := hd.below k
    have hinside := hv.inside k
    simp only [List.flatten_append, List.flatten_singleton, Code.targets_append, Code.targets_cons,
      Code.targets_nil,
      Code.enterFrame, Instruction.target?, Option.toList, hl.targets_eq, List.mem_append, List.append_nil,
      List.nil_append, List.mem_singleton, Label.function.injEq] at hbelow hk
    rcases hk with rfl | hk | hk | hk
    · exact hle
    · exact hbelow (.inr hk)
    · exact hbelow (.inl hk)
    · exact absurd hk hinside
  entries := by
    have hle : s.function + 1 ≤ t.function := hd.le
    obtain ⟨m, hm⟩ : ∃ m, t.function - s.function = m + 1 := ⟨t.function - (s.function + 1), by omega⟩
    have hrest : t.function - (s.function + 1) = m := by omega
    have hentries := hd.entries
    simp only [hrest] at hentries
    -- the number of the function is the first of all, and its block the last
    rw [hm, List.range'_succ, List.map_append, List.map_cons]
    exact (List.perm_append_comm.trans (.cons _ hentries))

end Labelled

theorem Code.plain_pops (n : Nat) : (pops n).Plain := by
  intro i hi
  obtain rfl := List.eq_of_mem_replicate hi
  exact ⟨rfl, rfl⟩

theorem Code.plain_leaveFrame (locals params : Nat) : (leaveFrame locals params).Plain := by
  have hstore : Plain [.store .tm] := by decide
  have hlinks : Plain [.store .ra, .pop] := by decide
  have hreturn : Plain [.store .fp, .load .tm, .load .ra, .jumpSubroutine] := by decide
  exact (((hstore.append (plain_pops locals)).append hlinks).append (plain_pops params)).append hreturn

mutual
theorem Decl.code_labelled (memory : Word) :
    ∀ (d : Decl) {s : Supply} {out : Output}, d.code memory s = .ok out →
      Labelled s out.supply out.code out.blocks
  | .var v, s, out, h => by
    rcases Decl.code_var_cases h with ⟨-, rfl⟩ | ⟨-, c, n, -, hc, rfl⟩
    · exact .of_closed (Code.Plain.closed (List.forall_mem_nil _)) rfl
    · exact .of_closed (v.init.code_closed memory hc) rfl
  | .function f, s, out, h => by
    rcases Decl.code_function_cases h with ⟨-, rfl⟩ | ⟨-, blocks, s', -, hf, rfl⟩
    · exact .of_closed (Code.Plain.closed (List.forall_mem_nil _)) rfl
    · exact f.code_labelled memory hf

/-- A function's own label may be referred to as soon as its code was generated. -/
theorem Function.code_labelled (memory : Word) :
    ∀ (f : Function) {s s' : Supply} {blocks : List Code}, f.code memory s = .ok (blocks, s') →
      Labelled s s' [.pushLabel (.function s.function)] blocks
  | ⟨_, params, _, locals, body, _⟩, s, s', blocks, h => by
    simp only [Function.code, bind_eq_ok, pure_eq_ok, Prod.exists, Prod.mk.injEq] at h
    obtain ⟨decls, hd, value, n, hv, rfl, rfl⟩ := h
    exact (Decl.codeAll_labelled memory locals hd).function (body.code_closed memory hv)
      (Code.plain_leaveFrame _ _) n

theorem Decl.codeAll_labelled (memory : Word) :
    ∀ (ds : List Decl) {s : Supply} {out : Output}, Decl.codeAll memory ds s = .ok out →
      Labelled s out.supply out.code out.blocks
  | [], s, out, h => by
    obtain rfl := Except.ok.inj h
    exact .of_closed (Code.Plain.closed (List.forall_mem_nil _)) rfl
  | d :: ds, s, out, h => by
    simp only [Decl.codeAll, bind_eq_ok, pure_eq_ok] at h
    obtain ⟨first, hd, rest, hds, rfl⟩ := h
    exact (d.code_labelled memory hd).append (Decl.codeAll_labelled memory ds hds)
end

/-! ## Dispatch tables -/

/-- The table lists entries of functions with numbers below `n`. -/
def DispatchTable.Below (n : Nat) (t : DispatchTable) : Prop := ∀ l ∈ t, ∃ k, k < n ∧ l = .function k

theorem DispatchTable.Below.mono {n m : Nat} {t : DispatchTable} (h : t.Below n) (hn : n ≤ m) :
    t.Below m := by
  intro l hl
  obtain ⟨k, hk, rfl⟩ := h l hl
  exact ⟨k, Nat.lt_of_lt_of_le hk hn, rfl⟩

theorem mem_putAt? {α : Type} {l l' : List α} {i : Nat} {a b : α} (h : putAt? l i a = some l')
    (hb : b ∈ l') :
    b = a ∨ b ∈ l := by
  unfold putAt? at h
  split at h
  · obtain rfl := Option.some.inj h
    exact (List.mem_or_eq_of_mem_set hb).symm
  · split at h
    · obtain rfl := Option.some.inj h
      exact (List.mem_append.1 hb).symm.imp_left List.mem_singleton.1
    · cases h

theorem DispatchTable.Below.place {n k i : Nat} {t t' : DispatchTable} (h : t.Below n) (hk : k < n)
    (ht : t.place i (.function k) = .ok t') : t'.Below n := by
  unfold DispatchTable.place at ht
  split at ht
  · next hput =>
    obtain rfl := Except.ok.inj ht
    intro l hl
    rcases mem_putAt? hput hl with rfl | hl
    · exact ⟨k, hk, rfl⟩
    · exact h l hl
  · cases ht

theorem DispatchTable.targets_code (t : DispatchTable) : t.code.targets = t := by
  have hstores : Code.targets (t.flatMap fun label => .pushLabel label :: Code.storeOnHeap) = t := by
    induction t with
    | nil => rfl
    | cons l t ih =>
      rw [List.flatMap_cons, Code.targets_append, ih]
      rfl
  rw [DispatchTable.code, Code.targets_cons, hstores]
  rfl

theorem DispatchTable.Below.forward {n : Nat} {t : DispatchTable} (h : t.Below n) : t.code.Forward [] := by
  have hstores : Code.Forward [] (t.flatMap fun label => .pushLabel label :: Code.storeOnHeap) := by
    induction t with
    | nil => trivial
    | cons l t ih =>
      obtain ⟨⟨k, -, rfl⟩, ht⟩ := List.forall_mem_cons.1 h
      rw [List.flatMap_cons]
      refine Code.Forward.append ⟨fun n hn => ?_, Code.Plain.forward (by decide) []⟩ (ih ht)
      cases hn
  exact ⟨fun n hn => (nomatch hn), hstores⟩

theorem Class.methodCode_labelled (memory : Word) (cls : String) (span : Span) (ds : List Method)
    {table : DispatchTable} {s : Supply} {out : MethodOutput}
    (h : Class.methodCode memory cls span ds table s = .ok out) (ht : table.Below s.function) :
    Labelled s out.supply [] out.blocks ∧ out.table.Below out.supply.function := by
  induction ds generalizing table s out with
  | nil =>
    obtain rfl := Except.ok.inj h
    exact ⟨.of_closed (Code.Plain.closed (List.forall_mem_nil _)) rfl, ht⟩
  | cons d ds ih =>
    rw [Class.methodCode] at h
    split at h
    · exact ih h ht
    · simp only [bind_eq_ok, pure_eq_ok, Prod.exists] at h
      obtain ⟨blocks, s', hf, i, -, t, hplace, rest, hrest, rfl⟩ := h
      have hfirst := d.function.code_labelled memory hf
      have hlt : s.function < s'.function := hfirst.below _ List.mem_cons_self
      obtain ⟨hblocks, htable⟩ := ih hrest ((ht.mono hfirst.le).place hlt (ok_of_mapError hplace))
      exact ⟨hfirst.weaken.append hblocks, htable⟩

theorem Class.inheritedTable_below {c : Class} {cls : String} {tables : List DispatchTable} {n : Nat}
    {t : DispatchTable} (h : c.inheritedTable cls tables = .ok t) (ht : ∀ t ∈ tables, t.Below n) :
    t.Below n := by
  unfold Class.inheritedTable at h
  split at h
  · obtain rfl := Except.ok.inj h
    exact List.forall_mem_nil _
  · simp only [bind_eq_ok] at h
    obtain ⟨slot, -, h⟩ := h
    split at h
    · next hslot =>
      obtain rfl := pure_eq_ok.1 h
      exact ht _ (List.mem_of_getElem? hslot)
    · cases h

theorem Class.code_labelled (memory : Word) (c : Class) {tables tables' : List DispatchTable} {s : Supply}
    {out : Output} (h : c.code memory tables s = .ok (out, tables'))
    (ht : ∀ t ∈ tables, t.Below s.function) :
    Labelled s out.supply out.code out.blocks ∧ ∀ t ∈ tables', t.Below out.supply.function := by
  rcases Class.code_cases h with
    ⟨-, heq⟩ | ⟨name, entry, inherited, methods, slot, recorded, -, -, hinherited, hm, -, hput, heq⟩
  · obtain ⟨rfl, rfl⟩ := Prod.mk.inj heq
    exact ⟨.of_closed (Code.Plain.closed (List.forall_mem_nil _)) rfl, ht⟩
  · obtain ⟨rfl, rfl⟩ := Prod.mk.inj heq
    obtain ⟨hblocks, htable⟩ := Class.methodCode_labelled memory _ _ _ hm
      (Class.inheritedTable_below hinherited ht)
    refine ⟨⟨hblocks.le, htable.forward, hblocks.blocks_forward, fun k hk => ?_, hblocks.entries⟩,
      fun t hmem => ?_⟩
    · rw [Code.targets_append, DispatchTable.targets_code, List.mem_append] at hk
      rcases hk with hk | hk
      · obtain ⟨k', hk', heq⟩ := htable _ hk
        rwa [Label.function.inj heq]
      · exact hblocks.below k hk
    · -- the class's own table was recorded among the earlier ones
      unfold DispatchTable.record at hput
      split at hput
      · next hput' =>
        obtain rfl := Except.ok.inj hput
        rcases mem_putAt? hput' hmem with rfl | hmem
        · exact htable
        · exact (ht t hmem).mono hblocks.le
      · cases hput

theorem Class.codeAll_labelled (memory : Word) (cs : List Class) {tables tables' : List DispatchTable}
    {s : Supply} {out : Output} (h : Class.codeAll memory cs tables s = .ok (out, tables'))
    (ht : ∀ t ∈ tables, t.Below s.function) :
    Labelled s out.supply out.code out.blocks := by
  induction cs generalizing tables s out with
  | nil =>
    simp only [Class.codeAll, Except.ok.injEq, Prod.mk.injEq] at h
    obtain ⟨rfl, rfl⟩ := h
    exact .of_closed (Code.Plain.closed (List.forall_mem_nil _)) rfl
  | cons c cs ih =>
    simp only [Class.codeAll, bind_eq_ok, pure_eq_ok, Prod.exists, Prod.mk.injEq] at h
    obtain ⟨first, t, hc, rest, t', hcs, rfl, rfl⟩ := h
    obtain ⟨hfirst, htables⟩ := c.code_labelled memory hc ht
    exact hfirst.append (ih hcs htables)

/-! ## Assemblies -/

/-- What the labels of an assembly have to do with its instructions and blocks. -/
structure Assembly.Consistent (a : Assembly) : Prop where
  /-- Whatever an instruction refers to is defined once. -/
  defined (i : Instruction) (l : Label) : i ∈ a.instructions → i.target? = some l →
    a.instructions.labels.count l = 1
  nodup : a.instructions.labels.Nodup
  /-- A branch goes forward in its block. -/
  forward (block : Code) (i n : Nat) (instruction : Instruction) : block ∈ a.main :: a.functions →
    block[i]? = some instruction → instruction.target? = some (.branch n) →
    ∃ j, i < j ∧ block[j]? = some (.define (.branch n))
  main : a.main.entryLabel? = none
  /-- The blocks of functions start with the function labels from 0 on, in some order. -/
  entries : (a.functions.map Code.entryLabel?).Perm
    ((List.range a.functions.length).map fun k => some (.function k))
  /-- Each block is found under its own label. -/
  found (block : Code) : block ∈ a.functions →
    ∃ k, k < a.functions.length ∧ block.entryLabel? = some (.function k) ∧
      a.function? (.function k) = some block

theorem find?_eq_of_nodup {α β : Type} [DecidableEq β] {f : α → β} {l : List α} (hn : (l.map f).Nodup)
    {a : α} (ha : a ∈ l) :
    l.find? (fun x => f x = f a) = some a := by
  induction l with
  | nil => cases ha
  | cons b l ih =>
    rw [List.map_cons, List.nodup_cons] at hn
    rcases List.mem_cons.1 ha with rfl | ha
    · rw [List.find?_cons_of_pos (by simp)]
    · have hne : f b ≠ f a := fun heq => hn.1 (heq ▸ List.mem_map_of_mem ha)
      rw [List.find?_cons_of_neg (by simpa using hne)]
      exact ih hn.2 ha

theorem Code.mem_labels_of_entryLabel? {c : Code} {l : Label} (h : c.entryLabel? = some l) :
    .define l ∈ c := by
  unfold Code.entryLabel? at h
  split at h
  · obtain rfl := Option.some.inj h
    exact List.mem_cons_self
  · cases h

/-- An assembly whose function numbers were all taken from one supply. -/
theorem Labelled.consistent {main : Code} {functions : List Code} {t : Supply}
    (h : Labelled ⟨0, 0⟩ t main functions) (hn : (main ++ functions.flatten).labels.Nodup)
    (hmain : main.entryLabel? = none) :
    Assembly.Consistent ⟨main, functions⟩ := by
  have hforward (block : Code) (hblock : block ∈ main :: functions) : block.Forward [] := by
    rcases List.mem_cons.1 hblock with rfl | hblock
    · exact h.forward
    · exact h.blocks_forward block hblock
  have hlength : functions.length = t.function := by simpa using h.entries.length_eq
  have hentries : (functions.map Code.entryLabel?).Perm
      ((List.range functions.length).map fun k => some (.function k)) := by
    rw [hlength, List.range_eq_range']
    exact h.entries
  -- no label is defined twice, so one definition is enough
  have honce (block : Code) (l : Label) (hblock : block ∈ main :: functions) (hl : .define l ∈ block) :
      (main ++ functions.flatten).labels.count l = 1 :=
    List.count_eq_one_of_mem hn (List.mem_filterMap.2
      ⟨.define l, List.mem_flatten.2 ⟨block, hblock, hl⟩, rfl⟩)
  constructor
  case defined =>
    intro i l hi hl
    cases l with
    | branch n =>
      obtain ⟨block, hblock, hmem⟩ : ∃ block ∈ main :: functions, i ∈ block := List.mem_flatten.1 hi
      obtain ⟨k, hk⟩ := List.mem_iff_getElem?.1 hmem
      obtain ⟨j, -, hj⟩ := (hforward block hblock).exists_define hk hl
      exact honce block _ hblock (List.mem_of_getElem? hj)
    | function n =>
      have hbelow : n < functions.length := hlength ▸ h.below n (List.mem_filterMap.2 ⟨i, hi, hl⟩)
      have hentry : some (Label.function n) ∈ functions.map Code.entryLabel? :=
        hentries.mem_iff.2 (List.mem_map.2 ⟨n, List.mem_range.2 hbelow, rfl⟩)
      obtain ⟨block, hblock, hlabel⟩ := List.mem_map.1 hentry
      exact honce block _ (List.mem_cons_of_mem _ hblock) (Code.mem_labels_of_entryLabel? hlabel)
  case nodup => exact hn
  case forward =>
    intro block i n instruction hblock hi hn
    exact (hforward block hblock).exists_define hi hn
  case main => exact hmain
  case entries => exact hentries
  case found =>
    intro block hblock
    obtain ⟨k, hk, hlabel⟩ := List.mem_map.1 (hentries.mem_iff.1 (List.mem_map_of_mem hblock))
    have hnodup : (functions.map Code.entryLabel?).Nodup := by
      refine hentries.nodup_iff.2 (List.nodup_range.map fun a b hab => ?_)
      exact Label.function.inj (Option.some.inj hab)
    refine ⟨k, List.mem_range.1 hk, hlabel.symm, ?_⟩
    rw [Assembly.function?, hlabel]
    exact find?_eq_of_nodup hnodup hblock

/-- The labels of generated code are in order, whatever the annotations of the program are. -/
theorem Program.generate_consistent {memory : Word} {p : Program} {a : Assembly}
    (h : p.generate memory = .ok a) :
    a.Consistent := by
  have hn := Program.nodup_labels h
  cases p with
  | letIn classes decls body span =>
    simp only [Program.generate, bind_eq_ok, pure_eq_ok, Prod.exists] at h
    obtain ⟨cs, tables, hc, ds, hd, value, n, hv, rfl⟩ := h
    have hfirst : Labelled ⟨0, 0⟩ ⟨0, 0⟩ [.push (.ofInt 0)] [] :=
      .of_closed (Code.Plain.closed (by decide)) rfl
    have hlast : Code.Closed (value ++ [.halt]) :=
      (body.code_closed memory hv).append (Code.Plain.closed (by decide))
    have hall := ((hfirst.append (Class.codeAll_labelled memory classes hc (List.forall_mem_nil _))).append
      (Decl.codeAll_labelled memory decls hd)).append (Labelled.of_closed (t := ds.supply) hlast rfl)
    simp only [List.nil_append, List.append_nil, ← List.append_assoc] at hall
    exact hall.consistent hn rfl
  | expr body span =>
    simp only [Program.generate, bind_eq_ok, pure_eq_ok, Prod.exists] at h
    obtain ⟨value, n, hv, rfl⟩ := h
    have hall : Code.Closed (value ++ [.halt]) :=
      (body.code_closed memory hv).append (Code.Plain.closed (by decide))
    exact (Labelled.of_closed (t := ⟨0, 0⟩) hall rfl).consistent hn hall.start

/-- A class that overrides a method, a function inside a function, and branches in all of them. -/
def switches : Program :=
  .letIn
    [.plain "Switch" none [("on", .bool)] [.plain "flip" [] .bool (.not (.variable "on") .synthetic)],
      .plain "Dimmer" (some "Switch") [("level", .int)]
        [.plain "flip" [] .bool (.binary .lessEqual (.variable "level") (.number 5) .synthetic)]]
    [.function { Function.plain "pick" [("n", .int)] (.ref "Switch") (.apply "inner" []) with
        locals := [.function (.plain "inner" [] (.ref "Switch")
          (.ite (.binary .equal (.variable "n") (.number 0) .synthetic)
            (.make "Switch" [.bool true .synthetic])
            (.make "Dimmer" [.bool true .synthetic, .variable "n"]) .synthetic))] },
      .var (.plain "s" (.ref "Switch") (.apply "pick" [.number 1]))]
    (.binary (.logic .and) (.send "s" "flip" []) (.bool true .synthetic) .synthetic) .synthetic

theorem switches_consistent :
    ∃ r a, switches.resolve = .ok r ∧ r.tree.generate (.ofInt 100) = .ok a ∧
      a.functions.map Code.entryLabel? =
        [some (.function 0), some (.function 1), some (.function 3), some (.function 2)] ∧
        a.Consistent := by
  obtain ⟨r, hr, hgenerates⟩ : ∃ r, switches.resolve = .ok r ∧
      ((r.tree.generate (.ofInt 100)).toOption.any fun a => a.functions.map Code.entryLabel? =
        [some (.function 0), some (.function 1), some (.function 3), some (.function 2)]) = true :=
    exists_ok (by decide +kernel)
  obtain ⟨a, ha, hentries⟩ := exists_ok hgenerates
  exact ⟨r, a, hr, ha, hentries, Program.generate_consistent ha⟩

end Classlet

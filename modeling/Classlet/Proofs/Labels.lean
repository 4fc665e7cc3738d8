import Classlet.Generation.Program
import Classlet.Proofs.Basic
import Classlet.Proofs.Runs
import Mathlib.Data.List.Nodup
import Mathlib.Tactic.Common
/-!
# Labels

Generated code defines each of the numbers it takes from the supply exactly once (`Numbered`). So no label
of an assembly has two definitions, and the address of a label is the place where it stands.
-/

namespace Classlet

namespace Instruction

def defines? : Instruction → Option Label
  | define l => some l
  | _ => none

end Instruction

namespace Code

/-- The labels that code defines. -/
def labels (c : Code) : List Label := c.filterMap Instruction.defines?

@[simp] theorem labels_append (a b : Code) : labels (a ++ b) = labels a ++ labels b := List.filterMap_append

@[simp] theorem labels_nil : labels [] = [] := rfl

theorem labels_cons (i : Instruction) (c : Code) : labels (i :: c) = i.defines?.toList ++ labels c := by
  rw [labels, List.filterMap_cons]
  cases i.defines? <;> rfl

theorem labels_replicate {i : Instruction} (hi : i.defines? = none) (n : Nat) :
    labels (List.replicate n i) = [] := by
  induction n with
  | zero => rfl
  | succ n ih => rw [List.replicate_succ, labels_cons, hi, ih]; rfl

end Code

open Code in
/-- A label that is defined once is where it is defined. -/
theorem Machine.addressOf?_eq_some {code : Code} {l : Label} {p : Nat} (hn : code.labels.Nodup)
    (h : code[p]? = some (.define l)) : addressOf? l code = some p := by
  induction code generalizing p with
  | nil => simp at h
  | cons i code ih =>
    rw [labels_cons] at hn
    cases p with
    | zero =>
      obtain rfl : i = .define l := by simpa using h
      have hnone : addressOf? l code = none := by
        have hl : l ∉ labels code := (List.nodup_cons.1 hn).1
        clear h hn ih
        induction code with
        | nil => rfl
        | cons j code ih =>
          rw [labels_cons, List.mem_append, not_or] at hl
          rw [addressOf?, ih hl.2, if_neg]
          rintro rfl
          exact hl.1 (by simp [Instruction.defines?])
      rw [addressOf?, hnone, if_pos rfl]
    | succ p => rw [addressOf?, ih (List.nodup_append.1 hn).2.1 (by simpa using h)]

theorem Machine.addressOf?_lt {code : Code} {l : Label} {p : Nat} (h : addressOf? l code = some p) :
    p < code.length := by
  induction code generalizing p with
  | nil => cases h
  | cons i code ih =>
    rw [addressOf?] at h
    split at h
    · next q hq =>
      obtain rfl := Option.some.inj h
      exact Nat.succ_lt_succ (ih hq)
    · split at h
      · obtain rfl := Option.some.inj h
        exact Nat.succ_pos _
      · cases h

/-! ## Numbers from a supply -/

instance : LE Supply := ⟨fun s t => s.branch ≤ t.branch ∧ s.function ≤ t.function⟩

theorem Supply.le_def {s t : Supply} : s ≤ t ↔ s.branch ≤ t.branch ∧ s.function ≤ t.function := Iff.rfl

/-- How often code that takes the numbers from `s` up to `t` defines a label. -/
def Label.between (s t : Supply) : Label → Nat
  | branch n => if s.branch ≤ n ∧ n < t.branch then 1 else 0
  | function n => if s.function ≤ n ∧ n < t.function then 1 else 0

theorem Label.between_add {s t u : Supply} (h : s ≤ t) (h' : t ≤ u) (l : Label) :
    l.between s t + l.between t u = l.between s u := by
  rw [Supply.le_def] at h h'
  cases l with
  | branch n => simp only [Label.between]; split <;> split <;> split <;> omega
  | function n => simp only [Label.between]; split <;> split <;> split <;> omega

/-- The code defines the numbers from `s` up to `t`, each of them once. -/
structure Numbered (s t : Supply) (c : Code) : Prop where
  le : s ≤ t
  count (l : Label) : c.labels.count l = l.between s t

namespace Numbered

variable {s t u : Supply} {a b c : Code}

theorem append (h : Numbered s t a) (h' : Numbered t u b) : Numbered s u (a ++ b) where
  le := ⟨Nat.le_trans h.le.1 h'.le.1, Nat.le_trans h.le.2 h'.le.2⟩
  count l := by rw [Code.labels_append, List.count_append, h.count, h'.count, Label.between_add h.le h'.le]

/-- Only the number of definitions counts, not their order. -/
theorem of_perm (h : Numbered s t a) (hl : b.labels.Perm a.labels) : Numbered s t b :=
  ⟨h.le, fun l => (hl.count_eq l).trans (h.count l)⟩

theorem of_labels (h : Numbered s t a) (hl : b.labels = a.labels) : Numbered s t b := h.of_perm (by rw [hl])

/-- Code without labels takes no numbers. -/
theorem of_nil (h : c.labels = []) : Numbered s s c where
  le := ⟨Nat.le_refl _, Nat.le_refl _⟩
  count l := by
    rw [h]
    cases l <;> simp only [List.count_nil, Label.between] <;> split <;> omega

/-- Two consecutive branch numbers. -/
theorem two (n f : Nat) (h : c.labels = [.branch n, .branch (n + 1)]) : Numbered ⟨n, f⟩ ⟨n + 2, f⟩ c where
  le := ⟨by simp, Nat.le_refl _⟩
  count l := by
    rw [h]
    cases l with
    | branch k =>
      simp only [List.count_cons, List.count_nil, Label.between, beq_iff_eq, Label.branch.injEq]
      split <;> split <;> split <;> omega
    | function k => simp [Label.between]

/-- Code and blocks of two parts, one after the other or kept apart. -/
theorem perm_blocks (a b : Code) (as bs : List Code) :
    (a ++ b ++ (as ++ bs).flatten).labels.Perm ((a ++ as.flatten) ++ (b ++ bs.flatten)).labels := by
  refine List.perm_iff_count.2 fun l => ?_
  simp only [List.flatten_append, Code.labels_append, List.count_append]
  omega

theorem nodup (h : Numbered s t c) : c.labels.Nodup := by
  refine List.nodup_iff_count_le_one.2 fun l => ?_
  rw [h.count]
  cases l <;> simp only [Label.between] <;> split <;> omega

end Numbered

/-! ## Expressions -/

namespace Code

@[simp] theorem labels_frameAt (hops : Nat) : (frameAt hops).labels = [] := by
  rw [frameAt, labels_cons, labels_replicate rfl]
  rfl

@[simp] theorem labels_loadAt (offset : Int) : (loadAt offset).labels = [] := rfl

@[simp] theorem labels_duplicate : duplicate.labels = [] := rfl

theorem labels_call (args : Code) (r : Resolution) : (call args r).labels = args.labels := by
  rw [call]
  split <;> simp [labels_cons, Instruction.defines?]

theorem labels_callMethod (args : Code) (receiver : Resolution) (method : Entry) :
    (callMethod args receiver method).labels = args.labels := by
  simp [callMethod, labels_cons, Instruction.defines?]

theorem labels_storeOnHeap (n : Nat) : labels (List.replicate n storeOnHeap).flatten = [] := by
  induction n with
  | zero => rfl
  | succ n ih => rw [List.replicate_succ, List.flatten_cons, labels_append, ih]; rfl

theorem labels_construct (args : Code) (count : Nat) (table : Word) :
    (construct args count table).labels = args.labels := by
  simp [construct, labels_storeOnHeap, bumpHeap, labels_cons, Instruction.defines?]

/-- The definitions of two consecutive branch numbers. -/
def twoLabels (n : Nat) : Code := [.define (.branch n), .define (.branch (n + 1))]

theorem labels_conditional (cond thenBranch elseBranch : Code) (n : Nat) :
    (conditional cond thenBranch elseBranch n).labels.Perm
      (twoLabels n ++ (cond ++ (elseBranch ++ thenBranch))).labels := by
  refine List.perm_iff_count.2 fun l => ?_
  simp only [conditional, twoLabels, pushBool, labels_append, labels_cons, Instruction.defines?,
    Option.toList, labels_nil,
    List.count_append, List.count_cons, List.count_nil, List.append_nil, List.nil_append]
  omega

theorem labels_negation (operand : Code) (n : Nat) :
    (negation operand n).labels.Perm (twoLabels n ++ operand).labels := by
  refine List.perm_iff_count.2 fun l => ?_
  simp only [negation, select, twoLabels, pushBool, labels_append, labels_cons, Instruction.defines?,
    Option.toList, labels_nil, List.count_append, List.append_nil, List.nil_append]
  omega

end Code

/-- The definitions of the numbers that an operator takes. -/
def BinaryOp.ownLabels (op : BinaryOp) (n : Nat) : Code := if op.branches = 2 then Code.twoLabels n else []

theorem BinaryOp.labels_code (op : BinaryOp) (left right : Code) (n : Nat) :
    (op.code left right n).labels.Perm (left ++ (op.ownLabels n ++ right)).labels := by
  refine List.perm_iff_count.2 fun l => ?_
  cases op with
  | arith op =>
    simp [BinaryOp.code, BinaryOp.ownLabels, BinaryOp.branches, Code.labels_cons, Instruction.defines?]
  | _ =>
    simp only [BinaryOp.code, BinaryOp.ownLabels, BinaryOp.branches, if_true, Code.twoLabels, Code.select,
      Code.labels_append, Code.labels_cons, Code.pushBool, Instruction.defines?, Option.toList,
      Code.labels_nil, List.count_append, List.append_nil, List.nil_append]
    omega

theorem BinaryOp.ownLabels_numbered (op : BinaryOp) (n f : Nat) :
    Numbered ⟨n, f⟩ ⟨n + op.branches, f⟩ (op.ownLabels n) := by
  cases op with
  | arith _ => exact .of_nil rfl
  | _ => exact .two n f rfl

mutual
theorem Expr.code_numbered (memory : Word) (f : Nat) :
    ∀ (e : Expr) {n n' : Nat} {c : Code}, e.code memory n = .ok (c, n') → Numbered ⟨n, f⟩ ⟨n', f⟩ c
  | .int .., n, n', c, h | .bool .., n, n', c, h | .null _, n, n', c, h => by
    simp only [Expr.code, Except.ok.injEq, Prod.mk.injEq] at h
    obtain ⟨rfl, rfl⟩ := h
    exact .of_nil rfl
  | .ident .., n, n', c, h => by
    simp only [Expr.code, bind_eq_ok, pure_eq_ok, Prod.mk.injEq] at h
    obtain ⟨r, -, rfl, rfl⟩ := h
    exact .of_nil (by simp)
  | .call callee args _ _, n, n', c, h => by
    simp only [Expr.code, bind_eq_ok, pure_eq_ok, Prod.exists, Prod.mk.injEq] at h
    obtain ⟨r, -, code, m, hargs, rfl, rfl⟩ := h
    exact (Expr.codeReversed_numbered memory f args hargs).of_labels (by rw [Code.labels_call])
  | .methodCall _ _ args _ _ _, n, n', c, h => by
    simp only [Expr.code, bind_eq_ok, pure_eq_ok, Prod.exists, Prod.mk.injEq] at h
    obtain ⟨r, -, entry, -, code, m, hargs, rfl, rfl⟩ := h
    exact (Expr.codeReversed_numbered memory f args hargs).of_labels (by rw [Code.labels_callMethod])
  | .new _ args _ _, n, n', c, h => by
    simp only [Expr.code, bind_eq_ok, pure_eq_ok, Prod.exists, Prod.mk.injEq] at h
    obtain ⟨entry, -, code, m, hargs, address, -, rfl, rfl⟩ := h
    exact (Expr.codeAll_numbered memory f args hargs).of_labels (by rw [Code.labels_construct])
  | .ite c t e _, n, n', code, h => by
    simp only [Expr.code, bind_eq_ok, pure_eq_ok, Prod.exists, Prod.mk.injEq] at h
    obtain ⟨cond, m, hc, elseCode, m', he, thenCode, m'', ht, rfl, rfl⟩ := h
    have hall := (Numbered.two n f (c := Code.twoLabels n) rfl).append
      ((c.code_numbered memory f hc).append
        ((e.code_numbered memory f he).append (t.code_numbered memory f ht)))
    exact hall.of_perm (Code.labels_conditional ..)
  | .binary op l r _, n, n', c, h => by
    simp only [Expr.code, bind_eq_ok, pure_eq_ok, Prod.exists, Prod.mk.injEq] at h
    obtain ⟨left, m, hl, right, m', hr, rfl, rfl⟩ := h
    have hall := (l.code_numbered memory f hl).append
      ((op.ownLabels_numbered m f).append (r.code_numbered memory f hr))
    exact hall.of_perm (op.labels_code left right m)
  | .not e _, n, n', c, h => by
    simp only [Expr.code, bind_eq_ok, pure_eq_ok, Prod.exists, Prod.mk.injEq] at h
    obtain ⟨operand, m, he, rfl, rfl⟩ := h
    have hall := (Numbered.two n f (c := Code.twoLabels n) rfl).append (e.code_numbered memory f he)
    exact hall.of_perm (Code.labels_negation operand n)
  | .print e _, n, n', c, h => by
    simp only [Expr.code, bind_eq_ok, pure_eq_ok, Prod.exists, Prod.mk.injEq] at h
    obtain ⟨value, m, he, rfl, rfl⟩ := h
    exact (e.code_numbered memory f he).of_labels (by simp [Code.labels_cons, Instruction.defines?])

theorem Expr.codeAll_numbered (memory : Word) (f : Nat) :
    ∀ (es : List Expr) {n n' : Nat} {c : Code}, Expr.codeAll memory es n = .ok (c, n') →
      Numbered ⟨n, f⟩ ⟨n', f⟩ c
  | [], n, n', c, h => by
    simp only [Expr.codeAll, Except.ok.injEq, Prod.mk.injEq] at h
    obtain ⟨rfl, rfl⟩ := h
    exact .of_nil rfl
  | e :: es, n, n', c, h => by
    simp only [Expr.codeAll, bind_eq_ok, pure_eq_ok, Prod.exists, Prod.mk.injEq] at h
    obtain ⟨first, m, he, rest, m', hes, rfl, rfl⟩ := h
    exact (e.code_numbered memory f he).append (Expr.codeAll_numbered memory f es hes)

theorem Expr.codeReversed_numbered (memory : Word) (f : Nat) :
    ∀ (es : List Expr) {n n' : Nat} {c : Code}, Expr.codeReversed memory es n = .ok (c, n') →
      Numbered ⟨n, f⟩ ⟨n', f⟩ c
  | [], n, n', c, h => by
    simp only [Expr.codeReversed, Except.ok.injEq, Prod.mk.injEq] at h
    obtain ⟨rfl, rfl⟩ := h
    exact .of_nil rfl
  | e :: es, n, n', c, h => by
    simp only [Expr.codeReversed, bind_eq_ok, pure_eq_ok, Prod.exists, Prod.mk.injEq] at h
    obtain ⟨rest, m, hes, first, m', he, rfl, rfl⟩ := h
    exact (Expr.codeReversed_numbered memory f es hes).append (e.code_numbered memory f he)
end

/-! ## Declarations and classes -/

theorem Code.labels_pops (n : Nat) : (pops n).labels = [] := labels_replicate rfl n

theorem Code.labels_leaveFrame (locals params : Nat) : (leaveFrame locals params).labels = [] := by
  simp [leaveFrame, labels_pops, labels_cons, Instruction.defines?]

/-- A block takes the function number of its entry, then the numbers of what it holds. -/
theorem Numbered.function {s t : Supply} {blocks : List Code} {decls value last : Code} {n : Nat}
    (hd : Numbered { s with function := s.function + 1 } t (decls ++ blocks.flatten))
    (hv : Numbered t { t with branch := n } value) (hl : last.labels = []) :
    Numbered s { t with branch := n }
      (blocks ++ [Code.enterFrame (.function s.function) ++ decls ++ value ++ last]).flatten := by
  have hentry : Numbered s { s with function := s.function + 1 } [.define (.function s.function)] := by
    refine ⟨⟨Nat.le_refl _, Nat.le_succ _⟩, fun l => ?_⟩
    cases l with
    | branch k => simp [Code.labels_cons, Instruction.defines?, Label.between]
    | function k =>
      simp only [Code.labels_cons, Instruction.defines?, Option.toList, Code.labels_nil, List.append_nil,
        List.count_cons, List.count_nil, beq_iff_eq, Label.function.injEq, Label.between]
      split <;> split <;> omega
  refine (hentry.append (hd.append hv)).of_perm (List.perm_iff_count.2 fun l => ?_)
  simp only [Code.enterFrame, List.flatten_append, List.flatten_cons, List.flatten_nil, Code.labels_append,
    Code.labels_cons, Instruction.defines?, Option.toList, Code.labels_nil, hl, List.count_append,
    List.append_nil]
  omega

/-- An incomplete variable has no code. -/
theorem Decl.code_var_cases {memory : Word} {v : Variable} {s : Supply} {out : Output}
    (h : (Decl.var v).code memory s = .ok out) :
    (v.declared? = none ∧ out = ⟨[], [], s⟩) ∨
      ∃ p c n, v.declared? = some p ∧ v.init.code memory s.branch = .ok (c, n) ∧
        out = ⟨c, [], { s with branch := n }⟩ := by
  rw [Decl.code] at h
  cases hv : v.declared? with
  | none =>
    rw [hv, Option.isSome_none, if_neg Bool.false_ne_true] at h
    exact .inl ⟨rfl, (Except.ok.inj h).symm⟩
  | some p =>
    simp only [hv, Option.isSome_some, if_true, bind_eq_ok, pure_eq_ok, Prod.exists] at h
    obtain ⟨c, n, hc, rfl⟩ := h
    exact .inr ⟨p, c, n, rfl, hc, rfl⟩

/-- An incomplete function has neither code nor blocks. -/
theorem Decl.code_function_cases {memory : Word} {f : Function} {s : Supply} {out : Output}
    (h : (Decl.function f).code memory s = .ok out) :
    (f.declared? = none ∧ out = ⟨[], [], s⟩) ∨
      ∃ p blocks s', f.declared? = some p ∧ f.code memory s = .ok (blocks, s') ∧
        out = ⟨[.pushLabel (.function s.function)], blocks, s'⟩ := by
  rw [Decl.code] at h
  cases hf : f.declared? with
  | none =>
    rw [hf, Option.isSome_none, if_neg Bool.false_ne_true] at h
    exact .inl ⟨rfl, (Except.ok.inj h).symm⟩
  | some p =>
    simp only [hf, Option.isSome_some, if_true, bind_eq_ok, pure_eq_ok, Prod.exists] at h
    obtain ⟨blocks, s', hcode, rfl⟩ := h
    exact .inr ⟨p, blocks, s', rfl, hcode, rfl⟩

mutual
theorem Decl.code_numbered (memory : Word) :
    ∀ (d : Decl) {s : Supply} {out : Output}, d.code memory s = .ok out →
      Numbered s out.supply (out.code ++ out.blocks.flatten)
  | .var v, s, out, h => by
    rcases Decl.code_var_cases h with ⟨-, rfl⟩ | ⟨-, c, n, -, hc, rfl⟩
    · exact .of_nil rfl
    · exact (Expr.code_numbered memory s.function v.init hc).of_labels (by simp)
  | .function f, s, out, h => by
    rcases Decl.code_function_cases h with ⟨-, rfl⟩ | ⟨-, blocks, s', -, hf, rfl⟩
    · exact .of_nil rfl
    · exact (f.code_numbered memory hf).of_labels (by simp [Code.labels_cons, Instruction.defines?])

theorem Function.code_numbered (memory : Word) :
    ∀ (f : Function) {s s' : Supply} {blocks : List Code}, f.code memory s = .ok (blocks, s') →
      Numbered s s' blocks.flatten
  | ⟨_, params, _, locals, body, _⟩, s, s', blocks, h => by
    simp only [Function.code, bind_eq_ok, pure_eq_ok, Prod.exists, Prod.mk.injEq] at h
    obtain ⟨decls, hd, value, n, hv, rfl, rfl⟩ := h
    exact .function (Decl.codeAll_numbered memory locals hd)
      (Expr.code_numbered memory decls.supply.function body hv) (Code.labels_leaveFrame ..)

theorem Decl.codeAll_numbered (memory : Word) :
    ∀ (ds : List Decl) {s : Supply} {out : Output}, Decl.codeAll memory ds s = .ok out →
      Numbered s out.supply (out.code ++ out.blocks.flatten)
  | [], s, out, h => by
    obtain rfl := Except.ok.inj h
    exact .of_nil rfl
  | d :: ds, s, out, h => by
    simp only [Decl.codeAll, bind_eq_ok, pure_eq_ok] at h
    obtain ⟨first, hd, rest, hds, rfl⟩ := h
    refine ((d.code_numbered memory hd).append (Decl.codeAll_numbered memory ds hds)).of_perm ?_
    exact Numbered.perm_blocks first.code rest.code first.blocks rest.blocks
end

theorem DispatchTable.labels_code (t : DispatchTable) : t.code.labels = [] := by
  rw [DispatchTable.code, Code.labels_cons]
  induction t with
  | nil => rfl
  | cons l t ih => rw [List.flatMap_cons, Code.labels_append, ← List.append_assoc]; exact ih

theorem Class.methodCode_numbered (memory : Word) (cls : String) (span : Span) (ds : List Method)
    {table : DispatchTable} {s : Supply} {out : MethodOutput}
    (h : Class.methodCode memory cls span ds table s = .ok out) :
    Numbered s out.supply out.blocks.flatten := by
  induction ds generalizing table s out with
  | nil =>
    obtain rfl := Except.ok.inj h
    exact .of_nil rfl
  | cons d ds ih =>
    rw [Class.methodCode] at h
    split at h
    · exact ih h
    · simp only [bind_eq_ok, pure_eq_ok, Prod.exists] at h
      obtain ⟨blocks, s', hf, i, -, t, -, rest, hrest, rfl⟩ := h
      rw [List.flatten_append]
      exact (d.function.code_numbered memory hf).append (ih hrest)

/-- A class without a name or an entry has neither code nor a table. -/
theorem Class.code_cases {memory : Word} {c : Class} {tables : List DispatchTable} {s : Supply}
    {out : Output × List DispatchTable} (h : c.code memory tables s = .ok out) :
    ((c.name = none ∨ c.entry = none) ∧ out = (⟨[], [], s⟩, tables)) ∨
      ∃ name entry inherited methods slot tables', c.name = some name ∧ c.entry = some entry ∧
        c.inheritedTable name.text tables = .ok inherited ∧
        Class.methodCode memory name.text c.span c.methods inherited s = .ok methods ∧
        Layout.dispatchSlot entry.offset = .ok slot ∧
        DispatchTable.record tables slot methods.table = .ok tables' ∧
        out = (⟨methods.table.code, methods.blocks, methods.supply⟩, tables') := by
  unfold Class.code at h
  cases hname : c.name with
  | none =>
    rw [hname] at h
    exact .inl ⟨.inl rfl, (Except.ok.inj h).symm⟩
  | some name =>
    cases hentry : c.entry with
    | none =>
      rw [hname, hentry] at h
      exact .inl ⟨.inr rfl, (Except.ok.inj h).symm⟩
    | some entry =>
      simp only [hname, hentry, bind_eq_ok, pure_eq_ok] at h
      obtain ⟨inherited, hinherited, methods, hmethods, slot, hslot, tables', hrecord, rfl⟩ := h
      exact .inr ⟨name, entry, inherited, methods, slot, tables', rfl, rfl, hinherited, hmethods,
        ok_of_mapError hslot, ok_of_mapError hrecord, rfl⟩

theorem Class.code_numbered (memory : Word) (c : Class) {tables tables' : List DispatchTable} {s : Supply}
    {out : Output} (h : c.code memory tables s = .ok (out, tables')) :
    Numbered s out.supply (out.code ++ out.blocks.flatten) := by
  rcases Class.code_cases h with
    ⟨-, heq⟩ | ⟨name, entry, inherited, methods, slot, recorded, -, -, -, hm, -, -, heq⟩
  · obtain ⟨rfl, rfl⟩ := Prod.mk.inj heq
    exact .of_nil rfl
  · obtain ⟨rfl, rfl⟩ := Prod.mk.inj heq
    exact (Class.methodCode_numbered memory _ _ _ hm).of_labels (by simp [DispatchTable.labels_code])

theorem Class.codeAll_numbered (memory : Word) (cs : List Class) {tables tables' : List DispatchTable}
    {s : Supply} {out : Output} (h : Class.codeAll memory cs tables s = .ok (out, tables')) :
    Numbered s out.supply (out.code ++ out.blocks.flatten) := by
  induction cs generalizing tables s out with
  | nil =>
    simp only [Class.codeAll, Except.ok.injEq, Prod.mk.injEq] at h
    obtain ⟨rfl, rfl⟩ := h
    exact .of_nil rfl
  | cons c cs ih =>
    simp only [Class.codeAll, bind_eq_ok, pure_eq_ok, Prod.exists, Prod.mk.injEq] at h
    obtain ⟨first, t, hc, rest, t', hcs, rfl, rfl⟩ := h
    exact ((c.code_numbered memory hc).append (ih hcs)).of_perm
      (Numbered.perm_blocks first.code rest.code first.blocks rest.blocks)

/-- No label of an assembly is defined twice. -/
theorem Program.nodup_labels {memory : Word} {p : Program} {a : Assembly} (h : p.generate memory = .ok a) :
    a.instructions.labels.Nodup := by
  cases p with
  | letIn classes decls body span =>
    simp only [Program.generate, bind_eq_ok, pure_eq_ok, Prod.exists] at h
    obtain ⟨cs, tables, hc, ds, hd, value, n, hv, rfl⟩ := h
    have hall :=
      ((Class.codeAll_numbered memory classes hc).append (Decl.codeAll_numbered memory decls hd)).append
      (Expr.code_numbered memory ds.supply.function body hv)
    refine (hall.of_perm (List.perm_iff_count.2 fun l => ?_)).nodup
    simp only [Assembly.instructions, List.flatten_append, Code.labels_append, Code.labels_cons,
      Instruction.defines?,
      Option.toList, Code.labels_nil, List.count_append, List.append_nil, List.nil_append]
    omega
  | expr body span =>
    simp only [Program.generate, bind_eq_ok, pure_eq_ok, Prod.exists] at h
    obtain ⟨value, n, hv, rfl⟩ := h
    exact ((Expr.code_numbered memory 0 body hv).of_labels
      (by simp [Assembly.instructions, Code.labels_cons, Instruction.defines?])).nodup

end Classlet

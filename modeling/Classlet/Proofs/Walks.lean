import Classlet.Proofs.Bodies
import Mathlib.Data.List.TakeWhile
/-!
# Walks along access links

Code follows access links by loading the frame pointer and then one word after the other. `Code.walks` lists
how far it goes each time. The code of an expression goes as far as its annotations say
(`Expr.code_walking`), and so does the block of a function (`Visit.Generates.walking`).
-/

namespace Classlet

/-! ## Walks -/

namespace Code

/-- How many access links are followed each time the frame pointer is loaded. -/
def walks : Code → List Nat
  | [] => []
  | i :: c => if i = .load .fp then (c.takeWhile (· = .loadWord)).length :: walks c else walks c

/-- No more than `k` links are followed, also not if code that ends with the frame pointer is put before
it. -/
structure Walking (k : Nat) (c : Code) : Prop where
  walks : ∀ m ∈ c.walks, m ≤ k
  head : c.head? ≠ some .loadWord

theorem walks_eq_nil {c : Code} (h : Instruction.load .fp ∉ c) : c.walks = [] := by
  induction c with
  | nil => rfl
  | cons i c ih =>
    obtain ⟨hi, hc⟩ := not_or.1 (mt List.mem_cons.2 h)
    rw [Code.walks, if_neg (Ne.symm hi), ih hc]

theorem takeWhile_append_of_head {a b : Code} (hb : b.head? ≠ some .loadWord) :
    (a ++ b).takeWhile (· = .loadWord) = a.takeWhile (· = .loadWord) := by
  induction a with
  | nil =>
    cases b with
    | nil => rfl
    | cons i b =>
      have hi : ¬i = .loadWord := fun heq => hb (by rw [heq]; rfl)
      rw [List.nil_append, List.takeWhile_cons_of_neg (by simpa using hi), List.takeWhile_nil]
  | cons i a ih => rw [List.cons_append, List.takeWhile_cons, List.takeWhile_cons, ih]

theorem walks_append {a b : Code} (hb : b.head? ≠ some .loadWord) :
    (a ++ b).walks = a.walks ++ b.walks := by
  induction a with
  | nil => rfl
  | cons i a ih =>
    rw [List.cons_append, Code.walks, Code.walks, ih, takeWhile_append_of_head hb]
    split <;> rfl

namespace Walking
variable {k : Nat} {a b : Code}

theorem of_not_mem (hfp : Instruction.load .fp ∉ a) (hhead : a.head? ≠ some .loadWord) : Walking k a :=
  ⟨by rw [walks_eq_nil hfp]; exact List.forall_mem_nil _, hhead⟩

theorem append (ha : Walking k a) (hb : Walking k b) : Walking k (a ++ b) where
  walks := by
    rw [walks_append hb.head, List.forall_mem_append]
    exact ⟨ha.walks, hb.walks⟩
  head := by
    cases a with
    | nil => exact hb.head
    | cons i a => exact ha.head

theorem frameAt {hops : Nat} (h : hops ≤ k) : Walking k (frameAt hops) where
  walks := by
    have hrest : Code.walks (List.replicate hops .loadWord) = [] :=
      walks_eq_nil fun hmem => by cases (List.mem_replicate.1 hmem).2
    have htake : (List.replicate hops Instruction.loadWord).takeWhile (· = .loadWord) =
        List.replicate hops .loadWord :=
      List.takeWhile_eq_self_iff.2 fun i hi => by simpa using (List.mem_replicate.1 hi).2
    rw [Code.frameAt, Code.walks, if_pos rfl, hrest, htake, List.length_replicate,
      List.forall_mem_singleton]
    exact h
  head := by simp [Code.frameAt]

/-- The frame pointer itself, which a call saves. -/
theorem loadFp : Walking k [.load .fp] := frameAt (Nat.zero_le k)

theorem loadAt (o : Int) : Walking k (loadAt o) :=
  of_not_mem (by simp [Code.loadAt]) (by simp [Code.loadAt])

theorem select (l l' : Label) (x y : Bool) : Walking k (select l l' x y) :=
  of_not_mem (by simp [Code.select, Code.pushBool]) (by simp [Code.select, Code.pushBool])

theorem call (ha : Walking k a) {r : Resolution} (hr : r.hops ≤ k) : Walking k (call a r) := by
  -- the load of the dispatch pointer comes after the address was doubled, so it is not part of the walk
  have htarget : Walking k (duplicate ++ if r.entry.type.isMethod then [.loadWord] else []) := by
    split <;> exact of_not_mem (by simp [duplicate]) (by simp [duplicate])
  have hjump : Walking k [.jumpSubroutine] := of_not_mem (by simp) (by simp)
  have hcall := (((loadFp.append ha).append (frameAt hr)).append htarget).append
    (loadAt r.entry.offset) |>.append hjump
  simpa only [Code.call, List.append_assoc] using hcall

theorem callMethod (ha : Walking k a) {r : Resolution} (hr : r.hops ≤ k) (method : Entry) :
    Walking k (callMethod a r method) := by
  have hdispatch : Walking k (duplicate ++ [.loadWord]) :=
    of_not_mem (by simp [duplicate]) (by simp [duplicate])
  have hjump : Walking k [.jumpSubroutine] := of_not_mem (by simp) (by simp)
  have hcall :=
    ((((loadFp.append ha).append (frameAt hr)).append (loadAt r.entry.offset)).append hdispatch).append
      (loadAt method.offset) |>.append hjump
  simpa only [Code.callMethod, List.append_assoc] using hcall

theorem construct (ha : Walking k a) (count : Nat) (table : Word) :
    Walking k (construct a count table) := by
  have hstores : Walking k (List.replicate count storeOnHeap).flatten := by
    induction count with
    | zero => exact of_not_mem (by simp) (by simp)
    | succ count ih =>
      rw [List.replicate_succ, List.flatten_cons]
      exact append (of_not_mem (by simp [storeOnHeap, bumpHeap]) (by simp [storeOnHeap])) ih
  rw [Code.construct]
  exact ((ha.append hstores).append (of_not_mem (by simp) (by simp))).append
    (of_not_mem (by simp [bumpHeap]) (by simp [bumpHeap]))

theorem conditional {c : Code} (hc : Walking k c) (ha : Walking k a) (hb : Walking k b) (n : Nat) :
    Walking k (conditional c a b n) := by
  rw [Code.conditional]
  refine ((((hc.append ?_).append hb).append ?_).append ha).append ?_
  all_goals exact of_not_mem (by simp [pushBool]) (by simp [pushBool])

theorem negation (ha : Walking k a) (n : Nat) : Walking k (negation a n) := by
  rw [Code.negation]
  exact (ha.append (of_not_mem (by simp [pushBool]) (by simp [pushBool]))).append (select _ _ _ _)

end Walking

end Code

open Code in
theorem BinaryOp.code_walking (op : BinaryOp) {k : Nat} {left right : Code} (hl : left.Walking k)
    (hr : right.Walking k) (n : Nat) :
    Walking k (op.code left right n) := by
  have hboth := hl.append hr
  cases op with
  | arith op => exact hboth.append (.of_not_mem (by simp) (by simp))
  | equal | lessEqual | greaterEqual =>
    refine (hboth.append (.of_not_mem ?_ ?_)).append (.select _ _ _ _)
    all_goals simp
  | logic op =>
    refine (((hl.append (.of_not_mem ?_ ?_)).append hr).append (.of_not_mem ?_ ?_)).append (.select _ _ _ _)
    all_goals simp [pushBool]

/-! ## Generated code -/

theorem mem_filled_cons {note : Note} {notes : List Note} {u : String × Resolution} :
    u ∈ (note :: notes).filterMap Note.filled? ↔ note.filled? = some u ∨
    u ∈ notes.filterMap Note.filled? := by
  simp only [List.mem_filterMap, List.mem_cons, or_and_right, exists_or, exists_eq_left]

section Generated
variable {memory : Word} {k : Nat}

open Code in
mutual
/-- The code of an expression follows only the links that its annotations say. -/
theorem Expr.code_walking : ∀ (e : Expr) {n n' : Nat} {c : Code}, e.code memory n = .ok (c, n') →
    (∀ u ∈ e.notes.filterMap Note.filled?, u.2.hops ≤ k) → Walking k c
  | .int .., _, _, _, h, _ | .bool .., _, _, _, h, _ | .null _, _, _, _, h, _ => by
    obtain ⟨rfl, -⟩ := Prod.mk.inj (Except.ok.inj h)
    exact .of_not_mem (by simp [pushBool]) (by simp [pushBool])
  | .ident name target, _, _, _, h, hu => by
    simp only [Expr.code, bind_eq_ok, required_eq_ok, pure_eq_ok, Prod.mk.injEq] at h
    obtain ⟨r, rfl, rfl, -⟩ := h
    exact (Walking.frameAt (hu _ (mem_filled_cons.2 (.inl rfl)))).append (.loadAt _)
  | .call callee args span target, _, _, _, h, hu => by
    simp only [Expr.code, bind_eq_ok, required_eq_ok, pure_eq_ok, Prod.exists, Prod.mk.injEq] at h
    obtain ⟨r, rfl, c, m, hargs, rfl, -⟩ := h
    exact (Expr.codeReversed_walking args hargs fun u hmem => hu u (mem_filled_cons.2 (.inr hmem))).call
      (hu _ (mem_filled_cons.2 (.inl rfl)))
  | .methodCall object method args span receiver target, _, _, _, h, hu => by
    simp only [Expr.code, bind_eq_ok, required_eq_ok, pure_eq_ok, Prod.exists, Prod.mk.injEq] at h
    obtain ⟨r, rfl, entry, -, c, m, hargs, rfl, -⟩ := h
    exact (Expr.codeReversed_walking args hargs fun u hmem =>
      hu u (mem_filled_cons.2 (.inr hmem))).callMethod
      (hu _ (mem_filled_cons.2 (.inl rfl))) entry
  | .new cls args span target, _, _, _, h, hu => by
    simp only [Expr.code, bind_eq_ok, required_eq_ok, pure_eq_ok, Prod.exists, Prod.mk.injEq] at h
    obtain ⟨entry, -, c, m, hargs, address, -, rfl, -⟩ := h
    exact (Expr.codeAll_walking args hargs fun u hmem => hu u (mem_filled_cons.2 (.inr hmem))).construct _ _
  | .ite c t e span, n, _, _, h, hu => by
    simp only [Expr.code, bind_eq_ok, pure_eq_ok, Prod.exists, Prod.mk.injEq] at h
    obtain ⟨cond, m₁, hc, elseCode, m₂, he, thenCode, m₃, ht, rfl, -⟩ := h
    rw [Expr.notes, List.filterMap_append, List.filterMap_append, List.forall_mem_append,
      List.forall_mem_append] at hu
    exact (c.code_walking hc hu.1.1).conditional (t.code_walking ht hu.1.2) (e.code_walking he hu.2) n
  | .binary op l r span, _, _, _, h, hu => by
    simp only [Expr.code, bind_eq_ok, pure_eq_ok, Prod.exists, Prod.mk.injEq] at h
    obtain ⟨left, m₁, hl, right, m₂, hr, rfl, -⟩ := h
    rw [Expr.notes, List.filterMap_append, List.forall_mem_append] at hu
    exact op.code_walking (l.code_walking hl hu.1) (r.code_walking hr hu.2) m₁
  | .not e span, n, _, _, h, hu => by
    simp only [Expr.code, bind_eq_ok, pure_eq_ok, Prod.exists, Prod.mk.injEq] at h
    obtain ⟨operand, m, he, rfl, -⟩ := h
    exact (e.code_walking he hu).negation n
  | .print e span, _, _, _, h, hu => by
    simp only [Expr.code, bind_eq_ok, pure_eq_ok, Prod.exists, Prod.mk.injEq] at h
    obtain ⟨value, m, he, rfl, -⟩ := h
    exact (e.code_walking he hu).append (.of_not_mem (by simp) (by simp))

theorem Expr.codeAll_walking :
    ∀ (es : List Expr) {n n' : Nat} {c : Code}, Expr.codeAll memory es n = .ok (c, n') →
    (∀ u ∈ (Expr.listNotes es).filterMap Note.filled?, u.2.hops ≤ k) → Walking k c
  | [], _, _, _, h, _ => by
    obtain ⟨rfl, -⟩ := Prod.mk.inj (Except.ok.inj h)
    exact .of_not_mem (by simp) (by simp)
  | e :: es, _, _, _, h, hu => by
    simp only [Expr.codeAll, bind_eq_ok, pure_eq_ok, Prod.exists, Prod.mk.injEq] at h
    obtain ⟨first, m₁, hfirst, rest, m₂, hrest, rfl, -⟩ := h
    rw [Expr.listNotes, List.filterMap_append, List.forall_mem_append] at hu
    exact (e.code_walking hfirst hu.1).append (Expr.codeAll_walking es hrest hu.2)

theorem Expr.codeReversed_walking :
    ∀ (es : List Expr) {n n' : Nat} {c : Code}, Expr.codeReversed memory es n = .ok (c, n') →
    (∀ u ∈ (Expr.listNotes es).filterMap Note.filled?, u.2.hops ≤ k) → Walking k c
  | [], _, _, _, h, _ => by
    obtain ⟨rfl, -⟩ := Prod.mk.inj (Except.ok.inj h)
    exact .of_not_mem (by simp) (by simp)
  | e :: es, _, _, _, h, hu => by
    simp only [Expr.codeReversed, bind_eq_ok, pure_eq_ok, Prod.exists, Prod.mk.injEq] at h
    obtain ⟨rest, m₁, hrest, first, m₂, hfirst, rfl, -⟩ := h
    rw [Expr.listNotes, List.filterMap_append, List.forall_mem_append] at hu
    exact (Expr.codeReversed_walking es hrest hu.2).append (e.code_walking hfirst hu.1)
end

theorem Decl.codeAll_walking {classes : Table VirtualTable} {s : Scopes} {ds : List Decl} {supply : Supply}
    {out : Output} (h : Decl.codeAll memory (Decl.annotateAll classes s ds) supply = .ok out)
    (hu : ∀ u ∈ (Decl.inits s ds).flatMap (Expr.found classes), u.2.hops ≤ k) :
    Code.Walking k out.code := by
  induction ds generalizing s supply out with
  | nil =>
    obtain rfl := Except.ok.inj h
    exact .of_not_mem (by simp) (by simp)
  | cons d ds ih =>
    simp only [Decl.annotateAll, Decl.codeAll, bind_eq_ok, pure_eq_ok] at h
    obtain ⟨first, hfirst, rest, hrest, rfl⟩ := h
    rw [Decl.inits, List.flatMap_append, List.forall_mem_append] at hu
    refine Code.Walking.append ?_ (ih hrest hu.2)
    cases d with
    | var v =>
      rcases Decl.code_annotate_var hfirst with ⟨-, rfl⟩ | ⟨q, code, n, hv, hcode, rfl⟩
      · exact .of_not_mem (by simp) (by simp)
      · refine Expr.code_walking _ hcode fun u hmem => hu.1 u ?_
        simpa [Decl.init?, hv, Expr.found] using hmem
    | function f =>
      -- only the entry address is pushed here; the code of the function is a block of its own
      rcases Decl.code_annotate_function hfirst with
        ⟨-, rfl⟩ | ⟨name, signature, blocks, supply', -, -, rfl⟩
      · exact .of_not_mem (by simp) (by simp)
      · exact .of_not_mem (by simp) (by simp)

/-- The block of a body follows the links that the uses in it say. -/
theorem Visit.Generates.walking {v : Visit} {block : Code} (h : v.Generates memory block)
    (hu : ∀ u ∈ v.found, u.2.hops ≤ k) :
    block.Walking k := by
  obtain ⟨classes, s, ⟨name, params, ret, locals, body, span⟩⟩ := v
  obtain ⟨supply, decls, value, n, hdecls, hvalue, rfl⟩ := h
  rw [Visit.found, Visit.exprs, List.flatMap_append, List.forall_mem_append, List.flatMap_singleton] at hu
  have hleave : (Code.leaveFrame
      (Decl.slots (Decl.annotateAll classes (s.enter params) locals)) params.length).Walking k :=
    .of_not_mem (by simp [Code.leaveFrame, Code.pops, List.mem_replicate]) (by simp [Code.leaveFrame])
  have henter : (Code.enterFrame (.function supply.function)).Walking k :=
    .of_not_mem (by simp [Code.enterFrame]) (by simp [Code.enterFrame])
  exact ((henter.append (Decl.codeAll_walking hdecls hu.1)).append
    (Expr.code_walking _ hvalue hu.2)).append hleave

end Generated

end Classlet

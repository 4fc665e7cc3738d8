import Classlet.Compile
import Classlet.Proofs.Ledger
/-!
# Compiled programs

The code of a program first builds the dispatch tables of all classes at the bottom of the heap and keeps
their addresses at the bottom of the stack. Once it has, what was compiled is `Linkage.Sound`, so
declarations and the body do what evaluation says, and the machine halts with the word of the value on top
of the stack (`Program.follows`).
-/

namespace Classlet

open Machine

/-- How a machine starts. -/
def Machine.Snapshot.initial (size : Nat) : Snapshot := ⟨0, .ofInt size, .ofInt 0, .ofInt 0, [], [], []⟩

theorem Machine.shows_initial (size : Nat) : Shows size (.initial size) (.initial size) where
  ip := rfl
  fp := rfl
  ra := rfl
  tm := rfl
  words := by simp [State.initial]
  sp := rfl
  hp := rfl
  room := Nat.zero_le _
  stack i := by simp [State.initial, Snapshot.initial]
  heap i hi := by cases hi
  printed := rfl

/-! ## Dispatch tables in memory -/

/-- The word that stands for a label. -/
def Code.labelWord (code : Code) (l : Label) : Word := .ofInt ((addressOf? l code).getD 0)

/-- Where tables that are stored one after the other start. -/
def DispatchTable.starts (n : Nat) : List DispatchTable → List Nat
  | [] => []
  | t :: ts => n :: starts (n + t.length) ts

theorem DispatchTable.getElem?_starts {ts : List DispatchTable} {n k : Nat} (hk : k < ts.length) :
    (starts n ts)[k]? = some (n + ((ts.take k).map List.length).sum) := by
  induction ts generalizing n k with
  | nil => cases hk
  | cons t ts ih =>
    cases k with
    | zero => rfl
    | succ k =>
      rw [starts, List.getElem?_cons_succ, ih (Nat.lt_of_succ_lt_succ hk)]
      simp [Nat.add_assoc]

theorem DispatchTable.getElem?_flatten {ts : List DispatchTable} {t : DispatchTable} {k i : Nat} {l : Label}
    (ht : ts[k]? = some t) (hl : t[i]? = some l) :
    ts.flatten[((ts.take k).map List.length).sum + i]? = some l := by
  induction ts generalizing k with
  | nil => cases ht
  | cons t' ts ih =>
    cases k with
    | zero =>
      obtain rfl := Option.some.inj ht
      rw [List.flatten_cons, List.take_zero, List.map_nil, List.sum_nil, Nat.zero_add]
      exact prefix_getElem? (List.prefix_append _ _) hl
    | succ k =>
      rw [List.flatten_cons, List.take_succ_cons, List.map_cons, List.sum_cons, Nat.add_assoc,
        List.getElem?_append_right (Nat.le_add_right _ _), Nat.add_sub_cancel_left]
      exact ih (by simpa using ht)

namespace Machine

section Tables
variable {code : Code} {size words ip : Nat} {fp ra tm : Word} {σ heap out : List Word}

/-- Stores the labels of a table. -/
theorem Advances.storeLabels (hsize : (size : Int) < 9223372036854775808) (t : DispatchTable)
    (hwords : σ.length + heap.length + t.length + 1 < words) (hl : ∀ l ∈ t, ∃ a, addressOf? l code = some a)
    (hc : code.At ip (t.flatMap fun l => .pushLabel l :: Code.storeOnHeap)) :
    Advances code size (t.flatMap fun l => .pushLabel l :: Code.storeOnHeap).length words
      ⟨ip, fp, ra, tm, σ, heap, out⟩
      ⟨ip + (t.flatMap fun l => .pushLabel l :: Code.storeOnHeap).length, fp, ra, tm, σ,
        heap ++ t.map code.labelWord, out⟩ := by
  induction t generalizing ip heap with
  | nil =>
    rw [List.map_nil, List.append_nil]
    exact .refl _
  | cons l t ih =>
    obtain ⟨⟨a, ha⟩, hl⟩ := List.forall_mem_cons.1 hl
    have hword : code.labelWord l = .ofInt a := by rw [Code.labelWord, ha]; rfl
    rw [List.flatMap_cons, Code.at_append, Code.at_cons] at hc
    have hlength : (List.flatMap (fun l => Instruction.pushLabel l :: Code.storeOnHeap) (l :: t)).length =
        1 + 6 + (t.flatMap fun l => .pushLabel l :: Code.storeOnHeap).length := by
      rw [List.flatMap_cons, List.length_append]
      rfl
    rw [List.length_cons] at hwords
    rw [hlength, ← Nat.add_assoc, ← Nat.add_assoc, List.map_cons, List.append_cons heap, hword]
    have hpush : Advances code size 1 words ⟨ip, fp, ra, tm, σ, heap, out⟩ _ :=
      (Moves.pushLabel hc.1.1 ha).advances (by simp only; omega)
    refine (hpush.trans (.storeOnHeap hsize (by omega) hc.1.2)).trans (ih ?_ hl hc.2)
    rw [List.length_append, List.length_singleton]
    omega

/-- Stores tables and leaves their addresses, the last one on top. -/
theorem Advances.storeTables (hsize : (size : Int) < 9223372036854775808) (ts : List DispatchTable)
    (hwords : σ.length + heap.length + ts.length + ts.flatten.length + 1 < words)
    (hl : ∀ t ∈ ts, ∀ l ∈ t, ∃ a, addressOf? l code = some a)
    (hc : code.At ip (ts.flatMap DispatchTable.code)) :
    Advances code size (ts.flatMap DispatchTable.code).length words ⟨ip, fp, ra, tm, σ, heap, out⟩
      ⟨ip + (ts.flatMap DispatchTable.code).length, fp, ra, tm,
        ((DispatchTable.starts heap.length ts).map fun n : Nat => Word.ofInt n).reverse ++ σ,
        heap ++ ts.flatten.map code.labelWord, out⟩ := by
  induction ts generalizing ip heap σ with
  | nil =>
    rw [List.flatten_nil, List.map_nil, List.append_nil]
    exact .refl _
  | cons t ts ih =>
    rw [List.forall_mem_cons] at hl
    rw [List.flatMap_cons, Code.at_append, DispatchTable.code, Code.at_cons] at hc
    have hcode : t.code.length = 1 + (t.flatMap fun l => .pushLabel l :: Code.storeOnHeap).length := by
      rw [DispatchTable.code, List.length_cons, Nat.add_comm]
    have hstack : ((DispatchTable.starts heap.length (t :: ts)).map fun n : Nat =>
        Word.ofInt n).reverse ++ σ =
        ((DispatchTable.starts (heap ++ t.map code.labelWord).length ts).map fun n : Nat =>
          Word.ofInt n).reverse ++
          (.ofInt heap.length :: σ) := by
      simp [DispatchTable.starts]
    have hheap : heap ++ (t :: ts).flatten.map code.labelWord =
        heap ++ t.map code.labelWord ++ ts.flatten.map code.labelWord := by simp
    rw [List.length_cons, List.flatten_cons, List.length_append] at hwords
    rw [List.flatMap_cons, List.length_append, ← Nat.add_assoc, hstack, hheap, hcode, ← Nat.add_assoc]
    have hload : Advances code size 1 words ⟨ip, fp, ra, tm, σ, heap, out⟩ _ :=
      (Moves.loadHp hc.1.1).advances (by simp only; omega)
    refine (hload.trans (.storeLabels hsize t ?_ hl.1 hc.1.2)).trans (ih ?_ hl.2 ?_)
    · rw [List.length_cons]
      omega
    · rw [List.length_cons, List.length_append, List.length_map]
      omega
    · have hrest := hc.2
      rwa [List.length_cons, Nat.add_comm _ 1, ← Nat.add_assoc] at hrest

end Tables

end Machine

/-! ## Linkage -/

namespace Linkage

section Linkage
variable {L : Linkage} {env : Env} {h : Hierarchy} {tables : List DispatchTable}

/-- All labels in dispatch tables are defined. -/
theorem Ledger.labels (hl : L.Ledger L.classes env h tables) :
    ∀ t ∈ tables, ∀ l ∈ t, ∃ a, addressOf? l L.code = some a := by
  intro t ht l hlt
  obtain ⟨k, hk⟩ := List.mem_iff_getElem?.1 ht
  obtain ⟨i, hi⟩ := List.mem_iff_getElem?.1 hlt
  obtain ⟨cls, r, hr, hoffset⟩ := hl.tabled k (List.getElem?_eq_some_iff.1 hk).1
  have hlength := hl.length cls r k t hr hoffset hk
  have hslots := (hl.registry.named cls r hr).methodSlots.length
  have hilt := (List.getElem?_eq_some_iff.1 hi).1
  obtain ⟨d, f, entry, t', l', -, -, -, ht', hl', haddress⟩ := hl.method cls r k i _ _ hr hoffset
    (List.getElem?_eq_getElem (by omega)) (List.getElem?_eq_getElem (by omega))
  obtain rfl := Option.some.inj (hk.symm.trans ht')
  obtain rfl := Option.some.inj (hi.symm.trans hl')
  exact ⟨entry, haddress⟩

theorem Ledger.refines (hl : L.Ledger L.classes env h tables) {a b : String}
    (hab : Classes.Subclass L.classes a b) {r : ClassInfo} (hr : L.info? a = some r) :
    ∃ r', L.info? b = some r' ∧ r.Refines L.classes r' := by
  induction hab using Relation.ReflTransGen.head_induction_on generalizing r with
  | refl => exact ⟨r, hr, .refl _ r⟩
  | head hac _ ih =>
    obtain ⟨r₁, r₂, h₁, h₂, hrefines⟩ := hl.extend _ _ hac
    obtain rfl := Option.some.inj (hr.symm.trans h₁)
    obtain ⟨r', hr', hrefines'⟩ := ih h₂
    exact ⟨r', hr', hrefines.trans hrefines' (hl.registry.named _ _ h₂) (hl.registry.named _ _ hr')⟩

theorem Ledger.sound (hl : L.Ledger L.classes env h tables) (hmemory : 0 ≤ L.memory.val)
    (hlength : (L.code.length : Int) < 9223372036854775808) (hn : L.code.labels.Nodup)
    (htables : L.tables = tables.flatten.map L.code.labelWord)
    (hbase : ∀ k, k < tables.length →
      L.base.reverse[k + 1]? = some (.ofInt ((tables.take k).map List.length).sum)) :
    L.Sound where
  memory := hmemory
  length := hlength
  nodup := hn
  declared := hl.declared
  named := hl.registry.named
  slot cls r hr := by
    obtain ⟨k, hk, hoffset⟩ := hl.registry.slot cls r hr
    refine ⟨k + 1, ?_, ?_⟩
    · rw [hbase k hk, hl.start cls r k hr hoffset]
    · rw [hoffset, Layout.firstLocalOffset]
      omega
  refines a b r hab hr := hl.refines hab hr
  method cls r i m signature hr hi hs := by
    obtain ⟨k, hk, hoffset⟩ := hl.registry.slot cls r hr
    obtain ⟨d, f, entry, t, l, hmethod, hsub, hcompiled, ht, hlabel, haddress⟩ :=
      hl.method cls r k i m signature hr hoffset hi hs
    refine ⟨d, f, entry, hmethod, hsub, hcompiled, ?_⟩
    rw [htables, List.getElem?_map, hl.start cls r k hr hoffset, DispatchTable.getElem?_flatten ht hlabel,
      Option.map_some, Code.labelWord, haddress]
    rfl

end Linkage

/-- The machine is about to halt with the value `v` of type `t`, and shows the objects and the output of
`w`. -/
structure Finishes (L : Linkage) (t : Ty) (v : Value) (w : World) (c : Snapshot) : Prop where
  halts : L.code[c.ip]? = some .halt
  represents : L.Represents w c.heap c.printed
  base : L.base <:+ c.stack
  top : ∃ x σ, c.stack = x :: σ ∧ v.word? L.start w.store = some x
  typed : v.HasType L.classes w.store t

/-- The body of a program, after its declarations. -/
theorem Sound.followsBody {L : Linkage} {stage : Stage} {s : Scopes} {context : List Binding} {w : World}
    {t : Ty} {body : Expr} {value : Code} {k k' n ip : Nat} {fp ra tm : Word} {σ heap out : List Word}
    (hL : L.Sound) (hcov : L.Covers stage) (hb : Bare body.notes)
    (ht : (body.annotate ⟨s, stage.classes⟩).typeOf stage.hierarchy = .ok t)
    (hc : (body.annotate ⟨s, stage.classes⟩).code L.memory k = .ok (value, k'))
    (hat : L.code.At ip (value ++ [.halt])) (hw : L.Represents w heap out)
    (hf : L.Frames stage w.store σ s context fp.val) :
    Follows L.code L.size n (body.eval ⟨L.classes, true⟩ (Function.apply ⟨L.classes, true⟩ n) context w)
      (fun (v, w) => L.Finishes t v w) ⟨ip, fp, ra, tm, σ, heap, out⟩ := by
  rw [Code.at_append, Code.at_cons] at hat
  refine ((Expr.realizes hL (hL.calls n) hcov body hb ht hc).follows hat.1 hw hf).mono ?_
  rintro ⟨v, w'⟩ c - ⟨x, ra', tm', heap', out', rfl, hs, hw', hx, hv⟩
  exact ⟨hat.2.1, hw', hf.base.trans (List.suffix_cons x σ), ⟨x, σ, rfl, hx⟩, hv⟩

/-- The linkage of a program with declarations, before anything is known of its classes. -/
def ofTables (classes : List Class) (code : Code) (memory : Word) (tables : List DispatchTable) :
    Linkage where
  classes := classes
  code := code
  memory := memory
  info? _ := none
  tables := tables.flatten.map code.labelWord
  base := ((DispatchTable.starts 0 tables).map fun n : Nat => Word.ofInt n).reverse ++ [.ofInt 0]

end Linkage

theorem DispatchTable.length_starts (n : Nat) (ts : List DispatchTable) :
    (starts n ts).length = ts.length := by
  induction ts generalizing n with
  | nil => rfl
  | cons t ts ih => rw [starts, List.length_cons, List.length_cons, ih]

section OfTables
variable {classes : List Class} {code : Code} {memory : Word} {tables : List DispatchTable}
  {info? : String → Option ClassInfo} {env : Env} {h : Hierarchy}

theorem Linkage.Ledger.sound_ofTables
    (hl : ((Linkage.ofTables classes code memory tables).withInfo info?).Ledger classes env h tables)
    (hmemory : 0 ≤ memory.val) (hlength : (code.length : Int) < 9223372036854775808)
    (hn : code.labels.Nodup) :
    ((Linkage.ofTables classes code memory tables).withInfo info?).Sound := by
  refine hl.sound hmemory hlength hn rfl fun k hk => ?_
  simp only [Linkage.withInfo, Linkage.ofTables, List.reverse_append, List.reverse_reverse,
    List.reverse_singleton,
    List.singleton_append, List.getElem?_cons_succ, List.getElem?_map, DispatchTable.getElem?_starts hk,
    Nat.zero_add, Option.map_some]

/-- The code of the classes builds the tables. -/
theorem Linkage.Ledger.goes_ofTables {L : Linkage}
    (hL : (Linkage.ofTables classes code memory tables).withInfo info? = L)
    (hl : L.Ledger L.classes env h tables)
    (hat : L.code.At 0 (.push (.ofInt 0) :: tables.flatMap DispatchTable.code)) :
    Goes L.code L.size (.initial L.size)
      ⟨1 + (tables.flatMap DispatchTable.code).length, .ofInt L.size, .ofInt 0, .ofInt 0, L.base,
        L.tables, []⟩ := by
  have hlabels := hl.labels
  have hsize := L.size_lt
  have hbase : L.base = ((DispatchTable.starts 0 tables).map fun n : Nat => Word.ofInt n).reverse ++
      [.ofInt 0] := by
    rw [← hL]
    rfl
  have htables : L.tables = [] ++ tables.flatten.map L.code.labelWord := by
    rw [← hL]
    rfl
  rw [Code.at_cons] at hat
  rw [hbase, htables]
  exact (Moves.push hat.1).trans (Advances.storeTables hsize tables (Nat.lt_succ_self _) hlabels hat.2).goes

end OfTables

/-! ## Programs -/

/-- The program `p` was resolved, checked and compiled without problems. -/
structure Program.Accepted (p : Program) (memory : Word) (r : Resolved) (t : Ty) (a : Assembly) : Prop where
  resolved : p.resolve = .ok r
  names : r.reports = []
  checked : ∃ h, r.tree.check .empty = .ok ⟨some t, [], h⟩
  generated : r.tree.generate memory = .ok a

/-- The words that the dispatch tables of a resolved program take. -/
def Program.tableSize (tree : Program) : Nat := (tree.classes.filterMap Class.methodCount?).sum

/-- Compilation succeeds only for programs that were accepted. -/
theorem Options.accepted_of_compile {options : Options} {p : Program} {c : Compilation} {e : Executable}
    (hc : options.compile p = .ok c) (he : c.result = .ok e) :
    ∃ r, p.Accepted options.memorySize r e.type e.assembly := by
  simp only [Options.compile, bind_eq_ok] at hc
  obtain ⟨r, hr, hc⟩ := hc
  split at hc
  · obtain rfl := pure_eq_ok.1 hc
    cases he
  · next hstop =>
    simp only [bind_eq_ok] at hc
    obtain ⟨⟨type, reports, h⟩, hcheck, hc⟩ := hc
    split at hc
    · next t htype hreports =>
      simp only at htype hreports
      subst htype hreports
      split at hc
      · obtain rfl := pure_eq_ok.1 hc
        cases he
      · next hscope =>
        simp only [bind_eq_ok, pure_eq_ok] at hc
        obtain ⟨result, hfinish, rfl⟩ := hc
        simp only at he
        subst he
        unfold Options.finish at hfinish
        split at hfinish
        · next a ha =>
          obtain rfl := Except.ok.inj (Except.ok.inj hfinish)
          exact ⟨r, hr, List.length_eq_zero_iff.1 (by omega), ⟨h, hcheck⟩, ha⟩
        · cases hfinish
        · cases hfinish
    · obtain rfl := pure_eq_ok.1 hc
      cases he

theorem Options.tree_of_compile {options : Options} {p : Program} {c : Compilation}
    (hc : options.compile p = .ok c) {r : Resolved} (hr : p.resolve = .ok r) : c.tree = r.tree := by
  simp only [Options.compile, hr, ok_bind] at hc
  split at hc
  · obtain rfl := pure_eq_ok.1 hc
    rfl
  · simp only [bind_eq_ok] at hc
    obtain ⟨checked, -, hc⟩ := hc
    split at hc
    · split at hc
      · obtain rfl := pure_eq_ok.1 hc
        rfl
      · simp only [bind_eq_ok, pure_eq_ok] at hc
        obtain ⟨result, -, rfl⟩ := hc
        rfl
    · obtain rfl := pure_eq_ok.1 hc
      rfl

/-- Checking that finds no type reports why. -/
theorem Program.check_type_isSome {tree : Program} {h : Hierarchy} {checked : Checked}
    (hc : tree.check h = .ok checked) (hr : checked.reports = []) : checked.type.isSome = true := by
  simp only [Program.check, bind_eq_ok, Prod.exists] at hc
  obtain ⟨h', reports, -, hc⟩ := hc
  split at hc
  · obtain rfl := pure_eq_ok.1 hc
    rfl
  · obtain rfl := pure_eq_ok.1 hc
    simp at hr

theorem Program.check_eq_ok {tree : Program} {t : Ty} {h : Hierarchy}
    (hc : tree.check .empty = .ok ⟨some t, [], h⟩) :
    Class.checkAll .empty tree.classes = .ok (h, []) ∧ Decl.allTypeReports h .error tree.decls = [] ∧
      tree.body.typeOf h = .ok t := by
  simp only [Program.check, bind_eq_ok, Prod.exists] at hc
  obtain ⟨h', reports, hclasses, hc⟩ := hc
  split at hc
  · next type htype =>
    simp only [pure_eq_ok, Checked.mk.injEq, Option.some.injEq, List.append_eq_nil_iff] at hc
    obtain ⟨rfl, ⟨rfl, hdecls⟩, rfl⟩ := hc
    exact ⟨hclasses, hdecls, htype⟩
  · simp only [pure_eq_ok, Checked.mk.injEq, reduceCtorEq, false_and] at hc

theorem Assembly.at_main (a : Assembly) : a.instructions.At 0 a.main := ⟨a.functions.flatten, rfl⟩

theorem Assembly.at_function {a : Assembly} {b : Code} (hb : b ∈ a.functions) :
    ∃ ip, a.instructions.At ip b := by
  obtain ⟨before, after, hsplit⟩ := List.append_of_mem hb
  refine ⟨(a.main ++ before.flatten).length, after.flatten, ?_⟩
  rw [Assembly.instructions, hsplit, List.flatten_append, List.flatten_cons, ← List.append_assoc,
    List.drop_left]

/-- What the linkage `L` of a compiled program is for. -/
structure Program.LinkedBy (p : Program) (memory : Word) (r : Resolved) (t : Ty) (a : Assembly)
    (L : Linkage) : Prop where
  classes : L.classes = p.classes.reverse
  code : L.code = a.instructions
  memory : L.memory = memory
  start : L.start = r.tree.tableSize
  sound : L.Sound
  place (cls : String) (r : ClassInfo) : L.info? cls = some r →
    ∃ k : Nat, (Classes.names L.classes)[k]? = some cls ∧ r.offset = Layout.firstLocalOffset - k
  follows (n : Nat) : Follows L.code L.size n (p.eval true n) (fun (v, w) => L.Finishes t v w)
    (.initial L.size)

section Programs
variable {memory : Word} {r : Resolved} {t : Ty} {a : Assembly}

/-- The scopes and the frame after the classes of a program. -/
theorem Linkage.Ledger.frames_ofTables {classes : List Class} {code : Code} {tables : List DispatchTable}
    {info? : String → Option ClassInfo} {env : Env} {h : Hierarchy} {L : Linkage}
    (hL : (Linkage.ofTables classes code memory tables).withInfo info? = L)
    (hl : L.Ledger L.classes env h tables) {fp : Word} (hfp : fp.val = L.size) :
    L.Covers ⟨env.classes, h⟩ ∧ L.Frames ⟨env.classes, h⟩ [] L.base env.scopes [] fp.val ∧
    L.NextLocal env.scopes fp L.base := by
  have hreg := hl.registry
  have hlength : L.base.length = tables.length + 1 := by
    rw [← hL]
    simp [Linkage.withInfo, Linkage.ofTables, DispatchTable.length_starts]
  refine ⟨⟨fun cls table htable => ?_, hl.within⟩, ?_, ?_⟩
  · obtain ⟨r, hr, rfl⟩ := (hreg.tables cls table).1 htable
    exact ⟨r, hr, rfl⟩
  · have hscopes : env.scopes = ⟨[], env.scopes.global⟩ := by rw [← hreg.nested]
    rw [hscopes, hfp]
    exact .main (List.suffix_refl _) fun x e he => (hreg.bound x e).1 he
  · rw [Linkage.NextLocal, hfp, hreg.next, hlength, Layout.firstLocalOffset]
    omega

theorem Program.linked_letIn {classes : List Class} {decls : List Decl} {body : Expr} {span : Span}
    (h : (letIn classes decls body span).Accepted memory r t a)
    (hb : Bare (letIn classes decls body span).notes) (ht : Written (letIn classes decls body span).types)
    (hm : 0 ≤ memory.val) (hlen : (a.instructions.length : Int) < 9223372036854775808) :
    ∃ L, (letIn classes decls body span).LinkedBy memory r t a L := by
  have hn := Program.nodup_labels h.generated
  have hmain := a.at_main
  have hplaced := fun b => Assembly.at_function (a := a) (b := b)
  obtain ⟨hres, hreports, ⟨hierarchy, hcheck⟩, hgen⟩ := h
  simp only [Program.resolve, bind_eq_ok, pure_eq_ok] at hres
  obtain ⟨resolved, hclasses, rfl⟩ := hres
  simp only [List.append_eq_nil_iff, Diagnostic.errors, List.map_eq_nil_iff] at hreports
  obtain ⟨hclassReports, hdeclNames, -⟩ := hreports
  obtain ⟨hclassTypes, hdeclTypes, hbodyType⟩ := Program.check_eq_ok hcheck
  simp only [Program.generate, bind_eq_ok, pure_eq_ok, Prod.exists] at hgen
  obtain ⟨cs, tables, hcs, ds, hds, value, branch, hvalue, ha⟩ := hgen
  rw [Program.notes, bare_append, bare_append] at hb
  rw [Program.types, written_append] at ht
  have hfunctions : a.functions = cs.blocks ++ ds.blocks := by rw [← ha]
  have hcode : a.main = .push (.ofInt 0) :: cs.code ++ (ds.code ++ (value ++ [.halt])) := by rw [← ha]; simp
  clear ha
  rw [hfunctions] at hplaced
  rw [hcode, Code.at_append, Code.at_append, Nat.zero_add, List.length_cons, Nat.add_comm _ 1] at hmain
  obtain ⟨hatTables, hatDecls, hatBody⟩ := hmain
  obtain ⟨info?, new, rfl, hledger, htables, hcounts⟩ := Linkage.Ledger.run
    (L := .ofTables classes.reverse a.instructions memory tables) hn classes (Linkage.ledger_initial _)
      (List.append_nil _)
    hb.1.1 ht.1 hclasses hclassReports hclassTypes hcs fun b hb => hplaced b (List.mem_append_left _ hb)
  have hsound := hledger.sound_ofTables hm hlen hn
  obtain ⟨L, hL⟩ : ∃ L, (Linkage.ofTables classes.reverse a.instructions memory tables).withInfo info? =
    L := ⟨_, rfl⟩
  replace hledger : L.Ledger L.classes resolved.env hierarchy tables := by
    rw [← hL]
    exact hledger
  rw [hL] at hsound
  have hLclasses : classes.reverse = L.classes := by rw [← hL]; rfl
  have hLcode : a.instructions = L.code := by rw [← hL]; rfl
  have hLmemory : memory = L.memory := by rw [← hL]; rfl
  have hstart : L.start = (resolved.trees.filterMap Class.methodCount?).sum := by
    rw [← hL, ← hcounts, Linkage.start, Linkage.withInfo, Linkage.ofTables, List.length_map,
      List.length_flatten]
  clear hcs hcounts
  rw [htables] at hatTables hatDecls hatBody
  rw [hLcode] at hatTables hatDecls hatBody hplaced
  rw [hLmemory] at hds hvalue
  refine ⟨L, ⟨hLclasses.symm, hLcode.symm, hLmemory.symm, hstart, hsound, ?_, fun n => ?_⟩⟩
  · intro cls r hr
    obtain ⟨k, -, hoffset⟩ := hledger.registry.slot cls r hr
    exact ⟨k, hledger.place cls r k hr hoffset, hoffset⟩
  · have hfp : (Word.ofInt L.size).val = L.size := Word.val_ofInt (by omega) L.size_lt
    obtain ⟨hcov, hframes, hnext⟩ := hledger.frames_ofTables hL hfp
    simp only [Program.eval, Program.classes, Program.decls, Program.body, hLclasses]
    refine .of_goes (hledger.goes_ofTables hL hatTables) ?_
    refine (Decl.followsAll hsound (hsound.calls n) hcov decls hb.1.2 hdeclNames hdeclTypes hds
      (fun b hb => hplaced b (List.mem_append_right _ hb)) hatDecls
        (Linkage.represents_initial L) hframes hnext).bind ?_
    rintro ⟨context, w⟩ c - ⟨τ, ra, tm, heap, out, rfl, -, -, hw, hf⟩
    exact hsound.followsBody hcov hb.2 hbodyType hvalue hatBody hw hf

/-- A program that is only an expression has no frame. -/
theorem Program.linked_expr {body : Expr} {span : Span} (h : (expr body span).Accepted memory r t a)
    (hb : Bare (expr body span).notes) (hm : 0 ≤ memory.val)
    (hlen : (a.instructions.length : Int) < 9223372036854775808) :
    ∃ L, (expr body span).LinkedBy memory r t a L := by
  have hn := Program.nodup_labels h.generated
  have hmain := a.at_main
  obtain ⟨hres, hreports, ⟨hierarchy, hcheck⟩, hgen⟩ := h
  obtain rfl := Except.ok.inj hres
  obtain ⟨hclassTypes, -, hbodyType⟩ := Program.check_eq_ok hcheck
  obtain ⟨rfl, -⟩ := Prod.mk.inj (Except.ok.inj hclassTypes)
  simp only [Program.generate, bind_eq_ok, pure_eq_ok, Prod.exists] at hgen
  obtain ⟨value, branch, hvalue, ha⟩ := hgen
  have hcode : a.main = value ++ [.halt] := by rw [← ha]
  clear ha
  rw [hcode] at hmain
  rw [Program.notes, bare_append, bare_append] at hb
  have hledger := Linkage.ledger_initial ⟨[], a.instructions, memory, fun _ => none, [], []⟩
  have hsound := hledger.sound hm hlen hn rfl fun k hk => by cases hk
  refine ⟨_, ⟨rfl, rfl, rfl, rfl, hsound, (fun _ _ hr => nomatch hr), fun n => ?_⟩⟩
  have hcov : Linkage.Covers ⟨[], a.instructions, memory, fun _ => none, [], []⟩ ⟨.empty, .empty⟩ :=
    ⟨fun cls table htable => by simp at htable, hledger.within⟩
  have hframes : Linkage.Frames ⟨[], a.instructions, memory, fun _ => none, [], []⟩
      ⟨.empty, .empty⟩ [] [] .initial []
      memory.val.toNat := .main (List.suffix_refl _) fun x e he => (hledger.registry.bound x e).1 he
  have hupper := memory.upper
  have hfp : (Word.ofInt memory.val.toNat).val = memory.val.toNat := Word.val_ofInt (by omega) (by omega)
  rw [← hfp] at hframes
  exact hsound.followsBody hcov hb.2 hbodyType hvalue hmain (Linkage.represents_initial _) hframes

theorem Program.linked {p : Program} (h : p.Accepted memory r t a) (hb : Bare p.notes)
    (ht : Written p.types) (hm : 0 ≤ memory.val)
    (hlen : (a.instructions.length : Int) < 9223372036854775808) : ∃ L, p.LinkedBy memory r t a L := by
  cases p with
  | letIn classes decls body span => exact linked_letIn h hb ht hm hlen
  | expr body span => exact linked_expr h hb hm hlen

end Programs

end Classlet

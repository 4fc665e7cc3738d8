import Classlet.Proofs.Preservation
import Classlet.Proofs.Sends
/-!
# Dispatch tables mirror layouts

Code generation follows inheritance a second time, by offsets alone. It comes to the same result as
resolution: the dispatch table of a class has one label for each method of the layout, and the label at an
offset is that of the method which the search from the class upwards finds there (`Lineage.tabulated`). The
main block stores these labels in consecutive words of the heap and leaves the address of the first in the
slot of the class (`Compiler.dispatch_mirrors_layout`).
-/

namespace Classlet

open Machine

/-! ## Classes one after the other -/

section Generation
variable {memory : Word} {tables tables' : List DispatchTable} {s : Supply} {out : Output}

theorem Class.codeAll_append {cs cs' : List Class} :
    Class.codeAll memory (cs ++ cs') tables s = .ok (out, tables') ↔
      ∃ out₁ tables₁ out₂, Class.codeAll memory cs tables s = .ok (out₁, tables₁) ∧
        Class.codeAll memory cs' tables₁ out₁.supply = .ok (out₂, tables') ∧
        out = ⟨out₁.code ++ out₂.code, out₁.blocks ++ out₂.blocks, out₂.supply⟩ := by
  induction cs generalizing tables s out with
  | nil =>
    constructor
    · intro h
      exact ⟨⟨[], [], s⟩, tables, out, rfl, h, rfl⟩
    · rintro ⟨out₁, tables₁, out₂, hnil, hrest, rfl⟩
      obtain ⟨rfl, rfl⟩ := Prod.mk.inj (Except.ok.inj hnil)
      exact hrest
  | cons c cs ih =>
    simp only [List.cons_append, Class.codeAll, bind_eq_ok, pure_eq_ok, Prod.exists, Prod.mk.injEq]
    constructor
    · rintro ⟨first, tables₁, hfirst, rest, tables₂, hrest, rfl, rfl⟩
      obtain ⟨out₁, tables₃, out₂, h₁, h₂, rfl⟩ := ih.1 hrest
      exact ⟨_, tables₃, out₂, ⟨first, tables₁, hfirst, out₁, tables₃, h₁, rfl, rfl⟩, h₂, by simp⟩
    · rintro ⟨_, _, out₂, ⟨first, tables₁, hfirst, out₁, tables₃, h₁, rfl, rfl⟩, h₂, rfl⟩
      exact ⟨first, tables₁, hfirst, _, _, ih.2 ⟨out₁, tables₃, out₂, h₁, h₂, rfl⟩, by simp, rfl⟩

theorem Class.codeAll_singleton {c : Class} : Class.codeAll memory [c] tables s = .ok (out, tables') ↔
    c.code memory tables s = .ok (out, tables') := by
  simp only [Class.codeAll, bind_eq_ok, pure_eq_ok, Prod.exists, Prod.mk.injEq]
  constructor
  · rintro ⟨first, tables₁, hfirst, rest, tables₂, hrest, rfl, rfl⟩
    obtain ⟨rfl, rfl⟩ := Prod.mk.inj (Except.ok.inj hrest)
    rw [hfirst, List.append_nil, List.append_nil]
  · intro h
    exact ⟨out, tables', h, _, _, rfl, by rw [List.append_nil, List.append_nil], rfl⟩

end Generation

/-! ## Labels -/

/-- Code for the method at position `j` of the class at position `k` is generated after the classes and
methods before it. Its own block is `block`, and `earlier` are all blocks before that one. -/
def Emitted (memory : Word) (classes : List Class) (k j : Nat) (earlier : List Code)
    (block : Code) : Prop :=
  ∃ owner name d out tables inherited before inner s', classes[k]? = some owner ∧ owner.name = some name ∧
    owner.methods[j]? = some d ∧ Class.codeAll memory (classes.take k) [] ⟨0, 0⟩ = .ok (out, tables) ∧
    owner.inheritedTable name.text tables = .ok inherited ∧
    Class.methodCode memory name.text owner.span (owner.methods.take j) inherited out.supply = .ok before ∧
    d.function.code memory before.supply = .ok (inner ++ [block], s') ∧
    earlier = out.blocks ++ before.blocks ++ inner

/-- Among the blocks that of the method at position `j` of the class at position `k` starts with `label`. -/
def Labels (memory : Word) (classes : List Class) (blocks : List Code) (k j : Nat) (label : Label) : Prop :=
  ∃ earlier block, Emitted memory classes k j earlier block ∧ block.entryLabel? = some label ∧
    earlier ++ [block] <+: blocks

theorem Labels.mono {memory : Word} {classes : List Class} {blocks blocks' : List Code} {k j : Nat}
    {label : Label} (h : Labels memory classes blocks k j label) (hb : blocks <+: blocks') :
    Labels memory classes blocks' k j label := by
  obtain ⟨earlier, block, hemitted, hentry, hstart⟩ := h
  exact ⟨earlier, block, hemitted, hentry, hstart.trans hb⟩

section Class
variable {memory : Word} {info? : String → Option ClassInfo} {trees earlier : List Class} {c : Class}
  {r : ClassInfo} {tables tables' : List DispatchTable} {inherited : DispatchTable} {s : Supply}
  {out : Output} {methods : MethodOutput} {name : Name} {i j o : Nat}

/-- The class takes the next dispatch table. -/
theorem Class.Settled.code_eq_ok (hs : c.Settled info? earlier r) (hname : c.name = some name)
    (hcount : tables.length = (Class.names earlier).length)
    (hc : c.code memory tables s = .ok (out, tables')) :
    ∃ inherited methods, c.inheritedTable name.text tables = .ok inherited ∧
      Class.methodCode memory name.text c.span c.methods inherited s = .ok methods ∧
      out = ⟨methods.table.code, methods.blocks, methods.supply⟩ ∧ tables' = tables ++ [methods.table] := by
  have hslot : r.entry.offset = Layout.firstLocalOffset - (tables.length : Nat) := hcount.symm ▸ hs.slot
  simp only [Class.code, hname, hs.entry, hslot, dispatchSlot_eq, bind_eq_ok, pure_eq_ok,
    Prod.mk.injEq] at hc
  obtain ⟨inherited, hinherited, methods, hmethods, slot, hok, recorded, hrecorded, rfl, rfl⟩ := hc
  obtain rfl := Except.ok.inj (ok_of_mapError hok)
  rw [DispatchTable.record_length] at hrecorded
  obtain rfl := Except.ok.inj (ok_of_mapError hrecorded)
  exact ⟨inherited, methods, hinherited, hmethods, rfl, rfl⟩

/-- The label of a method that the class declares. -/
theorem Class.Settled.own_label (hs : c.Settled info? earlier r) (hi : trees[i]? = some c)
    (hname : c.name = some name) (hgenerated : Class.codeAll memory (trees.take i) [] ⟨0, 0⟩ =
      .ok (out, tables))
    (hinherited : c.inheritedTable name.text tables = .ok inherited)
    (hmethods : Class.methodCode memory name.text c.span c.methods inherited out.supply = .ok methods)
    {d : Method} (hj : c.methods[j]? = some d) (ho : d.offset = some (Layout.methodOffset o)) :
    ∃ l, methods.table[o]? = some l ∧ Labels memory trees (out.blocks ++ methods.blocks) i j l := by
  obtain ⟨x, signature, hmember, -⟩ := (hs.methodsAt d (List.mem_of_getElem? hj)).member? ho
  obtain ⟨-, hown⟩ := Class.methodCode_spec hs.methodsAt hs.methods.nodup hmethods
  obtain ⟨o', before, blocks, s', ho', -, hbefore, hcode, hstart, hlabel⟩ := hown j d x signature hj hmember
  obtain rfl : o' = o := Int.ofNat.inj (Option.some.inj (ho'.symm.trans ho))
  obtain ⟨decls, body, branch, -, -, rfl⟩ := Function.code_eq_ok hcode
  refine ⟨_, hlabel, _, _, ⟨c, name, d, out, tables, inherited, before, decls.blocks, s', hi, hname, hj,
    hgenerated, hinherited, hbefore, hcode, rfl⟩, rfl, ?_⟩
  rw [List.append_assoc, List.append_assoc, List.prefix_append_right_inj]
  exact hstart

/-- At an offset that the class does not declare, the label is the inherited one. -/
theorem Class.Settled.kept_label (hs : c.Settled info? earlier r)
    (hmethods : Class.methodCode memory name.text c.span c.methods inherited s = .ok methods)
    (ho : ∀ d ∈ c.methods, d.offset ≠ some (Layout.methodOffset o)) {l : Label}
    (hl : inherited[o]? = some l) :
    methods.table[o]? = some l := by
  obtain ⟨hkeep, -⟩ := Class.methodCode_spec hs.methodsAt hs.methods.nodup hmethods
  refine hkeep o l (fun x hx hmem => ?_) hl
  obtain ⟨d, hd, hoffset⟩ := (hs.declares_iff hx).1 hmem
  exact ho d hd hoffset

end Class

/-! ## Tables -/

/-- The dispatch tables of the first `n` classes. -/
structure Tabulated (memory : Word) (info? : String → Option ClassInfo) (trees : List Class) (n : Nat)
    (out : Output) (tables : List DispatchTable) : Prop where
  generated : Class.codeAll memory (trees.take n) [] ⟨0, 0⟩ = .ok (out, tables)
  count : tables.length = (Class.names (trees.take n)).length
  code : out.code = tables.flatMap DispatchTable.code
  labels (t : DispatchTable) (l : Label) : t ∈ tables → l ∈ t → ∃ k j, Labels memory trees out.blocks k j l
  table (i : Nat) (c : Class) (name : Name) (r : ClassInfo) : i < n → trees[i]? = some c →
    c.name = some name →
    info? name.text = some r → ∃ t, tables[(Class.names (trees.take i)).length]? = some t ∧
      t.length = r.members.methods.length ∧
      ∀ o k j, Finds trees o i k j → ∃ l, t[o]? = some l ∧ Labels memory trees out.blocks k j l

section Tables
variable {memory : Word} {info? : String → Option ClassInfo} {trees : List Class} {c : Class} {n : Nat}
  {out first : Output} {tables tables' : List DispatchTable} {name : Name} {inherited : DispatchTable}

theorem take_succ_of_getElem? {α : Type} {l : List α} {a : α} (h : l[n]? = some a) :
    l.take (n + 1) = l.take n ++ [a] := by
  rw [List.take_add_one, h]
  rfl

/-- The table that a class starts from is that of its superclass. -/
theorem Tabulated.superclass_table (ht : Tabulated memory info? trees n out tables)
    (hl : Lineage info? trees) (hn : trees[n]? = some c) (hname : c.name = some name)
    (hi : c.inheritedTable name.text tables = .ok inherited) :
    inherited.length = (inheritedMethods (c.parent? info?)).length ∧
      ∀ (s : Name) (i : Nat) (parent : Class), c.superclass = some s → trees[i]? = some parent →
        parent.name.map Name.text = some s.text →
        ∀ o k j, Finds trees o i k j → ∃ l, inherited[o]? = some l ∧
          Labels memory trees out.blocks k j l := by
  obtain ⟨r, -, hsettled⟩ := hl.settled n c name hn hname
  cases hs : c.superclass with
  | none =>
    have hp : c.parent? info? = none := by
      rw [Class.parent?, hs]
      rfl
    rw [Class.inheritedTable, hsettled.superEntry, hp] at hi
    obtain rfl := Except.ok.inj hi
    exact ⟨by rw [hp]; rfl, fun s i parent hsome => by cases hsome⟩
  | some s =>
    obtain ⟨i', parent', name', r', hlt, hi', hname', htext, hr', hp⟩ := hl.superclass hn hname hs
    have hsettled' := hl.settled_eq hi' hname' hr'
    obtain ⟨t, htable, hlength, hlabels⟩ := ht.table i' parent' name' r' hlt hi' hname' hr'
    simp only [Class.inheritedTable, hsettled.superEntry, hp, Option.map_some, ClassInfo.entry,
      hsettled'.slot, dispatchSlot_eq, bind_eq_ok] at hi
    obtain ⟨slot, hslot, hi⟩ := hi
    obtain rfl := Except.ok.inj (ok_of_mapError hslot)
    rw [htable] at hi
    obtain rfl := pure_eq_ok.1 hi
    refine ⟨by rw [hlength, hp, hsettled'.named.methodSlots.length]; rfl, ?_⟩
    intro s₁ i parent hs₁ hiparent hcalled
    obtain rfl := Option.some.inj hs₁
    obtain ⟨name₁, hname₁, htext₁⟩ := Option.map_eq_some_iff.1 hcalled
    obtain rfl := hl.position_eq hiparent hname₁ hi' hname' (htext₁.trans htext.symm)
    exact hlabels

theorem Tabulated.step (ht : Tabulated memory info? trees n out tables) (hl : Lineage info? trees)
    (hn : trees[n]? = some c) (hname : c.name = some name)
    (hc : c.code memory tables out.supply = .ok (first, tables')) :
    Tabulated memory info? trees (n + 1)
      ⟨out.code ++ first.code, out.blocks ++ first.blocks, first.supply⟩ tables' := by
  obtain ⟨r, hr, hsettled⟩ := hl.settled n c name hn hname
  obtain ⟨inherited, methods, hinherited, hmethods, rfl, rfl⟩ := hsettled.code_eq_ok hname ht.count hc
  obtain ⟨hinheritedLength, hinheritedLabels⟩ := ht.superclass_table hl hn hname hinherited
  have htake := take_succ_of_getElem? hn
  have hblocks : out.blocks <+: out.blocks ++ methods.blocks := List.prefix_append _ _
  have hlength : methods.table.length = r.members.methods.length := by
    rw [hsettled.named.methodSlots.length]
    exact Class.methodCode_length hsettled.methodsAt hsettled.named.nodup_methods hsettled.methods.names_eq
      hinheritedLength
      hmethods
  -- the search and the new table part at the same point: at the offsets that the class declares
  have hnew : ∀ o k j, Finds trees o n k j →
      ∃ l, methods.table[o]? = some l ∧ Labels memory trees (out.blocks ++ methods.blocks) k j l := by
    intro o k j hfinds
    cases hfinds with
    | own hi hj hoffset =>
      obtain rfl := Option.some.inj (hn.symm.trans hi)
      exact hsettled.own_label hn hname ht.generated hinherited hmethods hj hoffset
    | inherited hi hnone hs hparent hcalled hfinds =>
      obtain rfl := Option.some.inj (hn.symm.trans hi)
      obtain ⟨l, hget, hlabels⟩ := hinheritedLabels _ _ _ hs hparent hcalled _ _ _ hfinds
      exact ⟨l, hsettled.kept_label hmethods hnone hget, hlabels.mono hblocks⟩
  constructor
  case generated =>
    rw [htake]
    exact Class.codeAll_append.2 ⟨out, tables, _, ht.generated, Class.codeAll_singleton.2 hc, rfl⟩
  case count =>
    rw [htake, Class.names_append, List.length_append, List.length_append, ht.count,
      Class.names_cons, hname]; rfl
  case code =>
    rw [ht.code, List.flatMap_append, List.flatMap_singleton]
  case labels =>
    intro t l hmem hlt
    rcases List.mem_append.1 hmem with hold | hlast
    · obtain ⟨k, j, hlabels⟩ := ht.labels t l hold hlt
      exact ⟨k, j, hlabels.mono hblocks⟩
    · -- a label of the new table stands at an offset of the layout, and the search finds a method there
      obtain rfl := List.mem_singleton.1 hlast
      obtain ⟨o, ho⟩ := List.mem_iff_getElem?.1 hlt
      obtain ⟨k, j, hfinds⟩ := hl.exists_finds hn hname hr (hlength ▸ (List.getElem?_eq_some_iff.1 ho).1)
      obtain ⟨l', hl', hlabels⟩ := hnew o k j hfinds
      obtain rfl := Option.some.inj (ho.symm.trans hl')
      exact ⟨k, j, hlabels⟩
  case table =>
    intro i c' name' r' hlt hi hname' hr'
    rcases Nat.lt_succ_iff_lt_or_eq.1 hlt with hlt | rfl
    · obtain ⟨t, htable, hlen, hlabels⟩ := ht.table i c' name' r' hlt hi hname' hr'
      refine ⟨t, prefix_getElem? (List.prefix_append _ _) htable, hlen, fun o k j hfinds => ?_⟩
      obtain ⟨l, hget, hlabel⟩ := hlabels o k j hfinds
      exact ⟨l, hget, hlabel.mono hblocks⟩
    · obtain rfl := Option.some.inj (hn.symm.trans hi)
      obtain rfl := Option.some.inj (hname.symm.trans hname')
      obtain rfl := Option.some.inj (hr.symm.trans hr')
      refine ⟨methods.table, ?_, hlength, hnew⟩
      rw [← ht.count, List.getElem?_concat_length]

/-- A class without a name has neither code nor a table. -/
theorem Tabulated.skip (ht : Tabulated memory info? trees n out tables) (hn : trees[n]? = some c)
    (hname : c.name = none) (hc : c.code memory tables out.supply = .ok (first, tables')) :
    Tabulated memory info? trees (n + 1)
      ⟨out.code ++ first.code, out.blocks ++ first.blocks, first.supply⟩ tables' := by
  have htake := take_succ_of_getElem? hn
  have hgenerated := Class.codeAll_append.2
    ⟨out, tables, first, ht.generated, Class.codeAll_singleton.2 hc, rfl⟩
  simp only [Class.code, hname, Except.ok.injEq, Prod.mk.injEq] at hc
  obtain ⟨rfl, rfl⟩ := hc
  simp only [List.append_nil] at hgenerated ⊢
  refine ⟨htake ▸ hgenerated, by rw [htake, Class.names_skip hname, ht.count], ht.code, ht.labels, ?_⟩
  intro i c' name' r' hlt hi hname' hr'
  rcases Nat.lt_succ_iff_lt_or_eq.1 hlt with hlt | rfl
  · exact ht.table i c' name' r' hlt hi hname' hr'
  · obtain rfl := Option.some.inj (hn.symm.trans hi)
    cases hname.symm.trans hname'

/-- The tables of all classes, by induction on the number of classes. -/
theorem Lineage.tabulated (hl : Lineage info? trees) (hn : n ≤ trees.length)
    (hc : Class.codeAll memory (trees.take n) [] ⟨0, 0⟩ = .ok (out, tables)) :
    Tabulated memory info? trees n out tables := by
  induction n generalizing out tables with
  | zero =>
    obtain ⟨rfl, rfl⟩ := Prod.mk.inj (Except.ok.inj hc)
    refine ⟨rfl, rfl, rfl, fun t l ht => ?_, fun i c name r hi => ?_⟩
    · cases ht
    · cases hi
  | succ n ih =>
    have hget := List.getElem?_eq_getElem hn
    rw [take_succ_of_getElem? hget, Class.codeAll_append] at hc
    obtain ⟨out₁, tables₁, out₂, h₁, h₂, rfl⟩ := hc
    have hold := ih (Nat.le_of_succ_le hn) h₁
    cases hname : trees[n].name with
    | none => exact hold.skip hget hname (Class.codeAll_singleton.1 h₂)
    | some name => exact hold.step hl hget hname (Class.codeAll_singleton.1 h₂)

end Tables

/-! ## The main block -/

/-- In state `s` of a machine with `size` words the addresses of the labels are in consecutive words from
`base` on, at the end of the heap, and the word at `offset` of the outermost frame is `base`. -/
structure DispatchTable.InMemory (a : Assembly) (size : Nat) (offset : Int) (base : Nat) (t : DispatchTable)
    (s : State) : Prop where
  inside : 0 ≤ size + offset
  slot : s.memory[(size + offset).toNat]? = some (.ofInt base)
  hp : s.hp.val = base + t.length
  label (o : Nat) (l : Label) : t[o]? = some l →
    ∃ address, addressOf? l a.instructions = some address ∧ s.memory[base + o]? = some (.ofInt address)

/-- The code of the table is in the main block. A machine that has executed the main block up to its end,
instruction after instruction, has the table in memory; at which address does not depend on the size of
memory. Stack and heap can meet before that only where fewer than two words would be left between the table
and the word that holds its address. -/
def DispatchTable.StoredBy (a : Assembly) (offset : Int) (t : DispatchTable) : Prop :=
  ∃ (before after : Code) (base : Nat), a.main = before ++ t.code ++ after ∧
    ∀ size : Nat, (size : Int) < 9223372036854775808 →
      (∃ s, Steps (.ofCode a.instructions) (before ++ t.code).length (.initial size) s ∧
        s.ip = (before ++ t.code).length ∧ t.InMemory a size offset base s) ∨
      (size + offset < base + t.length + 2 ∧
        ExhaustsWithin (.ofCode a.instructions) (before ++ t.code).length (.initial size))

section Main
variable {a : Assembly} {tables done later : List DispatchTable} {t : DispatchTable} {size words : Nat}
  {rest : Code}

/-- The main block stores tables from the bottom of the heap on. -/
theorem Advances.storeMain (hsize : (size : Int) < 9223372036854775808)
    (hwords : tables.length + tables.flatten.length + 2 < words)
    (hat : a.instructions.At 0 (.push (.ofInt 0) :: tables.flatMap DispatchTable.code))
    (hlabels : ∀ t ∈ tables, ∀ l ∈ t, ∃ n, addressOf? l a.instructions = some n) :
    Advances a.instructions size (1 + (tables.flatMap DispatchTable.code).length) words (.initial size)
      ⟨1 + (tables.flatMap DispatchTable.code).length, .ofInt size, .ofInt 0, .ofInt 0,
        ((DispatchTable.starts 0 tables).map fun n : Nat => Word.ofInt n).reverse ++ [.ofInt 0],
        tables.flatten.map a.instructions.labelWord, []⟩ := by
  rw [Code.at_cons] at hat
  have hpush : Advances a.instructions size 1 words (.initial size) _ :=
    (Moves.push hat.1).advances (by simp; omega)
  have htables : Advances a.instructions size _ words
      ⟨1, .ofInt size, .ofInt 0, .ofInt 0, [.ofInt 0], [], []⟩ _ :=
    Advances.storeTables hsize tables
      (by simp only [List.length_singleton, List.length_nil]; omega) hlabels hat.2
  exact hpush.trans htables

theorem DispatchTable.starts_concat (n : Nat) (ts : List DispatchTable) (t : DispatchTable) :
    starts n (ts ++ [t]) = starts n ts ++ [n + (ts.map List.length).sum] := by
  induction ts generalizing n with
  | nil => rfl
  | cons t' ts ih =>
    rw [List.cons_append, starts, starts, ih, List.map_cons, List.sum_cons, ← Nat.add_assoc]
    rfl

/-- At the end of its code the first address of a table is on top of the stack: later tables push theirs
over it. -/
theorem DispatchTable.inMemory {s : State} {ip : Nat} {fp ra tm : Word} {out : List Word}
    (hlabels : ∀ l ∈ t, ∃ n, addressOf? l a.instructions = some n)
    (hs : Shows size ⟨ip, fp, ra, tm,
      ((starts 0 (done ++ [t])).map fun n : Nat => Word.ofInt n).reverse ++ [.ofInt 0],
      (done ++ [t]).flatten.map a.instructions.labelWord, out⟩ s) :
    t.InMemory a size (Layout.firstLocalOffset - done.length) done.flatten.length s := by
  have hsp : s.sp + (done.length + 2) = size := by
    simpa [DispatchTable.length_starts] using hs.sp
  have htop : s.memory[s.sp]? = some (.ofInt done.flatten.length) := by
    simpa [DispatchTable.starts_concat, List.length_flatten] using hs.stack 0
  have hheap : ((done ++ [t]).flatten.map a.instructions.labelWord).length =
      done.flatten.length + t.length := by
    rw [List.length_map, List.flatten_append, List.flatten_singleton, List.length_append]
  have hslot : (size : Int) + (Layout.firstLocalOffset - done.length) = s.sp := by
    rw [Layout.firstLocalOffset]
    omega
  constructor
  case inside =>
    rw [hslot]
    exact Int.natCast_nonneg _
  case slot => rw [hslot, Int.toNat_natCast, htop]
  case hp =>
    rw [hs.hp, hheap]
    rfl
  case label =>
    intro o l hl
    obtain ⟨address, haddress⟩ := hlabels l (List.mem_of_getElem? hl)
    have hlast : (done ++ [t])[done.length]? = some t := List.getElem?_concat_length
    have hword := DispatchTable.getElem?_flatten hlast hl
    rw [List.take_left, ← List.length_flatten] at hword
    have hlt := (List.getElem?_eq_some_iff.1 hl).1
    refine ⟨address, haddress, ?_⟩
    rw [hs.heap _ (by rw [hheap]; omega), List.getElem?_map, hword, Option.map_some,
      Code.labelWord, haddress]
    rfl

theorem DispatchTable.storedBy
    (hmain : a.main = .push (.ofInt 0) :: ((done ++ t :: later).flatMap DispatchTable.code ++ rest))
    (hlabels : ∀ t' ∈ done ++ [t], ∀ l ∈ t', ∃ n, addressOf? l a.instructions = some n) :
    t.StoredBy a (Layout.firstLocalOffset - done.length) := by
  have hsplit : a.main = (.push (.ofInt 0) :: (done ++ [t]).flatMap DispatchTable.code) ++
      (later.flatMap DispatchTable.code ++ rest) := by
    rw [hmain]
    simp
  have hat := a.at_main
  rw [hsplit, Code.at_append] at hat
  have hlength : (.push (.ofInt 0) :: done.flatMap DispatchTable.code ++ t.code).length =
      1 + ((done ++ [t]).flatMap DispatchTable.code).length := by
    simp only [List.flatMap_append, List.flatMap_singleton, List.cons_append, List.length_cons,
      List.length_append]
    omega
  refine ⟨.push (.ofInt 0) :: done.flatMap DispatchTable.code, later.flatMap DispatchTable.code ++ rest,
    done.flatten.length, ?_, fun size hsize => ?_⟩
  · rw [hsplit]
    simp
  -- what the tables take on the stack and on the heap, and two words to work with
  have hwords : (done ++ [t]).length + (done ++ [t]).flatten.length + 2 <
      done.length + done.flatten.length + t.length + 4 := by
    simp only [List.length_append, List.length_singleton, List.flatten_append, List.flatten_singleton]
    omega
  rw [hlength]
  rcases Advances.storeMain hsize hwords hat.1 hlabels _ (shows_initial size) with
    ⟨s, hsteps, hs⟩ | ⟨hsmall, hexhausts⟩
  · exact .inl ⟨s, hsteps, hs.ip, DispatchTable.inMemory (hlabels t (by simp)) hs⟩
  · refine .inr ⟨?_, hexhausts⟩
    rw [Layout.firstLocalOffset]
    omega

end Main

/-! ## Compiled programs -/

/-- The table has `n` labels. That at an offset is the label of the block that was generated for the method
found there from the class at position `i` upwards. -/
structure DispatchTable.Mirrors (memory : Word) (classes : List Class) (a : Assembly) (i n : Nat)
    (t : DispatchTable) : Prop where
  length : t.length = n
  found (o : Nat) : o < n → ∃ k j, Finds classes o i k j
  label (o k j : Nat) : Finds classes o i k j → ∃ l earlier block, t[o]? = some l ∧
    Emitted memory classes k j earlier block ∧
    block.entryLabel? = some l ∧ earlier ++ [block] <+: a.functions ∧
    addressOf? l a.instructions = some (a.main.length + earlier.flatten.length)

theorem Code.cons_of_entryLabel? {c : Code} {l : Label} (h : c.entryLabel? = some l) :
    ∃ rest, c = .define l :: rest := by
  unfold Code.entryLabel? at h
  split at h
  · obtain rfl := Option.some.inj h
    exact ⟨_, rfl⟩
  · cases h

/-- A block starts where the blocks before it end. -/
theorem Assembly.addressOf?_eq {a : Assembly} (hn : a.instructions.labels.Nodup) {earlier : List Code}
    {block : Code} {l : Label} (hentry : block.entryLabel? = some l)
    (hstart : earlier ++ [block] <+: a.functions) :
    addressOf? l a.instructions = some (a.main.length + earlier.flatten.length) := by
  obtain ⟨later, hlater⟩ := hstart
  obtain ⟨rest, rfl⟩ := Code.cons_of_entryLabel? hentry
  refine addressOf?_eq_some hn ?_
  have hcode : a.instructions = (a.main ++ earlier.flatten) ++ .define l :: (rest ++ later.flatten) := by
    rw [Assembly.instructions, ← hlater]
    simp
  rw [hcode, ← List.length_append, List.getElem?_append_right (Nat.le_refl _), Nat.sub_self]
  rfl

section Programs
variable {memory : Word} {info? : String → Option ClassInfo} {a : Assembly} {i : Nat} {c : Class}
  {name : Name}

theorem Tabulated.mirrors {trees : List Class} {out : Output} {tables : List DispatchTable}
    (hl : Lineage info? trees) (ht : Tabulated memory info? trees trees.length out tables)
    (hn : a.instructions.labels.Nodup) (hblocks : out.blocks <+: a.functions) (hi : trees[i]? = some c)
    (hname : c.name = some name) :
    ∃ (r : ClassInfo) (slot : Nat) (t : DispatchTable), c.entry = some r.entry ∧
      r.offset = Layout.firstLocalOffset - slot ∧ tables[slot]? = some t ∧
      t.Mirrors memory trees a i r.members.methods.length := by
  obtain ⟨r, hr, hsettled⟩ := hl.settled i c name hi hname
  obtain ⟨t, htable, hlength, hlabels⟩ := ht.table i c name r (List.getElem?_eq_some_iff.1 hi).1 hi hname hr
  refine ⟨r, _, t, hsettled.entry, hsettled.slot, htable, hlength,
    fun o ho => hl.exists_finds hi hname hr ho, fun o k j hfinds => ?_⟩
  obtain ⟨l, hget, earlier, block, hemitted, hentry, hstart⟩ := hlabels o k j hfinds
  have hplace := hstart.trans hblocks
  exact ⟨l, earlier, block, hget, hemitted, hentry, hplace, Assembly.addressOf?_eq hn hentry hplace⟩

theorem Tabulated.storedBy {trees : List Class} {n slot : Nat} {out : Output} {tables : List DispatchTable}
    {t : DispatchTable} {rest : Code} (ht : Tabulated memory info? trees n out tables)
    (hn : a.instructions.labels.Nodup) (hblocks : out.blocks <+: a.functions)
    (hmain : a.main = .push (.ofInt 0) :: (out.code ++ rest)) (htable : tables[slot]? = some t) :
    t.StoredBy a (Layout.firstLocalOffset - slot) := by
  obtain ⟨hlt, rfl⟩ := List.getElem?_eq_some_iff.1 htable
  have hslot : (tables.take slot).length = slot := List.length_take_of_le (Nat.le_of_lt hlt)
  have hsplit : tables = tables.take slot ++ tables[slot] :: tables.drop (slot + 1) := by
    rw [List.getElem_cons_drop, List.take_append_drop]
  have hcode : a.main = .push (.ofInt 0) ::
      ((tables.take slot ++ tables[slot] :: tables.drop (slot + 1)).flatMap
        DispatchTable.code ++ rest) := by
    rw [← hsplit, hmain, ht.code]
  have hstored := DispatchTable.storedBy hcode fun t hmem l hlt => ?_
  · rwa [hslot] at hstored
  · rw [← take_succ_of_getElem? htable] at hmem
    obtain ⟨k, j, earlier, block, -, hentry, hstart⟩ := ht.labels t l (List.mem_of_mem_take hmem) hlt
    exact ⟨_, Assembly.addressOf?_eq hn hentry (hstart.trans hblocks)⟩

/-- The dispatch table of every class of a compiled program is its layout with labels for signatures, in
code and in memory. -/
theorem Compiler.dispatch_mirrors_layout {compiler after : Compiler} {p : Program} {c : Compilation}
    {e : Executable} (hb : Bare p.notes) (ht : Written p.types) (hc : compiler.compile p = .ok (c, after))
    (he : c.result = .ok e) :
    c.tree.generate compiler.options.memorySize = .ok e.assembly ∧ ∃ out tables,
      Class.codeAll compiler.options.memorySize c.tree.classes [] ⟨0, 0⟩ = .ok (out, tables) ∧
      ∀ i cls name, c.tree.classes[i]? = some cls → cls.name = some name → ∃ entry fields methods slot t,
        cls.entry = some entry ∧ entry.type = .cls fields methods ∧
        Layout.dispatchSlot entry.offset = .ok slot ∧
        tables[slot]? = some t ∧
        t.Mirrors compiler.options.memorySize c.tree.classes e.assembly i methods.length ∧
        t.StoredBy e.assembly entry.offset := by
  obtain ⟨r, haccepted⟩ := Compiler.accepted_of_compile hc he
  simp only [Compiler.compile, bind_eq_ok, pure_eq_ok, Prod.mk.injEq] at hc
  obtain ⟨c', hc', rfl, -⟩ := hc
  obtain ⟨h, hcheck⟩ := haccepted.checked
  obtain ⟨info?, hl, -⟩ := Program.lineage hb ht haccepted.resolved haccepted.names hcheck
  have hgenerated := haccepted.generated
  have hn := Program.nodup_labels hgenerated
  rw [Options.tree_of_compile hc' haccepted.resolved]
  refine ⟨hgenerated, ?_⟩
  generalize r.tree = tree at hl hgenerated ⊢
  cases tree with
  | expr body span => exact ⟨_, _, rfl, fun i cls name hi => by simp [Program.classes] at hi⟩
  | letIn trees decls body span =>
    simp only [Program.generate, bind_eq_ok, pure_eq_ok, Prod.exists] at hgenerated
    obtain ⟨out, tables, hcode, ds, -, value, branch, -, heq⟩ := hgenerated
    have htab := hl.tabulated (Nat.le_refl _) (by rw [Program.classes, List.take_length]; exact hcode)
    have hblocks : out.blocks <+: e.assembly.functions := by
      rw [← heq]
      exact List.prefix_append _ _
    have hmain : e.assembly.main = .push (.ofInt 0) :: (out.code ++ (ds.code ++ value ++ [.halt])) := by
      rw [← heq]
      simp
    refine ⟨out, tables, hcode, fun i cls name hi hname => ?_⟩
    obtain ⟨r, slot, t, hentry, hslot, htable, hmirrors⟩ := htab.mirrors hl hn hblocks hi hname
    refine ⟨r.entry, _, _, slot, t, hentry, rfl, ?_, htable, hmirrors, ?_⟩
    · rw [ClassInfo.entry, hslot, dispatchSlot_eq]
    · rw [ClassInfo.entry, hslot]
      exact htab.storedBy hn hblocks hmain htable

end Programs

/-- A method without a name and a class without a name are passed over, one class overrides a method and
adds one, and the last class overrides the other method. -/
def clocks : Program :=
  .letIn
    [.plain "Clock" none [("time", .int)]
        [.plain "now" [] .int (.variable "time"),
          { Function.plain "broken" [] .int (.number 0) with name := none },
          .plain "late" [("t", .int)] .bool
            (.binary .lessEqual (.variable "time") (.variable "t") .synthetic)],
      { Class.plain "Lost" (some "Clock") [] [.plain "now" [] .bool (.number 1)] with name := none },
      .plain "Alarm" (some "Clock") [] [.plain "ring" [] .int (.number 1),
        .plain "now" [] .int (.apply "ring" [])],
      .plain "Siren" (some "Alarm") [] [.plain "late" [("t", .int)] .bool (.bool true .synthetic)]]
    [.var (.plain "c" (.ref "Clock") (.make "Siren" [.number 7]))] (.send "c" "now" []) .synthetic

/-- The table is in code and, since the memory is large enough, in memory. -/
theorem clocks_siren_mirrored :
    Bare clocks.notes ∧ Written clocks.types ∧
      ∃ c after e, (⟨⟨.ofInt 100, true⟩, []⟩ : Compiler).compile clocks = .ok (c, after) ∧
        c.result = .ok e ∧
        ∃ out tables cls entry slot t, Class.codeAll (.ofInt 100) c.tree.classes [] ⟨0, 0⟩ =
          .ok (out, tables) ∧
          c.tree.classes[3]? = some cls ∧ cls.name = some (.plain "Siren") ∧ cls.entry = some entry ∧
          Layout.dispatchSlot entry.offset = .ok slot ∧ tables[slot]? = some t ∧
          t.Mirrors (.ofInt 100) c.tree.classes e.assembly 3 t.length ∧ t.StoredBy e.assembly entry.offset ∧
          ∃ base s, Visits e.assembly 100 s ∧ t.InMemory e.assembly 100 entry.offset base s := by
  refine ⟨by decide, by decide, ?_⟩
  obtain ⟨r, -, hres, -, hclasses⟩ : ∃ r checked, clocks.resolve = .ok r ∧
    r.tree.check .empty = .ok checked ∧
      r.tree.classes.map Class.name =
        [some (.plain "Clock"), none, some (.plain "Alarm"), some (.plain "Siren")] :=
    Program.exists_checked (by decide +kernel)
  obtain ⟨c, after, e, hc, he, hlength, hmeets⟩ :
      ∃ c after e, (⟨⟨.ofInt 100, true⟩, []⟩ : Compiler).compile clocks = .ok (c, after) ∧
        c.result = .ok e ∧
        e.assembly.main.length < stepLimit ∧ ¬ Meets e.assembly 100 :=
        Compiler.exists_executable (by decide +kernel)
  obtain ⟨-, out, tables, hcode, hmirrors⟩ := Compiler.dispatch_mirrors_layout (by decide) (by decide) hc he
  have htree : c.tree = r.tree := by
    simp only [Compiler.compile, bind_eq_ok, pure_eq_ok, Prod.mk.injEq] at hc
    obtain ⟨c', hc', rfl, -⟩ := hc
    exact Options.tree_of_compile hc' hres
  have hclass := congrArg (·[3]?) hclasses
  rw [← htree] at hclass
  simp only [List.getElem?_map] at hclass
  obtain ⟨cls, hcls, hname⟩ := Option.map_eq_some_iff.1 hclass
  obtain ⟨entry, fields, methods, slot, t, hentry, -, hslot, htable, ht, hstored⟩ :=
    hmirrors 3 cls _ hcls hname
  refine ⟨c, after, e, hc, he, out, tables, cls, entry, slot, t, hcode, hcls, hname, hentry, hslot, htable,
    ht.length.symm ▸ ht, hstored, ?_⟩
  obtain ⟨before, after, base, hmain, hsizes⟩ := hstored
  have hlt : (before ++ t.code).length < stepLimit := by
    rw [hmain, List.length_append] at hlength
    omega
  rcases hsizes 100 (by decide) with ⟨s, hsteps, -, hmemory⟩ | ⟨-, hexhausts⟩
  · exact ⟨base, s, ⟨_, hlt, hsteps⟩, hmemory⟩
  · exact absurd (hexhausts.meets (Nat.le_of_lt hlt)) hmeets

end Classlet

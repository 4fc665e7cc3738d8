import Classlet.Proofs.Functions
/-!
# Dispatch tables

Code generation gives every class a dispatch table: that of its superclass, with the labels of the methods
that the class declares at their positions (`Class.methodCode_spec`). `Class.compiles` puts together what is
known of a class that was resolved, checked and compiled without a problem.
-/

namespace Classlet

/-! ## The methods of a class -/

theorem DispatchTable.place_eq_ok {t t' : DispatchTable} {i : Nat} {l : Label} (h : t.place i l = .ok t') :
    t'[i]? = some l ∧ ∀ j l', j ≠ i → t[j]? = some l' → t'[j]? = some l' := by
  unfold DispatchTable.place putAt? at h
  split at h
  · next hput =>
    obtain rfl := Except.ok.inj h
    split at hput
    · next hlt =>
      obtain rfl := Option.some.inj hput
      exact ⟨by simp [hlt], fun j l' hj hl' => by rw [List.getElem?_set_ne (Ne.symm hj), hl']⟩
    · split at hput
      · next hi =>
        subst hi
        obtain rfl := Option.some.inj hput
        refine ⟨List.getElem?_concat_length, fun j l' _ hl' => ?_⟩
        exact prefix_getElem? (List.prefix_append _ _) hl'
      · cases hput
  · cases h

/-- A name keeps its position when others are adjoined after it. -/
theorem prefix_adjoin_getElem? {names ms : List String} {x : String} {i : Nat} (h : adjoin names x <+: ms)
    (hn : ms.Nodup) (hi : ms[i]? = some x) : (adjoin names x)[i]? = some x := by
  obtain ⟨j, hj⟩ := List.mem_iff_getElem?.1 (mem_adjoin.2 (.inr rfl) : x ∈ adjoin names x)
  have hj' := prefix_getElem? h hj
  obtain rfl := getElem?_unique hn hi hj'
  exact hj

/-- A table with a label for each name has room for the label of one more name. -/
theorem DispatchTable.place_adjoin {t : DispatchTable} {names : List String} {x : String} {i : Nat}
    (ht : t.length = names.length) (hi : (adjoin names x)[i]? = some x) (l : Label) :
    ∃ t', t.place i l = .ok t' ∧ t'.length = (adjoin names x).length := by
  have hlt := (List.getElem?_eq_some_iff.1 hi).1
  unfold DispatchTable.place putAt?
  by_cases hit : i < t.length
  · refine ⟨t.set i l, by rw [if_pos hit], ?_⟩
    have hx : x ∈ names := by
      rw [adjoin] at hi
      split at hi
      · next hx => exact hx
      · rw [List.getElem?_append_left (by omega)] at hi
        exact List.mem_of_getElem? hi
    rw [List.length_set, adjoin, if_pos hx, ht]
  · have hx : x ∉ names := by
      intro hx
      rw [adjoin, if_pos hx] at hlt
      omega
    rw [adjoin, if_neg hx, List.length_append, List.length_singleton] at hlt ⊢
    exact ⟨t ++ [l], by rw [if_neg hit, if_pos (by omega)], by simp [ht]⟩

section Methods
variable {memory : Word} {cls : String} {span : Span} {ms names : List String} {d : Method}
  {ds : List Method} {table : DispatchTable} {s : Supply} {out : MethodOutput}

theorem Class.methodCode_skip (ho : d.offset = none) :
    Class.methodCode memory cls span (d :: ds) table s = Class.methodCode memory cls span ds table s := by
  rw [Class.methodCode, ho]

/-- A method with an offset takes the next function number and puts its label at its position. -/
theorem Class.methodCode_cons {i : Nat} (ho : d.offset = some (Layout.methodOffset i)) :
    Class.methodCode memory cls span (d :: ds) table s = .ok out ↔
      ∃ blocks s' table' rest, d.function.code memory s = .ok (blocks, s') ∧
        table.place i (.function s.function) = .ok table' ∧
        Class.methodCode memory cls span ds table' s' = .ok rest ∧
        out = { rest with blocks := blocks ++ rest.blocks } := by
  simp only [Class.methodCode, ho, Members.methodIndex_methodOffset, bind_eq_ok, pure_eq_ok, Prod.exists]
  constructor
  · rintro ⟨blocks, s', hcode, k, hk, table', hplace, rest, hrest, rfl⟩
    obtain rfl := Except.ok.inj (ok_of_mapError hk)
    exact ⟨blocks, s', table', rest, hcode, ok_of_mapError hplace, hrest, rfl⟩
  · rintro ⟨blocks, s', table', rest, hcode, hplace, hrest, rfl⟩
    exact ⟨blocks, s', hcode, i, rfl, table', by rw [hplace]; rfl, rest, hrest, rfl⟩

/-- The methods of a class that are complete have code, each after the methods before it, and the dispatch
table has their labels. At other positions it is the inherited one. -/
theorem Class.methodCode_spec (hat : ∀ d ∈ ds, d.At ms)
    (hn : ((ds.filterMap Method.member?).map Prod.fst).Nodup)
    (hc : Class.methodCode memory cls span ds table s = .ok out) :
    (∀ (i : Nat) l, (∀ x, ms[i]? = some x → x ∉ (ds.filterMap Method.member?).map Prod.fst) →
      table[i]? = some l →
        out.table[i]? = some l) ∧
      ∀ (j : Nat) d x signature, ds[j]? = some d → d.member? = some (x, signature) →
        ∃ (i : Nat) (before : MethodOutput) (blocks : List Code) (s' : Supply),
          d.offset = some (Layout.methodOffset i) ∧ ms[i]? = some x ∧
          Class.methodCode memory cls span (ds.take j) table s = .ok before ∧
          d.function.code memory before.supply = .ok (blocks, s') ∧ before.blocks ++ blocks <+: out.blocks ∧
          out.table[i]? = some (.function before.supply.function) := by
  induction ds generalizing table s out with
  | nil =>
    obtain rfl := Except.ok.inj hc
    exact ⟨fun _ _ _ hl => hl, by simp⟩
  | cons d ds ih =>
    obtain ⟨hd, hat⟩ := List.forall_mem_cons.1 hat
    cases hm : d.member? with
    | none =>
      have ho := hd.offset_none hm
      rw [Class.methodCode_skip ho] at hc
      rw [List.filterMap_cons_none hm] at hn ⊢
      obtain ⟨hkeep, hown⟩ := ih hat hn hc
      refine ⟨hkeep, fun j d₁ x signature hj hx => ?_⟩
      cases j with
      | zero =>
        obtain rfl := Option.some.inj hj
        cases hm.symm.trans hx
      | succ j =>
        rw [List.take_succ_cons, Class.methodCode_skip ho]
        exact hown j d₁ x signature hj hx
    | some q =>
      obtain ⟨x, signature⟩ := q
      obtain ⟨i, ho, hi⟩ := hd.offset hm
      obtain ⟨blocks, s', table', rest, hcode, hplace, hrest, rfl⟩ := (Class.methodCode_cons ho).1 hc
      rw [List.filterMap_cons_some hm, List.map_cons, List.nodup_cons] at hn
      obtain ⟨hput, hother⟩ := DispatchTable.place_eq_ok hplace
      obtain ⟨hkeep, hown⟩ := ih hat hn.2 hrest
      rw [List.filterMap_cons_some hm]
      refine ⟨fun k l hk hl => ?_, fun j d₁ y signature' hj hy => ?_⟩
      · refine hkeep k l (fun y hy hmem => hk y hy (List.mem_cons_of_mem _ hmem)) (hother k l ?_ hl)
        rintro rfl
        exact hk x hi List.mem_cons_self
      cases j with
      | zero =>
        obtain rfl := Option.some.inj hj
        obtain ⟨rfl, -⟩ := Prod.mk.inj (Option.some.inj (hm.symm.trans hy))
        refine ⟨i, ⟨table, [], s⟩, blocks, s', ho, hi, rfl, hcode, List.prefix_append _ _,
          hkeep i _ (fun z hz => ?_) hput⟩
        obtain rfl := Option.some.inj (hi.symm.trans hz)
        exact hn.1
      | succ j =>
        obtain ⟨k, before, bs, s₂, hok, hk, hbefore, hbs, hprefix, hlabel⟩ := hown j d₁ y signature' hj hy
        refine ⟨k, { before with blocks := blocks ++ before.blocks }, bs, s₂, hok, hk, ?_, hbs, ?_, hlabel⟩
        · exact (Class.methodCode_cons ho).2 ⟨blocks, s', table', before, hcode, hplace, hbefore, rfl⟩
        · rw [List.append_assoc, List.prefix_append_right_inj]
          exact hprefix

/-- A dispatch table has one label for each method. -/
theorem Class.methodCode_length (hat : ∀ d ∈ ds, d.At ms) (hn : ms.Nodup)
    (hms : ms = ((ds.filterMap Method.member?).map Prod.fst).foldl adjoin names)
    (ht : table.length = names.length) (hc : Class.methodCode memory cls span ds table s = .ok out) :
    out.table.length = ms.length := by
  induction ds generalizing names table s out with
  | nil =>
    obtain rfl := Except.ok.inj hc
    rw [hms, ht]
    rfl
  | cons d ds ih =>
    obtain ⟨hd, hat⟩ := List.forall_mem_cons.1 hat
    cases hm : d.member? with
    | none =>
      rw [Class.methodCode_skip (hd.offset_none hm)] at hc
      rw [List.filterMap_cons_none hm] at hms
      exact ih hat hms ht hc
    | some q =>
      obtain ⟨x, signature⟩ := q
      obtain ⟨i, ho, hi⟩ := hd.offset hm
      obtain ⟨blocks, s', table', rest, -, hplace, hrest, rfl⟩ := (Class.methodCode_cons ho).1 hc
      rw [List.filterMap_cons_some hm, List.map_cons, List.foldl_cons] at hms
      have hprefix : adjoin names x <+: ms := hms ▸ prefix_foldl_adjoin _ _
      obtain ⟨t', hplace', hlength⟩ :=
        DispatchTable.place_adjoin ht (prefix_adjoin_getElem? hprefix hn hi) (.function s.function)
      obtain rfl := Except.ok.inj (hplace'.symm.trans hplace)
      have hrestLength : rest.table.length = ms.length := ih hat hms hlength hrest
      exact hrestLength

end Methods

/-! ## One class -/

/-- The dispatch table that a class starts from. -/
def inheritedTable? (tables : List DispatchTable) : Option ClassInfo → Option DispatchTable
  | none => some []
  | some r => tables[(Layout.firstLocalOffset - r.offset).toNat]?

/-- The class `c`, which is called `name`, was resolved, checked in the hierarchy `h` and compiled to a
dispatch table. -/
structure Class.Compiles (L : Linkage) (env : Env) (h : Hierarchy) (tables : List DispatchTable) (c : Class)
    (name : String) (p : PlacedMembers) (fs ms : List String) (inherited table : DispatchTable) : Prop where
  enters : c.Enters L.info? env name p fs ms
  called : c.name.map Name.text = some name
  bare : Bare c.notes
  parentTable : inheritedTable? tables (c.parent? L.info?) = some inherited
  types : ∀ d ∈ p.methods, (d.annotate
    ((env.declareClass name p.members).enterClass p.members)).typeReports h = []
  overriding (parent : ClassInfo) : c.parent? L.info? = some parent →
    (∀ f ∈ p.fields, f.overrideReports h p.members.fields parent.members.fields = .ok []) ∧
      ∀ d ∈ p.methods, d.overrideReports h p.members.methods parent.members.methods = .ok []
  keeps (i : Nat) (l : Label) : (∀ x, ms[i]? = some x →
    x ∉ (c.methods.filterMap Method.member?).map Prod.fst) →
    inherited[i]? = some l → table[i]? = some l
  length : inherited.length = (inheritedMethods (c.parent? L.info?)).length → table.length = ms.length
  code (d : Method) (x : String) (signature : Signature) : d ∈ c.methods → d.member? = some (x, signature) →
    ∃ (i : Nat) (s s' : Supply) (blocks : List Code), ms[i]? = some x ∧
      table[i]? = some (.function s.function) ∧
      (d.function.annotate (env.declareClass name p.members).classes
        ((env.declareClass name p.members).enterClass p.members).scopes).code L.memory s =
          .ok (blocks, s') ∧
      ∀ b ∈ blocks, ∃ ip, L.code.At ip b

theorem dispatchSlot_eq (k : Nat) : Layout.dispatchSlot (Layout.firstLocalOffset - k) = .ok k := by
  rw [Layout.dispatchSlot, if_pos (by omega)]
  congr 1
  omega

theorem DispatchTable.record_length (tables : List DispatchTable) (t : DispatchTable) :
    DispatchTable.record tables tables.length t = .ok (tables ++ [t]) := by
  simp [DispatchTable.record, putAt?]

section Class
variable {L : Linkage} {env : Env} {h : Hierarchy} {tables : List DispatchTable} {c : Class}

theorem Class.inheritedTable_eq_ok (hreg : Registry L.info? env tables.length) {tree : Class} {cls : String}
    (hsuper : tree.superEntry = (c.parent? L.info?).map ClassInfo.entry) {t : DispatchTable}
    (ht : tree.inheritedTable cls tables = .ok t) :
    inheritedTable? tables (c.parent? L.info?) = some t := by
  unfold Class.inheritedTable at ht
  rw [hsuper] at ht
  cases hp : c.parent? L.info? with
  | none =>
    rw [hp] at ht
    obtain rfl := Except.ok.inj ht
    rfl
  | some r =>
    obtain ⟨x, -, hx⟩ := Option.bind_eq_some_iff.1 hp
    obtain ⟨k, -, hk⟩ := hreg.slot x.text r hx
    simp only [hp, Option.map_some, ClassInfo.entry, hk, dispatchSlot_eq, bind_eq_ok] at ht
    obtain ⟨slot, hslot, ht⟩ := ht
    obtain rfl := Except.ok.inj (ok_of_mapError hslot)
    have hindex : (Layout.firstLocalOffset - r.offset).toNat = k := by omega
    rw [inheritedTable?, hindex]
    split at ht
    · next hget => rw [hget, pure_eq_ok.1 ht]
    · cases ht

theorem Class.compiles (hreg : Registry L.info? env tables.length) (hb : Bare c.notes)
    (ht : Written c.types) {name : Name} (hname : c.name = some name) {r : ResolvedClass}
    (hres : c.resolve env = .ok r) (hr : r.reports = []) (hcheck : r.tree.typeReports h = .ok [])
    {s : Supply} {out : Output} {tables' : List DispatchTable}
    (hcode : r.tree.code L.memory tables s = .ok (out, tables'))
    (hplaced : ∀ b ∈ out.blocks, ∃ ip, L.code.At ip b) :
    ∃ p fs ms inherited table, c.Compiles L env h tables name.text p fs ms inherited table ∧
      r.env = env.declareClass name.text p.members ∧ r.tree.name = c.name ∧
      r.tree.superclass = c.superclass ∧
      r.tree.entry = some (env.classEntry p.members) ∧ tables' = tables ++ [table] ∧
      out.code = table.code := by
  obtain ⟨p, fs, ms, henters, henv, htree⟩ := Class.resolve_eq_ok hreg hb ht hname hres hr
  obtain ⟨tree, env', reports⟩ := r
  simp only at henv htree hcheck hcode ⊢
  subst henv htree
  simp only [Class.typeReports, hname, bind_eq_ok, pure_eq_ok, List.append_eq_nil_iff,
    List.flatMap_eq_nil_iff] at hcheck
  obtain ⟨overriding, hoverriding, htypes, rfl⟩ := hcheck
  have hoffset : (env.classEntry p.members).offset =
    Layout.firstLocalOffset - (tables.length : Nat) := hreg.next
  simp only [Class.code, hname, hoffset, dispatchSlot_eq, bind_eq_ok, pure_eq_ok, Prod.mk.injEq] at hcode
  obtain ⟨inherited, hinherited, methods, hmethods, slot, hslot, recorded, hrecorded, rfl, rfl⟩ := hcode
  obtain rfl := Except.ok.inj (ok_of_mapError hslot)
  rw [DispatchTable.record_length] at hrecorded
  obtain rfl := Except.ok.inj (ok_of_mapError hrecorded)
  have hparentTable := Class.inheritedTable_eq_ok (c := c) hreg rfl hinherited
  have hat := Method.at_annotate henters.methodsAt
    ((env.declareClass name.text p.members).enterClass p.members)
  have hnames :
      (p.methods.map
          (·.annotate ((env.declareClass name.text p.members).enterClass p.members))).filterMap Method.member? =
        c.methods.filterMap Method.member? := by
    rw [Method.filterMap_annotate, henters.own_methods]
  obtain ⟨hkeep, hown⟩ := Class.methodCode_spec hat (hnames ▸ henters.methods.nodup) hmethods
  rw [hnames] at hkeep
  refine ⟨p, fs, ms, inherited, methods.table,
    ⟨henters, by rw [hname]; rfl, hb, hparentTable, ?_, ?_, hkeep, ?_, ?_⟩, rfl, rfl, rfl, rfl, rfl, rfl⟩
  · exact fun d hd => htypes _ (List.mem_map_of_mem hd)
  · intro parent hparent
    obtain ⟨hfields, hmethods'⟩ := Class.overrideReports_eq_nil (h := h)
      rfl rfl (congrArg (Option.map ClassInfo.entry) hparent) rfl hoverriding
    refine ⟨hfields, fun d hd => ?_⟩
    have := hmethods' _ (List.mem_map_of_mem hd)
    rwa [Method.overrideReports_annotate] at this
  · exact fun hlength => Class.methodCode_length hat henters.named.nodup_methods
      (hnames ▸ henters.methods.names_eq) hlength
      hmethods
  · intro d x signature hd hmember
    obtain ⟨j, hj⟩ := List.mem_iff_getElem?.1 hd
    obtain ⟨d', hj', hd'⟩ := getElem?_of_forall₂ henters.placedMethods hj
    obtain ⟨i, before, blocks, s', ho, hi, -, hblocks, hstart, hlabel⟩ := hown j _ x signature
      (by rw [List.getElem?_map, hj']; rfl)
        ((Method.member?_annotate _ d').trans (hd'.member?.trans hmember))
    rw [Method.offset_annotate] at ho
    rw [Method.annotate, if_pos (by rw [ho]; rfl), hd'.eq] at hblocks
    exact ⟨i, _, s', blocks, hi, hlabel, hblocks,
      fun b hb => hplaced b (hstart.subset (List.mem_append_right _ hb))⟩

end Class

end Classlet

import Classlet.Generation.Program
import Classlet.Resolution.Class
import Classlet.Typing.Decl
import Classlet.Proofs.Labels
import Classlet.Proofs.Overriding
import Classlet.Proofs.Scopes
import Classlet.Proofs.Trees
/-!
# Frames

`Linkage.Frames` relates three things: the scopes in which an expression was resolved, the context in which
it is evaluated, and the frames on the stack, found from a frame pointer through access links. Each of its
rules adds what one construct adds to all three. `Frames.lookup` is what the relation is for: a name that
the scopes bind has a meaning in the context, and its frame and offset lead to the word of that meaning.
-/

namespace Classlet

open Machine

/-! ## Compiled functions -/

/-- The virtual tables and the hierarchy with which a part of the program was resolved and checked: those of
the classes up to it. -/
structure Stage where
  classes : Table VirtualTable
  hierarchy : Hierarchy

namespace Linkage

structure Covers (L : Linkage) (stage : Stage) : Prop where
  tables (cls : String) (table : VirtualTable) : stage.classes.get? cls = some table →
    ∃ r, L.info? cls = some r ∧ r.members.table = table
  within : stage.hierarchy.Within L.classes

/-- The outermost scope binds nothing but classes. -/
def OnlyClasses (L : Linkage) (g : Scope) : Prop :=
  ∀ x e, g.get? x = some e → ∃ r, L.info? x = some r ∧ e = r.entry

/-- The function `f`, declared in the scopes `s`, passed all checks, and its code starts at `entry`. -/
structure Compiled (L : Linkage) (stage : Stage) (s : Scopes) (f : Function) (signature : Signature)
    (entry : Nat) : Prop where
  declared : f.declared?.map Prod.snd = some signature
  bare : Bare f.notes
  names : f.nameProblems stage.classes s = []
  types : ∃ kind a b, (f.annotate stage.classes s).typeReports stage.hierarchy kind a b = []
  code : ∃ supply supply' blocks, (f.annotate stage.classes s).code L.memory supply =
    .ok (blocks, supply') ∧
    (∀ b ∈ blocks, ∃ ip, L.code.At ip b) ∧ addressOf? (.function supply.function) L.code = some entry

/-- The method `f` that objects of a class have is declared by the class `cls` and compiled. -/
def CompiledMethod (L : Linkage) (cls : String) (f : Function) (signature : Signature)
    (entry : Nat) : Prop :=
  ∃ r stage g, L.info? cls = some r ∧ L.Covers stage ∧ L.OnlyClasses g ∧
    L.Compiled stage ⟨[.opened .cls r.members.table], g⟩ f signature entry

/-- What holds of a program that was compiled. -/
structure Sound (L : Linkage) : Prop where
  memory : 0 ≤ L.memory.val
  length : (L.code.length : Int) < 9223372036854775808
  nodup : L.code.labels.Nodup
  declared (cls : String) (r : ClassInfo) : L.info? cls = some r →
    Classes.declare L.classes cls = true ∧ Classes.fieldNames L.classes cls = r.fieldNames
  named (cls : String) (r : ClassInfo) : L.info? cls = some r → r.members.Named r.fieldNames r.methodNames
  slot (cls : String) (r : ClassInfo) : L.info? cls = some r →
    Slot L.size L.base (L.size + r.offset) (.ofInt r.start)
  refines (a b : String) (r : ClassInfo) : Classes.Subclass L.classes a b → L.info? a = some r →
    ∃ r', L.info? b = some r' ∧ r.Refines L.classes r'
  method (cls : String) (r : ClassInfo) (i : Nat) (m : String) (signature : Signature) :
    L.info? cls = some r →
    r.methodNames[i]? = some m → r.members.methods[i]? = some signature →
    ∃ d f entry, Classes.method? L.classes cls m = some (d, f) ∧ Classes.Subclass L.classes cls d ∧
      L.CompiledMethod d f signature entry ∧ L.tables[r.start + i]? = some (.ofInt entry)

/-! ## Frames and contexts -/

inductive Frames (L : Linkage) (stage : Stage) (store : List Object) (σ : List Word) :
    Scopes → List Binding → Int → Prop where
  /-- The outermost frame. -/
  | main {g : Scope} : L.base <:+ σ → L.OnlyClasses g → Frames L stage store σ ⟨[], g⟩ [] L.size
  /-- An object stands for the frame of its class. -/
  | object {g : Scope} {cls : String} {r : ClassInfo} {id : Nat} {o : Object} {fp : Int} :
    L.base <:+ σ → L.OnlyClasses g → L.info? cls = some r → store[id]? = some o →
    Classes.Subclass L.classes o.cls cls → fp = address L.start store id →
    Frames L stage store σ ⟨[.opened .cls r.members.table], g⟩ [.members cls id] fp
  /-- The frame of a function starts with the access link. -/
  | enter {s : Scopes} {context : List Binding} {link : Word} {fp : Int} :
    Frames L stage store σ s context link.val → Slot L.size σ fp link → 0 ≤ fp →
    Frames L stage store σ (s.push (.opened .function .empty)) context fp
  | take {s : Scopes} {context : List Binding} {fp : Int} :
    Frames L stage store σ s context fp → Frames L stage store σ s.takeOffset context fp
  | value {s : Scopes} {context : List Binding} {fp : Int} {x : String} {t : Ty} {offset : Int} {v : Value}
      {w : Word} :
    Frames L stage store σ s context fp → s.lookupCurrent? x = none → v.HasType L.classes store t →
    v.word? L.start store = some w → Slot L.size σ (fp + offset) w →
    Frames L stage store σ (s.bind x ⟨s.level, t, offset⟩) (.value x v :: context) fp
  | function {s : Scopes} {context : List Binding} {fp : Int} {x : String} {signature : Signature}
      {offset : Int}
    {f : Function} {entry : Nat} :
    Frames L stage store σ s context fp → s.lookupCurrent? x = none →
    L.Compiled stage (s.bind x ⟨s.level, .arrow signature, offset⟩) f signature entry →
    Slot L.size σ (fp + offset) (.ofInt entry) →
    Frames L stage store σ (s.bind x ⟨s.level, .arrow signature, offset⟩) (.function x f :: context) fp

section Frames
variable {L : Linkage} {stage : Stage} {store store' : List Object} {σ σ' : List Word} {s : Scopes}
  {context : List Binding} {fp : Int}

/-- Making objects and pushing words changes nothing. -/
theorem Frames.mono (h : L.Frames stage store σ s context fp) (hs : store <+: store') (hσ : σ <:+ σ') :
    L.Frames stage store' σ' s context fp := by
  induction h with
  | main hb hg => exact .main (hb.trans hσ) hg
  | object hb hg hr ho hsub hfp =>
    refine .object (hb.trans hσ) hg hr (prefix_getElem? hs ho) hsub ?_
    rw [hfp, address_mono _ hs (List.getElem?_eq_some_iff.1 ho).1]
  | enter _ hslot hfp ih => exact .enter ih (hslot.of_suffix hσ) hfp
  | take _ ih => exact .take ih
  | value _ hx ht hw hslot ih =>
    exact .value ih hx (ht.mono hs) (Value.word?_mono hs hw) (hslot.of_suffix hσ)
  | function _ hx hf hslot ih => exact .function ih hx hf (hslot.of_suffix hσ)

theorem Frames.base (h : L.Frames stage store σ s context fp) : L.base <:+ σ := by
  induction h with
  | main hb _ => exact hb
  | object hb _ _ _ _ _ => exact hb
  | enter _ _ _ ih | take _ ih | value _ _ _ _ _ ih | function _ _ _ _ ih => exact ih

theorem Frames.nonneg (h : L.Frames stage store σ s context fp) : 0 ≤ fp := by
  induction h with
  | main => exact Int.natCast_nonneg _
  | object _ _ _ _ _ hfp => rw [hfp]; exact Int.natCast_nonneg _
  | enter _ _ hfp => exact hfp
  | take _ ih | value _ _ _ _ _ ih | function _ _ _ _ ih => exact ih

/-- Inside a class the frames end at an object, and the access links lead there: one for each scope inside
the class. -/
theorem Frames.chain_object (h : L.Frames stage store σ s context fp) (hs : s.kinds.getLast? = some .cls) :
    ∃ id, id < store.length ∧ Chain L.size σ fp (s.level - 1) (address L.start store id) := by
  induction h with
  | main => cases hs
  | @object g cls r id o fp _ _ _ ho _ hfp =>
    subst hfp
    exact ⟨id, (List.getElem?_eq_some_iff.1 ho).1, .here _⟩
  | @enter s context link fp _ hslot _ ih =>
    -- a function outside of all classes has only functions around it
    cases hk : s.kinds with
    | nil =>
      rw [Scopes.kinds_push, hk] at hs
      cases hs
    | cons kind kinds =>
      rw [Scopes.kinds_push, hk, List.getLast?_cons_cons, ← hk] at hs
      obtain ⟨id, hid, hchain⟩ := ih hs
      have hlevel : s.level = kinds.length + 1 := by
        rw [Scopes.level, ← List.length_map, ← Scopes.kinds, hk, List.length_cons]
      refine ⟨id, hid, ?_⟩
      rw [hlevel] at hchain
      rw [Scopes.level_push, hlevel]
      exact .up hslot hchain
  | take _ ih =>
    rw [Scopes.kinds_takeOffset] at hs
    rw [Scopes.level_takeOffset]
    exact ih hs
  | value _ _ _ _ _ ih | function _ _ _ _ ih =>
    rw [Scopes.kinds_bind] at hs
    rw [Scopes.level_bind]
    exact ih hs

/-- What the scopes bind a name to, other than a class, is in the frame at `fp`. -/
inductive Found (L : Linkage) (stage : Stage) (store : List Object) (σ heap : List Word)
    (context : List Binding) (x : String) (entry : Entry) (fp : Int) : Prop where
  | value {v : Value} {w : Word} : meaning? L.classes store x context = some (.value v) →
    v.HasType L.classes store entry.type → v.word? L.start store = some w →
    Holds L.size σ heap (fp + entry.offset) w → Found L stage store σ heap context x entry fp
  | function {f : Function} {declared : List Binding} {s : Scopes} {signature : Signature} {address : Nat} :
    meaning? L.classes store x context = some (.function f declared) → entry.type = .arrow signature →
    L.Frames stage store σ s declared fp → L.Compiled stage s f signature address →
    Slot L.size σ (fp + entry.offset) (.ofInt address) → Found L stage store σ heap context x entry fp
  | method {id : Nat} {o : Object} {cls : String} {r : ClassInfo} {signature : Signature} :
    meaning? L.classes store x context = some (.method id) → entry.type = .method signature →
    store[id]? = some o → Classes.Subclass L.classes o.cls cls → L.info? cls = some r →
    r.members.table.get? x = some entry → fp = address L.start store id →
    Found L stage store σ heap context x entry fp

/-- A binding of another name changes nothing. -/
theorem Found.skip {heap : List Word} {context' : List Binding} {x : String} {entry : Entry}
    (h : Found L stage store σ heap context x entry fp)
    (hm : meaning? L.classes store x context' = meaning? L.classes store x context) :
    Found L stage store σ heap context' x entry fp := by
  cases h with
  | value h1 h2 h3 h4 => exact .value (hm.trans h1) h2 h3 h4
  | function h1 h2 h3 h4 h5 => exact .function (hm.trans h1) h2 h3 h4 h5
  | method h1 h2 h3 h4 h5 h6 h7 => exact .method (hm.trans h1) h2 h3 h4 h5 h6 h7

/-- The members of a class, seen from one of its methods, are found in the object. -/
theorem Represents.found_member (stage : Stage) (σ : List Word) {w : World} {heap out : List Word}
    (hL : L.Sound) (hw : L.Represents w heap out)
    {id : Nat} {o : Object} {cls x : String} {r : ClassInfo} {entry : Entry} (hr : L.info? cls = some r)
    (ho : w.store[id]? = some o) (hsub : Classes.Subclass L.classes o.cls cls)
    (hx : r.members.table.get? x = some entry) :
    entry.level = memberLevel ∧
      Found L stage w.store σ heap [.members cls id] x entry (address L.start w.store id) := by
  have hnamed := hL.named cls r hr
  have hfields : Classes.fieldNames L.classes cls = r.fieldNames := (hL.declared cls r hr).2
  obtain ⟨ro, hro⟩ := hw.objects id o ho
  obtain ⟨r', hr', href⟩ := hL.refines o.cls cls ro hsub hro.info
  obtain rfl : r = r' := Option.some.inj (hr.symm.trans hr')
  rcases hnamed.complete x entry hx with hmem | hmem
  · obtain ⟨i, hi⟩ := List.mem_iff_getElem?.1 hmem
    obtain ⟨t, ht, -, htable⟩ := hnamed.field i x hi
    obtain rfl := Option.some.inj (hx.symm.trans htable)
    have hname : (o.fields.map Prod.fst)[i]? = some x := by
      rw [hro.names]
      exact prefix_getElem? href.fieldNames hi
    rw [List.getElem?_map, Option.map_eq_some_iff] at hname
    obtain ⟨⟨x', v⟩, hv, rfl⟩ := hname
    obtain ⟨t', y, k, ht', hty, hy, hk, ha⟩ := hro.field i x' v hv
    have hnodup : (o.fields.map Prod.fst).Nodup := by
      rw [hro.names]
      exact (List.nodup_append.1 (hL.named o.cls ro hro.info).nodup).1
    refine ⟨rfl, .value (v := v) ?_ (href.field i t' t ht' ht _ _ hty) hy (.inr ⟨k, hk, ?_⟩)⟩
    · rw [meaning?, if_pos (by rw [hfields]; exact hmem), ho]
      simp [lookup_of_getElem? hnodup hv]
    · simp only [Layout.fieldOffset]
      omega
  · obtain ⟨i, hi⟩ := List.mem_iff_getElem?.1 hmem
    obtain ⟨sig, hsig, htable⟩ := hnamed.method i x hi
    obtain rfl := Option.some.inj (hx.symm.trans htable)
    obtain ⟨d, f, e, hm, -⟩ := hL.method cls r i x sig hr hi hsig
    refine ⟨rfl, .method ?_ rfl ho hsub hr hx rfl⟩
    have hnot : x ∉ r.fieldNames := fun h => (List.nodup_append.1 hnamed.nodup).2.2 x h x hmem rfl
    rw [meaning?, if_neg (by rw [hfields]; exact hnot), hm]
    rfl

theorem Frames.lookup {w : World} {heap out : List Word} (hL : L.Sound) (hw : L.Represents w heap out)
    (h : L.Frames stage w.store σ s context fp) {x : String} {entry : Entry}
    (hx : s.lookup? x = some entry) :
    (∃ r, L.info? x = some r ∧ entry = r.entry) ∨
      (entry.level ≤ s.level ∧ ∃ fp', 0 ≤ fp' ∧ Chain L.size σ fp (s.level - entry.level) fp' ∧
        Found L stage w.store σ heap context x entry fp') := by
  induction h with
  | main hb hg => exact .inl (hg x entry hx)
  | @object g cls r id o fp hb hg hr ho hsub hfp =>
    have hlookup : (r.members.table.get? x).or (g.get? x) = some entry := by
      rw [← hx]
      show _ = ((List.findSome? _ [Scope.opened .cls r.members.table]).or _)
      rw [List.findSome?_singleton]
      rfl
    cases htable : r.members.table.get? x with
    | none =>
      rw [htable, Option.none_or] at hlookup
      exact .inl (hg x entry hlookup)
    | some e =>
      rw [htable, Option.some_or] at hlookup
      obtain rfl := Option.some.inj hlookup
      obtain ⟨hlevel, hfound⟩ := hw.found_member stage σ hL hr ho hsub htable
      refine .inr ⟨by rw [hlevel]; exact Nat.le_refl 1, fp, by rw [hfp]; exact Int.natCast_nonneg _, ?_, ?_⟩
      · rw [hlevel]
        exact .here fp
      · rw [hfp]
        exact hfound
  | enter _ hslot _ ih =>
    rcases ih hx with hcls | ⟨hlevel, fp', h0, hchain, hfound⟩
    · exact .inl hcls
    · refine .inr ⟨Nat.le_succ_of_le hlevel, fp', h0, ?_, hfound⟩
      rw [Scopes.level_push, Nat.succ_sub hlevel]
      exact .up hslot hchain
  | take _ ih =>
    rw [Scopes.lookup?_takeOffset] at hx
    rw [Scopes.level_takeOffset]
    exact ih hx
  | @value s context fp y t offset v z hframes hy ht hz hslot ih =>
    rw [Scopes.lookup?_bind hy] at hx
    rw [Scopes.level_bind]
    split at hx
    · next hxy =>
      subst hxy
      obtain rfl := Option.some.inj hx
      refine .inr ⟨Nat.le_refl _, fp, hframes.nonneg, ?_,
        .value (by rw [meaning?, if_pos rfl]) ht hz (.inl hslot)⟩
      rw [Nat.sub_self]
      exact .here fp
    · next hxy =>
      refine (ih hx).imp_right fun ⟨hlevel, fp', h0, hchain, hfound⟩ =>
        ⟨hlevel, fp', h0, hchain, hfound.skip ?_⟩
      rw [meaning?, if_neg hxy]
  | @function s context fp y signature offset f e hframes hy hf hslot ih =>
    rw [Scopes.lookup?_bind hy] at hx
    rw [Scopes.level_bind]
    split at hx
    · next hxy =>
      subst hxy
      obtain rfl := Option.some.inj hx
      refine .inr ⟨Nat.le_refl _, fp, hframes.nonneg, ?_,
        .function (by rw [meaning?, if_pos rfl]) rfl (.function hframes hy hf hslot) hf hslot⟩
      rw [Nat.sub_self]
      exact .here fp
    · next hxy =>
      refine (ih hx).imp_right fun ⟨hlevel, fp', h0, hchain, hfound⟩ =>
        ⟨hlevel, fp', h0, hchain, hfound.skip ?_⟩
      rw [meaning?, if_neg hxy]

end Frames

end Linkage

end Classlet

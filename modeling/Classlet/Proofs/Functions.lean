import Classlet.Proofs.Simulation
/-!
# Declarations and functions

Declarations leave one word each, which the declarations after them and the body find in the frame
(`Decl.follows`). Where the functions that are called do what `Linkage.Calls` says, so does a function one
call further out; by induction on the fuel all functions do (`Linkage.Sound.calls`).
-/

namespace Classlet

open Machine Linkage

theorem Decl.slots_cons (d : Decl) (ds : List Decl) :
    Decl.slots (d :: ds) = (if d.declared?.isSome then 1 else 0) + Decl.slots ds := by
  rw [Decl.slots, List.countP_cons, Nat.add_comm]
  rfl

/-! ## Parameters -/

namespace Linkage

variable {L : Linkage} {stage : Stage} {store : List Object} {σ : List Word} {s : Scopes}
  {context : List Binding} {fp : Int}

/-- The parameters are above the access link. -/
theorem Frames.bindParams (h : L.Frames stage store σ s context fp) {i : Nat} {ps : List Param}
    {ts : List Ty} {vs : List Value} {ys : List Word} (hp : s.paramProblems i ps = [])
    (hps : List.Forall₂ Param.Declares ps ts)
    (hvs : List.Forall₂ (·.HasType L.classes store ·) vs ts)
    (hys : List.Forall₂ (·.word? L.start store = some ·) vs ys)
    (hslot : ∀ j y, ys[j]? = some y → Slot L.size σ (fp + Layout.paramOffset (i + j : Nat)) y) :
    ∃ inner, bindParams? context ps vs = some inner ∧
      L.Frames stage store σ (s.bindParams i ps) inner fp := by
  induction hps generalizing s context i vs ys with
  | nil =>
    cases hvs
    exact ⟨context, by rw [bindParams?], h⟩
  | @cons p t ps ts hpt _ ih =>
    obtain ⟨x, hname, htype⟩ := hpt
    cases hvs with
    | cons hv hvs =>
    cases hys with
    | @cons v y vs ys hy hys =>
      simp only [Scopes.paramProblems, hname, htype, List.append_eq_nil_iff] at hp
      simp only [bindParams?, Scopes.bindParams, hname, htype]
      have hframes := Frames.value h (Scopes.duplicates_eq_nil hp.1) hv hy (hslot 0 y rfl)
      refine ih hframes hp.2 hvs hys fun j z hz => ?_
      have hj := hslot (j + 1) z hz
      rwa [← Nat.add_assoc, Nat.add_right_comm] at hj

end Linkage

/-! ## Blocks -/

/-- The block of a function, with the labels of its entry and the code of its parts. -/
def Function.block (f : Function) (label : Label) (locals body : Code) : Code :=
  Code.enterFrame label ++ locals ++ body ++ Code.leaveFrame (Decl.slots f.locals) f.params.length

theorem Function.code_eq_ok {f : Function} {memory : Word} {supply supply' : Supply} {blocks : List Code}
    (h : f.code memory supply = .ok (blocks, supply')) :
    ∃ decls body branch, Decl.codeAll memory f.locals { supply with function := supply.function + 1 } =
      .ok decls ∧
      f.body.code memory decls.supply.branch = .ok (body, branch) ∧
      blocks = decls.blocks ++ [f.block (.function supply.function) decls.code body] := by
  obtain ⟨name, params, ret, locals, body, span⟩ := f
  simp only [Function.code, bind_eq_ok, pure_eq_ok, Prod.exists, Prod.mk.injEq] at h
  obtain ⟨decls, hd, value, branch, hv, rfl, -⟩ := h
  exact ⟨decls, value, branch, hd, hv, rfl⟩

section Annotated
variable {memory : Word} {classes : Table VirtualTable} {s : Scopes} {supply : Supply} {out : Output}

theorem Decl.code_annotate_var {v : Variable}
    (h : ((Decl.var v).annotate classes s).code memory supply = .ok out) :
    (v.declared? = none ∧ out = ⟨[], [], supply⟩) ∨
      ∃ p c n, v.declared? = some p ∧
        (v.init.annotate ⟨s, classes⟩).code memory supply.branch = .ok (c, n) ∧
        out = ⟨c, [], { supply with branch := n }⟩ := by
  rw [Decl.annotate] at h
  split at h
  · exact Decl.code_var_cases h
  · next hv =>
    rcases Decl.code_var_cases h with hnone | ⟨p, c, n, hp, -⟩
    · exact .inl hnone
    · cases hv.symm.trans hp

theorem Decl.code_annotate_function {f : Function}
    (h : ((Decl.function f).annotate classes s).code memory supply = .ok out) :
    (f.declared? = none ∧ out = ⟨[], [], supply⟩) ∨
      ∃ name signature blocks supply', f.declared? = some (name, signature) ∧
        (f.annotate classes (s.declareLocal name.text (.arrow signature))).code memory supply =
          .ok (blocks, supply') ∧
        out = ⟨[.pushLabel (.function supply.function)], blocks, supply'⟩ := by
  rw [Decl.annotate] at h
  split at h
  · next name signature hf =>
    rcases Decl.code_function_cases h with ⟨hnone, -⟩ | ⟨p, blocks, supply', -, hcode, rfl⟩
    · rw [Function.declared?_annotate, hf] at hnone
      cases hnone
    · exact .inr ⟨name, signature, blocks, supply', hf, hcode, rfl⟩
  · next hf =>
    rcases Decl.code_function_cases h with hnone | ⟨p, blocks, supply', hp, -⟩
    · exact .inl hnone
    · cases hf.symm.trans hp

end Annotated

/-- The entry of a function is where its block stands. -/
theorem Function.at_block {f : Function} {label : Label} {locals body code : Code} {ip : Nat}
    (hn : code.labels.Nodup) (h : code.At ip (f.block label locals body)) :
    addressOf? label code = some ip := by
  rw [Function.block, Code.enterFrame, Code.at_append, Code.at_append, Code.at_append, Code.at_cons] at h
  exact addressOf?_eq_some hn h.1.1.1.1

/-! ## Declarations -/

namespace Linkage

variable {L : Linkage} {stage : Stage} {s : Scopes} {context : List Binding} {n : Nat} {invoke : Invoke}

/-- The machine has come to `ip` in the frame at `fp` and pushed `count` words, which the scopes `s` and a
context find. -/
def LeavesLocals (L : Linkage) (stage : Stage) (s : Scopes) (w : World) (ip : Nat) (fp : Word)
    (σ : List Word) (count : Nat) : List Binding × World → Snapshot → Prop
  | (context, w'), c => ∃ τ ra tm heap out, c = ⟨ip, fp, ra, tm, τ ++ σ, heap, out⟩ ∧ τ.length = count ∧
    w.store <+: w'.store ∧ L.Represents w' heap out ∧ L.Frames stage w'.store (τ ++ σ) s context fp.val

/-- The next word that is pushed is the next local declaration. -/
def NextLocal (L : Linkage) (s : Scopes) (fp : Word) (σ : List Word) : Prop :=
  fp.val + s.nextOffset = L.size - σ.length - 1

theorem NextLocal.slot {fp : Word} {σ : List Word} (h : L.NextLocal s fp σ) (x : Word) :
    Slot L.size (x :: σ) (fp.val + s.nextOffset) x := by
  refine Slot.of_getElem? (j := 0) rfl ?_
  rw [h, List.length_cons]
  omega

theorem Frames.declareLocal {store : List Object} {fp x : Word} {σ : List Word} {name : String}
    {t : Ty} {v : Value} (h : L.Frames stage store σ s context fp.val)
    (hname : s.lookupCurrent? name = none) (hnext : L.NextLocal s fp σ) (hv : v.HasType L.classes store t)
    (hx : v.word? L.start store = some x) :
    L.Frames stage store (x :: σ) (s.declareLocal name t) (.value name v :: context) fp.val := by
  have hframes := (h.mono (List.prefix_refl _) (List.suffix_cons x σ)).take
  have hvalue := hframes.value (by rwa [Scopes.lookupCurrent?_takeOffset]) hv hx (hnext.slot x)
  rwa [Scopes.level_takeOffset] at hvalue

theorem Frames.declareFunction {store : List Object} {fp : Word} {σ : List Word} {name : String}
    {signature : Signature} {f : Function} {entry : Nat} (h : L.Frames stage store σ s context fp.val)
    (hname : s.lookupCurrent? name = none) (hnext : L.NextLocal s fp σ)
    (hf : L.Compiled stage (s.declareLocal name (.arrow signature)) f signature entry) :
    L.Frames stage store (.ofInt entry :: σ) (s.declareLocal name (.arrow signature))
      (.function name f :: context)
      fp.val := by
  have hframes := (h.mono (List.prefix_refl _) (List.suffix_cons (.ofInt entry) σ)).take
  rw [Scopes.declareLocal, ← Scopes.level_takeOffset s] at hf ⊢
  exact hframes.function (by rwa [Scopes.lookupCurrent?_takeOffset]) hf (hnext.slot _)

end Linkage

section Declarations
variable {L : Linkage} {stage : Stage} {s : Scopes} {context : List Binding} {n : Nat} {invoke : Invoke}
  {w : World} {ip : Nat} {fp ra tm : Word} {σ heap out : List Word} {severity : Severity} {supply : Supply}
  {output : Output}

theorem Variable.typeProblem?_eq_none {h : Hierarchy} {v : Variable} {name : Name} {t : Ty}
    (hv : v.declared? = some (name, t)) (hp : v.typeProblem? h = none) :
    ∃ t', v.init.typeOf h = .ok t' ∧ h.isSubtype t' t = true := by
  simp only [Variable.typeProblem?, hv] at hp
  split at hp
  · cases hp
  · next t' ht' =>
    split at hp
    · next hsub => exact ⟨t', ht', hsub⟩
    · cases hp

theorem Decl.follows (hL : L.Sound) (hcalls : L.Calls n invoke) (hcov : L.Covers stage) (d : Decl)
    (hb : Bare d.notes) (hn : d.nameProblems stage.classes s = [])
    (ht : (d.annotate stage.classes s).typeReports stage.hierarchy severity = [])
    (hc : (d.annotate stage.classes s).code L.memory supply = .ok output)
    (hplaced : ∀ b ∈ output.blocks, ∃ ip, L.code.At ip b) (hat : L.code.At ip output.code)
    (hw : L.Represents w heap out) (hf : L.Frames stage w.store σ s context fp.val)
    (hnext : L.NextLocal s fp σ) :
    Follows L.code L.size n (d.eval ⟨L.classes, true⟩ invoke context w)
      (L.LeavesLocals stage (d.bind s) w (ip + output.code.length) fp σ
        (if d.declared?.isSome then 1 else 0))
      ⟨ip, fp, ra, tm, σ, heap, out⟩ := by
  cases d with
  | var v =>
    rcases Decl.code_annotate_var hc with ⟨hv, rfl⟩ | ⟨⟨name, t⟩, code, k, hv, hcode, rfl⟩
    · simp only [Decl.eval, Decl.bind, Decl.declared?, hv]
      exact .ok ⟨[], ra, tm, heap, out, rfl, rfl, List.prefix_refl _, hw, hf⟩
    · have hv' : ({ v with init := v.init.annotate ⟨s, stage.classes⟩ } : Variable).declared? =
        some (name, t) := hv
      simp only [Decl.annotate, hv, Decl.typeReports, List.map_eq_nil_iff, Option.toList_eq_nil_iff] at ht
      simp only [Decl.nameProblems, hv, List.append_eq_nil_iff] at hn
      obtain ⟨t', ht', hsub⟩ := Variable.typeProblem?_eq_none hv' ht
      have hinit : L.Realizes n stage s context code (v.init.eval ⟨L.classes, true⟩ invoke context) t :=
        (Expr.realizes hL hcalls hcov v.init hb ht' hcode).of_isSubtype hcov.within hsub
      simp only [Decl.eval, Decl.bind, Decl.declared?, hv]
      refine (hinit.follows hat hw hf).bind ?_
      rintro ⟨a, w1⟩ c - ⟨x, ra1, tm1, heap1, out1, rfl, hs1, hw1, hx, ha⟩
      refine .ok ⟨[x], ra1, tm1, heap1, out1, rfl, rfl, hs1, hw1, ?_⟩
      exact (hf.mono hs1 (List.suffix_refl _)).declareLocal (Scopes.duplicates_eq_nil hn.2) hnext ha hx
  | function f =>
    rcases Decl.code_annotate_function hc with
      ⟨hd, rfl⟩ | ⟨name, signature, blocks, supply', hd, hcode, rfl⟩
    · simp only [Decl.eval, Decl.bind, Decl.declared?, hd]
      exact .ok ⟨[], ra, tm, heap, out, rfl, rfl, List.prefix_refl _, hw, hf⟩
    · simp only [Decl.annotate, hd, Decl.typeReports] at ht
      simp only [Decl.nameProblems, hd, List.append_eq_nil_iff] at hn
      obtain ⟨decls, body, branch, -, -, hblocks⟩ := Function.code_eq_ok hcode
      obtain ⟨entry, hentry⟩ := hplaced _
        (by rw [hblocks]; exact List.mem_append_right _ (List.mem_singleton_self _))
      have haddress := Function.at_block hL.nodup hentry
      have hcompiled : L.Compiled stage (s.declareLocal name.text (.arrow signature)) f signature entry :=
        ⟨by rw [hd]; rfl, hb, hn.2, ⟨_, _, _, ht⟩, supply, supply', blocks, hcode, hplaced, haddress⟩
      rw [Code.at_cons] at hat
      simp only [Decl.eval, Decl.bind, Decl.declared?, hd]
      refine .of_goes (Moves.pushLabel hat.1 haddress).goes
        (.ok ⟨[.ofInt entry], ra, tm, heap, out, rfl, rfl, List.prefix_refl _, hw, ?_⟩)
      exact hf.declareFunction (Scopes.duplicates_eq_nil hn.1.2) hnext hcompiled

theorem Decl.followsAll (hL : L.Sound) (hcalls : L.Calls n invoke) (hcov : L.Covers stage) (ds : List Decl)
    (hb : Bare (Decl.listNotes ds)) (hn : Decl.allNameProblems stage.classes s ds = [])
    (ht : Decl.allTypeReports stage.hierarchy severity (Decl.annotateAll stage.classes s ds) = [])
    (hc : Decl.codeAll L.memory (Decl.annotateAll stage.classes s ds) supply = .ok output)
    (hplaced : ∀ b ∈ output.blocks, ∃ ip, L.code.At ip b) (hat : L.code.At ip output.code)
    (hw : L.Represents w heap out) (hf : L.Frames stage w.store σ s context fp.val)
    (hnext : L.NextLocal s fp σ) :
    Follows L.code L.size n (Decl.evalAll ⟨L.classes, true⟩ invoke context w ds)
      (L.LeavesLocals stage (Decl.bindAll s ds) w (ip + output.code.length) fp σ
        (Decl.slots (Decl.annotateAll stage.classes s ds))) ⟨ip, fp, ra, tm, σ, heap, out⟩ := by
  induction ds generalizing s context w ip ra tm σ heap out supply output with
  | nil =>
    simp only [Decl.annotateAll, Decl.codeAll, Except.ok.injEq] at hc
    subst hc
    exact .ok ⟨[], ra, tm, heap, out, rfl, rfl, List.prefix_refl _, hw, hf⟩
  | cons d ds ih =>
    rw [Decl.listNotes, bare_append] at hb
    rw [Decl.allNameProblems, List.append_eq_nil_iff] at hn
    simp only [Decl.annotateAll, Decl.codeAll, bind_eq_ok, pure_eq_ok] at hc
    obtain ⟨first, hfirst, rest, hrest, rfl⟩ := hc
    rw [Decl.annotateAll, Decl.allTypeReports, List.append_eq_nil_iff] at ht
    rw [Code.at_append] at hat
    have hplacedFirst := fun b hb => hplaced b (List.mem_append_left _ hb)
    have hplacedRest := fun b hb => hplaced b (List.mem_append_right _ hb)
    rw [Decl.evalAll]
    refine (Decl.follows hL hcalls hcov d hb.1 hn.1 ht.1 hfirst hplacedFirst hat.1 hw hf hnext).bind ?_
    rintro ⟨inner, w1⟩ c - ⟨τ, ra1, tm1, heap1, out1, rfl, hτ, hs1, hw1, hf1⟩
    have hnext1 : L.NextLocal (d.bind s) fp (τ ++ σ) := by
      rw [NextLocal] at hnext ⊢
      rw [Decl.nextOffset_bind, List.length_append, hτ]
      omega
    refine (ih hb.2 hn.2 ht.2 hrest hplacedRest hat.2 hw1 hf1 hnext1).mono ?_
    rintro ⟨inner', w2⟩ c - ⟨τ', ra2, tm2, heap2, out2, rfl, hτ', hs2, hw2, hf2⟩
    refine ⟨τ' ++ τ, ra2, tm2, heap2, out2, ?_, ?_, hs1.trans hs2, hw2, ?_⟩
    · rw [List.append_assoc, List.length_append, Nat.add_assoc]
    · rw [Decl.annotateAll, Decl.slots_cons, Decl.declared?_annotate, List.length_append, hτ, hτ',
        Nat.add_comm]
    · rw [List.append_assoc]
      exact hf2

end Declarations

/-! ## Functions -/

theorem Function.typeReports_eq_nil {f : Function} {h : Hierarchy} {kind : DeclKind} {a b : Severity}
    {name : Name} {signature : Signature} (hd : f.declared? = some (name, signature))
    (ht : f.typeReports h kind a b = []) :
    Decl.allTypeReports h a f.locals = [] ∧ ∃ t, f.body.typeOf h = .ok t ∧
    h.isSubtype t signature.ret = true := by
  obtain ⟨_, params, ret, locals, body, span⟩ := f
  simp only [Function.typeReports, hd, List.append_eq_nil_iff, List.map_eq_nil_iff,
    Option.toList_eq_nil_iff] at ht
  refine ⟨ht.1, ?_⟩
  have hbody := ht.2
  unfold Expr.returnProblem? at hbody
  split at hbody
  · cases hbody
  · next t hty =>
    split at hbody
    · next hsub => exact ⟨t, hty, hsub⟩
    · cases hbody

namespace Linkage

variable {L : Linkage} {stage : Stage} {s : Scopes} {context : List Binding}

/-- The frame of a function with its parameters. The return address is already on the stack. -/
theorem Frames.enterFunction {store : List Object} {ys σ : List Word} {link control fp : Word} (ret : Word)
    {f : Function} {signature : Signature} {name : Name} {vs : List Value}
    (h : L.Frames stage store (ys ++ control :: σ) s context link.val)
    (hd : f.declared? = some (name, signature))
    (hp : (s.push (.opened .function .empty)).paramProblems 0 f.params = [])
    (hvs : List.Forall₂ (·.HasType L.classes store ·) vs signature.params)
    (hys : List.Forall₂ (·.word? L.start store = some ·) vs ys)
    (hfp : fp.val = L.size - (link :: (ys ++ control :: σ)).length) (hnonneg : 0 ≤ fp.val) :
    ∃ inner, bindParams? context f.params vs = some inner ∧
      L.Frames stage store (ret :: link :: (ys ++ control :: σ)) (s.enter f.params) inner fp.val ∧
      L.NextLocal (s.enter f.params) fp (ret :: link :: (ys ++ control :: σ)) := by
  have hsuffix : ys ++ control :: σ <:+ ret :: link :: (ys ++ control :: σ) :=
    (List.suffix_cons link _).trans (List.suffix_cons ret _)
  have hlink : Slot L.size (ret :: link :: (ys ++ control :: σ)) fp.val link :=
    Slot.of_getElem? (j := 1) rfl (by rw [hfp]; simp only [List.length_cons]; omega)
  have hentered := (h.mono (List.prefix_refl _) hsuffix).enter hlink hnonneg
  obtain ⟨inner, hinner, hframes⟩ :=
    hentered.bindParams hp (Function.declares_of_declared? hd) hvs hys fun j y hj => by
    have hjlt := (List.getElem?_eq_some_iff.1 hj).1
    refine Slot.of_getElem? (j := j + 2) ?_ ?_
    · rw [List.getElem?_cons_succ, List.getElem?_cons_succ, List.getElem?_append_left hjlt, hj]
    · rw [hfp]
      simp only [Layout.paramOffset, List.length_cons, List.length_append]
      omega
  refine ⟨inner, hinner, hframes, ?_⟩
  rw [NextLocal, hfp, Scopes.nextOffset_enter, Layout.firstLocalOffset]
  simp only [List.length_cons]
  omega

/-- With fuel for calls nested one deeper, a function does what it should if the functions it calls do. -/
theorem Calls.succ (hL : L.Sound) {n : Nat} (hcalls : L.Calls n (Function.apply ⟨L.classes, true⟩ n)) :
    L.Calls (n + 1) (Function.apply ⟨L.classes, true⟩ (n + 1)) := by
  constructor
  intro stage s f signature entry target context w vs ys σ heap out link control ret fp tm hcov hf hw
    hframes hvs hys hret
  obtain ⟨⟨name, signature'⟩, hd, rfl⟩ := Option.map_eq_some_iff.1 hf.declared
  obtain ⟨supply, supply', blocks, hcode, hplaced, haddress⟩ := hf.code
  obtain ⟨kind, a, b, htypes⟩ := hf.types
  obtain ⟨decls, body, branch, hlocals, hbody, hblocks⟩ := Function.code_eq_ok hcode
  obtain ⟨ip, hat⟩ := hplaced _ (by rw [hblocks]; exact List.mem_append_right _ (List.mem_singleton_self _))
  obtain rfl := Option.some.inj (haddress.symm.trans (Function.at_block hL.nodup hat))
  obtain ⟨hlocalTypes, t, ht, hsub⟩ :=
    Function.typeReports_eq_nil ((f.declared?_annotate _ _).trans hd) htypes
  have hnames := hf.names
  have hbare := hf.bare
  obtain ⟨fname, params, fret, locals, fbody, span⟩ := f
  simp only [Function.nameProblems, List.append_eq_nil_iff] at hnames
  rw [Function.notes, bare_append] at hbare
  simp only [Function.annotate] at hlocals hbody hlocalTypes ht
  rw [Function.block, Code.at_append, Code.at_append, Code.at_append] at hat
  obtain ⟨⟨⟨henter, hatLocals⟩, hatBody⟩, hatLeave⟩ := hat
  obtain ⟨hdefine, hgo⟩ :
      Moves L.code L.size ⟨entry, fp, ret, tm, link :: (ys ++ control :: σ), heap, out⟩ _ ∧ _ :=
    Goes.enterFrame henter
  refine Follows.of_moves hdefine (Follows.of_goes hgo (Follows.of_fits fun hfits => ?_))
  have hsize := L.size_lt
  have hroom : (link :: (ys ++ control :: σ)).length ≤ L.size := by
    simp only [List.length_cons] at hfits ⊢
    omega
  have hval : (Word.ofInt (L.size - (link :: (ys ++ control :: σ)).length : Int)).val =
      L.size - (link :: (ys ++ control :: σ)).length := Word.val_ofInt (by omega) (by omega)
  generalize Word.ofInt (L.size - (link :: (ys ++ control :: σ)).length : Int) = fp' at hval ⊢
  obtain ⟨inner, hinner, hframes', hnext⟩ := hframes.enterFunction ret hd hnames.1.1 hvs hys hval (by omega)
  simp only [Function.apply, hinner]
  refine (Decl.followsAll hL hcalls hcov locals hbare.1 hnames.1.2 hlocalTypes hlocals
    (fun b hb => hplaced b (by rw [hblocks]; exact List.mem_append_left _ hb)) hatLocals hw hframes'
      hnext).bind ?_
  rintro ⟨inner', w1⟩ c - ⟨τ, ra1, tm1, heap1, out1, rfl, hτ, hs1, hw1, hf1⟩
  have hrealizes : L.Realizes n stage _ inner' body
      (fbody.eval ⟨L.classes, true⟩ (Function.apply ⟨L.classes, true⟩ n) inner')
      signature'.ret := (Expr.realizes hL hcalls hcov fbody hbare.2 ht hbody).of_isSubtype hcov.within hsub
  rw [List.length_append, ← Nat.add_assoc] at hatBody
  refine (hrealizes.follows hatBody hw1 hf1).extend ?_
  rintro ⟨v, w2⟩ c - ⟨x, ra2, tm2, heap2, out2, rfl, hs2, hw2, hx, hv⟩
  have hparams : params.length = ys.length := by
    rw [(Function.declares_of_declared? hd).length_eq, ← hvs.length_eq, hys.length_eq]
  rw [List.length_append, List.length_append, ← Nat.add_assoc, ← Nat.add_assoc] at hatLeave
  simp only [Function.annotate, ← hτ, hparams] at hatLeave
  exact ⟨_, Goes.leaveFrame hatLeave hret, x, _, x, heap2, out2, rfl, hs1.trans hs2, hw2, hx, hv⟩

/-- Every function that was compiled does what evaluation says. -/
theorem Sound.calls (hL : L.Sound) (n : Nat) : L.Calls n (Function.apply ⟨L.classes, true⟩ n) := by
  induction n with
  | zero =>
    constructor
    intros
    exact .timeout
  | succ n ih => exact .succ hL ih

end Linkage

end Classlet

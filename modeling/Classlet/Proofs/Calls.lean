import Classlet.Proofs.Realization
/-!
# Names, calls and constructors

The parts of an expression that look at the frames. Arguments are pushed first, the access link after them;
a function is then found in the frame of its declaration and a method through the dispatch table of the
object. `Linkage.Calls` is what is assumed of the functions that are called.
-/

namespace Classlet

open Machine

/-- Only variables, parameters and fields are values. -/
theorem Entry.valueType_eq_ok {entry : Entry} {name : Name} {t : Ty} (h : entry.valueType name = .ok t) :
    entry.type = t ∧ entry.type.callable? = none ∧ entry.type.members? = none := by
  obtain ⟨level, type, offset⟩ := entry
  cases type with
  | arrow _ | method _ | cls _ _ => cases h
  | int | bool | ref _ | empty => exact ⟨Except.ok.inj h, rfl, rfl⟩

theorem Code.construct_eq (args : Code) (count : Nat) (table : Word) :
    Code.construct args count table =
      args ++ ((List.replicate count Code.storeOnHeap).flatten ++ .push table :: .loadWord ::
        Code.finishObject) := by
  simp [Code.construct, Code.finishObject]

theorem Code.call_eq (args : Code) (r : Resolution) :
    Code.call args r = .load .fp :: (args ++ (Code.frameAt r.hops ++ (Code.duplicate ++
      ((if r.entry.type.isMethod then [.loadWord] else []) ++
        (Code.loadAt r.entry.offset ++ [.jumpSubroutine]))))) := by
  simp [Code.call]

theorem Code.callMethod_eq (args : Code) (receiver : Resolution) (method : Entry) :
    Code.callMethod args receiver method = .load .fp :: (args ++ ((Code.frameAt receiver.hops ++
      Code.loadAt receiver.entry.offset) ++
        (Code.duplicate ++ .loadWord :: (Code.loadAt method.offset ++ [.jumpSubroutine])))) := by
  simp [Code.callMethod]

namespace Linkage

variable {L : Linkage} {n : Nat} {stage : Stage} {s : Scopes} {context : List Binding}

/-! ## Arguments -/

/-- The machine has come to `ip` in the frame at `fp` and pushed the words of values of types `ts` in some
order. -/
def LeavesAll (L : Linkage) (w : World) (ip : Nat) (fp : Word) (σ : List Word)
    (order : List Word → List Word) (ts : List Ty) : List Value × World → Snapshot → Prop
  | (vs, w'), c =>
    ∃ ys ra tm heap out, c = ⟨ip, fp, ra, tm, order ys ++ σ, heap, out⟩ ∧ w.store <+: w'.store ∧
    L.Represents w' heap out ∧ List.Forall₂ (·.word? L.start w'.store = some ·) vs ys ∧
    List.Forall₂ (·.HasType L.classes w'.store ·) vs ts

structure RealizesAll (L : Linkage) (n : Nat) (stage : Stage) (s : Scopes) (context : List Binding)
    (order : List Word → List Word) (code : Code) (eval : World → Except Trouble (List Value × World))
    (ts : List Ty) : Prop where
  follows {w : World} {ip : Nat} {fp ra tm : Word} {σ heap out : List Word} : L.code.At ip code →
    L.Represents w heap out → L.Frames stage w.store σ s context fp.val →
    Follows L.code L.size n (eval w) (L.LeavesAll w (ip + code.length) fp σ order ts)
      ⟨ip, fp, ra, tm, σ, heap, out⟩

section Arguments
variable {first rest : Code} {eval : World → Except Trouble (Value × World)}
  {evalRest : World → Except Trouble (List Value × World)} {t : Ty} {ts : List Ty}

theorem RealizesAll.nil {order : List Word → List Word} (ho : order [] = []) :
    L.RealizesAll n stage s context order [] (fun w => .ok ([], w)) [] := by
  constructor
  intro w ip fp ra tm σ heap out _ hw _
  exact .ok ⟨[], ra, tm, heap, out, by rw [ho]; rfl, List.prefix_refl _, hw, .nil, .nil⟩

/-- From the first to the last, so the last is on top. -/
theorem RealizesAll.cons (h : L.Realizes n stage s context first eval t)
    (hs : L.RealizesAll n stage s context List.reverse rest evalRest ts) :
    L.RealizesAll n stage s context List.reverse (first ++ rest)
      (fun w => do
        let (v, w) ← eval w
        let (vs, w) ← evalRest w
        return (v :: vs, w)) (t :: ts) := by
  constructor
  intro w ip fp ra tm σ heap out hc hw hf
  rw [Code.at_append] at hc
  refine (h.follows hc.1 hw hf).bind ?_
  rintro ⟨v, w1⟩ c - ⟨x, ra1, tm1, heap1, out1, rfl, hs1, hw1, hx, hv⟩
  refine (hs.follows hc.2 hw1 (hf.mono hs1 (List.suffix_cons x σ))).bind ?_
  rintro ⟨vs, w2⟩ c - ⟨ys, ra2, tm2, heap2, out2, rfl, hs2, hw2, hys, hvs⟩
  refine .ok ⟨x :: ys, ra2, tm2, heap2, out2, ?_, hs1.trans hs2, hw2, .cons (Value.word?_mono hs2 hx) hys,
    .cons (hv.mono hs2) hvs⟩
  rw [List.length_append, Nat.add_assoc, List.reverse_cons, List.append_assoc]
  rfl

/-- From the last to the first, so the first is on top. -/
theorem RealizesAll.snoc (h : L.Realizes n stage s context first eval t)
    (hs : L.RealizesAll n stage s context id rest evalRest ts) :
    L.RealizesAll n stage s context id (rest ++ first)
      (fun w => do
        let (vs, w) ← evalRest w
        let (v, w) ← eval w
        return (v :: vs, w)) (t :: ts) := by
  constructor
  intro w ip fp ra tm σ heap out hc hw hf
  rw [Code.at_append] at hc
  refine (hs.follows hc.1 hw hf).bind ?_
  rintro ⟨vs, w1⟩ c - ⟨ys, ra1, tm1, heap1, out1, rfl, hs1, hw1, hys, hvs⟩
  refine (h.follows hc.2 hw1 (hf.mono hs1 (List.suffix_append ys σ))).bind ?_
  rintro ⟨v, w2⟩ c - ⟨x, ra2, tm2, heap2, out2, rfl, hs2, hw2, hx, hv⟩
  refine .ok ⟨x :: ys, ra2, tm2, heap2, out2, ?_, hs1.trans hs2, hw2,
    .cons hx (hys.imp fun _ _ => Value.word?_mono hs2), .cons hv (hvs.imp fun _ _ h => h.mono hs2)⟩
  rw [List.length_append, Nat.add_assoc]
  rfl

end Arguments

/-! ## Names -/

theorem Realizes.ident (hL : L.Sound) {name : Name} {entry : Entry} {t : Ty}
    (hx : s.lookup? name.text = some entry) (ht : entry.valueType name = .ok t) :
    L.Realizes n stage s context (Code.frameAt (s.level - entry.level) ++ Code.loadAt entry.offset)
      (fun w =>
        match meaning? L.classes w.store name.text context with
        | some (.value v) => .ok (v, w)
        | _ => .error .stuck) t := by
  constructor
  intro w ip fp ra tm σ heap out hc hw hf
  rw [Code.at_append] at hc
  obtain ⟨rfl, hcall, hmembers⟩ := Entry.valueType_eq_ok ht
  rcases hf.lookup hL hw hx with ⟨r, -, rfl⟩ | ⟨-, fp', h0, hchain, hfound⟩
  · cases hmembers
  · cases hfound with
    | function _ hty _ _ _ =>
      rw [hty] at hcall
      cases hcall
    | method _ hty _ _ _ _ _ =>
      rw [hty] at hcall
      cases hcall
    | @value v x hm hv hword hholds =>
      simp only [hm]
      obtain ⟨b, rfl⟩ := hchain.exists_val
      refine .of_goes ((Goes.frameAt hc.1 hchain).trans (Goes.loadAt L.size_lt hc.2 h0 hholds))
        (.ok ⟨x, ra, tm, heap, out, ?_, List.prefix_refl _, hw, hword, hv⟩)
      rw [List.length_append, Nat.add_assoc]
      rfl

/-! ## Constructors -/

/-- A name with the type of a class is the name of that class. -/
theorem Frames.lookup_class {w : World} {heap out σ : List Word} {fp : Int} (hL : L.Sound)
    (hw : L.Represents w heap out) (hf : L.Frames stage w.store σ s context fp) {x : String} {entry : Entry}
    (hx : s.lookup? x = some entry) (ht : entry.type.members?.isSome) :
    ∃ r, L.info? x = some r ∧ entry = r.entry := by
  rcases hf.lookup hL hw hx with hr | ⟨-, fp', -, -, hfound⟩
  · exact hr
  · cases hfound with
    | value _ hv _ _ => exact absurd hv (Value.not_hasType_of_members ht)
    | function _ hty _ _ _ | method _ hty _ _ _ _ _ =>
      rw [hty] at ht
      cases ht

theorem classAddress_eq_ok (hL : L.Sound) {entry : Entry} {a : Word}
    (h : classAddress L.memory entry = .ok a) :
    a.val = L.size + entry.offset := by
  unfold classAddress Word.checked at h
  have hmemory : (L.size : Int) = L.memory.val := Int.toNat_of_nonneg hL.memory
  cases hword : Word.ofInt? (L.memory.val + entry.offset) with
  | none =>
    rw [hword] at h
    cases h
  | some x =>
    rw [hword] at h
    obtain rfl := Except.ok.inj h
    rw [Word.ofInt?] at hword
    split at hword
    · rw [← Option.some.inj hword, hmemory]
    · cases hword

theorem Realizes.new (hL : L.Sound) {cls : String} {entry : Entry} {fields : List Ty}
    {methods : List Signature} {address : Word} {args : Code}
    {evalArgs : World → Except Trouble (List Value × World)} (hx : s.lookup? cls = some entry)
    (hm : entry.type.members? = some (fields, methods)) (ha : classAddress L.memory entry = .ok address)
    (hargs : L.RealizesAll n stage s context List.reverse args evalArgs fields) :
    L.Realizes n stage s context (Code.construct args fields.length address)
      (fun w => do
        let (vs, w) ← evalArgs w
        Setting.construct ⟨L.classes, true⟩ cls vs w) (.ref cls) := by
  constructor
  intro w ip fp ra tm σ heap out hc hw hf
  obtain ⟨r, hr, rfl⟩ := hf.lookup_class hL hw hx (by rw [hm]; rfl)
  obtain ⟨rfl, rfl⟩ := Prod.mk.inj (Option.some.inj hm)
  have hname := hL.named cls r hr
  obtain ⟨hdeclared, hfields⟩ := hL.declared cls r hr
  have haddress : address.val = L.size + r.offset := classAddress_eq_ok hL ha
  rw [Code.construct_eq, Code.at_append, Code.at_append, Code.at_cons, Code.at_cons] at hc
  obtain ⟨hca, hcs, h0, h1, hfinish⟩ := hc
  refine (hargs.follows hca hw hf).bind ?_
  rintro ⟨vs, w1⟩ c - ⟨ys, ra1, tm1, heap1, out1, rfl, hs1, hw1, hys, hvs⟩
  have hlength : ys.reverse.length = r.members.fields.length := by
    rw [List.length_reverse, ← hys.length_eq, hvs.length_eq]
  obtain ⟨hw2, haddr⟩ := hw1.construct hr hname.fields.symm hvs hys
  have hconstruct : Setting.construct ⟨L.classes, true⟩ cls vs w1 =
      .ok (.object w1.store.length, { w1 with store := w1.store ++ [⟨cls, r.fieldNames.zip vs⟩] }) := by
    rw [Setting.construct, hfields, if_pos ⟨hdeclared, by rw [hvs.length_eq, hname.fields]⟩]
  simp only [hconstruct]
  rw [← hlength] at hcs h0 h1 hfinish ⊢
  have hend : ip + (Code.construct args ys.reverse.length address).length =
      ip + args.length + (List.replicate ys.reverse.length Code.storeOnHeap).flatten.length +
        1 + 1 + 7 := by
    simp only [Code.construct_eq, Code.finishObject, Code.bumpHeap, List.length_append, List.length_cons,
      List.length_nil]
    omega
  rw [hend]
  have hslot : Holds L.size σ (heap1 ++ ys.reverse) address.val (.ofInt r.start) := by
    rw [haddress]
    exact .inl ((hL.slot cls r hr).of_suffix hf.base)
  refine .of_goes ((Goes.storeAll L.size_lt ys.reverse hcs).trans
    ((Moves.push h0).trans ((Moves.loadWord h1 hslot).trans
    (Goes.finishObject L.size_lt hfinish)))) (.ok
      ⟨_, ra1, tm1, _, out1, rfl, hs1.trans (List.prefix_append _ _), hw2, ?_, ?_⟩)
  · rw [Value.word?_object (by simp), haddr, List.length_append, List.length_reverse]
  · exact ⟨_, List.getElem?_concat_length, .refl⟩

/-! ## Calls -/

/-- Called with its arguments and access link on the stack, a function returns to the caller with its
value. -/
structure Calls (L : Linkage) (n : Nat) (invoke : Invoke) : Prop where
  follows {stage : Stage} {s : Scopes} {f : Function} {signature : Signature} {entry target : Nat}
    {context : List Binding}
    {w : World} {vs : List Value} {ys σ heap out : List Word} {link control ret fp tm : Word} :
    L.Covers stage → L.Compiled stage s f signature entry → L.Represents w heap out →
    L.Frames stage w.store (ys ++ control :: σ) s context link.val →
    List.Forall₂ (·.HasType L.classes w.store ·) vs signature.params →
    List.Forall₂ (·.word? L.start w.store = some ·) vs ys → ret.val = target →
    Follows L.code L.size n (invoke f context vs w) (L.Leaves w target control σ signature.ret)
      ⟨entry, fp, ret, tm, link :: (ys ++ control :: σ), heap, out⟩

/-- Only what was made since `w`, and the type of the value, are weakened. -/
theorem Leaves.weaken {w w1 : World} {ip : Nat} {fp : Word} {σ : List Word} {t t' : Ty} {r : Value × World}
    {c : Snapshot} (h : L.Leaves w1 ip fp σ t r c) (hs : w.store <+: w1.store) (ht : t.Below L.classes t') :
    L.Leaves w ip fp σ t' r c := by
  obtain ⟨x, ra, tm, heap, out, hc, hs', hw, hx, hv⟩ := h
  exact ⟨x, ra, tm, heap, out, hc, hs.trans hs', hw, hx, ht _ _ hv⟩

section Calls
variable {invoke : Invoke} {w : World} {ip : Nat} {fp ra tm link : Word} {σ heap out ys : List Word}
  {vs : List Value}

/-- The last step of a call: the address of the code is on top of the stack. -/
theorem Calls.jump (hL : L.Sound) (hcalls : L.Calls n invoke) (hw : L.Represents w heap out) {f : Function}
    {signature : Signature} {entry : Nat} (hcov : L.Covers stage)
    (hcompiled : L.Compiled stage s f signature entry)
    (hf : L.Frames stage w.store (ys ++ fp :: σ) s context link.val)
    (hvs : List.Forall₂ (·.HasType L.classes w.store ·) vs signature.params)
    (hys : List.Forall₂ (·.word? L.start w.store = some ·) vs ys)
    (hc : L.code[ip]? = some .jumpSubroutine) :
    Follows L.code L.size n (invoke f context vs w) (L.Leaves w (ip + 1) fp σ signature.ret)
      ⟨ip, fp, ra, tm, .ofInt entry :: link :: (ys ++ fp :: σ), heap, out⟩ := by
  have hlength := hL.length
  have hip := (List.getElem?_eq_some_iff.1 hc).1
  obtain ⟨_, _, _, _, _, haddress⟩ := hcompiled.code
  have hentry := addressOf?_lt haddress
  have hval : (Word.ofInt entry).val = entry := Word.val_ofInt (by omega) (by omega)
  have hret : (Word.ofInt (ip + 1 : Nat)).val = (ip + 1 : Nat) := Word.val_ofInt (by omega) (by omega)
  exact .of_goes (Moves.jumpSubroutine hc hval).goes (hcalls.follows hcov hcompiled hw hf hvs hys hret)

/-- A method is found through the dispatch table of the object, whatever its class. -/
theorem Calls.dispatch (hL : L.Sound) (hcalls : L.Calls n invoke) (hw : L.Represents w heap out)
    (hbase : L.base <:+ ys ++ fp :: σ) {id : Nat} {o : Object} {cls m : String} {r : ClassInfo}
    {entry : Entry} {signature : Signature} (ho : w.store[id]? = some o)
    (hsub : Classes.Subclass L.classes o.cls cls) (hr : L.info? cls = some r)
    (hm : r.members.table.get? m = some entry) (hty : entry.type = .method signature)
    (hvs : List.Forall₂ (·.HasType L.classes w.store ·) vs signature.params)
    (hys : List.Forall₂ (·.word? L.start w.store = some ·) vs ys)
    (hlink : link.val = address L.start w.store id)
    (hc : L.code.At ip (Code.duplicate ++ .loadWord :: (Code.loadAt entry.offset ++ [.jumpSubroutine]))) :
    Follows L.code L.size n (Setting.dispatch ⟨L.classes, true⟩ invoke id m vs w)
      (L.Leaves w (ip + 8) fp σ signature.ret)
      ⟨ip, fp, ra, tm, link :: (ys ++ fp :: σ), heap, out⟩ := by
  obtain ⟨ro, hro⟩ := hw.objects id o ho
  obtain ⟨r', hr', href⟩ := hL.refines o.cls cls ro hsub hro.info
  obtain rfl : r = r' := Option.some.inj (hr.symm.trans hr')
  have hnamed := hL.named cls r hr
  -- the method has the same position in the class of the object
  obtain ⟨i, hi⟩ : ∃ i, r.methodNames[i]? = some m := by
    rcases hnamed.complete m entry hm with hmem | hmem
    · obtain ⟨i, hi⟩ := List.mem_iff_getElem?.1 hmem
      obtain ⟨t, -, hnot, htable⟩ := hnamed.field i m hi
      obtain rfl := Option.some.inj (hm.symm.trans htable)
      rw [show t = .method signature from hty] at hnot
      cases hnot
    · exact List.mem_iff_getElem?.1 hmem
  obtain ⟨signature', hsignature, htable⟩ := hnamed.method i m hi
  obtain rfl := Option.some.inj (hm.symm.trans htable)
  obtain rfl := Ty.method.inj hty
  have hi' := prefix_getElem? href.methodNames hi
  obtain ⟨so, hso, -⟩ := (hL.named o.cls ro hro.info).method i m hi'
  obtain ⟨d, f, e, hmethod, hd, ⟨rd, stage', g, hrd, hcov, hg, hcompiled⟩, htables⟩ :=
    hL.method o.cls ro i m so hro.info hi' hso
  have hbelow := href.method i so signature' hso hsignature
  have hdispatch : Setting.dispatch ⟨L.classes, true⟩ invoke id m vs w = invoke f [.members d id] vs w := by
    simp [Setting.dispatch, ho, hmethod]
  rw [hdispatch, Code.at_append, Code.at_cons, Code.at_append, Code.at_cons] at *
  obtain ⟨hdup, h0, hload, hjump, -⟩ := hc
  have hframes : L.Frames stage' w.store (ys ++ fp :: σ)
      ⟨[.opened .cls rd.members.table], g⟩ [.members d id] link.val :=
    .object hbase hg hrd ho hd hlink
  refine .of_fits fun hfits => ?_
  have hpointer := prefix_getElem? hw.tables htables
  have hlt := (List.getElem?_eq_some_iff.1 hpointer).1
  have hsize := L.size_lt
  have hval : (Word.ofInt ro.start).val = ro.start := by
    simp only at hfits
    exact Word.val_ofInt (by omega) (by omega)
  refine .of_goes ((Goes.duplicate hdup).trans ((Moves.loadWord h0 (.inr ⟨_, hro.pointer, hlink⟩)).trans
    (Goes.loadAt hsize hload (by omega) (.inr ⟨ro.start + i, hpointer, ?_⟩)))) ?_
  · rw [hval]
    rfl
  · exact (hcalls.jump hL hw hcov hcompiled hframes (hbelow.params _ _ hvs) hys hjump).mono
      fun _ _ _ h => h.weaken (List.prefix_refl _) hbelow.ret

/-- Functions and methods that are in scope. -/
theorem Realizes.call (hL : L.Sound) (hcalls : L.Calls n invoke) (hcov : L.Covers stage) {callee : String}
    {entry : Entry} {signature : Signature} {args : Code}
    {evalArgs : World → Except Trouble (List Value × World)} (hx : s.lookup? callee = some entry)
    (hsig : entry.type.callable? = some signature)
    (hargs : L.RealizesAll n stage s context id args evalArgs signature.params) :
    L.Realizes n stage s context (Code.call args ⟨entry, s.level⟩)
      (fun w => do
        let (vs, w) ← evalArgs w
        Setting.call ⟨L.classes, true⟩ invoke context callee vs w) signature.ret := by
  constructor
  intro w ip fp ra tm σ heap out hc hw hf
  rw [Code.call_eq, Code.at_cons, Code.at_append, Code.at_append, Code.at_append] at hc
  obtain ⟨h0, hca, hframe, hdup, hlast⟩ := hc
  refine .of_goes (Moves.loadFp h0).goes
    ((hargs.follows hca hw (hf.mono (List.prefix_refl _) (List.suffix_cons fp σ))).bind ?_)
  rintro ⟨vs, w1⟩ c - ⟨ys, ra1, tm1, heap1, out1, rfl, hs1, hw1, hys, hvs⟩
  have hf1 := hf.mono hs1 ((List.suffix_cons fp σ).trans (List.suffix_append ys (fp :: σ)))
  rcases hf1.lookup hL hw1 hx with ⟨r, -, rfl⟩ | ⟨-, fp', h0', hchain, hfound⟩
  · cases hsig
  · obtain ⟨b, rfl⟩ := hchain.exists_val
    refine .of_goes (Goes.frameAt hframe hchain) ?_
    cases hfound with
    | value _ hv _ _ => exact absurd hv (Value.not_hasType_of_callable (by rw [hsig]; rfl))
    | @function f declared s' signature' address hm hty hframes hcompiled hslot =>
      rw [hty] at hsig
      obtain rfl := Option.some.inj hsig
      simp only [hty, Ty.isMethod, Bool.false_eq_true, if_false, List.nil_append] at hlast
      rw [Code.at_append, Code.at_cons] at hlast
      have hend : ip + (Code.call args ⟨entry, s.level⟩).length =
          ip + 1 + args.length + (Code.frameAt (s.level - entry.level)).length + 3 + 3 + 1 := by
        simp only [Code.call_eq, hty, Ty.isMethod, Code.duplicate, Code.loadAt, Resolution.hops,
          List.length_append, List.length_cons, List.length_nil, Bool.false_eq_true, if_false]
        omega
      simp only [Setting.call, hm, hend]
      refine .of_goes ((Goes.duplicate hdup).trans
        (Goes.loadAt L.size_lt hlast.1 h0' (.inl (hslot.cons b)))) ?_
      exact (hcalls.jump hL hw1 hcov hcompiled hframes hvs hys hlast.2.1).mono
        fun _ _ _ h => h.weaken hs1 (.refl _ _)
    | @method id o cls r signature' hm hty ho hsub hr htable hfp =>
      rw [hty] at hsig
      obtain rfl := Option.some.inj hsig
      simp only [hty, Ty.isMethod, if_true, List.singleton_append] at hlast
      have hend : ip + (Code.call args ⟨entry, s.level⟩).length =
          ip + 1 + args.length + (Code.frameAt (s.level - entry.level)).length + 8 := by
        simp only [Code.call_eq, hty, Ty.isMethod, Code.duplicate, Code.loadAt, Resolution.hops,
          List.length_append, List.length_cons, List.length_nil, if_true]
        omega
      simp only [Setting.call, hm, hend]
      exact (hcalls.dispatch hL hw1 hf1.base ho hsub hr htable hty hvs hys hfp
        (Code.at_append.2 ⟨hdup, hlast⟩)).mono
        fun _ _ _ h => h.weaken hs1 (.refl _ _)

/-- Methods of an object that a name stands for. On `null` the machine reads at the address of `null` and
stops. -/
theorem Realizes.callMethod (hL : L.Sound) (hcalls : L.Calls n invoke) (hcov : L.Covers stage)
    {object method cls : String} {receiver entry : Entry} {table : VirtualTable} {signature : Signature}
    {args : Code} {evalArgs : World → Except Trouble (List Value × World)}
    (hx : s.lookup? object = some receiver) (hcls : receiver.type = .ref cls)
    (htable : stage.classes.get? cls = some table) (hm : table.get? method = some entry)
    (hty : entry.type = .method signature)
    (hargs : L.RealizesAll n stage s context id args evalArgs signature.params) :
    L.Realizes n stage s context (Code.callMethod args ⟨receiver, s.level⟩ entry)
      (fun w => do
        let (vs, w) ← evalArgs w
        Setting.callMethod ⟨L.classes, true⟩ invoke context object method vs w) signature.ret := by
  constructor
  intro w ip fp ra tm σ heap out hc hw hf
  have hend : ip + (Code.callMethod args ⟨receiver, s.level⟩ entry).length =
      ip + 1 + args.length + (Code.frameAt (s.level - receiver.level)).length + 3 + 8 := by
    simp only [Code.callMethod_eq, Code.duplicate, Code.loadAt, Resolution.hops, List.length_append,
      List.length_cons, List.length_nil]
    omega
  rw [Code.callMethod_eq, Code.at_cons, Code.at_append, Code.at_append, Code.at_append, List.length_append,
    ← Nat.add_assoc] at hc
  obtain ⟨h0, hca, ⟨hframe, hload⟩, hlast⟩ := hc
  rw [hend]
  refine .of_goes (Moves.loadFp h0).goes
    ((hargs.follows hca hw (hf.mono (List.prefix_refl _) (List.suffix_cons fp σ))).bind ?_)
  rintro ⟨vs, w1⟩ c - ⟨ys, ra1, tm1, heap1, out1, rfl, hs1, hw1, hys, hvs⟩
  have hf1 := hf.mono hs1 ((List.suffix_cons fp σ).trans (List.suffix_append ys (fp :: σ)))
  rcases hf1.lookup hL hw1 hx with ⟨r, -, rfl⟩ | ⟨-, fp', h0', hchain, hfound⟩
  · cases hcls
  · obtain ⟨b, rfl⟩ := hchain.exists_val
    refine .of_goes (Goes.frameAt hframe hchain) ?_
    cases hfound with
    | function _ hty' _ _ _ | method _ hty' _ _ _ _ _ =>
      rw [hcls] at hty'
      cases hty'
    | @value v x hmeaning hv hword hholds =>
      refine .of_goes (Goes.loadAt L.size_lt hload h0' hholds) ?_
      simp only [Setting.callMethod, hmeaning]
      rw [hcls] at hv
      rcases hv.ref with rfl | ⟨id, o, rfl, ho, hsub⟩
      · obtain rfl := Option.some.inj hword
        rw [Code.at_append, Code.at_cons] at hlast
        refine .of_goes (Goes.duplicate hlast.1) (Follows.stop fun s hs => ?_)
        exact ⟨_, hs.step_loadWord hlast.2.1 (by decide), _, _, rfl, rfl⟩
      · obtain ⟨r, hr, rfl⟩ := hcov.tables cls table htable
        have hid := (List.getElem?_eq_some_iff.1 ho).1
        rw [Value.word?_object hid] at hword
        refine .of_fits fun hfits => ?_
        have hlink : x.val = address L.start w1.store id := by
          have hbound := address_bound L.start hid
          have hsize := L.size_lt
          rw [← hw1.length] at hbound
          simp only at hfits
          rw [← Option.some.inj hword]
          exact Word.val_ofInt (by omega) (by omega)
        exact (hcalls.dispatch hL hw1 hf1.base ho hsub hr hm hty hvs hys hlink hlast).mono
          fun _ _ _ h => h.weaken hs1 (.refl _ _)

end Calls

end Linkage

end Classlet

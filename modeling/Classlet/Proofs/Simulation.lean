import Classlet.Proofs.Calls
/-!
# Compiled code does what evaluation says

The code of an expression that was checked realizes its evaluation (`Expr.realizes`), where calls do what
`Linkage.Calls` says. There is one case for each form of expression, and each is a lemma about the shape of
the code for that form.
-/

namespace Classlet

open Machine Linkage

theorem required_eq_ok {α : Type} {name : Name} {o : Option α} {a : α} :
    required name o = .ok a ↔ o = some a := by
  cases o <;> simp [required]

theorem annotated_eq_ok {α : Type} {name : Name} {o : Option α} {a : α} :
    annotated name o = .ok a ↔ o = some a := by
  cases o <;> simp [annotated]

theorem Entry.callee_eq_ok {entry : Entry} {name : String} {found : Nat} {span : Span} {s : Signature}
    (h : entry.callee name found span = .ok s) :
    entry.type.callable? = some s ∧ s.params.length = found := by
  unfold Entry.callee at h
  split at h
  · cases h
  · next s' hs =>
    split at h
    · next hlength =>
      obtain rfl := Except.ok.inj h
      exact ⟨hs, hlength⟩
    · cases h

theorem Entry.constructor_eq_ok {entry : Entry} {name : String} {found : Nat} {span : Span}
    {fields : List Ty} (h : entry.constructor name found span = .ok fields) :
    (∃ methods, entry.type.members? = some (fields, methods)) ∧ fields.length = found := by
  unfold Entry.constructor at h
  split at h
  · cases h
  · next fields' methods hm =>
    split at h
    · next hlength =>
      obtain rfl := Except.ok.inj h
      exact ⟨⟨methods, hm⟩, hlength⟩
    · cases h

/-- A method that a call was resolved to is one of the class that the type of the object names. -/
theorem Env.receiverMethod?_eq_some {env : Env} {object method : String} {entry : Entry}
    (h : env.receiverMethod? object method = some entry) :
    ∃ receiver cls table, env.scopes.lookup? object = some receiver ∧ receiver.type = .ref cls ∧
      env.classes.get? cls = some table ∧ table.get? method = some entry ∧ entry.type.isMethod = true := by
  unfold Env.receiverMethod? at h
  split at h
  · next cls hcls =>
    obtain ⟨receiver, hr, href⟩ := Option.bind_eq_some_iff.1 hcls
    unfold Env.method? at h
    split at h
    · next entry' hentry =>
      obtain ⟨table, htable, hm⟩ := Option.bind_eq_some_iff.1 hentry
      split at h
      · next hmethod =>
        obtain rfl := Option.some.inj h
        refine ⟨receiver, cls, table, hr, ?_, htable, hm, hmethod⟩
        cases ht : receiver.type with
        | ref c => rw [ht] at href; rw [Option.some.inj href]
        | _ => rw [ht] at href; cases href
      · cases h
    · cases h
  · cases h

theorem Ty.eq_method {t : Ty} {s : Signature} (h : t.isMethod = true) (hs : t.callable? = some s) :
    t = .method s := by
  cases t with
  | method s' => rw [Option.some.inj hs]
  | _ => cases h

theorem Expr.length_annotateAll (env : Env) (es : List Expr) :
    (Expr.annotateAll env es).length = es.length := by
  induction es with
  | nil => rfl
  | cons e es ih => rw [Expr.annotateAll, List.length_cons, List.length_cons, ih]

namespace Linkage

variable {L : Linkage} {n : Nat} {stage : Stage} {s : Scopes} {context : List Binding} {invoke : Invoke}

theorem Realizes.congr {code : Code} {eval eval' : World → Except Trouble (Value × World)} {t : Ty}
    (h : L.Realizes n stage s context code eval t) (he : ∀ w, eval' w = eval w) :
    L.Realizes n stage s context code eval' t := by
  constructor
  intro w ip fp ra tm σ heap out hc hw hf
  rw [he]
  exact h.follows hc hw hf

theorem RealizesAll.congr {order : List Word → List Word} {code : Code}
    {eval eval' : World → Except Trouble (List Value × World)} {ts : List Ty}
    (h : L.RealizesAll n stage s context order code eval ts) (he : ∀ w, eval' w = eval w) :
    L.RealizesAll n stage s context order code eval' ts := by
  constructor
  intro w ip fp ra tm σ heap out hc hw hf
  rw [he]
  exact h.follows hc hw hf

end Linkage

/-! ## Expressions -/

section Expressions
variable {L : Linkage} {n : Nat} {stage : Stage} {s : Scopes} {context : List Binding} {invoke : Invoke}

theorem Expr.checkArgs_cons {h : Hierarchy} {callee : String} {position : Nat} {e : Expr}
    {es : List Expr} {t : Ty} {ts : List Ty}
    (hc : Expr.checkArgs h callee position (e :: es) (t :: ts) = .ok ()) :
    ∃ t', e.typeOf h = .ok t' ∧ h.isSubtype t' t = true ∧
      Expr.checkArgs h callee (position + 1) es ts = .ok () := by
  simp only [Expr.checkArgs, bind_eq_ok] at hc
  obtain ⟨t', ht', hrest⟩ := hc
  split at hrest
  · next hsub => exact ⟨t', ht', hsub, hrest⟩
  · cases hrest

theorem BinaryOp.resultType_logic {h : Hierarchy} {op : Connective} {left right t : Ty} {span : Span}
    (ht : (BinaryOp.logic op).resultType h left right span = .ok t) :
    h.isSubtype left .bool = true ∧ h.isSubtype right .bool = true ∧ t = .bool := by
  simp only [BinaryOp.resultType, BinaryOp.opClass] at ht
  split at ht
  · next hb =>
    rw [Bool.and_eq_true] at hb
    exact ⟨hb.1, hb.2, (Except.ok.inj ht).symm⟩
  · cases ht

mutual
theorem Expr.realizes (hL : L.Sound) (hcalls : L.Calls n invoke) (hcov : L.Covers stage) :
    ∀ (e : Expr) {t : Ty} {k k' : Nat} {code : Code}, Bare e.notes →
      (e.annotate ⟨s, stage.classes⟩).typeOf stage.hierarchy = .ok t →
      (e.annotate ⟨s, stage.classes⟩).code L.memory k = .ok (code, k') →
      L.Realizes n stage s context code (e.eval ⟨L.classes, true⟩ invoke context) t
  | .int value _, t, k, k', code, _, ht, hc => by
    simp only [Expr.annotate, Expr.typeOf, Expr.code, Except.ok.injEq, Prod.mk.injEq] at ht hc
    obtain ⟨rfl, rfl⟩ := hc
    subst ht
    exact Realizes.congr (Realizes.push (v := .int value) (fun _ => rfl) (fun _ => trivial)) fun _ => rfl
  | .bool value _, t, k, k', code, _, ht, hc => by
    simp only [Expr.annotate, Expr.typeOf, Expr.code, Except.ok.injEq, Prod.mk.injEq] at ht hc
    obtain ⟨rfl, rfl⟩ := hc
    subst ht
    exact Realizes.congr (Realizes.push (v := .bool value) (fun _ => rfl) (fun _ => trivial)) fun _ => rfl
  | .null _, t, k, k', code, _, ht, hc => by
    simp only [Expr.annotate, Expr.typeOf, Expr.code, Except.ok.injEq, Prod.mk.injEq] at ht hc
    obtain ⟨rfl, rfl⟩ := hc
    subst ht
    exact Realizes.congr (Realizes.push (v := .null) (fun _ => rfl) (fun _ => trivial)) fun _ => rfl
  | .ident name target, t, k, k', code, hb, ht, hc => by
    obtain rfl := Option.isNone_iff_eq_none.1 (bare_cons.1 hb).1
    simp only [Expr.annotate, Expr.typeOf, Expr.code, Option.none_or, Env.resolve?, bind_eq_ok,
      annotated_eq_ok, required_eq_ok, Option.map_eq_some_iff, pure_eq_ok, Prod.mk.injEq] at ht hc
    obtain ⟨_, ⟨entry, hx, rfl⟩, ht⟩ := ht
    obtain ⟨_, ⟨entry', hx', rfl⟩, rfl, rfl⟩ := hc
    obtain rfl := Option.some.inj (hx.symm.trans hx')
    exact Realizes.congr (Realizes.ident hL hx ht) fun _ => rfl
  | .call callee args span target, t, k, k', code, hb, ht, hc => by
    rw [Expr.notes, bare_cons] at hb
    obtain rfl := Option.isNone_iff_eq_none.1 hb.1
    simp only [Expr.annotate, Expr.typeOf, Expr.code, Option.none_or, Env.resolve?, bind_eq_ok,
      annotated_eq_ok, required_eq_ok,
      Option.map_eq_some_iff, pure_eq_ok, Prod.exists, Prod.mk.injEq] at ht hc
    obtain ⟨_, ⟨entry, hx, rfl⟩, signature, hcallee, _, hargs, rfl⟩ := ht
    obtain ⟨_, ⟨entry', hx', rfl⟩, argCode, k1, hcode, rfl, rfl⟩ := hc
    obtain rfl := Option.some.inj (hx.symm.trans hx')
    obtain ⟨hsig, hlength⟩ := Entry.callee_eq_ok hcallee
    rw [Expr.length_annotateAll] at hlength
    have hrealizes := Expr.realizesReversed hL hcalls hcov args hb.2 hlength.symm hargs hcode
    exact Realizes.congr (Realizes.call hL hcalls hcov hx hsig hrealizes) fun _ => rfl
  | .methodCall object method args span receiver target, t, k, k', code, hb, ht, hc => by
    rw [Expr.notes, bare_cons, Note.isEmpty, Bool.and_eq_true] at hb
    obtain rfl := Option.isNone_iff_eq_none.1 hb.1.1
    obtain rfl := Option.isNone_iff_eq_none.1 hb.1.2
    simp only [Expr.annotate, Expr.typeOf, Expr.code, Option.none_or, Env.resolve?, bind_eq_ok,
      annotated_eq_ok, required_eq_ok,
      Option.map_eq_some_iff, pure_eq_ok, Prod.exists, Prod.mk.injEq] at ht hc
    obtain ⟨_, -, entry, hm, signature, hcallee, _, hargs, rfl⟩ := ht
    obtain ⟨_, ⟨receiver, hx, rfl⟩, entry', hm', argCode, k1, hcode, rfl, rfl⟩ := hc
    obtain rfl := Option.some.inj (hm.symm.trans hm')
    obtain ⟨hsig, hlength⟩ := Entry.callee_eq_ok hcallee
    rw [Expr.length_annotateAll] at hlength
    obtain ⟨receiver', cls, table, hx', hcls, htable, hentry, hmethod⟩ := Env.receiverMethod?_eq_some hm
    obtain rfl := Option.some.inj (hx.symm.trans hx')
    have hrealizes := Expr.realizesReversed hL hcalls hcov args hb.2 hlength.symm hargs hcode
    exact Realizes.congr (Realizes.callMethod hL hcalls hcov hx hcls htable hentry
      (Ty.eq_method hmethod hsig) hrealizes)
      fun _ => rfl
  | .new cls args span target, t, k, k', code, hb, ht, hc => by
    rw [Expr.notes, bare_cons] at hb
    obtain rfl := Option.isNone_iff_eq_none.1 hb.1
    simp only [Expr.annotate, Expr.typeOf, Expr.code, Option.none_or, bind_eq_ok, annotated_eq_ok,
      required_eq_ok, pure_eq_ok, Prod.exists, Prod.mk.injEq] at ht hc
    obtain ⟨entry, hx, fields, hfields, _, hargs, rfl⟩ := ht
    obtain ⟨entry', hx', argCode, k1, hcode, address, ha, rfl, rfl⟩ := hc
    obtain rfl := Option.some.inj (hx.symm.trans hx')
    obtain ⟨⟨methods, hm⟩, hlength⟩ := Entry.constructor_eq_ok hfields
    rw [← hlength]
    rw [Expr.length_annotateAll] at hlength
    have hrealizes := Expr.realizesAll hL hcalls hcov args hb.2 hlength.symm hargs hcode
    exact Realizes.congr (Realizes.new hL hx hm ha hrealizes) fun _ => rfl
  | .ite c a b span, t, k, k', code, hb, ht, hc => by
    simp only [Expr.notes, bare_append] at hb
    simp only [Expr.annotate, Expr.typeOf, Expr.code, bind_eq_ok, pure_eq_ok, Prod.exists,
      Prod.mk.injEq] at ht hc
    obtain ⟨tc, htc, ht⟩ := ht
    obtain ⟨condCode, k1, hcc, elseCode, k2, hce, thenCode, k3, hct, rfl, rfl⟩ := hc
    split at ht
    · next hbool =>
      simp only [bind_eq_ok] at ht
      obtain ⟨ta, hta, tb, htb, ht⟩ := ht
      split at ht
      · next t' hcommon =>
        obtain rfl := pure_eq_ok.1 ht
        have hrc := (Expr.realizes hL hcalls hcov c hb.1.1 htc hcc).of_isSubtype hcov.within hbool
        exact Realizes.congr (Realizes.conditional hL hcov.within hrc
          (Expr.realizes hL hcalls hcov a hb.1.2 hta hct)
          (Expr.realizes hL hcalls hcov b hb.2 htb hce) hcommon) fun _ => rfl
      · cases ht
    · cases ht
  | .binary op l r span, t, k, k', code, hb, ht, hc => by
    simp only [Expr.notes, bare_append] at hb
    simp only [Expr.annotate, Expr.typeOf, Expr.code, bind_eq_ok, pure_eq_ok, Prod.exists,
      Prod.mk.injEq] at ht hc
    obtain ⟨tl, htl, tr, htr, ht⟩ := ht
    obtain ⟨leftCode, k1, hcl, rightCode, k2, hcr, rfl, rfl⟩ := hc
    have hl := Expr.realizes hL hcalls hcov l hb.1 htl hcl
    have hr := Expr.realizes hL hcalls hcov r hb.2 htr hcr
    cases op with
    | logic op =>
      obtain ⟨hbl, hbr, rfl⟩ := BinaryOp.resultType_logic ht
      exact Realizes.congr (Realizes.connective hL (hl.of_isSubtype hcov.within hbl)
        (hr.of_isSubtype hcov.within hbr))
        fun _ => rfl
    | arith _ | equal | lessEqual | greaterEqual =>
      exact Realizes.congr (Realizes.binary hL hcov.within (by simp [BinaryOp.opClass]) hl hr ht)
        fun w => by rw [Expr.eval]; simp
  | .not e span, t, k, k', code, hb, ht, hc => by
    simp only [Expr.annotate, Expr.typeOf, Expr.code, bind_eq_ok, pure_eq_ok, Prod.exists,
      Prod.mk.injEq] at ht hc
    obtain ⟨te, hte, ht⟩ := ht
    obtain ⟨operand, k1, hce, rfl, rfl⟩ := hc
    split at ht
    · next hbool =>
      obtain rfl := pure_eq_ok.1 ht
      have he := (Expr.realizes hL hcalls hcov e hb hte hce).of_isSubtype hcov.within hbool
      exact Realizes.congr (Realizes.negation hL he) fun _ => rfl
    · cases ht
  | .print e span, t, k, k', code, hb, ht, hc => by
    simp only [Expr.annotate, Expr.typeOf, Expr.code, bind_eq_ok, pure_eq_ok, Prod.exists,
      Prod.mk.injEq] at ht hc
    obtain ⟨value, k1, hce, rfl, rfl⟩ := hc
    exact Realizes.congr (Realizes.print (Expr.realizes hL hcalls hcov e hb ht hce)) fun _ => rfl

theorem Expr.realizesAll (hL : L.Sound) (hcalls : L.Calls n invoke) (hcov : L.Covers stage) :
    ∀ (es : List Expr) {ts : List Ty} {name : String} {i k k' : Nat} {code : Code},
      Bare (Expr.listNotes es) → es.length = ts.length →
      Expr.checkArgs stage.hierarchy name i (Expr.annotateAll ⟨s, stage.classes⟩ es) ts = .ok () →
      Expr.codeAll L.memory (Expr.annotateAll ⟨s, stage.classes⟩ es) k = .ok (code, k') →
      L.RealizesAll n stage s context List.reverse code
        (Expr.evalAll ⟨L.classes, true⟩ invoke context es) ts
  | [], ts, name, i, k, k', code, hb, hlength, ht, hc => by
    obtain rfl := List.eq_nil_of_length_eq_zero hlength.symm
    simp only [Expr.annotateAll, Expr.codeAll, Except.ok.injEq, Prod.mk.injEq] at hc
    obtain ⟨rfl, rfl⟩ := hc
    exact RealizesAll.congr (RealizesAll.nil rfl) fun w => by rw [Expr.evalAll]
  | e :: es, ts, name, i, k, k', code, hb, hlength, ht, hc => by
    cases ts with
    | nil => cases hlength
    | cons t ts =>
      rw [Expr.listNotes, bare_append] at hb
      rw [Expr.annotateAll] at ht hc
      simp only [Expr.codeAll, bind_eq_ok, pure_eq_ok, Prod.exists, Prod.mk.injEq] at hc
      obtain ⟨first, k1, hce, rest, k2, hces, rfl, rfl⟩ := hc
      obtain ⟨t', hte, hsub, hts⟩ := Expr.checkArgs_cons ht
      have he := (Expr.realizes hL hcalls hcov e hb.1 hte hce).of_isSubtype hcov.within hsub
      have hes := Expr.realizesAll hL hcalls hcov es hb.2 (Nat.succ.inj hlength) hts hces
      exact RealizesAll.congr (RealizesAll.cons he hes) fun w => by rw [Expr.evalAll]

theorem Expr.realizesReversed (hL : L.Sound) (hcalls : L.Calls n invoke) (hcov : L.Covers stage) :
    ∀ (es : List Expr) {ts : List Ty} {name : String} {i k k' : Nat} {code : Code},
      Bare (Expr.listNotes es) → es.length = ts.length →
      Expr.checkArgs stage.hierarchy name i (Expr.annotateAll ⟨s, stage.classes⟩ es) ts = .ok () →
      Expr.codeReversed L.memory (Expr.annotateAll ⟨s, stage.classes⟩ es) k = .ok (code, k') →
      L.RealizesAll n stage s context id code (Expr.evalReversed ⟨L.classes, true⟩ invoke context es) ts
  | [], ts, name, i, k, k', code, hb, hlength, ht, hc => by
    obtain rfl := List.eq_nil_of_length_eq_zero hlength.symm
    simp only [Expr.annotateAll, Expr.codeReversed, Except.ok.injEq, Prod.mk.injEq] at hc
    obtain ⟨rfl, rfl⟩ := hc
    exact RealizesAll.congr (RealizesAll.nil rfl) fun w => by rw [Expr.evalReversed]
  | e :: es, ts, name, i, k, k', code, hb, hlength, ht, hc => by
    cases ts with
    | nil => cases hlength
    | cons t ts =>
      rw [Expr.listNotes, bare_append] at hb
      rw [Expr.annotateAll] at ht hc
      simp only [Expr.codeReversed, bind_eq_ok, pure_eq_ok, Prod.exists, Prod.mk.injEq] at hc
      obtain ⟨rest, k1, hces, first, k2, hce, rfl, rfl⟩ := hc
      obtain ⟨t', hte, hsub, hts⟩ := Expr.checkArgs_cons ht
      have he := (Expr.realizes hL hcalls hcov e hb.1 hte hce).of_isSubtype hcov.within hsub
      have hes := Expr.realizesReversed hL hcalls hcov es hb.2 (Nat.succ.inj hlength) hts hces
      exact RealizesAll.congr (RealizesAll.snoc he hes) fun w => by rw [Expr.evalReversed]
end

end Expressions

end Classlet

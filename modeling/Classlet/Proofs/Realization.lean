import Classlet.Proofs.Following
import Classlet.Proofs.Frames
/-!
# Code that realizes an evaluation

`Linkage.Realizes` says of a piece of code that, run in the frame of a function, it follows an evaluation in
the context of that function and leaves the word of the value on the stack. It is closed under what
expressions are built with: operators, connectives, conditionals, negation and output.
-/

namespace Classlet

open Machine

theorem Word.ofBool_inj {a b : Bool} : Word.ofBool a = Word.ofBool b ↔ a = b := by
  cases a <;> cases b <;> decide

/-- The code of an operator after that of its operands. -/
def BinaryOp.tail (n : Nat) : BinaryOp → Code
  | .arith op => [.arith op]
  | .equal => .branchEqual (.branch n) :: Code.select (.branch n) (.branch (n + 1)) false true
  | .lessEqual => .branchLessEqual (.branch n) :: Code.select (.branch n) (.branch (n + 1)) false true
  | .greaterEqual =>
    .push (.ofInt 1) :: .arith .sub :: .branchLessEqual (.branch n) ::
      Code.select (.branch n) (.branch (n + 1)) true false
  | .logic _ => []

theorem BinaryOp.code_eq {op : BinaryOp} (hop : op.opClass ≠ .logical) (left right : Code) (n : Nat) :
    op.code left right n = left ++ right ++ op.tail n := by
  cases op with
  | logic op => exact absurd rfl hop
  | _ => simp [BinaryOp.code, BinaryOp.tail]

theorem Arith.sub_one_least : Arith.sub.apply .least (.ofInt 1) = .error (.overflow .sub) := rfl

/-- Every other word has a predecessor. -/
theorem Arith.sub_one {y : Word} (h : y ≠ .least) :
    Arith.sub.apply y (.ofInt 1) = .ok (.ofInt (y.val - 1)) ∧ (Word.ofInt (y.val - 1)).val = y.val - 1 := by
  have hone : (Word.ofInt 1).val = 1 := Word.val_ofInt (by decide) (by decide)
  have hne : y.val ≠ -9223372036854775808 := fun hval => h (Word.ext hval)
  have hlower := y.lower
  have hupper := y.upper
  have hval : (Word.ofInt (y.val - 1)).val = y.val - 1 := Word.val_ofInt (by omega) (by omega)
  refine ⟨?_, hval⟩
  simp only [Arith.apply, Arith.eval, hone, Word.checked, Word.ofInt?]
  rw [dif_pos ⟨by omega, by omega⟩]
  exact congrArg Except.ok (Word.ext hval.symm)

namespace Machine

section Operators
variable {code : Code} {size n ip : Nat} {fp ra tm x y : Word} {σ heap out : List Word}

theorem Shows.step_arith {op : Arith} {s : State} (hi : code[ip]? = some (.arith op))
    (hs : Shows size ⟨ip, fp, ra, tm, y :: x :: σ, heap, out⟩ s) :
    ∃ t : State, s.step (.ofCode code) =
      if op = .div ∧ y.val = 0 then .error (.fault (.divisionByZero (t.ip - 1)))
      else match op.apply x y with
        | .ok w => t.push w
        | .error a => .error (.abort a) := by
  have hip : s.ip = ip := hs.ip
  obtain ⟨hp, hs', -⟩ := (hs.setIp (ip + 1)).pop
  obtain ⟨hp', -, -⟩ := hs'.pop
  refine ⟨{ s with ip := ip + 1, sp := s.sp + 1 + 1 }, ?_⟩
  rw [State.step_ofCode (by rw [hip]; exact hi), hip]
  simp only [State.exec, hp, ok_bind]
  exact congrArg (· >>= _) hp'

theorem Follows.arith {op : Arith} (hi : code[ip]? = some (.arith op)) :
    Follows code size n (op.evaluate x y)
      (fun v c => ∃ z, v = .int z ∧ c = ⟨ip + 1, fp, ra, tm, z :: σ, heap, out⟩)
      ⟨ip, fp, ra, tm, y :: x :: σ, heap, out⟩ := by
  unfold Arith.evaluate
  split
  · next hd =>
    refine Follows.stop fun s hs => ?_
    obtain ⟨t, ht⟩ := hs.step_arith hi
    rw [if_pos hd] at ht
    exact ⟨_, ht, _, rfl⟩
  · next hd =>
    cases hop : op.apply x y with
    | ok z => exact Follows.of_goes (Moves.arith hi hd hop).goes (.ok ⟨z, rfl, rfl⟩)
    | error a =>
      refine Follows.stop fun s hs => ?_
      obtain ⟨t, ht⟩ := hs.step_arith hi
      rw [if_neg hd, hop] at ht
      refine ⟨_, ht, ?_⟩
      rw [Arith.apply, Word.checked] at hop
      split at hop
      · cases hop
      · rw [← Except.error.inj hop]
        rfl

theorem addressOf?_select {l l' : Label} {a b : Bool} (hn : code.labels.Nodup)
    (hc : code.At ip (Code.select l l' a b)) : addressOf? l code = some (ip + 2) := by
  simp only [Code.select, Code.at_cons] at hc
  exact addressOf?_eq_some hn hc.2.2.1

/-- The common tail of the operators with a boolean result, entered at its start or through its label. -/
theorem Goes.select {l l' : Label} {a b : Bool} (hn : code.labels.Nodup)
    (hc : code.At ip (Code.select l l' a b)) (taken : Bool) :
    Goes code size ⟨if taken then ip + 2 else ip, fp, ra, tm, σ, heap, out⟩
      ⟨ip + 5, fp, ra, tm, .ofBool (if taken then b else a) :: σ, heap, out⟩ := by
  simp only [Code.select, Code.at_cons] at hc
  obtain ⟨h0, h1, h2, h3, h4, -⟩ := hc
  cases taken with
  | false =>
    exact (Moves.push h0).trans ((Moves.branch h1 (addressOf?_eq_some hn h4)).trans (Moves.define h4).goes)
  | true => exact (Moves.define h2).trans ((Moves.push h3).trans (Moves.define h4).goes)

/-- Compares the boolean on top of the stack with `d`. -/
theorem Goes.test {l : Label} {b d : Bool} {ip' : Nat} (taken : Bool)
    (h0 : code[ip]? = some (Code.pushBool d)) (h1 : code[ip + 1]? = some (.branchEqual l))
    (ha : addressOf? l code = some ip') (ht : b = d ↔ taken = true) :
    Goes code size ⟨ip, fp, ra, tm, .ofBool b :: σ, heap, out⟩
      ⟨if taken then ip' else ip + 2, fp, ra, tm, σ, heap, out⟩ :=
  (Moves.push h0).trans (Moves.branchEqual h1 ha (Word.ofBool_inj.trans ht)).goes

/-- Operators other than connectives. The words of the operands are on the stack, the right one on top. -/
theorem Follows.operator {start : Nat} {store : List Object}
    (hfits : start + (store.map Object.size).sum < 9223372036854775808) (hn : code.labels.Nodup)
    {op : BinaryOp} {k : Nat} (hop : op.opClass ≠ .logical) (hc : code.At ip (op.tail k)) {a b : Value}
    (ha : a.word? start store = some x) (hb : b.word? start store = some y)
    (hstuck : op.evaluate true a b ≠ .error .stuck) :
    Follows code size n (op.evaluate true a b)
      (fun v c => ∃ z, v.word? start store = some z ∧
        c = ⟨ip + (op.tail k).length, fp, ra, tm, z :: σ, heap, out⟩)
      ⟨ip, fp, ra, tm, y :: x :: σ, heap, out⟩ := by
  have hnumbers (hne : op ≠ .equal) : a.number? = some x ∧ b.number? = some y := by
    unfold BinaryOp.evaluate at hstuck
    rw [if_neg hne] at hstuck
    split at hstuck
    · next x' y' hx hy =>
      rw [Value.word?_of_number hx] at ha
      rw [Value.word?_of_number hy] at hb
      exact ⟨ha ▸ hx, hb ▸ hy⟩
    · exact absurd rfl hstuck
  cases op with
  | arith op =>
    obtain ⟨hx, hy⟩ := hnumbers (by simp)
    simp only [BinaryOp.evaluate, reduceCtorEq, if_false, hx, hy, BinaryOp.onNumbers]
    rw [BinaryOp.tail, Code.at_cons] at hc
    refine (Follows.arith hc.1).mono ?_
    rintro v c - ⟨z, rfl, rfl⟩
    exact ⟨z, rfl, rfl⟩
  | equal =>
    simp only [BinaryOp.evaluate, if_true] at hstuck ⊢
    cases he : a.equals? b with
    | none => exact absurd (by rw [he]) hstuck
    | some r =>
      rw [BinaryOp.tail, Code.at_cons] at hc
      have htaken := Value.equals?_eq_some hfits ha hb he
      refine .of_goes ((Moves.branchEqual hc.1 (addressOf?_select hn hc.2) htaken).trans
        (Goes.select hn hc.2 r))
        (.ok ⟨.ofBool r, rfl, ?_⟩)
      cases r <;> rfl
  | lessEqual =>
    obtain ⟨hx, hy⟩ := hnumbers (by simp)
    simp only [BinaryOp.evaluate, reduceCtorEq, if_false, hx, hy, BinaryOp.onNumbers]
    rw [BinaryOp.tail, Code.at_cons] at hc
    have htaken : x.val ≤ y.val ↔ decide (x.val ≤ y.val) = true := decide_eq_true_iff.symm
    refine .of_goes ((Moves.branchLessEqual hc.1 (addressOf?_select hn hc.2) htaken).trans
      (Goes.select hn hc.2 _))
      (.ok ⟨.ofBool (decide (x.val ≤ y.val)), rfl, ?_⟩)
    cases decide (x.val ≤ y.val) <;> rfl
  | greaterEqual =>
    obtain ⟨hx, hy⟩ := hnumbers (by simp)
    simp only [BinaryOp.evaluate, reduceCtorEq, if_false, hx, hy, BinaryOp.onNumbers]
    rw [BinaryOp.tail, Code.at_cons, Code.at_cons, Code.at_cons] at hc
    obtain ⟨h0, h1, h2, h3⟩ := hc
    refine .of_goes (Moves.push h0).goes ?_
    -- the machine compares with the predecessor of the right operand, which the least word does not have
    split
    · next hleast =>
      refine Follows.stop fun s hs => ?_
      obtain ⟨t, ht⟩ := hs.step_arith h1
      rw [if_neg (by simp), hleast.2, Arith.sub_one_least] at ht
      exact ⟨_, ht, rfl⟩
    · next hleast =>
      obtain ⟨hpred, hval⟩ := Arith.sub_one fun h => hleast ⟨trivial, h⟩
      have htaken : x.val ≤ (Word.ofInt (y.val - 1)).val ↔ (!decide (y.val ≤ x.val)) = true := by
        rw [hval, Bool.not_eq_true', decide_eq_false_iff_not]
        omega
      refine .of_goes ((Moves.arith h1 (by simp) hpred).trans
        ((Moves.branchLessEqual h2 (addressOf?_select hn h3) htaken).trans (Goes.select hn h3 _)))
        (.ok ⟨.ofBool (decide (y.val ≤ x.val)), rfl, ?_⟩)
      cases decide (y.val ≤ x.val) <;> rfl
  | logic op => exact absurd rfl hop

end Operators

end Machine

namespace Linkage

/-- The machine has come to `ip` in the frame at `fp` and pushed the word of a value of type `t`. -/
def Leaves (L : Linkage) (w : World) (ip : Nat) (fp : Word) (σ : List Word) (t : Ty) :
    Value × World → Snapshot → Prop
  | (v, w'), c => ∃ x ra tm heap out, c = ⟨ip, fp, ra, tm, x :: σ, heap, out⟩ ∧ w.store <+: w'.store ∧
    L.Represents w' heap out ∧ v.word? L.start w'.store = some x ∧ v.HasType L.classes w'.store t

/-- In the frame that belongs to the scopes and the context, the code follows the evaluation and leaves its
value. -/
structure Realizes (L : Linkage) (n : Nat) (stage : Stage) (s : Scopes) (context : List Binding)
    (code : Code) (eval : World → Except Trouble (Value × World)) (t : Ty) : Prop where
  follows {w : World} {ip : Nat} {fp ra tm : Word} {σ heap out : List Word} : L.code.At ip code →
    L.Represents w heap out → L.Frames stage w.store σ s context fp.val →
    Follows L.code L.size n (eval w) (L.Leaves w (ip + code.length) fp σ t) ⟨ip, fp, ra, tm, σ, heap, out⟩

section Realizes
variable {L : Linkage} {n : Nat} {stage : Stage} {s : Scopes} {context : List Binding}

theorem Realizes.of_isSubtype {code : Code} {eval : World → Except Trouble (Value × World)}
    {h : Hierarchy} {a b : Ty} (hr : L.Realizes n stage s context code eval a) (hh : h.Within L.classes)
    (hs : h.isSubtype a b = true) :
    L.Realizes n stage s context code eval b := by
  constructor
  intro w ip fp ra tm σ heap out hc hw hf
  refine (hr.follows hc hw hf).mono ?_
  rintro ⟨v, w'⟩ c - ⟨x, ra', tm', heap', out', rfl, hs', hw', hx, hv⟩
  exact ⟨x, ra', tm', heap', out', rfl, hs', hw', hx, hv.of_isSubtype hh hs⟩

/-- A word that is pushed at once. -/
theorem Realizes.push {v : Value} {x : Word} {t : Ty} (hx : ∀ store, v.word? L.start store = some x)
    (ht : ∀ store, v.HasType L.classes store t) :
    L.Realizes n stage s context [.push x] (fun w => .ok (v, w)) t := by
  constructor
  intro w ip fp ra tm σ heap out hc hw hf
  rw [Code.at_cons] at hc
  exact .of_goes (Moves.push hc.1).goes
    (.ok ⟨x, ra, tm, heap, out, rfl, List.prefix_refl _, hw, hx _, ht _⟩)

theorem Realizes.print {code : Code} {eval : World → Except Trouble (Value × World)} {t : Ty}
    (h : L.Realizes n stage s context code eval t) :
    L.Realizes n stage s context (code ++ [.print])
      (fun w => do let (v, w) ← eval w; return (v, { w with printed := w.printed ++ [v] })) t := by
  constructor
  intro w ip fp ra tm σ heap out hc hw hf
  rw [Code.at_append, Code.at_cons] at hc
  refine (h.follows hc.1 hw hf).bind ?_
  rintro ⟨v, w'⟩ c - ⟨x, ra', tm', heap', out', rfl, hs, hw', hx, ht⟩
  refine .of_goes (Moves.print hc.2.1).goes
    (.ok ⟨x, ra', tm', heap', out' ++ [x], ?_, hs, hw'.print hx, hx, ht⟩)
  rw [List.length_append, ← Nat.add_assoc]
  rfl

section Operators
variable {left right : Code} {evalLeft evalRight : World → Except Trouble (Value × World)} {a b t : Ty}
  {h : Hierarchy}

theorem Realizes.binary (hL : L.Sound) (hh : h.Within L.classes) {op : BinaryOp} {span : Span} {k : Nat}
    (hop : op.opClass ≠ .logical) (hl : L.Realizes n stage s context left evalLeft a)
    (hr : L.Realizes n stage s context right evalRight b) (ht : op.resultType h a b span = .ok t) :
    L.Realizes n stage s context (op.code left right k)
      (fun w => do
        let (a, w) ← evalLeft w
        let (b, w) ← evalRight w
        let v ← op.evaluate true a b
        return (v, w)) t := by
  constructor
  intro w ip fp ra tm σ heap out hc hw hf
  rw [BinaryOp.code_eq hop, Code.at_append, Code.at_append] at hc
  obtain ⟨⟨hcl, hcr⟩, hct⟩ := hc
  refine (hl.follows hcl hw hf).bind ?_
  rintro ⟨v, w1⟩ c - ⟨x, ra1, tm1, heap1, out1, rfl, hs1, hw1, hx, hv⟩
  refine (hr.follows hcr hw1 (hf.mono hs1 (List.suffix_cons x σ))).bind ?_
  rintro ⟨v', w2⟩ c - ⟨y, ra2, tm2, heap2, out2, rfl, hs2, hw2, hy, hv'⟩
  have hout := op.outcome_evaluate hh true hop ht (hv.mono hs2) hv'
  have hstuck : op.evaluate true v v' ≠ .error .stuck := fun he => by
    rw [he] at hout
    exact hout rfl
  refine .of_fits fun hfits => ?_
  have hsize := L.size_lt
  have hbound : L.start + (w2.store.map Object.size).sum < 9223372036854775808 := by
    rw [← hw2.length]
    simp only at hfits
    omega
  rw [List.length_append, ← Nat.add_assoc] at hct
  refine (Follows.operator hbound hL.nodup hop hct (Value.word?_mono hs2 hx) hy hstuck).bind ?_
  rintro r c hr ⟨z, hz, rfl⟩
  rw [hr] at hout
  refine .ok ⟨z, ra2, tm2, heap2, out2, ?_, hs1.trans hs2, hw2, hz, hout⟩
  rw [BinaryOp.code_eq hop, List.length_append, List.length_append, Nat.add_assoc, Nat.add_assoc,
    Nat.add_assoc]

theorem Realizes.negation (hL : L.Sound) {k : Nat} (hl : L.Realizes n stage s context left evalLeft .bool) :
    L.Realizes n stage s context (Code.negation left k)
      (fun w => do
        match ← evalLeft w with
        | (.bool b, w) => return (.bool !b, w)
        | _ => .error .stuck) .bool := by
  constructor
  intro w ip fp ra tm σ heap out hc hw hf
  simp only [Code.negation, Code.at_append, Code.at_cons, List.append_assoc, List.cons_append,
    List.nil_append] at hc
  obtain ⟨hcl, h0, h1, hselect⟩ := hc
  refine (hl.follows hcl hw hf).bind ?_
  rintro ⟨v, w1⟩ c - ⟨x, ra1, tm1, heap1, out1, rfl, hs1, hw1, hx, hv⟩
  obtain ⟨b, rfl⟩ := hv.bool
  obtain rfl := Option.some.inj hx
  have htaken : b = false ↔ (!b) = true := by cases b <;> simp
  refine .of_goes ((Goes.test _ h0 h1 (addressOf?_select hL.nodup hselect) htaken).trans
    (Goes.select hL.nodup hselect !b))
    (.ok ⟨.ofBool !b, ra1, tm1, heap1, out1, ?_, hs1, hw1, rfl, trivial⟩)
  simp only [Code.negation, Code.select, List.length_append, List.length_cons, List.length_nil,
    Nat.add_assoc]
  cases b <;> rfl

theorem Realizes.connective (hL : L.Sound) {op : Connective} {k : Nat}
    (hl : L.Realizes n stage s context left evalLeft .bool)
    (hr : L.Realizes n stage s context right evalRight .bool) :
    L.Realizes n stage s context ((BinaryOp.logic op).code left right k)
      (fun w => do
        match ← evalLeft w with
        | (.bool a, w) =>
          if a = op.decisive then return (.bool a, w)
          else
            match ← evalRight w with
            | (.bool b, w) => return (.bool b, w)
            | _ => .error .stuck
        | _ => .error .stuck) .bool := by
  constructor
  intro w ip fp ra tm σ heap out hc hw hf
  simp only [BinaryOp.code, Code.at_append, Code.at_cons, List.append_assoc, List.cons_append,
    List.nil_append] at hc
  obtain ⟨hcl, h0, h1, hcr, h2, h3, hselect⟩ := hc
  have hlabel := addressOf?_select hL.nodup hselect
  have hlength : ip + ((BinaryOp.logic op).code left right k).length =
      ip + left.length + 1 + 1 + right.length + 1 + 1 + 5 := by
    simp only [BinaryOp.code, Code.select, List.length_append, List.length_cons, List.length_nil]
    omega
  rw [hlength]
  refine (hl.follows hcl hw hf).bind ?_
  rintro ⟨v, w1⟩ c - ⟨x, ra1, tm1, heap1, out1, rfl, hs1, hw1, hx, hv⟩
  obtain ⟨b1, rfl⟩ := hv.bool
  obtain rfl := Option.some.inj hx
  by_cases hd : b1 = op.decisive
  · refine .of_goes ((Goes.test true h0 h1 hlabel (by simp [hd])).trans
      (Goes.select hL.nodup hselect true)) ?_
    simp only [hd, if_true]
    exact .ok ⟨_, ra1, tm1, heap1, out1, rfl, hs1, hw1, rfl, trivial⟩
  · refine .of_goes (Goes.test false h0 h1 hlabel (by simp [hd])) ?_
    simp only [hd, if_false]
    refine (hr.follows hcr hw1 (hf.mono hs1 (List.suffix_refl σ))).bind ?_
    rintro ⟨v, w2⟩ c - ⟨y, ra2, tm2, heap2, out2, rfl, hs2, hw2, hy, hv⟩
    obtain ⟨b2, rfl⟩ := hv.bool
    obtain rfl := Option.some.inj hy
    refine .of_goes ((Goes.test (decide (b2 = op.decisive)) h2 h3 hlabel decide_eq_true_iff.symm).trans
      (Goes.select hL.nodup hselect _))
        (.ok ⟨.ofBool b2, ra2, tm2, heap2, out2, ?_, hs1.trans hs2, hw2, rfl, trivial⟩)
    cases b2 <;> cases op <;> rfl

/-- Both branches end at the same place with a value of the common type. -/
theorem Realizes.conditional (hL : L.Sound) (hh : h.Within L.classes) {thenCode elseCode : Code}
    {evalThen evalElse : World → Except Trouble (Value × World)} {k : Nat}
    (hl : L.Realizes n stage s context left evalLeft .bool)
    (hthen : L.Realizes n stage s context thenCode evalThen a)
    (helse : L.Realizes n stage s context elseCode evalElse b) (ht : h.lowestCommonAncestor? a b = some t) :
    L.Realizes n stage s context (Code.conditional left thenCode elseCode k)
      (fun w => do
        match ← evalLeft w with
        | (.bool true, w) => evalThen w
        | (.bool false, w) => evalElse w
        | _ => .error .stuck) t := by
  constructor
  intro w ip fp ra tm σ heap out hc hw hf
  simp only [Code.conditional, Code.at_append, Code.at_cons, List.append_assoc, List.cons_append,
    List.nil_append] at hc
  obtain ⟨hcl, h0, h1, hce, h2, h3, hct, h4, -⟩ := hc
  have hlength : ip + (Code.conditional left thenCode elseCode k).length =
      ip + left.length + 1 + 1 + elseCode.length + 1 + 1 + thenCode.length + 1 := by
    simp only [Code.conditional, List.length_append, List.length_cons, List.length_nil]
    omega
  rw [hlength]
  refine (hl.follows hcl hw hf).bind ?_
  rintro ⟨v, w1⟩ c - ⟨x, ra1, tm1, heap1, out1, rfl, hs1, hw1, hx, hv⟩
  obtain ⟨b1, rfl⟩ := hv.bool
  obtain rfl := Option.some.inj hx
  have hf1 := hf.mono hs1 (List.suffix_refl σ)
  cases b1 with
  | true =>
    refine .of_goes ((Goes.test true h0 h1 (addressOf?_eq_some hL.nodup h3) (by simp)).trans
      (Moves.define h3).goes) ?_
    refine (hthen.follows hct hw1 hf1).extend ?_
    rintro ⟨v, w2⟩ c - ⟨y, ra2, tm2, heap2, out2, rfl, hs2, hw2, hy, hv⟩
    exact ⟨_, (Moves.define h4).goes, y, ra2, tm2, heap2, out2, rfl, hs1.trans hs2, hw2, hy,
      .of_common hh ht (.inl hv)⟩
  | false =>
    refine .of_goes (Goes.test false h0 h1 (addressOf?_eq_some hL.nodup h3) (by simp)) ?_
    refine (helse.follows hce hw1 hf1).extend ?_
    rintro ⟨v, w2⟩ c - ⟨y, ra2, tm2, heap2, out2, rfl, hs2, hw2, hy, hv⟩
    exact ⟨_, (Moves.branch h2 (addressOf?_eq_some hL.nodup h4)).trans (Moves.define h4).goes, y, ra2, tm2,
      heap2, out2, rfl, hs1.trans hs2, hw2, hy, .of_common hh ht (.inr hv)⟩

end Operators

end Realizes

end Linkage

end Classlet

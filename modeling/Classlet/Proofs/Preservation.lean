import Classlet.Proofs.Outcomes
/-!
# Compiled programs compute what they mean

When evaluation yields a value, the compiled program halts with the word of that value and the words of what
was printed. There are three ways out: the run is given up, stack and heap meet, or `>=` has the least word
on its right. The last one is not what the program means: the code subtracts one from the right operand
(`greaterEqual_least_aborts`).
-/

namespace Classlet

open Machine

/-- The word of a value, where `place` says at which address an object is. -/
def Value.wordAt (place : Nat → Word) : Value → Word
  | int w => w
  | bool b => .ofBool b
  | null => .ofInt Layout.nullAddress
  | object id => place id

/-- The objects are on the heap of the state `s`, which ends where the stack begins. Different objects have
different addresses, and the words below the address of an object are its fields. -/
structure Places (size : Nat) (s : State) (store : List Object) (place : Nat → Word) : Prop where
  injective (i j : Nat) : i < store.length → j < store.length → place i = place j → i = j
  heap (i : Nat) : i < store.length → 0 ≤ (place i).val ∧ (place i).val < s.hp.val
  room : s.hp.val ≤ s.sp ∧ s.sp ≤ size
  field (i j : Nat) (o : Object) (x : String) (v : Value) : store[i]? = some o →
    o.fields[j]? = some (x, v) →
    j < (place i).val ∧ s.memory[((place i).val - (j + 1)).toNat]? = some (v.wordAt place)

namespace Linkage

/-- Where objects are. -/
def place (L : Linkage) (store : List Object) (id : Nat) : Word := .ofInt (address L.start store id)

theorem wordAt_place {L : Linkage} {store : List Object} {v : Value} {x : Word}
    (h : v.word? L.start store = some x) :
    v.wordAt (L.place store) = x := by
  cases v with
  | object id =>
    rw [Value.word?] at h
    split at h
    · exact Option.some.inj h
    · cases h
  | int _ | bool _ | null => exact Option.some.inj h

theorem map_wordAt_place {L : Linkage} {store : List Object} {vs : List Value} {xs : List Word}
    (h : List.Forall₂ (fun v x => v.word? L.start store = some x) vs xs) :
    vs.map (·.wordAt (L.place store)) = xs := by
  induction h with
  | nil => rfl
  | cons hx _ ih => rw [List.map_cons, wordAt_place hx, ih]

theorem Represents.places {L : Linkage} {w : World} {c : Snapshot} {s : State}
    (h : L.Represents w c.heap c.printed) (hs : Shows L.size c s) :
    Places L.size s w.store (L.place w.store) := by
  have hlength := h.length
  have hroom := hs.room
  have hsp := hs.sp
  have hhp := hs.hp
  have hval {id : Nat} (hid : id < w.store.length) :
      (L.place w.store id).val = address L.start w.store id ∧
      address L.start w.store id < c.heap.length := by
    have hbound := address_bound L.start hid
    have hsize := L.size_lt
    exact ⟨Word.val_ofInt (by omega) (by omega), by omega⟩
  constructor
  case injective =>
    intro i j hi hj hij
    obtain ⟨hvi, -⟩ := hval hi
    obtain ⟨hvj, -⟩ := hval hj
    rw [hij, hvj] at hvi
    exact (address_inj L.start hj hi (Int.ofNat_inj.1 hvi)).symm
  case heap =>
    intro i hi
    obtain ⟨hvi, hlt⟩ := hval hi
    omega
  case room => omega
  case field =>
    intro i j o x v ho hv
    obtain ⟨r, hobject⟩ := h.objects i o ho
    obtain ⟨t, y, k, -, -, hy, hk, haddress⟩ := hobject.field j x v hv
    obtain ⟨hvi, -⟩ := hval (List.getElem?_eq_some_iff.1 ho).1
    have hword : (address L.start w.store i : Int) - (j + 1) = k := by omega
    have hlow : j < address L.start w.store i := haddress ▸ Nat.lt_succ_of_le (Nat.le_add_left j k)
    rw [hvi, hword]
    refine ⟨Int.ofNat_lt.2 hlow, ?_⟩
    rw [Int.toNat_natCast, hs.heap k (List.getElem?_eq_some_iff.1 hk).1, hk, wordAt_place hy]

end Linkage

theorem Compiler.accepted_of_compile {compiler after : Compiler} {p : Program} {c : Compilation}
    {e : Executable} (hc : compiler.compile p = .ok (c, after)) (he : c.result = .ok e) :
    ∃ r, p.Accepted compiler.options.memorySize r e.type e.assembly := by
  simp only [Compiler.compile, bind_eq_ok, pure_eq_ok, Prod.mk.injEq] at hc
  obtain ⟨c', hc', rfl, -⟩ := hc
  exact Options.accepted_of_compile hc' he

theorem Compiler.compile_of_accepted {compiler : Compiler} {p : Program} {r : Resolved} {t : Ty}
    {a : Assembly} (h : p.Accepted compiler.options.memorySize r t a) :
    compiler.compile p = .ok (⟨.ok ⟨t, a⟩, [], r.tree⟩, { compiler with reports := [] }) := by
  obtain ⟨hierarchy, hcheck⟩ := h.checked
  simp only [Compiler.compile, Options.compile, h.resolved, h.names, hcheck, Options.finish,
    h.generated, ok_bind]
  rfl

/-- A compiled program does what the program means: it halts in a state whose heap holds the objects, with
the words of the value and of what was printed. -/
theorem Compiler.compile_preserves_meaning {compiler after : Compiler} {p : Program} {c : Compilation}
    {e : Executable} (hb : Bare p.notes) (ht : Written p.types) (hm : 0 ≤ compiler.options.memorySize.val)
    (hc : compiler.compile p = .ok (c, after)) (he : c.result = .ok e)
    (hlen : e.assembly.instructions.length < 2 ^ 63) {v : Value} {w : World} (hy : p.Yields v w) :
    (∃ s place, Visits e.assembly compiler.options.memorySize.val.toNat s ∧
        s.step (.ofCode e.assembly.instructions) =
          .error (run e.assembly compiler.options.memorySize.val.toNat) ∧
        Places compiler.options.memorySize.val.toNat s w.store place ∧
        run e.assembly compiler.options.memorySize.val.toNat =
          .halted (w.printed.map (·.wordAt place)) (some (v.wordAt place))) ∨
      run e.assembly compiler.options.memorySize.val.toNat = .fault .stepLimit ∨
      Meets e.assembly compiler.options.memorySize.val.toNat ∨
      (run e.assembly compiler.options.memorySize.val.toNat = .abort (.overflow .sub) ∧
        ∃ n, p.eval true n = .error .noPredecessor) := by
  obtain ⟨n, hn⟩ := hy
  obtain ⟨r, haccepted⟩ := Compiler.accepted_of_compile hc he
  obtain ⟨L, hL⟩ := Program.linked haccepted hb ht hm (by omega)
  have hsize : compiler.options.memorySize.val.toNat = L.size := by rw [← hL.memory]; rfl
  rw [hsize]
  rcases hL.outcome n with hrefused | hclobbers | hlimit | hends
  · exact .inr (.inr (.inl hrefused.meets))
  · exact .inr (.inr (.inl hclobbers.meets))
  · exact .inr (.inl hlimit)
  rcases p.eval_agrees n with hagree | hguard
  · rw [hagree, hn] at hends
    obtain ⟨c', s, hhalts⟩ := hends
    obtain ⟨x, σ, hstack, hx⟩ := hhalts.finishes.top
    have hhalt := hhalts.finishes.halts
    rw [hL.code] at hhalt
    refine .inl ⟨s, L.place w.store, hhalts.visits, ?_, hhalts.finishes.represents.places hhalts.shows, ?_⟩
    · rw [hhalts.run]
      exact hhalts.shows.step_halt hhalt
    rw [hhalts.run, hstack, Linkage.map_wordAt_place hhalts.finishes.represents.printed,
      Linkage.wordAt_place hx]
    rfl
  · rw [hguard] at hends
    rcases hends with ⟨htimeout, -⟩ | hstops
    · cases htimeout
    · exact .inr (.inr (.inr ⟨hstops, n, hguard⟩))

/-! ## Samples -/

/-- The compiled program, where there is one. -/
def Compiler.executable? (compiler : Compiler) (p : Program) : Option Executable :=
  match compiler.compile p with
  | .ok (c, _) => c.result.toOption
  | .error _ => none

theorem Compiler.executable?_eq_some {compiler : Compiler} {p : Program} {e : Executable}
    (h : compiler.executable? p = some e) :
    ∃ c after, compiler.compile p = .ok (c, after) ∧ c.result = .ok e := by
  unfold Compiler.executable? at h
  split at h
  · next c after hc =>
    refine ⟨c, after, hc, ?_⟩
    cases hr : c.result with
    | error _ =>
      rw [hr] at h
      cases h
    | ok e' =>
      rw [hr] at h
      exact congrArg Except.ok (Option.some.inj h)
  · cases h

/-- Evaluates a test of the compiled program. -/
theorem Compiler.exists_executable {compiler : Compiler} {p : Program} {P : Executable → Prop}
    [DecidablePred P] (h : (compiler.executable? p).any (P ·) = true) :
    ∃ c after e, compiler.compile p = .ok (c, after) ∧ c.result = .ok e ∧ P e := by
  cases he : compiler.executable? p with
  | none =>
    rw [he] at h
    cases h
  | some e =>
    rw [he] at h
    obtain ⟨c, after, hc, hr⟩ := executable?_eq_some he
    exact ⟨c, after, e, hc, hr, of_decide_eq_true h⟩

/-- Two classes, one of which overrides a method of the other, and an object whose class is chosen at run
time. -/
def shapesWith (body : Expr) : Program :=
  .letIn
    [.plain "Shape" none [] [.plain "area" [] .int (.number 0)],
      .plain "Square" (some "Shape") [("side", .int)]
        [.plain "area" [] .int (.binary (.arith .mul) (.variable "side") (.variable "side") .synthetic)]]
    [.function (.plain "scaled" [("n", .int)] (.ref "Shape")
        (.ite (.binary .lessEqual (.variable "n") (.number 0) .synthetic) (.make "Shape" [])
          (.make "Square" [.variable "n"])
          .synthetic)),
      .var (.plain "s" (.ref "Shape") (.apply "scaled" [.number 3]))]
    body .synthetic

/-- Prints the area of the object. -/
def shapes : Program := shapesWith (.print (.send "s" "area" []) .synthetic)

theorem shapes_keeps_meaning :
    ∃ c after e s place, (⟨⟨.ofInt 64, true⟩, []⟩ : Compiler).compile shapes = .ok (c, after) ∧
      c.result = .ok e ∧ e.assembly.instructions.length < 2 ^ 63 ∧
      shapes.Yields (.int (.ofInt 9)) ⟨[⟨"Square", [("side", .int (.ofInt 3))]⟩], [.int (.ofInt 9)]⟩ ∧
      Visits e.assembly 64 s ∧ s.step (.ofCode e.assembly.instructions) = .error (run e.assembly 64) ∧
      Places 64 s [⟨"Square", [("side", .int (.ofInt 3))]⟩] place ∧
      run e.assembly 64 = .halted [.ofInt 9] (some (.ofInt 9)) := by
  obtain ⟨c, after, e, hc, he, hlen, hlimit, hmeets, habort⟩ :
      ∃ c after e, (⟨⟨.ofInt 64, true⟩, []⟩ : Compiler).compile shapes = .ok (c, after) ∧ c.result = .ok e ∧
        e.assembly.instructions.length < 2 ^ 63 ∧ run e.assembly 64 ≠ .fault .stepLimit ∧
        ¬ Meets e.assembly 64 ∧ run e.assembly 64 ≠ .abort (.overflow .sub) :=
    Compiler.exists_executable (by decide +kernel)
  have hy : shapes.Yields (.int (.ofInt 9))
      ⟨[⟨"Square", [("side", .int (.ofInt 3))]⟩], [.int (.ofInt 9)]⟩ := ⟨2, rfl⟩
  rcases Compiler.compile_preserves_meaning (by decide) (by decide) (by decide) hc he hlen hy with
    ⟨s, place, hvisits, hstep, hplaces, hrun⟩ | hstop | hstop | ⟨hstop, -⟩
  · exact ⟨c, after, e, s, place, hc, he, hlen, hy, hvisits, hstep, hplaces, hrun⟩
  · exact absurd hstop hlimit
  · exact absurd hstop hmeets
  · exact absurd hstop habort

/-- Every number is at least the least word. -/
def atLeast : Program :=
  .expr (.binary .greaterEqual (.number 0) (.int .least .synthetic) .synthetic) .synthetic

/-- The comparison holds, but the code that is generated for it takes one from the least word. -/
theorem greaterEqual_least_aborts :
    Bare atLeast.notes ∧ Written atLeast.types ∧ atLeast.Yields (.bool true) .initial ∧
      ∃ c after e, (⟨⟨.ofInt 16, true⟩, []⟩ : Compiler).compile atLeast = .ok (c, after) ∧
        c.result = .ok e ∧ run e.assembly 16 = .abort (.overflow .sub) ∧ ¬ Meets e.assembly 16 :=
  ⟨by decide, by decide, ⟨0, rfl⟩, Compiler.exists_executable (by decide +kernel)⟩

end Classlet

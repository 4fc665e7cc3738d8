import Classlet.Proofs.Preservation
/-!
# Compiled programs do not go wrong

Where stack and heap never meet, a compiled program ends as evaluation does (`Program.Ending`). A program
that passed the checks is never stuck, so the machine neither misses a label or a word of the stack nor runs
off the end; it stops for a reason that the program has, and what it halts with is a word of the program's
type.
-/

namespace Classlet

open Machine

/-! ## Endings -/

/-- How runs of a compiled program end, other than by exhausting the memory. -/
inductive Program.Ending (p : Program) (t : Ty) (a : Assembly) (L : Linkage) : Stop → Prop where
  | stepLimit : Ending p t a L (.fault .stepLimit)
  | halted {v : Value} {w : World} {c : Snapshot} {s : State} : p.Yields v w → HaltsWith a t L v w c s →
    Ending p t a L (.halted c.printed c.stack.head?)
  | nullReceiver {n : Nat} {x : Word} {ip : Nat} : p.eval true n = .error .nullReceiver →
      x.val = Layout.nullAddress →
    Ending p t a L (.fault (.badAddress x ip))
  | divisionByZero {n ip : Nat} : p.eval true n = .error .divisionByZero →
      Ending p t a L (.fault (.divisionByZero ip))
  | overflow {n : Nat} {op : Arith} : p.eval true n = .error (.overflow op) →
      Ending p t a L (.abort (.overflow op))
  | noPredecessor {n : Nat} : p.eval true n = .error .noPredecessor →
      Ending p t a L (.abort (.overflow .sub))

theorem Program.yields_of_guarded {p : Program} {n : Nat} {v : Value} {w : World}
    (h : p.eval true n = .ok (v, w)) :
    p.Yields v w := by
  rcases p.eval_agrees n with hagree | hguard
  · exact ⟨n, hagree.symm.trans h⟩
  · rw [h] at hguard
    cases hguard

/-- A run cannot outlast the fuel of an evaluation that has as much as the run has steps. -/
theorem Program.LinkedBy.ending {p : Program} {memory : Word} {r : Resolved} {t : Ty} {a : Assembly}
    {L : Linkage} (h : p.LinkedBy memory r t a L) (hmeet : ¬ Meets a L.size) :
    p.Ending t a L (Machine.run a L.size) := by
  rcases h.outcome stepLimit with hrefused | hclobbers | hlimit | hends
  · exact absurd hrefused.meets hmeet
  · exact absurd hclobbers.meets hmeet
  · rw [hlimit]
    exact .stepLimit
  cases heval : p.eval true stepLimit with
  | ok vw =>
    rw [heval] at hends
    obtain ⟨c, s, hhalts⟩ := hends
    rw [hhalts.run]
    exact .halted (Program.yields_of_guarded heval) hhalts
  | error trouble =>
    rw [heval] at hends
    obtain ⟨-, hlt⟩ | hstops := hends
    · exact absurd hlt (Nat.lt_irrefl _)
    cases trouble with
    | nullReceiver =>
      obtain ⟨x, ip, hrun, hx⟩ := hstops
      rw [hrun]
      exact .nullReceiver heval hx
    | divisionByZero =>
      obtain ⟨ip, hrun⟩ := hstops
      rw [hrun]
      exact .divisionByZero heval
    | overflow op =>
      rw [show Machine.run a L.size = _ from hstops]
      exact .overflow heval
    | noPredecessor =>
      rw [show Machine.run a L.size = _ from hstops]
      exact .noPredecessor heval
    | stuck => exact hstops.elim
    | timeout => exact hstops.elim

/-! ## Words of a type -/

/-- There is an object of class `cls` at address `x`: the word there is the address of the dispatch table of
the class, which the outermost frame keeps at the offset of the class. -/
def Machine.State.HasObject (s : State) (p : Program) (size : Nat) (x : Word) (cls : String) : Prop :=
  ∃ (k : Nat) (pointer : Word), (p.classes.filterMap (·.name.map Name.text))[k]? = some cls ∧ 0 ≤ x.val ∧
    s.memory[x.val.toNat]? = some pointer ∧
    s.memory[((size : Int) + (Layout.firstLocalOffset - k)).toNat]? = some pointer

/-- The word `x` is one of the given type in state `s`. References are `null` or the address of one of the
objects that were made. -/
def Machine.State.Conforms (s : State) (p : Program) (size : Nat) (store : List Object) (place : Nat → Word)
    (x : Word) :
    Ty → Prop
  | .int => True
  | .bool => x.val = 0 ∨ x.val = 1
  | .empty => x.val = Layout.nullAddress
  | .ref cls => x.val = Layout.nullAddress ∨
    ∃ id o, store[id]? = some o ∧ x = place id ∧ Classes.Subclass p.classes.reverse o.cls cls ∧
      s.HasObject p size x o.cls
  | .arrow _ | .method _ | .cls .. => False

section Conformance
variable {p : Program} {memory : Word} {r : Resolved} {t : Ty} {a : Assembly} {L : Linkage} {v : Value}
  {w : World} {c : Snapshot} {s : State}

theorem Program.HaltsWith.hasObject (h : p.LinkedBy memory r t a L) (hw : HaltsWith a t L v w c s)
    {id : Nat} {o : Object} (ho : w.store[id]? = some o) :
    s.HasObject p L.size (L.place w.store id) o.cls := by
  obtain ⟨hfinishes, -, hshows, -⟩ := hw
  obtain ⟨ro, hro⟩ := hfinishes.represents.objects id o ho
  obtain ⟨k, hk, hoffset⟩ := h.place o.cls ro hro.info
  rw [h.classes, Classes.names, List.reverse_reverse] at hk
  have hslot := (h.sound.slot o.cls ro hro.info).of_suffix hfinishes.base
  obtain ⟨ip, fp, ra, tm, σ, heap, out⟩ := c
  have hbound := address_bound L.start (List.getElem?_eq_some_iff.1 ho).1
  have hlength := hfinishes.represents.length
  have hroom := hshows.room
  have hsp := hshows.sp
  have hsize := L.size_lt
  simp only at hlength hroom hsp
  have hval : (L.place w.store id).val = address L.start w.store id := Word.val_ofInt (by omega) (by omega)
  refine ⟨k, .ofInt ro.start, hk, hval ▸ Int.natCast_nonneg _, ?_, ?_⟩
  · exact (hshows.memory (.inr ⟨_, hro.pointer, hval⟩)).2.2
  · rw [← hoffset]
    exact (hshows.memory (.inl hslot)).2.2

/-- What a program halts with is a word of its type. -/
theorem Program.HaltsWith.conforms (h : p.LinkedBy memory r t a L) (hw : HaltsWith a t L v w c s) :
    s.Conforms p L.size w.store (L.place w.store) (v.wordAt (L.place w.store)) t := by
  have htyped := hw.finishes.typed
  cases t with
  | int => trivial
  | bool =>
    obtain ⟨b, rfl⟩ := htyped.bool
    cases b with
    | false => exact .inl (by decide : (Word.ofBool false).val = 0)
    | true => exact .inr (by decide : (Word.ofBool true).val = 1)
  | empty =>
    cases v with
    | null => exact (by decide : (Word.ofInt Layout.nullAddress).val = Layout.nullAddress)
    | int _ | bool _ | object _ => exact htyped.elim
  | ref cls =>
    rcases htyped.ref with rfl | ⟨id, o, rfl, ho, hsub⟩
    · exact .inl (by decide : (Word.ofInt Layout.nullAddress).val = Layout.nullAddress)
    · exact .inr ⟨id, o, ho, rfl, h.classes ▸ hsub, hw.hasObject h ho⟩
  | arrow _ | method _ | cls _ _ => cases v <;> exact htyped.elim

end Conformance

/-! ## Safety -/

/-- The run of a compiled program does not go wrong: it does not end in a fault of the machine, ends in a
bad address only where a method is called on `null`, is aborted only by an operator of the program, and
halts only with a word of the program's type. -/
structure Program.RunsSafely (p : Program) (e : Executable) (size : Nat) : Prop where
  undefinedLabel (l : Label) : run e.assembly size ≠ .fault (.undefinedLabel l)
  stackUnderflow (ip : Nat) : run e.assembly size ≠ .fault (.stackUnderflow ip)
  ranOffEnd : run e.assembly size ≠ .fault .ranOffEnd
  badAddress (x : Word) (ip : Nat) : run e.assembly size = .fault (.badAddress x ip) →
    x.val = Layout.nullAddress ∧ ∃ n, p.eval true n = .error .nullReceiver
  abort (cause : Abort) : run e.assembly size = .abort cause →
    ∃ op, cause = .overflow op ∧
      ∃ n, p.eval true n = .error (.overflow op) ∨ (op = .sub ∧ p.eval true n = .error .noPredecessor)
  halted (printed : List Word) (result : Option Word) : run e.assembly size = .halted printed result →
    ∃ x s v w place, result = some x ∧ Visits e.assembly size s ∧
      s.step (.ofCode e.assembly.instructions) = .error (.halted printed result) ∧ p.Yields v w ∧
      Places size s w.store place ∧ x = v.wordAt place ∧ s.Conforms p size w.store place x e.type

theorem Program.Ending.halts {p : Program} {memory : Word} {r : Resolved} {e : Executable} {L : Linkage}
    {printed : List Word} {result : Option Word} (hL : p.LinkedBy memory r e.type e.assembly L)
    (h : p.Ending e.type e.assembly L (.halted printed result)) :
    ∃ x s v w place, result = some x ∧ Visits e.assembly L.size s ∧
      s.step (.ofCode e.assembly.instructions) = .error (.halted printed result) ∧ p.Yields v w ∧
      Places L.size s w.store place ∧ x = v.wordAt place ∧ s.Conforms p L.size w.store place x e.type := by
  cases h with
  | @halted v w c s hyields hhalts =>
    obtain ⟨x, σ, hstack, hx⟩ := hhalts.finishes.top
    have hhalt := hhalts.finishes.halts
    rw [hL.code] at hhalt
    refine ⟨v.wordAt (L.place w.store), s, v, w, L.place w.store, ?_, hhalts.visits,
      hhalts.shows.step_halt hhalt, hyields,
      hhalts.finishes.represents.places hhalts.shows, rfl, hhalts.conforms hL⟩
    rw [hstack, Linkage.wordAt_place hx]
    rfl

theorem Compiler.compile_safe {compiler after : Compiler} {p : Program} {c : Compilation} {e : Executable}
    (hb : Bare p.notes) (ht : Written p.types) (hm : 0 ≤ compiler.options.memorySize.val)
    (hc : compiler.compile p = .ok (c, after)) (he : c.result = .ok e)
    (hlen : e.assembly.instructions.length < 2 ^ 63)
    (hmeet : ¬ Meets e.assembly compiler.options.memorySize.val.toNat) :
    p.RunsSafely e compiler.options.memorySize.val.toNat := by
  obtain ⟨r, haccepted⟩ := Compiler.accepted_of_compile hc he
  obtain ⟨L, hL⟩ := Program.linked haccepted hb ht hm (by omega)
  have hsize : compiler.options.memorySize.val.toNat = L.size := by rw [← hL.memory]; rfl
  rw [hsize] at hmeet ⊢
  have hending := hL.ending hmeet
  constructor
  case undefinedLabel =>
    intro l hrun
    rw [hrun] at hending
    cases hending
  case stackUnderflow =>
    intro ip hrun
    rw [hrun] at hending
    cases hending
  case ranOffEnd =>
    intro hrun
    rw [hrun] at hending
    cases hending
  case badAddress =>
    intro x ip hrun
    rw [hrun] at hending
    cases hending with
    | nullReceiver heval hx => exact ⟨hx, _, heval⟩
  case abort =>
    intro cause hrun
    rw [hrun] at hending
    cases hending with
    | overflow heval => exact ⟨_, rfl, _, .inl heval⟩
    | noPredecessor heval => exact ⟨_, rfl, _, .inr ⟨rfl, heval⟩⟩
  case halted =>
    intro printed result hrun
    rw [hrun] at hending
    exact hending.halts hL

/-- The value of the program is the object. -/
theorem shape_runs_safely :
    ∃ c after e, (⟨⟨.ofInt 40, true⟩, []⟩ : Compiler).compile (shapesWith (.variable "s")) =
      .ok (c, after) ∧
      c.result = .ok e ∧ e.assembly.instructions.length < 2 ^ 63 ∧ ¬ Meets e.assembly 40 ∧
      (shapesWith (.variable "s")).RunsSafely e 40 := by
  obtain ⟨c, after, e, hc, he, hlen, hmeet⟩ :
      ∃ c after e, (⟨⟨.ofInt 40, true⟩, []⟩ : Compiler).compile (shapesWith (.variable "s")) =
        .ok (c, after) ∧
        c.result = .ok e ∧ e.assembly.instructions.length < 2 ^ 63 ∧ ¬ Meets e.assembly 40 :=
    Compiler.exists_executable (by decide +kernel)
  exact ⟨c, after, e, hc, he, hlen, hmeet,
    Compiler.compile_safe (by decide) (by decide) (by decide) hc he hlen hmeet⟩

end Classlet

import Classlet.Proofs.Preservation
/-!
# The size of the memory

Nothing that a program computes depends on the size of the memory: addresses of objects follow from the
objects made before them, and those of dispatch tables from the classes. Two runs of a program that both
halt agree, unless one of them overwrote a word on the heap. That can happen: a push is refused only where
it would be below the heap, and the word that was put on the heap last does not count until the heap pointer
is moved (`overwritten_pointer_changes_result`).
-/

namespace Classlet

open Machine

theorem Machine.IsRefused.run_eq {a : Assembly} {size : Nat} (h : IsRefused a size) :
    ∃ ip, run a size = .fault (.stackOverflow ip) := by
  obtain ⟨s, hs, -, ip, hstep⟩ := h
  exact ⟨ip, hs.run_eq hstep⟩

theorem Trouble.not_stops_halted {t : Trouble} {printed : List Word} {result : Option Word} :
    ¬ t.Stops (.halted printed result) := by
  intro h
  cases t with
  | nullReceiver =>
    obtain ⟨_, _, h, -⟩ := h
    cases h
  | divisionByZero =>
    obtain ⟨_, h⟩ := h
    cases h
  | overflow _ | noPredecessor | stuck | timeout => cases h

/-- What a run halts with follows from the evaluation and from where objects start. -/
theorem Program.LinkedBy.halted {p : Program} {memory : Word} {r : Resolved} {t : Ty} {a : Assembly}
    {L : Linkage} (h : p.LinkedBy memory r t a L) {printed : List Word} {result : Option Word}
    (hno : ¬ Clobbers a L.size) (hrun : Machine.run a L.size = .halted printed result) :
    ∃ v w, p.eval true stepLimit = .ok (v, w) ∧ printed = w.printed.map (·.wordAt (L.place w.store)) ∧
      result = some (v.wordAt (L.place w.store)) := by
  rcases h.outcome stepLimit with hrefused | hclobbers | hlimit | hends
  · obtain ⟨ip, hfault⟩ := hrefused.run_eq
    rw [hrun] at hfault
    cases hfault
  · exact absurd hclobbers hno
  · rw [hrun] at hlimit
    cases hlimit
  cases heval : p.eval true stepLimit with
  | ok vw =>
    rw [heval] at hends
    obtain ⟨c, s, hhalts⟩ := hends
    obtain ⟨x, σ, hstack, hx⟩ := hhalts.finishes.top
    obtain ⟨rfl, rfl⟩ := Stop.halted.inj (hrun.symm.trans hhalts.run)
    refine ⟨vw.1, vw.2, rfl, (Linkage.map_wordAt_place hhalts.finishes.represents.printed).symm, ?_⟩
    rw [hstack, Linkage.wordAt_place hx]
    rfl
  | error trouble =>
    rw [heval] at hends
    rcases hends with ⟨-, hlt⟩ | hstops
    · exact absurd hlt (Nat.lt_irrefl _)
    · rw [hrun] at hstops
      exact (Trouble.not_stops_halted hstops).elim

/-- Two runs that halt agree, whatever the sizes of their memories. -/
theorem Compiler.halted_eq_of_sizes {compiler₁ compiler₂ after₁ after₂ : Compiler} {p : Program}
    {c₁ c₂ : Compilation} {e₁ e₂ : Executable} (hb : Bare p.notes) (ht : Written p.types)
    (hm₁ : 0 ≤ compiler₁.options.memorySize.val) (hm₂ : 0 ≤ compiler₂.options.memorySize.val)
    (hc₁ : compiler₁.compile p = .ok (c₁, after₁)) (hc₂ : compiler₂.compile p = .ok (c₂, after₂))
    (he₁ : c₁.result = .ok e₁) (he₂ : c₂.result = .ok e₂)
    (hlen₁ : e₁.assembly.instructions.length < 2 ^ 63) (hlen₂ : e₂.assembly.instructions.length < 2 ^ 63)
    (hno₁ : ¬ Clobbers e₁.assembly compiler₁.options.memorySize.val.toNat)
    (hno₂ : ¬ Clobbers e₂.assembly compiler₂.options.memorySize.val.toNat)
    {printed₁ printed₂ : List Word} {result₁ result₂ : Option Word}
    (hrun₁ : run e₁.assembly compiler₁.options.memorySize.val.toNat = .halted printed₁ result₁)
    (hrun₂ : run e₂.assembly compiler₂.options.memorySize.val.toNat = .halted printed₂ result₂) :
    printed₁ = printed₂ ∧ result₁ = result₂ := by
  obtain ⟨r₁, ha₁⟩ := Compiler.accepted_of_compile hc₁ he₁
  obtain ⟨r₂, ha₂⟩ := Compiler.accepted_of_compile hc₂ he₂
  obtain rfl := Except.ok.inj (ha₁.resolved.symm.trans ha₂.resolved)
  obtain ⟨L₁, hL₁⟩ := Program.linked ha₁ hb ht hm₁ (by omega)
  obtain ⟨L₂, hL₂⟩ := Program.linked ha₂ hb ht hm₂ (by omega)
  have hsize₁ : compiler₁.options.memorySize.val.toNat = L₁.size := by rw [← hL₁.memory]; rfl
  have hsize₂ : compiler₂.options.memorySize.val.toNat = L₂.size := by rw [← hL₂.memory]; rfl
  rw [hsize₁] at hno₁ hrun₁
  rw [hsize₂] at hno₂ hrun₂
  obtain ⟨v, w, heval, rfl, rfl⟩ := hL₁.halted hno₁ hrun₁
  obtain ⟨v', w', heval', rfl, rfl⟩ := hL₂.halted hno₂ hrun₂
  obtain ⟨rfl, rfl⟩ := Prod.mk.inj (Except.ok.inj (heval.symm.trans heval'))
  have hplace : L₁.place = L₂.place := by
    funext store id
    rw [Linkage.place, Linkage.place, hL₁.start, hL₂.start]
  rw [hplace]
  exact ⟨rfl, rfl⟩

theorem shapes_same_in_40_and_44 :
    ∃ c₁ after₁ e₁ c₂ after₂ e₂ printed₁ result₁ printed₂ result₂,
      (⟨⟨.ofInt 40, true⟩, []⟩ : Compiler).compile shapes = .ok (c₁, after₁) ∧ c₁.result = .ok e₁ ∧
      (⟨⟨.ofInt 44, true⟩, []⟩ : Compiler).compile shapes = .ok (c₂, after₂) ∧ c₂.result = .ok e₂ ∧
      ¬ Clobbers e₁.assembly 40 ∧ run e₁.assembly 40 = .halted printed₁ result₁ ∧
      ¬ Clobbers e₂.assembly 44 ∧ run e₂.assembly 44 = .halted printed₂ result₂ ∧
      printed₁ = printed₂ ∧ result₁ = result₂ := by
  obtain ⟨c₁, after₁, e₁, hc₁, he₁, hlen₁, hno₁, hrun₁⟩ :
      ∃ c after e, (⟨⟨.ofInt 40, true⟩, []⟩ : Compiler).compile shapes = .ok (c, after) ∧ c.result = .ok e ∧
        e.assembly.instructions.length < 2 ^ 63 ∧ ¬ Clobbers e.assembly 40 ∧
        run e.assembly 40 = .halted [.ofInt 9] (some (.ofInt 9)) :=
        Compiler.exists_executable (by decide +kernel)
  obtain ⟨c₂, after₂, e₂, hc₂, he₂, hlen₂, hno₂, hrun₂⟩ :
      ∃ c after e, (⟨⟨.ofInt 44, true⟩, []⟩ : Compiler).compile shapes = .ok (c, after) ∧ c.result = .ok e ∧
        e.assembly.instructions.length < 2 ^ 63 ∧ ¬ Clobbers e.assembly 44 ∧
        run e.assembly 44 = .halted [.ofInt 9] (some (.ofInt 9)) :=
        Compiler.exists_executable (by decide +kernel)
  exact ⟨c₁, after₁, e₁, c₂, after₂, e₂, _, _, _, _, hc₁, he₁, hc₂, he₂, hno₁, hrun₁, hno₂, hrun₂,
    Compiler.halted_eq_of_sizes (by decide) (by decide) (by decide)
      (by decide) hc₁ hc₂ he₁ he₂ hlen₁ hlen₂ hno₁ hno₂
      hrun₁ hrun₂⟩

/-- A program that makes an object in a function, so that the stack is lower there than afterwards. -/
def maker : Program :=
  .letIn
    [.plain "A" none [] [.plain "m0" [] .int (.number 10), .plain "m1" [] .int (.number 20)],
      .plain "B" none [] [.plain "m" [] .int (.number 30)]]
    [.function (.plain "mk" [] (.ref "B") (.make "B" [])), .var (.plain "o" (.ref "B") (.apply "mk" []))]
    (.send "o" "m" []) .synthetic

/-- With 13 words the 1 that is added to the heap pointer overwrites the dispatch pointer of the object. It
is an address in the table of the other class, whose method is then called. -/
theorem overwritten_pointer_changes_result :
    Bare maker.notes ∧ Written maker.types ∧
      (∃ c after e, (⟨⟨.ofInt 13, true⟩, []⟩ : Compiler).compile maker = .ok (c, after) ∧ c.result = .ok e ∧
        run e.assembly 13 = .halted [] (some (.ofInt 20)) ∧ Clobbers e.assembly 13) ∧
      ∃ c after e, (⟨⟨.ofInt 14, true⟩, []⟩ : Compiler).compile maker = .ok (c, after) ∧ c.result = .ok e ∧
        run e.assembly 14 = .halted [] (some (.ofInt 30)) ∧ ¬ Clobbers e.assembly 14 :=
  ⟨by decide, by decide, Compiler.exists_executable (by decide +kernel),
    Compiler.exists_executable (by decide +kernel)⟩

end Classlet

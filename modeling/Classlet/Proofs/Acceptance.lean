import Classlet.Compile
import Classlet.Proofs.Counters
import Classlet.Proofs.Generation
import Classlet.Proofs.Uses
/-!
# Every program is compiled or reported

Compilation always comes to an end with an answer: either code or at least one report, and never a failure
to generate code (`Compiler.compile_iff_unreported`). Resolution and checking are never abandoned, what
passes both without a report has code, and no counter overflows on the way.
-/

namespace Classlet

/-- The answer has code if and only if nothing was reported, and it is never a failure of the code
generator. -/
structure Compilation.Decided (c : Compilation) : Prop where
  ok_iff : (∃ e, c.result = .ok e) ↔ c.reports = []
  not_code (cause : CodeError) : c.result ≠ .error (.code cause)

/-- A problem with names or with types was found. -/
theorem Compilation.decided_of_reports {c : Compilation} {error : CompileError}
    (hc : c.result = .error error) (hr : c.reports ≠ []) (he : ∀ cause, error ≠ .code cause) :
    c.Decided where
  ok_iff := by
    refine ⟨fun ⟨e, hok⟩ => ?_, fun hnil => absurd hnil hr⟩
    rw [hc] at hok
    cases hok
  not_code cause hcode := he cause (Except.error.inj (hc.symm.trans hcode))

theorem Options.compile_decided {options : Options} {p : Program} {r : Resolved} {checked : Checked}
    (hres : p.resolve = .ok r) (hcheck : r.tree.check .empty = .ok checked)
    (hgenerate : r.reports = [] → checked.reports = [] → Succeeds (r.tree.generate options.memorySize)) :
    ∃ c, options.compile p = .ok c ∧ c.tree = r.tree ∧ c.Decided := by
  obtain ⟨type, reports, hierarchy⟩ := checked
  simp only [Options.compile, hres, ok_bind]
  split
  · next hstop =>
    refine ⟨_, rfl, rfl, Compilation.decided_of_reports rfl ?_ (by simp)⟩
    exact List.ne_nil_of_length_pos hstop.1
  · simp only [hcheck, ok_bind]
    split
    · next t =>
      split
      · next hscope =>
        refine ⟨_, rfl, rfl, Compilation.decided_of_reports rfl ?_ (by simp)⟩
        rw [List.append_nil]
        exact List.ne_nil_of_length_pos hscope
      · next hscope =>
        have hnone : r.reports = [] := List.length_eq_zero_iff.1 (by omega)
        obtain ⟨a, ha⟩ := hgenerate hnone rfl
        simp only [Options.finish, ha, ok_bind]
        refine ⟨_, rfl, rfl, ⟨⟨fun _ => ?_, fun _ => ⟨_, rfl⟩⟩, by simp⟩⟩
        rw [hnone]
        rfl
    · next hmatch =>
      refine ⟨_, rfl, rfl, Compilation.decided_of_reports rfl ?_ (by simp)⟩
      intro hnil
      obtain ⟨t, ht⟩ := Option.isSome_iff_exists.1
        (Program.check_type_isSome hcheck (List.append_eq_nil_iff.1 hnil).2)
      exact hmatch t ht (List.append_eq_nil_iff.1 hnil).2

/-- A program of fewer than `2 ^ 30` nodes, right or wrong, is compiled or reported; compilation is not
abandoned and does not fail in the code generator. The offsets in its annotations and all that is counted
are numbers of 32 bits, and checking finds every use annotated if resolution had nothing to report. -/
theorem Compiler.compile_iff_unreported {p : Program} (compiler : Compiler) (hb : Bare p.notes)
    (ht : Written p.types) (hn : p.nodes < 2 ^ 30) (hm : 0 ≤ compiler.options.memorySize.val) :
    ∃ c after, compiler.compile p = .ok (c, after) ∧
      ((∃ e, c.result = .ok e) ↔ after.reports = []) ∧
      (∀ cause, c.result ≠ .error (.code cause)) ∧
      (∀ note ∈ c.tree.notes, ∀ o ∈ note.offsets, -2 ^ 31 ≤ o ∧ o < 2 ^ 31) ∧ p.CountersFit ∧
      ∀ r checked, p.resolve = .ok r → r.reports = [] → r.tree.check .empty = .ok checked →
        ∀ d ∈ checked.reports, ¬d.problem.Unresolved := by
  obtain ⟨r, hr, hfits⟩ := Program.resolve_fits hb ht
  obtain ⟨checked, hchecked⟩ := Program.check_succeeds (h := .empty) hfits
  have hgenerate (hnames : r.reports = []) (htypes : checked.reports = []) :
      Succeeds (r.tree.generate compiler.options.memorySize) := by
    obtain ⟨t, htype⟩ := Option.isSome_iff_exists.1 (Program.check_type_isSome hchecked htypes)
    obtain ⟨type, reports, hierarchy⟩ := checked
    simp only at htypes htype
    subst htypes htype
    exact Program.generate_succeeds hm hn hb ht hr hnames hfits hchecked
  obtain ⟨c, hc, htree, hdecided⟩ := Options.compile_decided hr hchecked hgenerate
  refine ⟨c, { compiler with reports := c.reports }, ?_, hdecided.ok_iff, hdecided.not_code,
    fun note hnote o ho => ?_,
    Program.counters_fit hb ht hn, fun _ _ hr hnames hcheck => Program.check_resolves hr hnames hcheck⟩
  · simp only [Compiler.compile, hc, ok_bind]
    rfl
  · rw [htree] at hnote
    have := (hfits note hnote).offset ho
    omega

/-- A class whose superclass is unknown and which has no name, one that turns a field into a method and a
method into a field, one that is declared twice, a variable without a type, and a call of a method of that
variable. -/
def flawed : Program :=
  .letIn
    [.plain "Shape" none [("side", .int)] [.plain "area" [] .int (.variable "side")],
      { Class.plain "Circle" (some "Round") [] [] with name := none },
      .plain "Square" (some "Shape") [("area", .bool)]
        [.plain "side" [("n", .int)] .bool (.variable "corner")],
      .plain "Shape" (some "Square") [] [.plain "area" [] .bool (.make "Square" [.number 1])]]
    [.var { Variable.plain "s" .int (.make "Circle" []) with type := none },
      .function (.plain "f" [("s", .ref "Shape")] .int (.send "s" "side" []))]
    (.send "s" "area" [.apply "f" []]) .synthetic

theorem flawed_is_reported :
    Bare flawed.notes ∧ Written flawed.types ∧ flawed.nodes < 2 ^ 30 ∧
      ∃ c after, (⟨⟨.ofInt 0, false⟩, []⟩ : Compiler).compile flawed = .ok (c, after) ∧
        ((∃ e, c.result = .ok e) ↔ after.reports = []) ∧
        (∀ cause, c.result ≠ .error (.code cause)) ∧
        (∀ note ∈ c.tree.notes, ∀ o ∈ note.offsets, -2 ^ 31 ≤ o ∧ o < 2 ^ 31) ∧ flawed.CountersFit ∧
        ∀ r checked, flawed.resolve = .ok r → r.reports = [] → r.tree.check .empty = .ok checked →
          ∀ d ∈ checked.reports, ¬d.problem.Unresolved :=
  ⟨by decide, by decide, by decide,
    Compiler.compile_iff_unreported _ (by decide) (by decide) (by decide) (by decide)⟩

end Classlet

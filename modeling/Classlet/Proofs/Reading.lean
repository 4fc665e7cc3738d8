import Classlet.Assembly
import Classlet.Instruction.Reader
import Mathlib.Data.List.TakeDrop
/-!
# Assembly text can be read back

Code leaves the compiler as text, one instruction a line. The reader undoes the writer: numbers and labels
first (`Reader.word?_text`, `Reader.label?_text`), then a line (`Instruction.ofText?_text`), then a whole
program (`Code.ofText?_text`). The one line that two readings compete for is `push`: a number is tried
before a label, and no label reads as a number.

So different instructions never have the same text, however they are put together, and an assembly is
written line by line as the list of its instructions is (`Assembly.text_determines_instructions`).
-/

namespace Classlet

/-! ## Numbers -/

namespace Reader

theorem all_isDigit_toString (n : Nat) : (toString n).toList.all Char.isDigit = true := by
  rw [Nat.toString_eq_ofList_toDigits, String.toList_ofList, List.all_eq_true]
  exact fun c hc => Nat.isDigit_of_mem_toDigits (by decide) (by decide) hc

theorem natural?_toString (n : Nat) : natural? (toString n).toList = some n := by
  have hdigits := all_isDigit_toString n
  rw [Nat.toString_eq_ofList_toDigits, String.toList_ofList] at hdigits ⊢
  have hne : (Nat.toDigits 10 n).isEmpty = false := List.isEmpty_eq_false_iff.2 Nat.toDigits_ne_nil
  rw [natural?, hdigits, hne]
  exact congrArg some Nat.ofDigitChars_ten_toDigits

/-- A number of digits only has no sign. -/
theorem integer?_of_digits {cs : List Char} (hdigits : cs.all Char.isDigit = true) :
    integer? cs = (natural? cs).map Int.ofNat := by
  unfold integer?
  split
  · exact absurd hdigits (by simp [Char.isDigit])
  · exact absurd hdigits (by simp [Char.isDigit])
  · rfl

theorem integer?_minus (cs : List Char) :
    integer? ('-' :: cs) = (natural? cs).map fun n : Nat => -(n : Int) := by
  rw [integer?]
  cases natural? cs <;> rfl

theorem integer?_toString (n : Int) : integer? (toString n).toList = some n := by
  rw [Int.toString_eq_repr, Int.repr_eq_if]
  split
  · rw [← Nat.toString_eq_repr, integer?_of_digits (all_isDigit_toString _), natural?_toString]
    exact congrArg some (Int.toNat_of_nonneg ‹_›)
  · have hsign : ("-" ++ (-n).toNat.repr).toList = '-' :: (toString (-n).toNat).toList := by simp
    rw [hsign, integer?_minus, natural?_toString, Option.map_some]
    exact congrArg some (by omega)

theorem word?_text (w : Word) : word? w.text.toList = some w := by
  rw [word?, Word.text, integer?_toString, Option.bind_some, Word.ofInt?, dif_pos ⟨w.lower, w.upper⟩]

/-! ## Labels -/

theorem after?_append (start rest : List Char) : after? start (start ++ rest) = some rest := by
  rw [after?, if_pos (List.isPrefixOf_iff_prefix.2 (List.prefix_append _ _)), List.drop_left]

theorem label?_text (l : Label) : label? l.text.toList = some l := by
  cases l with
  | branch n =>
    rw [label?, Label.text, String.toList_append, after?_append]
    simp only [natural?_toString, Option.map_some]
  | function n =>
    -- the first letters already tell the two kinds apart
    have hkind : after? "label".toList ("function".toList ++ (toString n).toList) = none := rfl
    rw [label?, Label.text, String.toList_append, hkind, after?_append]
    simp only [natural?_toString, Option.map_some]

/-- The operand of `push` cannot be taken for a number if it is a label. -/
theorem word?_label (l : Label) : word? l.text.toList = none := by
  cases l with
  | branch n =>
    rw [Label.text, String.toList_append]
    rfl
  | function n =>
    rw [Label.text, String.toList_append]
    rfl

end Reader

/-! ## What lines are made of -/

theorem not_mem_of_all {p : Char → Bool} {cs : List Char} (hall : cs.all p = true) {c : Char}
    (hc : p c = false) :
    c ∉ cs := by
  intro hmem
  have hp := List.all_eq_true.1 hall c hmem
  rw [hc] at hp
  cases hp

theorem Word.not_mem_text {c : Char} (hdigit : c.isDigit = false) (hminus : c ≠ '-') (w : Word) :
    c ∉ w.text.toList := by
  have hnumber (n : Nat) : c ∉ n.repr.toList := not_mem_of_all (Reader.all_isDigit_toString n) hdigit
  rw [Word.text, Int.toString_eq_repr, Int.repr_eq_if]
  split
  · exact hnumber _
  · rw [String.toList_append, List.mem_append, not_or]
    exact ⟨by simpa using hminus, hnumber _⟩

theorem Label.not_mem_text {c : Char} (hc : c.isAlphanum = false) (l : Label) : c ∉ l.text.toList := by
  obtain ⟨hletter, hdigit⟩ := Bool.or_eq_false_iff.1 hc
  have hname (name : String) (hletters : name.toList.all Char.isAlpha = true) (n : Nat) :
      c ∉ (name ++ toString n).toList := by
    rw [String.toList_append, List.mem_append, not_or]
    exact ⟨not_mem_of_all hletters hletter, not_mem_of_all (Reader.all_isDigit_toString n) hdigit⟩
  cases l with
  | branch n => exact hname "label" (by decide) n
  | function n => exact hname "function" (by decide) n

namespace Instruction

theorem not_mem_mnemonic {c : Char} (hc : c.isAlpha = false) (i : Instruction) : c ∉ i.mnemonic.toList := by
  have hletters : i.mnemonic.toList.all Char.isAlpha = true := by
    cases i with
    | arith op => cases op <;> decide
    | load r => cases r <;> decide
    | store r => cases r <;> decide
    | _ =>
      rw [mnemonic]
      decide
  exact not_mem_of_all hletters hc

/-- A line is a mnemonic with a number, a mnemonic with a label, a label with a colon, or a mnemonic
alone. -/
theorem text_cases (i : Instruction) :
    (∃ w, i = .push w ∧ i.text = i.mnemonic ++ " " ++ w.text) ∨
      (∃ l, i.target? = some l ∧ i.text = i.mnemonic ++ " " ++ l.text) ∨
      (∃ l, i = .define l ∧ i.text = l.text ++ ":") ∨
      (Reader.plain? i.mnemonic = some i ∧ i.text = i.mnemonic) := by
  cases i with
  | push w => exact .inl ⟨w, rfl, rfl⟩
  | pushLabel l | branch l | branchEqual l | branchLessEqual l => exact .inr (.inl ⟨l, rfl, rfl⟩)
  | define l => exact .inr (.inr (.inl ⟨l, rfl, rfl⟩))
  | arith op => exact .inr (.inr (.inr ⟨by cases op <;> rfl, rfl⟩))
  | load r => exact .inr (.inr (.inr ⟨by cases r <;> rfl, rfl⟩))
  | store r => exact .inr (.inr (.inr ⟨by cases r <;> rfl, rfl⟩))
  | _ => exact .inr (.inr (.inr ⟨rfl, rfl⟩))

theorem newline_not_mem_text (i : Instruction) : '\n' ∉ i.text.toList := by
  have hmnemonic : '\n' ∉ i.mnemonic.toList := i.not_mem_mnemonic rfl
  rcases i.text_cases with ⟨w, -, htext⟩ | ⟨l, -, htext⟩ | ⟨l, -, htext⟩ | ⟨-, htext⟩
  · simpa [htext, hmnemonic] using w.not_mem_text rfl (by decide)
  · simpa [htext, hmnemonic] using l.not_mem_text rfl
  · simpa [htext] using l.not_mem_text rfl
  · rwa [htext]

/-! ## Lines -/

open Reader

/-- The first word of a line goes up to the first space. -/
theorem span_append_of_not_mem {word : List Char} (hword : ' ' ∉ word) (rest : List Char) :
    (word ++ rest).span (· ≠ ' ') = (word ++ (rest.span (· ≠ ' ')).1, (rest.span (· ≠ ' ')).2) := by
  have hall : ∀ c ∈ word, decide (c ≠ ' ') = true := fun c hc => decide_eq_true fun heq => hword (heq ▸ hc)
  simp only [List.span_eq_takeWhile_dropWhile, List.takeWhile_append_of_pos hall,
    List.dropWhile_append_of_pos hall]

theorem ofText?_operand {first operand : String} (hfirst : ' ' ∉ first.toList) :
    ofText? (first ++ " " ++ operand) = withOperand? first operand.toList := by
  have hsplit : (first ++ " " ++ operand).toList = first.toList ++ ' ' :: operand.toList := by simp
  have hspan : (' ' :: operand.toList).span (· ≠ ' ') = ([], ' ' :: operand.toList) := rfl
  rw [ofText?, hsplit, span_append_of_not_mem hfirst, hspan]
  simp only [List.append_nil, String.ofList_toList]

theorem ofText?_word {word : String} (hword : ' ' ∉ word.toList) :
    ofText? word =
      if word.toList.getLast? = some ':' then (label? word.toList.dropLast).map .define
        else plain? word := by
  have hspan : word.toList.span (· ≠ ' ') = (word.toList, []) := by
    simpa using span_append_of_not_mem hword []
  rw [ofText?, hspan]

/-- Reading a line gives back the instruction that was written. -/
theorem ofText?_text (i : Instruction) : ofText? i.text = some i := by
  have hmnemonic : ' ' ∉ i.mnemonic.toList := i.not_mem_mnemonic rfl
  rcases i.text_cases with ⟨w, rfl, htext⟩ | ⟨l, hl, htext⟩ | ⟨l, rfl, htext⟩ | ⟨hplain, htext⟩
  · rw [htext, ofText?_operand hmnemonic]
    simp [withOperand?, mnemonic, word?_text]
  · rw [htext, ofText?_operand hmnemonic]
    cases i with
    | pushLabel l' | branch l' | branchEqual l' | branchLessEqual l' =>
      obtain rfl := Option.some.inj hl
      simp [withOperand?, mnemonic, word?_label, label?_text]
    | _ => cases hl
  · have hspace : ' ' ∉ (l.text ++ ":").toList := by simpa using l.not_mem_text rfl
    rw [htext, ofText?_word hspace]
    simp [label?_text]
  · have hcolon : i.mnemonic.toList.getLast? ≠ some ':' := fun hlast =>
      i.not_mem_mnemonic rfl (List.mem_of_getLast? hlast)
    rw [htext, ofText?_word hmnemonic, if_neg hcolon, hplain]

theorem text_ne_empty (i : Instruction) : i.text ≠ "" := by
  intro hempty
  have hread := i.ofText?_text
  rw [hempty] at hread
  cases hread

end Instruction

/-! ## Programs -/

namespace Reader

/-- The lines of a text. The last one need not end with a line break. -/
def lines (s : String) : List String :=
  let pieces := s.toList.splitOn '\n'
  (if pieces.getLast? = some [] then pieces.dropLast else pieces).map String.ofList

theorem splitOn_join {ls : List String} (hls : ∀ l ∈ ls, '\n' ∉ l.toList) :
    (String.join (ls.map (· ++ "\n"))).toList.splitOn '\n' = ls.map String.toList ++ [[]] := by
  induction ls with
  | nil => rfl
  | cons l ls ih =>
    obtain ⟨hl, hls⟩ := List.forall_mem_cons.1 hls
    have hcons : (String.join ((l :: ls).map (· ++ "\n"))).toList =
        l.toList ++ '\n' :: (String.join (ls.map (· ++ "\n"))).toList := by
      simp [String.join_cons]
    rw [hcons, List.splitOn_append_cons_self_of_not_mem hl, ih hls, List.map_cons, List.cons_append]

theorem lines_join {ls : List String} (hls : ∀ l ∈ ls, '\n' ∉ l.toList) :
    lines (String.join (ls.map (· ++ "\n"))) = ls := by
  -- what is left after the last line break is empty, so it is no line
  simp only [lines, splitOn_join hls, List.getLast?_concat, List.dropLast_concat, if_true, List.map_map]
  exact List.map_id'' (fun l => String.ofList_toList) ls

end Reader

namespace Code

/-- The instructions that the lines of a text stand for. -/
def ofText? (s : String) : Option Code := (Reader.lines s).mapM Instruction.ofText?

theorem lines_text (c : Code) : Reader.lines c.text = c.map Instruction.text := by
  have hls : ∀ l ∈ c.map Instruction.text, '\n' ∉ l.toList :=
    List.forall_mem_map.2 fun i _ => i.newline_not_mem_text
  rw [← Reader.lines_join hls, List.map_map]
  rfl

/-- Reading a text gives back the code that was written. -/
theorem ofText?_text (c : Code) : ofText? c.text = some c := by
  rw [ofText?, lines_text]
  induction c with
  | nil => rfl
  | cons i c ih => simp [Instruction.ofText?_text, ih]

theorem text_injective : Function.Injective text := by
  intro c d htext
  have hread := ofText?_text c
  rw [htext, ofText?_text d] at hread
  exact (Option.some.inj hread).symm

theorem text_append (c d : Code) : text (c ++ d) = c.text ++ d.text := by
  rw [text, List.map_append, String.join_append]
  rfl

theorem text_flatten (cs : List Code) : text cs.flatten = String.join (cs.map text) := by
  induction cs with
  | nil => rfl
  | cons c cs ih => rw [List.flatten_cons, text_append, ih, List.map_cons, String.join_cons]

end Code

namespace Assembly

theorem text_eq (a : Assembly) : a.text = a.instructions.text := by
  rw [instructions, Code.text_append, Code.text_flatten, text]

theorem length_eq (a : Assembly) : a.length = a.instructions.length := by
  rw [instructions, List.length_append, length]
  generalize a.main.length = n
  induction a.functions generalizing n with
  | nil => rfl
  | cons c cs ih => rw [List.foldl_cons, ih, List.flatten_cons, List.length_append, Nat.add_assoc]

/-- The text determines the instructions. The text of an assembly has one line for each of them, none is
empty, and no trace is left of where one block ends and the next begins. -/
theorem text_determines_instructions :
    (∀ c d : Code, c.text = d.text → c = d) ∧
      ∀ a : Assembly, (Reader.lines a.text).length = a.length ∧ "" ∉ Reader.lines a.text ∧
        a.text = a.instructions.text := by
  refine ⟨fun c d htext => Code.text_injective htext, fun a => ?_⟩
  rw [text_eq, Code.lines_text, length_eq, List.length_map]
  refine ⟨rfl, fun hmem => ?_, rfl⟩
  obtain ⟨i, -, hempty⟩ := List.mem_map.1 hmem
  exact i.text_ne_empty hempty

/-- Numbers, labels of both kinds, references and definitions that share their digits, and a block without
instructions. -/
def sevens : Assembly where
  main := [.push (.ofInt (-7)), .push (.ofInt 7), .pushLabel (.branch 7), .pushLabel (.function 7),
    .branch (.branch 7), .define (.branch 7), .halt]
  functions := [[.define (.function 7), .copyFp], [], [.branchEqual (.function 7)]]

theorem sevens_read_one_way :
    sevens.text =
      "push -7\npush 7\npush label7\npush function7\nb label7\nlabel7:\nhalt\nfunction7:\ncfp\nbeq function7\n" ∧
      (Reader.lines sevens.text).length = 10 ∧ "" ∉ Reader.lines sevens.text ∧
      ∃! c : Code, c.text = sevens.text := by
  obtain ⟨hinjective, hassembly⟩ := text_determines_instructions
  obtain ⟨hlength, hempty, htext⟩ := hassembly sevens
  exact ⟨by decide, hlength, hempty, sevens.instructions, htext.symm,
    fun c hc => hinjective c _ (hc.trans htext)⟩

end Assembly

end Classlet

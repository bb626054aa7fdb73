import Abacus.Proofs.Interpreter.History
import Abacus.Proofs.Number.Bits
import Abacus.Proofs.Number.ReadBack
import Abacus.Proofs.Token.Reading

/-!
# Results read back

The text of a value is a source of that value, unless the value is a number that is not finite.

* `Value.exists_parses`: the tree of the text, whatever gap stands behind it, evaluates to the value;
* `Interpreter.interpret_display`: every printed result is interpreted as itself.
-/

namespace Abacus

/-! ## Values -/

/-- A tree without operators between operands fits everywhere. -/
theorem Reader.Fits.of_small {e : Tree} (derives : Derives .unary e) (nesting : e.nesting ≤ 2)
    (numbers : e.numbers.length ≤ 1) : Reader.Fits .equality Compilation.maxNesting Chunk.empty.room e where
  derives := derives.of_rank_le (Level.rank_le_unary _)
  nesting := Nat.le_trans nesting (by decide)
  numbers := Nat.le_trans numbers (by decide)

/-- The number that a numeral's token writes. -/
theorem Span.constant_read {b : Nat} (finite : b < Binary64.infinity) (offset : Nat) (line : Line) :
    (Span.read .number offset line [] (Layout.displayMagnitude b)).token.constant = .number (Binary64.ofMagnitude b) := by
  obtain ⟨d, reads, same⟩ := Layout.read_displayMagnitude finite
  have numeral : (Span.read .number offset line [] (Layout.displayMagnitude b)).token.numeral = d := by
    simp only [Token.numeral, Span.read, Kind.carried, String.toList_ofList, reads, Option.getD_some]
  rw [Token.constant, numeral, Decimal.toFloat, same]

namespace Value

/-- A value that is not an infinity or `NaN`. -/
def IsFinite : Value → Prop
  | number x => Binary64.magnitude x < Binary64.infinity
  | _ => True

instance : DecidablePred IsFinite
  | number x => inferInstanceAs (Decidable (Binary64.magnitude x < Binary64.infinity))
  | nil | bool _ => inferInstanceAs (Decidable True)

theorem display_of_not_finite {v : Value} (h : ¬ v.IsFinite) : v.display ∈ ["inf", "-inf", "NaN"] := by
  cases v with
  | nil | bool _ => exact absurd trivial h
  | number x => exact Layout.display_of_not_finite h

section Texts

variable {gap : List Char} (isGap : IsGap [] gap)
include isGap

theorem exists_parses_literal (l : Literal) :
    ∃ e t, Parses (String.ofList (l.value.display.toList ++ gap)) .empty e t ∧ e.eval 0 = .ok l.value := by
  have mem : (String.ofList l.value.display.toList, l.kind) ∈ Kind.keywords := by cases l <;> decide
  have reads := Reads.single 0 1 ((isWord_of_mem_keywords mem).isBare gap) (.keyword_gap isGap mem) isGap
  exact ⟨.literal l _, _, ⟨reads.tokens_ofList, rfl, .of_small (.literal rfl) (Nat.le_succ 1) (Nat.zero_le 1)⟩, rfl⟩

theorem exists_parses_number {x : Float} (finite : Binary64.magnitude x < Binary64.infinity) :
    ∃ e t, Parses (String.ofList (Layout.display x ++ gap)) .empty e t ∧ e.eval 0 = .ok (.number x) := by
  have isNumeral := Layout.isNumeral_displayMagnitude (Binary64.magnitude x)
  have single (offset : Nat) := Reads.single offset 1 (isNumeral.isBare gap) (.number_gap isGap isNumeral) isGap
  have constant (offset : Nat) := Span.constant_read finite offset 1
  have whole := Binary64.signed_magnitude finite
  rw [Layout.display_of_finite finite]
  cases negative : Binary64.isNegative x with
  | false =>
    rw [negative, Binary64.signed, if_neg Bool.false_ne_true] at whole
    refine ⟨.number _, _, ⟨(single 0).tokens_ofList, rfl, .of_small (.number rfl) (Nat.le_succ 1) (Nat.le_refl 1)⟩, ?_⟩
    rw [Tree.eval, constant, whole]
    rfl
  | true =>
    rw [negative, Binary64.signed, if_pos rfl] at whole
    refine ⟨.unary .negate _ (.number _), _, ⟨(single 1).minus.tokens_ofList, rfl,
      .of_small (.unary rfl (.number rfl)) (Nat.le_refl 2) (Nat.le_refl 1)⟩, ?_⟩
    rw [Tree.eval, Tree.eval, constant]
    show Except.ok (Value.number (-Binary64.ofMagnitude (Binary64.magnitude x))) = _
    rw [whole]

/-- **The text of a finite value** is a source of that value, whatever gap stands behind it. -/
theorem exists_parses {v : Value} (finite : v.IsFinite) :
    ∃ e t, Parses (String.ofList (v.display.toList ++ gap)) .empty e t ∧ e.eval 0 = .ok v := by
  cases v with
  | nil => exact exists_parses_literal isGap .nil
  | bool b =>
    cases b with
    | false => exact exists_parses_literal isGap .false
    | true => exact exists_parses_literal isGap .true
  | number x =>
    rw [display, String.toList_ofList]
    exact exists_parses_number isGap finite

end Texts

end Value

/-! ## Interpretations -/

namespace Interpreter

/-- Interpreting a source that evaluates to a value writes that value. -/
theorem interpret_of_eval (i : Interpreter) {source : String} {e : Tree} {t : Token} {v : Value}
    (parses : Parses source .empty e t) (value : e.eval 0 = .ok v) :
    (i.interpret source).outcome = .ok ∧ (i.interpret source).out = (i.out.writeLine v.display).1 ∧
      (i.interpret source).err = "" ∧ (i.run (compile source .empty).chunk).result = .ok v := by
  obtain ⟨contains, ending⟩ := parses.contains
  have result : (i.run (compile source .empty).chunk).result = .ok v :=
    (Chunk.run_eval contains ending i.stack i.options.trace).1.trans value
  have compiles : (compile source .empty).diagnostics = [] := by rw [parses.compile_eq]
  simp only [interpret, compiles, result]
  exact ⟨trivial, trivial, trivial, trivial⟩

/-- What a successful interpretation writes is the text of a value. -/
theorem exists_display_of_ok (i : Interpreter) {source : String} (h : (i.interpret source).outcome = .ok) :
    ∃ v : Value, (i.interpret source).out = (i.out.writeLine v.display).1 := by
  obtain ⟨outcome, out, -⟩ := i.interpret_verdict source
  rw [outcome] at h
  suffices ∃ v : Value, (verdict source).out = some v.display by
    obtain ⟨v, written⟩ := this
    exact ⟨v, by rw [out, written]; rfl⟩
  unfold verdict at h ⊢
  split at h
  · split at h
    · exact ⟨_, rfl⟩
    · cases h
  · cases h

/-- A text that every interpreter takes and writes again. -/
def Repeats (text : String) : Prop :=
  ∀ i : Interpreter, (i.interpret text).outcome = .ok ∧ (i.out = .working → (i.interpret text).out = text)

theorem repeats_display {v : Value} (finite : v.IsFinite) : Repeats (v.display ++ "\n") := by
  intro i
  have lineFeed : IsGap [] ['\n'] := .blank (by decide) .nil
  obtain ⟨e, t, parses, value⟩ := Value.exists_parses lineFeed finite
  have source : String.ofList (v.display.toList ++ ['\n']) = v.display ++ "\n" := by
    rw [String.ofList_append, String.ofList_toList]
  rw [source] at parses
  obtain ⟨outcome, out, -⟩ := i.interpret_of_eval parses value
  refine ⟨outcome, fun works => ?_⟩
  rw [out, works]
  rfl

/-- The text of a number that is not finite is no source. -/
theorem not_compiles_of_special : ∀ text ∈ ["inf", "-inf", "NaN"],
    (compile text .empty).diagnostics ≠ [] ∧ (compile (text ++ "\n") .empty).diagnostics ≠ [] := by
  have table : ∀ text ∈ ["inf", "-inf", "NaN"], (compile text .empty).diagnostics.isEmpty = false ∧
      (compile (text ++ "\n") .empty).diagnostics.isEmpty = false := by decide +kernel
  intro text special
  simpa using table text special

/-- **Printed results read back.**  The text of a finite value is interpreted as that value, bit for bit.  A line that was
written as a result is written again for itself, unless it is that of an infinity or of `NaN`, whose texts are no sources. -/
theorem interpret_display :
    (∀ (v : Value) (i : Interpreter), v.IsFinite →
      (i.interpret v.display).outcome = .ok ∧ (i.interpret v.display).out = (i.out.writeLine v.display).1 ∧
        (i.interpret v.display).err = "" ∧ (i.run (compile v.display .empty).chunk).result = .ok v) ∧
    (∀ (source : String) (i : Interpreter), (i.interpret source).outcome = .ok → i.out = .working →
      (i.interpret source).out ∈ ["inf\n", "-inf\n", "NaN\n"] ∨ Repeats (i.interpret source).out) ∧
    ∀ text ∈ ["inf", "-inf", "NaN"], ∀ i : Interpreter,
      (i.interpret text).outcome = .compileError ∧ (i.interpret (text ++ "\n")).outcome = .compileError := by
  refine ⟨fun v i finite => ?_, fun source i succeeds works => ?_, fun text special i => ?_⟩
  · obtain ⟨e, t, parses, value⟩ := Value.exists_parses .nil finite
    rw [List.append_nil, String.ofList_toList] at parses
    exact i.interpret_of_eval parses value
  · obtain ⟨v, out⟩ := i.exists_display_of_ok succeeds
    have line : (i.interpret source).out = v.display ++ "\n" := by
      rw [out, works]
      rfl
    rw [line]
    by_cases finite : v.IsFinite
    · exact .inr (repeats_display finite)
    · left
      have special := Value.display_of_not_finite finite
      have lines : ["inf\n", "-inf\n", "NaN\n"] = ["inf", "-inf", "NaN"].map (· ++ "\n") := by decide
      rw [lines]
      exact List.mem_map.mpr ⟨_, special, rfl⟩
  · obtain ⟨bare, line⟩ := not_compiles_of_special text special
    exact ⟨(i.outcome_eq_compileError_iff _).mpr bare, (i.outcome_eq_compileError_iff _).mpr line⟩

/-- Negative zero, printed and read back with its sign. -/
theorem interpret_display_negative_zero :
    (Value.number (Float.ofBits 0x8000000000000000)).IsFinite ∧
      (Value.number (Float.ofBits 0x8000000000000000)).display = "-0" ∧
      ∀ i : Interpreter,
        (i.run (compile "-0" .empty).chunk).result = .ok (.number (Float.ofBits 0x8000000000000000)) := by
  have finite : (Value.number (Float.ofBits 0x8000000000000000)).IsFinite := by decide +kernel
  have text : (Value.number (Float.ofBits 0x8000000000000000)).display = "-0" := by decide +kernel
  exact ⟨finite, text, fun i => text ▸ (interpret_display.1 _ i finite).2.2.2⟩

end Interpreter

end Abacus

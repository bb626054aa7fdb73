import Abacus.Proofs.Compiler.Building
import Abacus.Proofs.Compiler.Diagnosis
import Abacus.Proofs.Number.Display
import Abacus.Proofs.Token.Reading

/-!
# The numbers of a source

A compilation reads numbers off number tokens only, and the texts of these are numerals.  So it never meets a text that
it cannot read: what it would do about one is out of reach, also behind a reported problem, where nothing would show it.
What it adds to the constants are numbers of the source, which have no sign and are not `NaN`.

* `Compilation.Move.draws`, `Compilation.Move.adds`: the number tokens at hand and the constants added, move by move;
* `compileWith_eq`: what is done about a text that is no number does not matter;
* `mem_diagnostics`: what is reported, none of it about the text of a number;
* `compile_adds_plain_numbers`: the numbers of a source, in its tokens, its reports and its constants.
-/

namespace Abacus

namespace Compilation

variable {s t : Compilation} {ts : List Token}

/-! ## Number tokens at hand -/

/-- All number tokens at hand, taken last or still to come, are among `ts`. -/
def Draws (ts : List Token) (s : Compilation) : Prop :=
  ∀ t ∈ s.previous :: s.current :: s.rest, t.kind = .number → t ∈ ts

theorem draws_start (ts : List Token) (c : Chunk) : (start ts c).Draws ts := by
  intro t mem number
  rcases List.mem_cons.mp mem with rfl | mem
  · cases number
  · rcases List.mem_cons.mp mem with rfl | mem
    · cases number
    · exact mem

/-- Taking a token brings none to hand that was not there. -/
theorem Draws.advance (h : s.Draws ts) : s.advance.Draws ts := by
  have there : ∀ t ∈ s.advance.current :: s.advance.rest, t ∈ s.current :: s.rest := by
    intro t mem
    rcases fetch_cases s.current s.diagnostic s.rest with found | ⟨same, none⟩
    · exact List.mem_cons_of_mem _ (found.mem mem)
    · have again : s.advance.current :: s.advance.rest = [s.current] := by simp [Compilation.advance, same, none]
      rw [again] at mem
      rw [List.mem_singleton.mp mem]
      exact List.mem_cons_self
  intro t mem
  refine h t (List.mem_cons_of_mem _ ?_)
  rcases List.mem_cons.mp mem with rfl | mem
  · exact List.mem_cons_self
  · exact there t mem

theorem Draws.emitNumber (h : s.Draws ts) : s.emitNumber.Draws ts := by
  unfold Compilation.emitNumber emitConstant
  repeat' split
  all_goals exact h

theorem Move.draws (h : Move s t) (draws : s.Draws ts) : t.Draws ts := by
  cases h with
  | advance => exact draws.advance
  | report d => exact draws
  | emit o ne => exact draws
  | emitNumber => exact draws.emitNumber

theorem Moves.draws (h : Moves s t) (draws : s.Draws ts) : t.Draws ts :=
  h.keeps Move.draws draws

/-! ## Constants -/

/-- A compilation that has added nothing to `constants` but the numbers of number tokens among `ts`. -/
def Adds (ts : List Token) (constants : Array Value) (s : Compilation) : Prop :=
  ∃ added : List Value, s.chunk.constants = constants ++ added.toArray ∧
    ∀ v ∈ added, ∃ t ∈ ts, t.kind = .number ∧ v = t.constant

variable {constants : Array Value}

theorem Adds.emitConstant (h : s.Adds ts constants) {t : Token} (mem : t ∈ ts) (number : t.kind = .number) :
    (s.emitConstant t.constant).Adds ts constants := by
  unfold Compilation.emitConstant
  split
  · next index chunk written =>
    obtain ⟨added, before, numbers⟩ := h
    obtain ⟨-, rfl, -⟩ := Chunk.addConstant_eq_ok written
    refine ⟨added ++ [t.constant], by simp [emitByte, Chunk.write, Chunk.extend, before], ?_⟩
    exact List.forall_mem_append.mpr ⟨numbers, List.forall_mem_singleton.mpr ⟨t, mem, number, rfl⟩⟩
  · exact h

/-- **Every move adds numbers at hand only**, also those after a problem was reported. -/
theorem Move.adds (h : Move s t) (draws : s.Draws ts) (adds : s.Adds ts constants) : t.Adds ts constants := by
  cases h with
  | advance => exact adds
  | report d => exact adds
  | emit o ne => exact adds
  | emitNumber isNumber =>
    unfold Compilation.emitNumber
    split
    · next d read =>
      have same : Value.number d.toFloat = s.previous.constant := by rw [Token.constant, Token.numeral, read]; rfl
      rw [same]
      exact adds.emitConstant (draws _ List.mem_cons_self isNumber) isNumber
    · exact adds

theorem adds_ofTokens (ts : List Token) (c : Chunk) : (ofTokens ts c).Adds ts c.constants := by
  have begun : (start ts c).Adds ts c.constants := ⟨[], by simp [start], nofun⟩
  have ends : (ofTokens ts c).Draws ts ∧ (ofTokens ts c).Adds ts c.constants :=
    ofTokens_keeps (P := fun s => s.Draws ts ∧ s.Adds ts c.constants)
      (fun move kept => ⟨move.draws kept.1, move.adds kept.1 kept.2⟩) id ⟨draws_start ts c, begun⟩
  exact ends.2

/-! ## Texts that are no numerals -/

/-- Reads an expression as `expression` does, with a treatment of its own for number tokens. -/
def expressionWith (number : Compilation → Compilation) (bound : Nat) : Nat → Level → Compilation → Compilation
  | 0, _, s => s.complain .nestsTooDeeply
  | left + 1, level, s =>
    let s := s.advance
    match s.previous.kind.operandStart? with
    | none => s.complain .expectExpression
    | some start =>
      let operand :=
        match start with
        | .number => number s
        | .literal o => s.emit o
        | .group => (expressionWith number bound left .equality s).expect .rightParen .expectParen
        | .unary op => (expressionWith number bound left .unary s).emit op.operation
      operators (expressionWith number bound left) level bound operand

/-- Reads a source of one expression as `ofTokens` does, with a treatment of its own for number tokens. -/
def ofTokensWith (number : Compilation → Compilation) (source : List Token) (c : Chunk) : Compilation :=
  let s := (start source c).advance
  ((expressionWith number source.length maxNesting .equality s).expect .eof .expectEnd).emit .return

theorem Draws.emitAll (h : s.Draws ts) (os : List Operation) : (s.emitAll os).Draws ts := by
  induction os generalizing s with
  | nil => exact h
  | cons o os ih => exact ih (s := s.emit o) h

theorem Draws.expect (h : s.Draws ts) (kind : Kind) (c : Complaint) : (s.expect kind c).Draws ts :=
  Moves.draws (Moves.expect .refl kind c) h

theorem draws_expression (bound left : Nat) (level : Level) (h : s.Draws ts) : (expression bound left level s).Draws ts :=
  Moves.draws (moves_expression bound left level s) h

/-- Operators go on alike behind operands that are read alike. -/
theorem operators_congr {operand operand' : Level → Compilation → Compilation}
    (same : ∀ level s, s.Draws ts → operand' level s = operand level s)
    (draws : ∀ level s, s.Draws ts → (operand level s).Draws ts) (level : Level) (bound : Nat) (h : s.Draws ts) :
    operators operand' level bound s = operators operand level bound s := by
  induction bound generalizing s with
  | zero => rfl
  | succ bound ih =>
    simp only [operators]
    split
    · next op _ =>
      split
      · rw [same _ _ h.advance]
        exact ih ((draws _ _ h.advance).emitAll op.operations)
      · rfl
    · rfl

section With

variable {number : Compilation → Compilation}
  (agrees : ∀ s d, Decimal.ofNumeral? s.previous.text.toList = some d → number s = s.emitConstant (.number d.toFloat))
include agrees

theorem eq_emitNumber_of_isNumeral (h : Decimal.IsNumeral s.previous.text.toList) : number s = s.emitNumber := by
  obtain ⟨d, read⟩ := Decimal.exists_ofNumeral? h
  rw [agrees s d read]
  simp only [emitNumber, read]

variable (numerals : ∀ t ∈ ts, t.kind = .number → Decimal.IsNumeral t.text.toList)
include numerals

/-- **Reading an expression depends on what is done about numerals only**, in every state that draws on numerals. -/
theorem expressionWith_eq (bound left : Nat) (level : Level) (h : s.Draws ts) :
    expressionWith number bound left level s = expression bound left level s := by
  -- on the nesting that is left; what was read before an operator keeps the tokens at hand, so its operand is read alike
  induction left generalizing level s with
  | zero => rfl
  | succ left ih =>
    have taken := h.advance
    have reads : ∀ level s, s.Draws ts → expressionWith number bound left level s = expression bound left level s :=
      fun level s => ih level
    have draws : ∀ level s, s.Draws ts → (expression bound left level s).Draws ts :=
      fun level s => draws_expression bound left level
    cases found : s.advance.previous.kind.operandStart? with
    | none => simp only [expressionWith, expression, found]
    | some start =>
      simp only [expressionWith, expression, found]
      cases start with
      | number =>
        have kind := eq_number_of_operandStart? found
        have text := numerals _ (taken _ List.mem_cons_self kind) kind
        rw [eq_emitNumber_of_isNumeral agrees text]
        exact operators_congr reads draws level bound taken.emitNumber
      | literal o => exact operators_congr reads draws level bound (taken.emitAll [o])
      | group =>
        rw [reads .equality _ taken]
        exact operators_congr reads draws level bound ((draws .equality _ taken).expect _ _)
      | unary op =>
        rw [reads .unary _ taken]
        exact operators_congr reads draws level bound ((draws .unary _ taken).emitAll [op.operation])

end With

end Compilation

/-- Compiles a source as `compile` does, with a treatment of its own for number tokens. -/
def compileWith (number : Compilation → Compilation) (source : String) (c : Chunk) : Compiled :=
  let s := Compilation.ofTokensWith number (tokens source) c
  ⟨s.chunk, s.diagnostic.toList⟩

/-- **What is done about a text that is no number does not matter**, as no compilation comes to it. -/
theorem compileWith_eq {number : Compilation → Compilation}
    (agrees : ∀ s d, Decimal.ofNumeral? s.previous.text.toList = some d → number s = s.emitConstant (.number d.toFloat))
    (source : String) (c : Chunk) : compileWith number source c = compile source c := by
  have begun := (Compilation.draws_start (tokens source) c).advance
  have read := Compilation.expressionWith_eq agrees (isNumeral_of_mem_tokens source) (tokens source).length
    Compilation.maxNesting .equality begun
  simp only [compileWith, compile, Compilation.ofTokensWith, Compilation.ofTokens, read]

/-! ## Reports -/

/-- A reading that does not get stuck at the text of a number. -/
def Reading.TakesNumbers : Reading → Prop
  | tree _ _ => True
  | stuck complaint _ => complaint ≠ .invalidNumber

theorem Reading.TakesNumbers.bind {r : Reading} {k : Tree → List Token → Reading} (h : r.TakesNumbers)
    (hk : ∀ e rest, (k e rest).TakesNumbers) : (r.bind k).TakesNumbers := by
  cases r with
  | tree e rest => exact hk e rest
  | stuck complaint rest => exact h

namespace Reader

theorem takesNumbers_closing (opening : Token) (e : Tree) (ts : List Token) : (closing opening e ts).TakesNumbers := by
  unfold closing
  split
  · nofun
  · split
    · trivial
    · nofun

theorem takesNumbers_ending (e : Tree) (ts : List Token) : (ending e ts).TakesNumbers := by
  unfold ending
  split
  · nofun
  · split
    · trivial
    · nofun

section Inner

variable {inner : Level → Nat → Token → List Token → Reading}
  (hi : ∀ level room before ts, (inner level room before ts).TakesNumbers)
include hi

theorem takesNumbers_operand (room : Nat) (t : Token) (ts : List Token) : (operand inner room t ts).TakesNumbers := by
  rcases t.kind.start_cases with ht | ⟨l, ht⟩ | ht | ⟨op, ht⟩ | ht
  · rw [operand_number _ _ _ ht]
    split
    · trivial
    · nofun
  · rw [operand_literal _ _ _ l ht]
    trivial
  · rw [operand_group _ _ _ ht]
    exact (hi _ _ _ _).bind (takesNumbers_closing t)
  · rw [operand_unary _ _ _ op ht]
    exact (hi _ _ _ _).bind fun _ _ => trivial
  · rw [operand_none _ _ _ ht]
    nofun

theorem takesNumbers_operators (level : Level) (room n : Nat) (e : Tree) (ts : List Token) :
    (operators inner level room n e ts).TakesNumbers := by
  induction n generalizing e ts with
  | zero => trivial
  | succ n ih =>
    cases ts with
    | nil => trivial
    | cons t ts =>
      simp only [operators]
      split
      · split
        · exact (hi _ _ _ _).bind fun _ _ => ih _ _
        · trivial
      · trivial

end Inner

theorem takesNumbers_expression (bound left : Nat) (level : Level) (room : Nat) (before : Token) (ts : List Token) :
    (expression bound left level room before ts).TakesNumbers := by
  induction left generalizing level room before ts with
  | zero => nofun
  | succ left ih =>
    cases ts with
    | nil => nofun
    | cons t ts => exact (takesNumbers_operand ih room t ts).bind (takesNumbers_operators ih level room bound)

/-- **No reader gets stuck at the text of a number.** -/
theorem takesNumbers_source (room : Nat) (ts : List Token) : (source room ts).TakesNumbers :=
  (takesNumbers_expression _ _ _ _ _ _).bind takesNumbers_ending

end Reader

/-- What is reported: an error token, or a complaint that is not about the text of a number. -/
theorem mem_diagnostics {source : String} {c : Chunk} {d : Diagnostic} (h : d ∈ (compile source c).diagnostics) :
    (∃ t ∈ tokens source, t.kind.isError = true ∧ d = .atToken t t.text) ∨
      ∃ t complaint, complaint ≠ .invalidNumber ∧ d = .atToken t (Complaint.message complaint) := by
  have takes := Reader.takesNumbers_source c.room (tokens source)
  cases hr : Reader.source c.room (tokens source) with
  | tree e rest =>
    obtain ⟨t, -, -, ends⟩ := Compilation.ofTokens_of_tree (isStream_tokens source) hr
    simp [compile, ends] at h
  | stuck complaint rest =>
    rw [hr] at takes
    rw [compile_diagnostics_of_stuck hr, List.mem_singleton] at h
    subst h
    obtain ⟨us, htok, -⟩ := Reader.source_stuck_viable hr
    cases rest with
    | nil => exact .inr ⟨_, complaint, takes, rfl⟩
    | cons t ts =>
      rw [htok]
      rcases complaint.report_cases t ts with ⟨ht, hd⟩ | ⟨-, u, vs, rfl, hu, hd⟩ | ⟨-, hd⟩
      · exact .inl ⟨t, by simp, ht, hd⟩
      · exact .inl ⟨u, by simp, hu, hd⟩
      · exact .inr ⟨t, complaint, takes, hd⟩

theorem message_ne_of_mem_diagnostics {source : String} {c : Chunk} :
    ∀ d ∈ (compile source c).diagnostics, d.message ≠ Complaint.message .invalidNumber := by
  intro d mem
  rcases mem_diagnostics mem with ⟨t, ht, error, rfl⟩ | ⟨t, complaint, ne, rfl⟩
  · obtain ⟨cause, text⟩ := exists_message_of_mem_tokens source t ht error
    show t.text ≠ _
    rw [text]
    cases cause <;> decide
  · show complaint.message ≠ _
    cases complaint with
    | invalidNumber => exact absurd rfl ne
    | _ => decide

/-! ## Compilations -/

/-- **Every number of a source is read, and compiled numbers are plain.**  The text of a number token is digits, or digits
on both sides of a point, and can be read.  What would be done about any other text does not matter, and no message says
that one was met.  What is added to the constants of a chunk, whether or not the source is accepted, are the numbers of
number tokens, none of them `NaN` and all with a clear sign bit. -/
theorem compile_adds_plain_numbers (source : String) (c : Chunk) :
    (∀ t ∈ tokens source, t.kind = .number → Decimal.IsNumeral t.text.toList ∧
      Decimal.ofNumeral? t.text.toList = some t.numeral) ∧
    (∀ number : Compilation → Compilation,
      (∀ s d, Decimal.ofNumeral? s.previous.text.toList = some d → number s = s.emitConstant (.number d.toFloat)) →
      compileWith number source c = compile source c) ∧
    (∀ d ∈ (compile source c).diagnostics, d.message ≠ "Invalid number literal.") ∧
    ∃ added : List Value, (compile source c).chunk.constants = c.constants ++ added.toArray ∧
      ∀ v ∈ added, (∃ t ∈ tokens source, t.kind = .number ∧ v = .number t.numeral.toFloat) ∧
        ∃ x : Float, v = .number x ∧ x.isNaN = false ∧ Binary64.isNegative x = false := by
  refine ⟨fun t mem number => ?_, fun number agrees => compileWith_eq agrees source c,
    message_ne_of_mem_diagnostics, ?_⟩
  · exact ⟨isNumeral_of_mem_tokens source t mem number, (isStream_tokens source).isSpelled_of_mem t mem number⟩
  · obtain ⟨added, written, numbers⟩ := Compilation.adds_ofTokens (tokens source) c
    refine ⟨added, written, fun v mem => ?_⟩
    obtain ⟨t, ht, number, rfl⟩ := numbers v mem
    exact ⟨⟨t, ht, number, rfl⟩, _, rfl, t.numeral.isNaN_toFloat, t.numeral.isNegative_toFloat⟩

/-- A number behind a missing operand, which is added in silence, and a treatment that passes over other texts. -/
theorem compile_adds_plain_numbers_silent :
    (compile "- ) + 2.50" .empty).diagnostics.map Diagnostic.message = ["Expect expression."] ∧
      (∃ x : Float, (compile "- ) + 2.50" .empty).chunk.constants = #[.number x] ∧ x.isNaN = false ∧
        Binary64.isNegative x = false) ∧
      compileWith (fun s => (Decimal.ofNumeral? s.previous.text.toList).elim s fun d => s.emitConstant (.number d.toFloat))
        "- ) + 2.50" .empty = compile "- ) + 2.50" .empty := by
  obtain ⟨-, treatments, -, added, written, plain⟩ := compile_adds_plain_numbers "- ) + 2.50" .empty
  have one : (compile "- ) + 2.50" .empty).chunk.constants.size = 1 := by decide +kernel
  refine ⟨by decide +kernel, ?_, treatments _ fun s d read => by rw [read, Option.elim_some]⟩
  rw [written] at one ⊢
  obtain ⟨v, rfl⟩ : ∃ v, added = [v] := List.length_eq_one_iff.mp (by simpa [Chunk.empty] using one)
  obtain ⟨-, x, rfl, number, sign⟩ := plain v List.mem_cons_self
  exact ⟨x, rfl, number, sign⟩

end Abacus

import Abacus.Compiler
import Mathlib.Logic.Relation

/-!
# Moves of a compilation

Whatever the source, a compilation makes four kinds of moves only: it takes a token, reports a problem, writes an
operation that is not the return operation, or writes a number.  This holds of sources that are no expressions as well,
so what every move keeps, every compilation keeps up to its last byte.

* `Compilation.moves_expression`: reading an expression is a sequence of moves;
* `Compilation.exists_moves`: a compilation is a sequence of moves and the return operation;
* `Compilation.ofTokens_keeps`: what every move keeps, a compilation keeps.
-/

namespace Abacus.Compilation

/-- A move of a compilation. -/
inductive Move : Compilation → Compilation → Prop
  | advance (s : Compilation) : Move s s.advance
  | report (s : Compilation) (d : Diagnostic) : Move s (s.report d)
  | emit (s : Compilation) (o : Operation) (ne : o ≠ .return) : Move s (s.emit o)
  | emitNumber (s : Compilation) (isNumber : s.previous.kind = .number) : Move s s.emitNumber

/-- Some moves lead from one compilation to the other. -/
def Moves : Compilation → Compilation → Prop :=
  Relation.ReflTransGen Move

variable {s t u : Compilation}

/-! ## Composed moves -/

theorem Moves.trans (h : Moves s t) (h' : Moves t u) : Moves s u :=
  Relation.ReflTransGen.trans h h'

/-- What every move keeps, some moves keep. -/
theorem Moves.keeps {P : Compilation → Prop} (h : Moves s t) (step : ∀ {s t}, Move s t → P s → P t) (hs : P s) : P t := by
  induction h with
  | refl => exact hs
  | tail _ move ih => exact step move ih

theorem Moves.report (h : Moves s t) (d : Diagnostic) : Moves s (t.report d) :=
  h.tail (.report t d)

theorem Moves.expect (h : Moves s t) (kind : Kind) (c : Complaint) : Moves s (t.expect kind c) := by
  unfold Compilation.expect
  split
  · exact h.tail (.advance t)
  · exact h.report _

theorem Moves.emitAll (h : Moves s t) {os : List Operation} (ne : ∀ o ∈ os, o ≠ .return) :
    Moves s (t.emitAll os) := by
  induction os generalizing t with
  | nil => exact h
  | cons o os ih =>
    obtain ⟨first, rest⟩ := List.forall_mem_cons.mp ne
    exact ih (h.tail (.emit t o first)) rest

/-! ## Tokens in front -/

/-- The next token is one of those in front, or there are none and it is the one before. -/
theorem fetch_cases (last : Token) (d : Option Diagnostic) (ts : List Token) :
    ((fetch last d ts).1 :: (fetch last d ts).2.1).Sublist ts ∨
      (fetch last d ts).1 = last ∧ (fetch last d ts).2.1 = [] := by
  induction ts generalizing d with
  | nil => exact .inr ⟨rfl, rfl⟩
  | cons t ts ih =>
    simp only [fetch]
    split
    · rcases ih (d.or (some (.atToken t t.text))) with found | none
      · exact .inl (found.cons t)
      · exact .inr none
    · exact .inl (List.Sublist.refl _)

/-! ## What tokens call for -/

theorem eq_number_of_operandStart? {k : Kind} (h : k.operandStart? = some .number) : k = .number := by
  unfold Kind.operandStart? at h
  split at h <;> first | rfl | cases h

/-- No literal is the return operation. -/
theorem ne_return_of_operandStart? {k : Kind} {o : Operation} (h : k.operandStart? = some (.literal o)) :
    o ≠ .return := by
  unfold Kind.operandStart? at h
  split at h <;> cases h <;> decide

theorem ne_return_of_unary (op : UnaryOp) : op.operation ≠ .return := by
  cases op <;> decide

theorem ne_return_of_binary (op : BinaryOp) : ∀ o ∈ op.operations, o ≠ .return := by
  cases op <;> decide

/-! ## Expressions -/

/-- What is left of an operand behind the token that starts it. -/
def operand (bound left : Nat) (start : OperandStart) (s : Compilation) : Compilation :=
  match start with
  | .number => s.emitNumber
  | .literal o => s.emit o
  | .group => (expression bound left .equality s).expect .rightParen .expectParen
  | .unary op => (expression bound left .unary s).emit op.operation

theorem expression_of_start {start : OperandStart} (found : s.current.kind.operandStart? = some start)
    (bound left : Nat) (level : Level) : expression bound (left + 1) level s =
      operators (expression bound left) level bound (operand bound left start s.advance) := by
  have found' : s.advance.previous.kind.operandStart? = some start := found
  simp only [expression, found']
  rfl

theorem expression_of_stray (none : s.current.kind.operandStart? = none) (bound left : Nat) (level : Level) :
    expression bound (left + 1) level s = s.advance.complain .expectExpression := by
  have none' : s.advance.previous.kind.operandStart? = Option.none := none
  simp only [expression, none']

/-- Operators move if their operands do. -/
theorem moves_operators {operand : Level → Compilation → Compilation} (ho : ∀ level t, Moves t (operand level t))
    (level : Level) (bound : Nat) (h : Moves s t) : Moves s (operators operand level bound t) := by
  induction bound generalizing t with
  | zero => exact h
  | succ bound ih =>
    simp only [operators]
    split
    · next op _ =>
      split
      · have taken : Moves s t.advance := h.tail (.advance t)
        exact ih ((taken.trans (ho _ _)).emitAll (ne_return_of_binary op))
      · exact h
    · exact h

/-- **Reading an expression is a sequence of moves**, at every level, as deep as it may nest, and wherever it fails. -/
theorem moves_expression (bound left : Nat) (level : Level) (s : Compilation) :
    Moves s (expression bound left level s) := by
  -- on the nesting that is left; right operands are read at other levels and in other states, hence generalised
  induction left generalizing level s with
  | zero => exact .single (.report s _)
  | succ left ih =>
    have taken : Moves s s.advance := .single (.advance s)
    simp only [expression]
    split
    · exact taken.report _
    · next start hs =>
      refine moves_operators (fun level t => ih level t) level bound ?_
      cases start with
      | number => exact taken.tail (.emitNumber _ (eq_number_of_operandStart? hs))
      | literal o => exact taken.tail (.emit _ o (ne_return_of_operandStart? hs))
      | group => exact (taken.trans (ih .equality _)).expect _ _
      | unary op => exact (taken.trans (ih .unary _)).tail (.emit _ _ (ne_return_of_unary op))

/-- **A compilation is a sequence of moves and the return operation.** -/
theorem exists_moves (source : List Token) (c : Chunk) :
    ∃ s, Moves (start source c) s ∧ ofTokens source c = s.emit .return := by
  have taken : Moves (start source c) (start source c).advance := .single (.advance _)
  exact ⟨_, (taken.trans (moves_expression source.length maxNesting .equality _)).expect .eof .expectEnd, rfl⟩

/-- **What every move and the return operation keep, a compilation keeps**, whether or not the source is accepted. -/
theorem ofTokens_keeps {P : Compilation → Prop} (step : ∀ {s t}, Move s t → P s → P t)
    (last : ∀ {s}, P s → P (s.emit .return)) {source : List Token} {c : Chunk} (h : P (start source c)) :
    P (ofTokens source c) := by
  obtain ⟨s, moves, ends⟩ := exists_moves source c
  rw [ends]
  exact last (moves.keeps step h)

end Abacus.Compilation

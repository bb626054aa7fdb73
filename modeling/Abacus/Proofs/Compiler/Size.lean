import Abacus.Proofs.Compiler.Building

/-!
# The size of compiled code

A compilation pays for what it writes with the tokens that it takes: a number, a literal or an operator has two bytes to
spend, a number one constant besides.  Error tokens and the end of the source pay for nothing, and they start no operand
and are no operator.  So the code is linear in the tokens, also of a source that is no expression, when the operands of an
operator may be missing but never the operator.

* `Compilation.Within`: what is left to spend between two states, with one lemma per move;
* `Compilation.within_expression`: reading an expression spends no more than its tokens pay for;
* `exists_extend_le`: what a compilation appends, counted.
-/

namespace Abacus

namespace Token

/-- Neither an error token nor the end of the source. -/
def isProper (t : Token) : Bool :=
  !t.kind.isError && t.kind != .eof

/-- A token of the kind of numbers. -/
def isNumber (t : Token) : Bool :=
  t.kind == .number

theorem ne_eof_of_isProper {t : Token} (h : t.isProper = true) : t.kind ≠ .eof := by
  intro eof
  rw [isProper, eof] at h
  cases h

theorem isProper_of_operandStart? {t : Token} {start : OperandStart} (h : t.kind.operandStart? = some start) :
    t.isProper = true := by
  unfold isProper
  cases hk : t.kind with
  | error cause =>
    rw [hk] at h
    cases h
  | eof =>
    rw [hk] at h
    cases h
  | _ => rfl

theorem isProper_of_binaryOp? {t : Token} {op : BinaryOp} (h : t.kind.binaryOp? = some op) : t.isProper = true := by
  rw [Kind.binaryOp?_eq_some_iff] at h
  rw [isProper, h]
  cases op <;> rfl

end Token

namespace Compilation

variable {s t u : Compilation}

/-! ## Tokens in front -/

/-- The tokens that are not taken yet. -/
def pending (s : Compilation) : List Token :=
  s.current :: s.rest

/-- The tokens after the one that is looked at end with an end token, or it is the end token itself. -/
def Supplied (s : Compilation) : Prop :=
  IsStream s.rest ∨ s.rest = [] ∧ s.current.kind = .eof

theorem Supplied.length_rest_pos (h : s.Supplied) (ne : s.current.kind ≠ .eof) : 0 < s.rest.length := by
  rcases h with stream | ⟨-, eof⟩
  · exact List.length_pos_iff.mpr stream.ne_nil
  · exact absurd eof ne

/-- Of the tokens of a stream, the first one that is no error is taken; the end token is the last. -/
theorem fetch_of_isStream {ts : List Token} (h : IsStream ts) (last : Token) (d : Option Diagnostic) :
    ∃ errors, ts = errors ++ (fetch last d ts).1 :: (fetch last d ts).2.1 ∧
      (IsStream (fetch last d ts).2.1 ∨ (fetch last d ts).2.1 = [] ∧ (fetch last d ts).1.kind = .eof) := by
  induction h generalizing d with
  | @ending t eof =>
    have found : fetch last d [t] = (t, [], d) := by
      rw [fetch, eof]
      rfl
    rw [found]
    exact ⟨[], rfl, .inr ⟨rfl, eof⟩⟩
  | @cons t ts ne spelled h ih =>
    simp only [fetch]
    split
    · obtain ⟨errors, split, supplied⟩ := ih (d.or (some (.atToken t t.text)))
      refine ⟨t :: errors, ?_, supplied⟩
      rw [List.cons_append, ← split]
    · exact ⟨[], rfl, .inl h⟩

/-- **What taking a token does to those in front**: errors and one further token go, or the end is met again. -/
theorem Supplied.advance_cases (h : s.Supplied) :
    s.advance.Supplied ∧
      ((∃ errors, s.rest = errors ++ s.advance.pending) ∨
        s.rest = [] ∧ s.current.kind = .eof ∧ s.advance.pending = [s.current]) := by
  rcases h with stream | ⟨none, eof⟩
  · obtain ⟨errors, split, supplied⟩ := fetch_of_isStream stream s.current s.diagnostic
    exact ⟨supplied, .inl ⟨errors, split⟩⟩
  · have again : s.advance.pending = [s.current] := by simp [pending, advance, none, fetch]
    obtain ⟨current, rest⟩ := List.cons.inj again
    exact ⟨.inr ⟨rest, by rw [current, eof]⟩, .inr ⟨none, eof, again⟩⟩

theorem Supplied.advance (h : s.Supplied) : s.advance.Supplied :=
  h.advance_cases.1

/-- A token that is taken is not pending any more, if it is not the end token. -/
theorem Supplied.countP_advance (h : s.Supplied) {p : Token → Bool} (none : ∀ t : Token, t.kind = .eof → p t = false) :
    s.advance.pending.countP p + [s.current].countP p ≤ s.pending.countP p := by
  rcases h.advance_cases.2 with ⟨errors, split⟩ | ⟨-, eof, again⟩
  · have whole : s.pending.countP p = [s.current].countP p + (errors.countP p + s.advance.pending.countP p) := by
      rw [show s.pending = [s.current] ++ s.rest from rfl, List.countP_append, split, List.countP_append]
    omega
  · rw [again, List.countP_singleton, none _ eof]
    exact Nat.zero_le _

/-! ## Limits -/

/-- The most bytes of code to end with: two for each proper token to come. -/
def codeLimit (s : Compilation) : Nat :=
  s.chunk.code.size + 2 * s.pending.countP Token.isProper

/-- The most constants to end with: one for each number to come. -/
def constantLimit (s : Compilation) : Nat :=
  s.chunk.constants.size + s.pending.countP Token.isNumber

/-- From `s` to `t` the limits have gone down by the given numbers of bytes and constants at least, which are left to
spend. -/
structure Within (bytes constants : Nat) (s t : Compilation) : Prop where
  supplied : t.Supplied
  code : t.codeLimit + bytes ≤ s.codeLimit
  constants : t.constantLimit + constants ≤ s.constantLimit

namespace Within

variable {bytes bytes' constants constants' : Nat}

theorem refl (h : s.Supplied) : Within 0 0 s s :=
  ⟨h, Nat.le_refl _, Nat.le_refl _⟩

theorem trans (h : Within bytes constants s t) (h' : Within bytes' constants' t u) :
    Within (bytes + bytes') (constants + constants') s u := by
  obtain ⟨-, code, consts⟩ := h
  obtain ⟨supplied, code', consts'⟩ := h'
  exact ⟨supplied, by omega, by omega⟩

theorem mono (h : Within bytes constants s t) (le : bytes' ≤ bytes) (le' : constants' ≤ constants) :
    Within bytes' constants' s t := by
  obtain ⟨supplied, code, consts⟩ := h
  exact ⟨supplied, by omega, by omega⟩

theorem report (h : Within bytes constants s t) (d : Diagnostic) : Within bytes constants s (t.report d) :=
  ⟨h.supplied, h.code, h.constants⟩

/-- Any token may be taken. -/
theorem advance (h : s.Supplied) : Within 0 0 s s.advance := by
  have proper := h.countP_advance (p := Token.isProper) fun t eof => by rw [Token.isProper, eof]; rfl
  have number := h.countP_advance (p := Token.isNumber) fun t eof => by rw [Token.isNumber, eof]; rfl
  refine ⟨h.advance, ?_, ?_⟩
  · show s.chunk.code.size + 2 * _ + 0 ≤ s.chunk.code.size + 2 * _
    omega
  · show s.chunk.constants.size + _ + 0 ≤ s.chunk.constants.size + _
    omega

/-- A proper token pays for two bytes. -/
theorem advance_proper (h : s.Supplied) (proper : s.current.isProper = true) : Within 2 0 s s.advance := by
  have fewer := h.countP_advance (p := Token.isProper) fun t eof => by rw [Token.isProper, eof]; rfl
  rw [List.countP_singleton, if_pos proper] at fewer
  refine ⟨h.advance, ?_, (advance h).constants⟩
  show s.chunk.code.size + 2 * _ + 2 ≤ s.chunk.code.size + 2 * _
  omega

/-- A number pays for a constant, too. -/
theorem advance_number (h : s.Supplied) (number : s.current.kind = .number) : Within 2 1 s s.advance := by
  have proper : s.current.isProper = true := by
    rw [Token.isProper, number]
    rfl
  have isNumber : s.current.isNumber = true := by
    rw [Token.isNumber, number]
    rfl
  have fewer := h.countP_advance (p := Token.isNumber) fun t eof => by rw [Token.isNumber, eof]; rfl
  rw [List.countP_singleton, if_pos isNumber] at fewer
  refine ⟨h.advance, (advance_proper h proper).code, ?_⟩
  show s.chunk.constants.size + _ + 1 ≤ s.chunk.constants.size + _
  omega

theorem expect (h : Within bytes constants s t) (kind : Kind) (c : Complaint) :
    Within bytes constants s (t.expect kind c) := by
  unfold Compilation.expect
  split
  · exact h.trans (advance h.supplied)
  · exact h.report _

theorem emitByte (h : Within (bytes + 1) constants s t) (byte : UInt8) : Within bytes constants s (t.emitByte byte) := by
  obtain ⟨supplied, code, consts⟩ := h
  refine ⟨supplied, ?_, consts⟩
  have grown : (t.emitByte byte).codeLimit = t.codeLimit + 1 := by
    simp only [codeLimit, Compilation.emitByte, Chunk.write, Array.size_push, pending]
    omega
  omega

theorem emitAll {os : List Operation} (h : Within bytes constants s t) (le : os.length ≤ bytes) :
    Within 0 constants s (t.emitAll os) := by
  induction os generalizing t bytes with
  | nil => exact h.mono (Nat.zero_le _) (Nat.le_refl _)
  | cons o os ih =>
    obtain ⟨bytes, rfl⟩ := Nat.exists_eq_add_of_lt (Nat.lt_of_lt_of_le (Nat.zero_lt_succ _) le)
    rw [Nat.zero_add] at h le
    exact ih (h.emitByte o.byte) (Nat.le_of_succ_le_succ le)

theorem addConstant (h : Within bytes (constants + 1) s t) {v : Value} {index : UInt8} {chunk : Chunk}
    (added : t.chunk.addConstant v = .ok (index, chunk)) : Within bytes constants s { t with chunk } := by
  obtain ⟨supplied, code, consts⟩ := h
  obtain ⟨-, rfl, -⟩ := Chunk.addConstant_eq_ok added
  refine ⟨supplied, ?_, ?_⟩
  · simpa [codeLimit, pending, Chunk.extend] using code
  · have grown : ({ t with chunk := t.chunk.extend [] [v] } : Compilation).constantLimit = t.constantLimit + 1 := by
      simp only [constantLimit, pending, Chunk.size_constants_extend, List.length_singleton]
      omega
    omega

/-- A number spends all that its token has paid for. -/
theorem emitNumber (h : Within 2 1 s t) : Within 0 0 s t.emitNumber := by
  unfold Compilation.emitNumber
  split
  · unfold Compilation.emitConstant
    split
    · next added => exact ((h.addConstant added).emitByte _).emitByte _
    · exact (((h.mono (Nat.le_refl _) (Nat.zero_le _)).report _).emitByte _).emitByte _
  · exact (h.mono (Nat.zero_le _) (Nat.zero_le _)).report _

end Within

/-! ## Expressions -/

theorem length_operations_le (op : BinaryOp) : op.operations.length ≤ 2 := by
  cases op <;> decide

/-- Operators keep within the limits if their operands do. -/
theorem within_operators {operand : Level → Compilation → Compilation}
    (ho : ∀ level t, t.Supplied → Within 0 0 t (operand level t)) (level : Level) (bound : Nat)
    (h : Within 0 0 s t) : Within 0 0 s (operators operand level bound t) := by
  induction bound generalizing t with
  | zero => exact h
  | succ bound ih =>
    simp only [operators]
    split
    · next op found =>
      split
      · have taken := Within.advance_proper h.supplied (Token.isProper_of_binaryOp? found)
        have right := ho op.level.tighter _ taken.supplied
        exact ih ((h.trans (taken.trans right)).emitAll (length_operations_le op))
      · exact h
    · exact h

/-- **Reading an expression spends no more than its tokens pay for**, at every level, and wherever it fails. -/
theorem within_expression (bound left : Nat) (level : Level) (h : s.Supplied) :
    Within 0 0 s (expression bound left level s) := by
  -- on the nesting that is left; the operands start in other states, hence generalised
  induction left generalizing level s with
  | zero => exact (Within.refl h).report _
  | succ left ih =>
    simp only [expression]
    split
    · exact (Within.advance h).report _
    · next start found =>
      have start' : s.current.kind.operandStart? = some start := found
      have taken := Within.advance_proper h (Token.isProper_of_operandStart? start')
      refine within_operators (fun level t supplied => ih level supplied) level bound ?_
      cases start with
      | number => exact (Within.advance_number h (eq_number_of_operandStart? start')).emitNumber
      | literal o => exact (taken.emitByte o.byte).mono (Nat.zero_le _) (Nat.le_refl _)
      | group => exact (((taken.trans (ih .equality taken.supplied)).mono (Nat.zero_le _) (Nat.le_refl _)).expect _ _)
      | unary op =>
        have inner := taken.trans (ih .unary taken.supplied)
        exact (inner.emitByte op.operation.byte).mono (Nat.zero_le _) (Nat.le_refl _)

/-! ## Compilations -/

/-- Everything but the return operation is paid for. -/
theorem exists_within (source : String) (c : Chunk) :
    ∃ s, Within 0 0 (start (tokens source) c) s ∧ (compile source c).chunk = (s.emit .return).chunk := by
  have supplied : (start (tokens source) c).Supplied := .inl (isStream_tokens source)
  have begun := Within.advance supplied
  have read := within_expression (tokens source).length maxNesting .equality begun.supplied
  exact ⟨_, (begun.trans read).expect .eof .expectEnd, rfl⟩

theorem codeLimit_start (ts : List Token) (c : Chunk) :
    (start ts c).codeLimit = c.code.size + 2 * ts.countP Token.isProper := by
  have none : (Token.synthetic .eof 1).isProper = false := rfl
  simp [codeLimit, pending, start, none]

theorem constantLimit_start (ts : List Token) (c : Chunk) :
    (start ts c).constantLimit = c.constants.size + ts.countP Token.isNumber := by
  have none : (Token.synthetic .eof 1).isNumber = false := rfl
  simp [constantLimit, pending, start, none]

end Compilation

/-- **What a compilation appends is linear in the tokens**: two bytes for each that is neither an error nor the end, a
constant for each number, and the return operation. -/
theorem exists_extend_le (source : String) (c : Chunk) :
    ∃ code constants, (compile source c).chunk = c.extend code constants ∧
      code.length ≤ 2 * (tokens source).countP Token.isProper + 1 ∧
      constants.length ≤ (tokens source).countP Token.isNumber := by
  obtain ⟨body, line, constants, written, -, -⟩ := exists_compile_eq source c
  obtain ⟨s, ⟨-, code, consts⟩, last⟩ := Compilation.exists_within source c
  rw [Compilation.codeLimit_start, Compilation.codeLimit] at code
  rw [Compilation.constantLimit_start, Compilation.constantLimit] at consts
  refine ⟨_, constants, written, ?_⟩
  rw [written] at last
  have bytes := congrArg (fun chunk => chunk.code.size) last
  have values := congrArg (fun chunk => chunk.constants.size) last
  simp only [Chunk.extend, Array.size_append, List.size_toArray, List.length_map, Compilation.emit,
    Compilation.emitByte, Chunk.write, Array.size_push] at bytes values
  omega

end Abacus

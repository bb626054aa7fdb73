import Abacus.Proofs.Compiler.Size
import Abacus.Proofs.Token.Reading

/-!
# Compiling on demand

A compilation needs no list of tokens: it can ask a scanner for the next one when it takes one.  `OnDemand` does so and
counts what it asks for and how many expressions are open; `Runs` says what it does, without a bound on its steps.  Whatever
the source, such a run exists and there is only one, so compiling ends, and it leaves what the compilation of the list of
tokens leaves.

Only an operand that is missing at the end of the source makes the scanner be asked again there, and that happens once:
nothing goes on behind it but to close what is open.  So an expression asks for the tokens ahead and one more at most, and
not for that one if tokens are left behind it.

* `OnDemand.Runs.unique`, `OnDemand.Runs.depth_eq`, `OnDemand.Runs.deepest_le`: what every run keeps;
* `OnDemand.reaches_expression`: runs exist, and what they ask for;
* `compile_ends`: a whole compilation, with what it costs.
-/

namespace Abacus

/-! ## Asking for tokens -/

/-- Behind the end token the same token is met again. -/
theorem Cursor.scan_of_eof {c : Cursor} (h : c.scan.1.kind = .eof) : c.scan.2.scan = c.scan := by
  obtain ⟨rest, offset, line⟩ := c
  obtain ⟨spans, reads⟩ := exists_reads offset line rest
  cases reads with
  | ending isGap =>
    rw [scan_ending (c := ⟨_, _, _⟩) isGap]
    show scan ⟨[], _, _⟩ = _
    rw [scan_ending (c := ⟨[], _, _⟩) .nil]
    simp [Span.read, pass, utf8Length]
  | lexeme isGap bare lexes _ =>
    rw [scan_lexeme (c := ⟨_, _, _⟩) rfl isGap bare lexes] at h
    exact absurd h lexes.ne_eof

namespace Scanner

/-- What a scanner answers that is asked for a token that is no error. -/
structure Answer where
  token : Token
  scanner : Scanner
  /-- The problem to report. -/
  diagnostic : Option Diagnostic
  /-- How many tokens were asked for by then. -/
  requests : Nat

/-- Asks for tokens up to the first one that is no error; the first error on the way is reported. -/
def ask (s : Scanner) (d : Option Diagnostic) (requests : Nat) : Answer :=
  let scanned := s.scan
  if _ : scanned.1.kind.isError then ask scanned.2 (d.or (some (.atToken scanned.1 scanned.1.text))) (requests + 1)
  else ⟨scanned.1, scanned.2, d, requests + 1⟩
termination_by s.cursor.rest.length
decreasing_by
  refine Cursor.length_scan_lt s.cursor fun eof => ?_
  have error : s.cursor.scan.1.kind.isError = true := ‹_›
  rw [eof] at error
  cases error

theorem ask_of_isError {s : Scanner} (h : s.cursor.scan.1.kind.isError = true) (d : Option Diagnostic) (n : Nat) :
    s.ask d n = ask ⟨s.cursor.scan.2, s.isFinished⟩ (d.or (some (.atToken s.cursor.scan.1 s.cursor.scan.1.text)))
      (n + 1) := by
  rw [ask]
  exact dif_pos h

theorem ask_of_not_isError {s : Scanner} (h : s.cursor.scan.1.kind.isError = false) (d : Option Diagnostic) (n : Nat) :
    s.ask d n = ⟨s.cursor.scan.1, ⟨s.cursor.scan.2, s.isFinished⟩, d, n + 1⟩ := by
  rw [ask]
  exact dif_neg (Bool.eq_false_iff.mp h)

/-- A scanner that still gives the tokens `rest` behind `current`; the last one it goes on to give for ever. -/
def Supplies (s : Scanner) (current : Token) (rest : List Token) : Prop :=
  rest = s.cursor.ahead ∨ rest = [] ∧ current.kind = .eof ∧ s.scan = (current, s)

/-- An answer is what is fetched from the tokens ahead; `rest` is left of them. -/
structure Answer.Fetched (answer : Answer) (found : Token × List Token × Option Diagnostic) : Prop where
  token : answer.token = found.1
  diagnostic : answer.diagnostic = found.2.2
  supplies : answer.scanner.Supplies found.1 found.2.1

open Compilation (fetch)

/-- A scanner is asked once for each token that is taken or passed over. -/
theorem ask_ahead (last : Token) (s : Scanner) (d : Option Diagnostic) (n : Nat) :
    (s.ask d n).Fetched (fetch last d s.cursor.ahead) ∧
      (s.ask d n).requests + (fetch last d s.cursor.ahead).2.1.length = n + s.cursor.ahead.length := by
  -- on the characters left, which are fewer behind every token but the end
  induction hn : s.cursor.rest.length using Nat.strongRecOn generalizing s d n with
  | ind _ ih =>
    by_cases eof : s.cursor.scan.1.kind = .eof
    · have proper : s.cursor.scan.1.kind.isError = false := by rw [eof]; rfl
      rw [ask_of_not_isError proper, Cursor.ahead_of_eof eof]
      simp only [fetch, proper, Bool.false_eq_true, if_false]
      refine ⟨⟨rfl, rfl, .inr ⟨rfl, eof, ?_⟩⟩, rfl⟩
      simp only [scan, Cursor.scan_of_eof eof]
    · have shorter := Cursor.length_scan_lt s.cursor eof
      rw [Cursor.ahead_of_ne_eof eof]
      cases error : s.cursor.scan.1.kind.isError with
      | true =>
        rw [ask_of_isError error]
        simp only [fetch, error, if_true]
        obtain ⟨fetched, asked⟩ := ih _ (hn ▸ shorter) ⟨s.cursor.scan.2, s.isFinished⟩
          (d.or (some (.atToken s.cursor.scan.1 s.cursor.scan.1.text))) (n + 1) rfl
        refine ⟨fetched, asked.trans ?_⟩
        rw [List.length_cons]
        show n + 1 + s.cursor.scan.2.ahead.length = _
        omega
      | false =>
        rw [ask_of_not_isError error]
        simp only [fetch, error, Bool.false_eq_true, if_false]
        refine ⟨⟨rfl, rfl, .inl rfl⟩, ?_⟩
        simp only [List.length_cons]
        omega

/-- At the end it is asked in vain. -/
theorem ask_again {s : Scanner} {last : Token} (eof : last.kind = .eof) (again : s.scan = (last, s))
    (d : Option Diagnostic) (n : Nat) : s.ask d n = ⟨last, s, d, n + 1⟩ := by
  rw [ask]
  simp only [again]
  rw [dif_neg (by rw [eof]; nofun)]

end Scanner

/-! ## Compilations on demand -/

/-- A compilation under way that asks for its tokens. -/
structure OnDemand where
  /-- The compilation, with no tokens after the one that is looked at. -/
  held : Compilation
  scanner : Scanner
  /-- How many tokens were asked for. -/
  requests : Nat
  /-- How many expressions are open. -/
  depth : Nat
  /-- The most that were open at once. -/
  deepest : Nat

namespace OnDemand

open Compilation (maxNesting)

/-- Does what needs no further token. -/
def update (p : OnDemand) (f : Compilation → Compilation) : OnDemand :=
  { p with held := f p.held }

/-- Takes a token. -/
def advance (p : OnDemand) : OnDemand :=
  let answer := p.scanner.ask p.held.diagnostic p.requests
  { p with
    held := { p.held with previous := p.held.current, current := answer.token, diagnostic := answer.diagnostic }
    scanner := answer.scanner
    requests := answer.requests }

/-- Takes a token of the given kind, or reports a problem. -/
def expect (p : OnDemand) (kind : Kind) (c : Complaint) : OnDemand :=
  if p.held.current.kind = kind then p.advance else p.update (·.report (.atToken p.held.current c.message))

/-- Opens an expression. -/
def enter (p : OnDemand) : OnDemand :=
  { p with depth := p.depth + 1, deepest := max p.deepest (p.depth + 1) }

/-- Closes the expression that was opened last. -/
def leave (p : OnDemand) : OnDemand :=
  { p with depth := p.depth - 1 }

/-- What is read by one run. -/
inductive Task where
  /-- An expression of at least a level. -/
  | expression (level : Level)
  /-- What is left of an operand behind the token that starts it. -/
  | operand (start : OperandStart)
  /-- Operators of at least a level, with their right operands. -/
  | operators (level : Level)

/-- **What a compilation on demand does**, from one state to the other. -/
inductive Runs : Task → OnDemand → OnDemand → Prop
  | tooDeep {level : Level} {p : OnDemand} : maxNesting ≤ p.depth →
      Runs (.expression level) p (p.update (·.complain .nestsTooDeeply))
  | stray {level : Level} {p : OnDemand} : p.depth < maxNesting → p.held.current.kind.operandStart? = none →
      Runs (.expression level) p (p.enter.advance.update (·.complain .expectExpression)).leave
  | expression {level : Level} {start : OperandStart} {p q r : OnDemand} : p.depth < maxNesting →
      p.held.current.kind.operandStart? = some start → Runs (.operand start) p.enter.advance q →
      Runs (.operators level) q r → Runs (.expression level) p r.leave
  | number {p : OnDemand} : Runs (.operand .number) p (p.update (·.emitNumber))
  | literal {o : Operation} {p : OnDemand} : Runs (.operand (.literal o)) p (p.update (·.emit o))
  | group {p q : OnDemand} : Runs (.expression .equality) p q →
      Runs (.operand .group) p (q.expect .rightParen .expectParen)
  | unary {op : UnaryOp} {p q : OnDemand} : Runs (.expression .unary) p q →
      Runs (.operand (.unary op)) p (q.update (·.emit op.operation))
  | stop {level : Level} {p : OnDemand} :
      (∀ op, p.held.current.kind.binaryOp? = some op → ¬ level.rank ≤ op.level.rank) → Runs (.operators level) p p
  | operator {level : Level} {op : BinaryOp} {p q r : OnDemand} : p.held.current.kind.binaryOp? = some op →
      level.rank ≤ op.level.rank → Runs (.expression op.level.tighter) p.advance q →
      Runs (.operators level) (q.update (·.emitAll op.operations)) r → Runs (.operators level) p r

/-- A compilation that has asked for no token yet. -/
def ofSource (source : String) (c : Chunk) : OnDemand :=
  ⟨.start [] c, .ofSource source, 0, 0, 0⟩

/-- What is done behind the expression of a source. -/
def finish (p : OnDemand) : OnDemand :=
  (p.expect .eof .expectEnd).update (·.emit .return)

/-! ## What runs keep -/

namespace Runs

variable {task : Task} {p q q' : OnDemand}

/-- A state and a task determine the end. -/
theorem unique (h : Runs task p q) (h' : Runs task p q') : q = q' := by
  induction h generalizing q' with
  | tooDeep deep =>
    cases h' with
    | tooDeep => rfl
    | stray fits _ => exact absurd fits (Nat.not_lt.mpr deep)
    | expression fits _ _ _ => exact absurd fits (Nat.not_lt.mpr deep)
  | stray fits none =>
    cases h' with
    | tooDeep deep => exact absurd fits (Nat.not_lt.mpr deep)
    | stray => rfl
    | expression _ some _ _ => rw [none] at some; cases some
  | expression fits found _ _ ih ih' =>
    cases h' with
    | tooDeep deep => exact absurd fits (Nat.not_lt.mpr deep)
    | stray _ none => rw [found] at none; cases none
    | expression _ found' operand operators =>
      obtain rfl := Option.some.inj (found.symm.trans found')
      obtain rfl := ih operand
      rw [ih' operators]
  | number => cases h'; rfl
  | literal => cases h'; rfl
  | group _ ih =>
    cases h' with
    | group inner => rw [ih inner]
  | unary _ ih =>
    cases h' with
    | unary inner => rw [ih inner]
  | stop none =>
    cases h' with
    | stop => rfl
    | operator found le _ _ => exact absurd le (none _ found)
  | operator found le _ _ ih ih' =>
    cases h' with
    | stop none => exact absurd le (none _ found)
    | operator found' _ right more =>
      obtain rfl := Option.some.inj (found.symm.trans found')
      obtain rfl := ih right
      exact ih' more

theorem depth_expect (p : OnDemand) (kind : Kind) (c : Complaint) : (p.expect kind c).depth = p.depth := by
  unfold OnDemand.expect
  split <;> rfl

theorem deepest_expect (p : OnDemand) (kind : Kind) (c : Complaint) : (p.expect kind c).deepest = p.deepest := by
  unfold OnDemand.expect
  split <;> rfl

/-- **Every run closes what it opens**, also where it fails. -/
theorem depth_eq (h : Runs task p q) : q.depth = p.depth := by
  induction h with
  | tooDeep => rfl
  | stray => exact Nat.add_sub_cancel _ 1
  | expression _ _ _ _ ih ih' =>
    show _ - 1 = _
    rw [ih', ih]
    exact Nat.add_sub_cancel _ 1
  | number => rfl
  | literal => rfl
  | group _ ih => rw [depth_expect, ih]
  | unary _ ih => exact ih
  | stop => rfl
  | operator _ _ _ _ ih ih' => exact ih'.trans ih

/-- **No run opens too many expressions.** -/
theorem deepest_le (h : Runs task p q) (le : p.deepest ≤ maxNesting) : q.deepest ≤ maxNesting := by
  induction h with
  | tooDeep => exact le
  | stray fits => exact Nat.max_le.mpr ⟨le, fits⟩
  | expression fits _ _ _ ih ih' => exact ih' (ih (Nat.max_le.mpr ⟨le, fits⟩))
  | number => exact le
  | literal => exact le
  | group _ ih =>
    rw [deepest_expect]
    exact ih le
  | unary _ ih => exact ih le
  | stop => exact le
  | operator _ _ _ _ ih ih' => exact ih' (ih le)

end Runs

end OnDemand

/-! ## Both compilations -/

namespace Compilation

variable {s : Compilation}

/-- A state without the tokens after the one that is looked at. -/
def alone (s : Compilation) : Compilation :=
  { s with rest := [] }

/-- Does not depend on the tokens after the one that is looked at, and takes none. -/
structure IsLocal (f : Compilation → Compilation) : Prop where
  alone (s : Compilation) : (f s).alone = f s.alone
  current (s : Compilation) : (f s).current = s.current
  rest (s : Compilation) : (f s).rest = s.rest

namespace IsLocal

theorem report (d : Diagnostic) : IsLocal (·.report d) :=
  ⟨fun _ => rfl, fun _ => rfl, fun _ => rfl⟩

theorem complain (c : Complaint) : IsLocal (·.complain c) :=
  ⟨fun _ => rfl, fun _ => rfl, fun _ => rfl⟩

theorem emit (o : Operation) : IsLocal (·.emit o) :=
  ⟨fun _ => rfl, fun _ => rfl, fun _ => rfl⟩

theorem comp {f g : Compilation → Compilation} (hg : IsLocal g) (hf : IsLocal f) : IsLocal fun s => g (f s) where
  alone s := by rw [hg.alone, hf.alone]
  current s := by rw [hg.current, hf.current]
  rest s := by rw [hg.rest, hf.rest]

theorem emitAll (os : List Operation) : IsLocal (·.emitAll os) := by
  induction os with
  | nil => exact ⟨fun _ => rfl, fun _ => rfl, fun _ => rfl⟩
  | cons o os ih => exact ih.comp (emit o)

theorem emitConstant (v : Value) : IsLocal (·.emitConstant v) := by
  refine ⟨fun s => ?_, fun s => ?_, fun s => ?_⟩ <;>
    cases added : s.chunk.addConstant v <;>
    simp only [Compilation.emitConstant, Compilation.alone, added] <;>
    rfl

theorem emitNumber : IsLocal (·.emitNumber) := by
  refine ⟨fun s => ?_, fun s => ?_, fun s => ?_⟩ <;>
    cases read : Decimal.ofNumeral? s.previous.text.toList <;>
    simp only [Compilation.emitNumber, Compilation.alone, read]
  · rfl
  · exact (emitConstant _).alone s
  · rfl
  · exact (emitConstant _).current s
  · rfl
  · exact (emitConstant _).rest s

end IsLocal

/-- The most tokens that operators may ask for: those ahead, and one for an operand that is missing behind them.  Where
none are ahead, no operator stands in front. -/
def demand (s : Compilation) : Nat :=
  s.rest.length + min 1 s.rest.length

theorem IsLocal.demand {f : Compilation → Compilation} (hf : IsLocal f) (s : Compilation) :
    (f s).demand = s.demand := by
  rw [Compilation.demand, hf.rest, Compilation.demand]

theorem length_rest_advance_le (s : Compilation) : s.advance.rest.length ≤ s.rest.length - 1 := by
  rcases fetch_cases s.current s.diagnostic s.rest with found | ⟨-, none⟩
  · have fewer : s.advance.rest.length + 1 ≤ s.rest.length := found.length_le
    omega
  · have nothing : s.advance.rest = [] := none
    rw [nothing]
    exact Nat.zero_le _

end Compilation

namespace OnDemand

open Compilation (maxNesting alone IsLocal demand)

variable {p : OnDemand} {s t : Compilation}

/-- It holds what a compilation holds that has its tokens ahead, and its scanner gives these. -/
structure Represents (p : OnDemand) (s : Compilation) : Prop where
  held : p.held = s.alone
  supplies : p.scanner.Supplies s.current s.rest

namespace Represents

theorem current (h : p.Represents s) : p.held.current = s.current := by
  rw [h.held]
  rfl

theorem supplied (h : p.Represents s) : s.Supplied := by
  rcases h.supplies with ahead | ⟨none, eof, -⟩
  · left
    rw [ahead]
    exact Cursor.isStream_ahead _
  · exact .inr ⟨none, eof⟩

theorem update (h : p.Represents s) {f : Compilation → Compilation} (hf : IsLocal f) :
    (p.update f).Represents (f s) where
  held := by
    rw [hf.alone, ← h.held]
    rfl
  supplies := by
    rw [hf.current, hf.rest]
    exact h.supplies

theorem enter (h : p.Represents s) : p.enter.Represents s :=
  ⟨h.held, h.supplies⟩

theorem leave (h : p.Represents s) : p.leave.Represents s :=
  ⟨h.held, h.supplies⟩

/-- Both take the same token.  The scanner is asked once for each one that goes, and in vain if there are none. -/
theorem advance (h : p.Represents s) : p.advance.Represents s.advance ∧
    p.advance.requests + s.advance.rest.length = p.requests + max 1 s.rest.length := by
  obtain ⟨held, scanner, requests, depth, deepest⟩ := p
  obtain ⟨rfl, supplies⟩ := h
  suffices (scanner.ask s.diagnostic requests).Fetched (Compilation.fetch s.current s.diagnostic s.rest) ∧
      (scanner.ask s.diagnostic requests).requests +
        (Compilation.fetch s.current s.diagnostic s.rest).2.1.length = requests + max 1 s.rest.length by
    obtain ⟨⟨token, diagnostic, supplies⟩, asked⟩ := this
    refine ⟨⟨?_, supplies⟩, asked⟩
    show Compilation.mk s.current (scanner.ask s.diagnostic requests).token [] s.chunk
      (scanner.ask s.diagnostic requests).diagnostic = _
    rw [token, diagnostic]
    rfl
  rcases supplies with ahead | ⟨none, eof, again⟩
  · obtain ⟨fetched, asked⟩ := Scanner.ask_ahead s.current scanner s.diagnostic requests
    have some : 0 < s.rest.length := by
      rw [ahead]
      exact List.length_pos_iff.mpr (Cursor.isStream_ahead _).ne_nil
    rw [← show s.rest = scanner.cursor.ahead from ahead] at fetched asked
    refine ⟨fetched, ?_⟩
    omega
  · rw [Scanner.ask_again eof again, none]
    exact ⟨⟨rfl, rfl, .inr ⟨rfl, eof, again⟩⟩, rfl⟩

/-- Only the end of the source is expected where nothing may be ahead. -/
theorem expect (h : p.Represents s) (kind : Kind) (c : Complaint) :
    (p.expect kind c).Represents (s.expect kind c) ∧ (s.expect kind c).rest.length ≤ s.rest.length ∧
      (p.expect kind c).requests + (s.expect kind c).demand ≤
        p.requests + s.demand + (if kind = .eof then 1 else 0) := by
  unfold OnDemand.expect Compilation.expect
  rw [h.current]
  split
  · next found =>
    obtain ⟨taken, asked⟩ := h.advance
    have shorter := s.length_rest_advance_le
    refine ⟨taken, by omega, ?_⟩
    unfold demand
    split
    · omega
    · next ne =>
      have some := h.supplied.length_rest_pos (found ▸ ne)
      omega
  · exact ⟨h.update (.report _), Nat.le_refl _, Nat.le_add_right _ _⟩

end Represents

/-! ## Runs exist -/

/-- A run leads to what represents `t`, asks for no more than `allowed` tokens from `p` on, and leaves `t.demand` of
them for the operators behind. -/
def Reaches (task : Task) (p : OnDemand) (s t : Compilation) (allowed : Nat) : Prop :=
  ∃ q, Runs task p q ∧ q.Represents t ∧ t.rest.length ≤ s.rest.length ∧ q.requests + t.demand ≤ p.requests + allowed

/-- Where there are `left` levels of nesting left, runs cover the expressions that `read` reads. -/
def Covers (read : Level → Compilation → Compilation) (bound left : Nat) : Prop :=
  ∀ (level : Level) (p : OnDemand) (s : Compilation), p.Represents s → p.depth + left = maxNesting →
    s.rest.length ≤ bound → Reaches (.expression level) p s (read level s) (s.rest.length + 1)

section Expressions

variable {bound left : Nat} (covers : Covers (Compilation.expression bound left) bound left)
  (represents : p.Represents s) (deep : p.depth + left = maxNesting)
include covers represents deep

theorem reaches_operand (start : OperandStart) (le : s.rest.length ≤ bound) :
    Reaches (.operand start) p s (Compilation.operand bound left start s) (s.rest.length + 1) := by
  have here : p.requests + s.demand ≤ p.requests + (s.rest.length + 1) := by
    unfold demand
    omega
  cases start with
  | number =>
    refine ⟨_, .number, represents.update .emitNumber, ?_, ?_⟩
    · exact Nat.le_of_eq (congrArg List.length (IsLocal.emitNumber.rest s))
    · show p.requests + s.emitNumber.demand ≤ _
      rw [IsLocal.emitNumber.demand]
      exact here
  | literal o => exact ⟨_, .literal, represents.update (.emit o), Nat.le_refl _, here⟩
  | group =>
    obtain ⟨q, runs, represents', shorter, asked⟩ := covers .equality p s represents deep le
    obtain ⟨closed, shorter', asked'⟩ := represents'.expect .rightParen .expectParen
    exact ⟨_, .group runs, closed, shorter'.trans shorter, asked'.trans asked⟩
  | unary op =>
    obtain ⟨q, runs, represents', shorter, asked⟩ := covers .unary p s represents deep le
    exact ⟨_, .unary runs, represents'.update (.emit op.operation), shorter, asked⟩

omit covers represents deep in
/-- Where no operator of the level stands in front, nothing is done. -/
theorem reaches_self (represents : p.Represents s) {level : Level}
    (none : ∀ op, s.current.kind.binaryOp? = some op → ¬ level.rank ≤ op.level.rank) :
    Reaches (.operators level) p s s s.demand := by
  rw [← represents.current] at none
  exact ⟨p, .stop none, represents, Nat.le_refl _, Nat.le_refl _⟩

/-- Each operator takes a token, so there are no more of them than tokens. -/
theorem reaches_operators (level : Level) (fuel : Nat) (enough : s.rest.length ≤ fuel) (le : fuel ≤ bound) :
    Reaches (.operators level) p s (Compilation.operators (Compilation.expression bound left) level fuel s)
      s.demand := by
  induction fuel generalizing p s with
  | zero =>
    refine reaches_self represents fun op found => ?_
    have proper := Token.isProper_of_binaryOp? found
    exact absurd (represents.supplied.length_rest_pos (Token.ne_eof_of_isProper proper)) (Nat.not_lt.mpr enough)
  | succ fuel ih =>
    simp only [Compilation.operators]
    split
    · next op found =>
      split
      · next binds =>
        have proper := Token.isProper_of_binaryOp? found
        have some := represents.supplied.length_rest_pos (Token.ne_eof_of_isProper proper)
        obtain ⟨taken, asked⟩ := represents.advance
        have shorter := s.length_rest_advance_le
        obtain ⟨q, right, represents', shorter', asked'⟩ :=
          covers op.level.tighter p.advance s.advance taken deep (by omega)
        have deep' : q.depth + left = maxNesting := by rw [right.depth_eq]; exact deep
        generalize Compilation.expression bound left op.level.tighter s.advance = t at *
        have hf := IsLocal.emitAll op.operations
        obtain ⟨r, more, represents'', shorter'', asked''⟩ :=
          ih (represents'.update hf) deep' (by rw [hf.rest]; omega) (by omega)
        rw [hf.rest] at shorter''
        rw [hf.demand] at asked''
        rw [← represents.current] at found
        refine ⟨r, .operator found binds right more, represents'', by omega, ?_⟩
        -- the token of the operator makes up for the one that its right operand may ask for at the end
        have all : p.advance.requests + (s.advance.rest.length + 1) = p.requests + s.demand := by
          unfold demand
          omega
        rw [← all]
        exact asked''.trans asked'
      · next loose =>
        refine reaches_self represents fun op' found' => ?_
        obtain rfl := Option.some.inj (found.symm.trans found')
        exact loose
    · next none =>
      refine reaches_self represents fun op found => ?_
      rw [none] at found
      cases found

end Expressions

/-- **Runs read all expressions**, with the tokens ahead and one more. -/
theorem reaches_expression (bound left : Nat) : Covers (Compilation.expression bound left) bound left := by
  induction left with
  | zero =>
    intro level p s represents deep le
    refine ⟨_, .tooDeep (Nat.le_of_eq deep.symm), represents.update (.complain _), Nat.le_refl _, ?_⟩
    show p.requests + s.demand ≤ _
    unfold demand
    omega
  | succ left ih =>
    intro level p s represents deep le
    have fits : p.depth < maxNesting := by omega
    have deep' : p.enter.advance.depth + left = maxNesting := by
      show p.depth + 1 + left = maxNesting
      omega
    obtain ⟨taken, asked⟩ := represents.enter.advance
    have shorter := s.length_rest_advance_le
    cases found : s.current.kind.operandStart? with
    | none =>
      rw [Compilation.expression_of_stray found]
      rw [← represents.current] at found
      refine ⟨_, .stray fits found, (taken.update (.complain _)).leave, ?_, ?_⟩
      · show s.advance.rest.length ≤ s.rest.length
        omega
      · show p.enter.advance.requests + s.advance.demand ≤ p.requests + (s.rest.length + 1)
        have same : p.enter.requests = p.requests := rfl
        unfold demand
        omega
    | some start =>
      rw [Compilation.expression_of_start found]
      have proper := Token.isProper_of_operandStart? found
      have some := represents.supplied.length_rest_pos (Token.ne_eof_of_isProper proper)
      obtain ⟨q, operand, represents', shorter', asked'⟩ := reaches_operand ih taken deep' start (by omega)
      have deep'' : q.depth + left = maxNesting := by rw [operand.depth_eq]; exact deep'
      obtain ⟨r, operators, represents'', shorter'', asked''⟩ := reaches_operators ih represents' deep'' level bound
        (by omega) (Nat.le_refl _)
      rw [← represents.current] at found
      refine ⟨_, .expression fits found operand operators, represents''.leave, by omega, ?_⟩
      have all : p.enter.advance.requests + (s.advance.rest.length + 1) = p.requests + (s.rest.length + 1) := by
        have same : p.enter.requests = p.requests := rfl
        omega
      rw [← all]
      exact asked''.trans asked'

theorem represents_ofSource (source : String) (c : Chunk) :
    (ofSource source c).Represents (.start (tokens source) c) :=
  ⟨rfl, .inl rfl⟩

/-- A compilation on demand, from its first token to the return operation. -/
theorem exists_runs (source : String) (c : Chunk) :
    ∃ q, Runs (.expression .equality) (ofSource source c).advance q ∧
      q.finish.held = (Compilation.ofTokens (tokens source) c).alone ∧
      q.finish.requests ≤ (tokens source).length + 2 := by
  have some : 0 < (tokens source).length := List.length_pos_iff.mpr (isStream_tokens source).ne_nil
  obtain ⟨begun, asked⟩ := (represents_ofSource source c).advance
  have shorter := (Compilation.start (tokens source) c).length_rest_advance_le
  have all : (Compilation.start (tokens source) c).rest = tokens source := rfl
  have none : (ofSource source c).requests = 0 := rfl
  rw [all] at asked shorter
  obtain ⟨q, runs, represents, -, asked'⟩ := reaches_expression (tokens source).length maxNesting .equality _ _ begun
    (Nat.zero_add _) (by omega)
  obtain ⟨ended, -, asked''⟩ := represents.expect .eof .expectEnd
  rw [if_pos rfl] at asked''
  refine ⟨q, runs, (ended.update (.emit .return)).held, ?_⟩
  show (q.expect .eof .expectEnd).requests ≤ _
  omega

end OnDemand

/-- **Compiling ends, at a cost linear in the tokens.**  Whatever the source and the chunk, the expression of the source is
read by one run on demand and no other, and what is done behind it leaves what compiling leaves.  All expressions that were
opened are closed again, and never more than 1024 were open.  Two tokens more than there are in the source are asked for
at most.  The chunk grows by two bytes at most for each token that is neither an error nor the end, and one more, and by a
constant at most for each number. -/
theorem compile_ends (source : String) (c : Chunk) :
    ∃ q, (∀ q', OnDemand.Runs (.expression .equality) (OnDemand.ofSource source c).advance q' ↔ q' = q) ∧
      compile source c = ⟨q.finish.held.chunk, q.finish.held.diagnostic.toList⟩ ∧
      q.depth = 0 ∧ q.deepest ≤ 1024 ∧ q.finish.requests ≤ (tokens source).length + 2 ∧
      ∃ code constants, (compile source c).chunk = c.extend code constants ∧
        code.length ≤ 2 * (tokens source).countP Token.isProper + 1 ∧
        constants.length ≤ (tokens source).countP Token.isNumber := by
  obtain ⟨q, runs, held, requests⟩ := OnDemand.exists_runs source c
  refine ⟨q, fun q' => ⟨fun runs' => runs'.unique runs, ?_⟩, ?_, runs.depth_eq, runs.deepest_le (Nat.zero_le _), requests,
    exists_extend_le source c⟩
  · rintro rfl
    exact runs
  · rw [held]
    rfl

end Abacus

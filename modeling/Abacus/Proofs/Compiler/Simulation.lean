import Abacus.Proofs.Compiler.Code
import Abacus.Proofs.Syntax.Viable

/-!
# Compilations read trees

A compilation takes the tokens that a reader of trees reads.  After a tree it stands where the reader stands and has
written the code of the tree; where the reader gets stuck it reports so, unless an error token came first.

* `Compilation.diagnostic_expression`: what is reported stays reported;
* `Compilation.expression_matches`: the simulation, for every level, nesting and state.
-/

namespace Abacus

/-! ## Reports -/

/-- The report of the first error token. -/
def firstError? (ts : List Token) : Option Diagnostic :=
  (ts.find? (·.kind.isError)).map fun t => .atToken t t.text

/-- The tokens after the one complained about that are looked at by then: a complaint about a token that was expected
to be another one comes before that token is taken. -/
def Complaint.lookahead : Complaint → Nat
  | expectParen | expectEnd => 0
  | _ => 1

/-- What a compilation reports when a reader gets stuck in front of the given tokens. -/
def Complaint.report (c : Complaint) : List Token → Diagnostic
  | [] => .atToken (.synthetic .eof 1) c.message
  | t :: ts => (firstError? (t :: ts.take c.lookahead)).getD (.atToken t c.message)

theorem firstError?_cons_of_isError {t : Token} (ts : List Token) (h : t.kind.isError = true) :
    firstError? (t :: ts) = some (.atToken t t.text) := by
  simp [firstError?, h]

theorem firstError?_cons {t : Token} (ts : List Token) (h : t.kind.isError = false) :
    firstError? (t :: ts) = firstError? ts := by
  simp [firstError?, h]

theorem report_of_isError {t : Token} (c : Complaint) (ts : List Token) (h : t.kind.isError = true) :
    c.report (t :: ts) = .atToken t t.text := by
  simp [Complaint.report, firstError?_cons_of_isError _ h]

namespace Compilation

/-! ## What is reported stays reported -/

theorem fetch_reported (last : Token) (d : Diagnostic) (ts : List Token) : (fetch last (some d) ts).2.2 = some d := by
  induction ts with
  | nil => rfl
  | cons t ts ih =>
    simp only [fetch, Option.some_or]
    split
    · exact ih
    · rfl

section Reported

variable {s : Compilation} {d : Diagnostic} (h : s.diagnostic = some d)
include h

theorem diagnostic_report (d' : Diagnostic) : (s.report d').diagnostic = some d := by
  simp [report, h]

theorem diagnostic_complain (c : Complaint) : (s.complain c).diagnostic = some d :=
  diagnostic_report h _

theorem diagnostic_advance : s.advance.diagnostic = some d := by
  simp only [advance, h]
  exact fetch_reported ..

theorem diagnostic_expect (kind : Kind) (c : Complaint) : (s.expect kind c).diagnostic = some d := by
  unfold expect
  split
  · exact diagnostic_advance h
  · exact diagnostic_report h _

theorem diagnostic_emitNumber : s.emitNumber.diagnostic = some d := by
  unfold emitNumber
  split
  · unfold emitConstant
    split
    · exact h
    · exact diagnostic_complain h _
  · exact diagnostic_complain h _

omit h in
theorem diagnostic_emitAll (s : Compilation) (os : List Operation) : (s.emitAll os).diagnostic = s.diagnostic := by
  induction os generalizing s with
  | nil => rfl
  | cons o os ih => exact ih _

omit h in
theorem diagnostic_operators {operand : Level → Compilation → Compilation} {d : Diagnostic}
    (ho : ∀ level s, s.diagnostic = some d → (operand level s).diagnostic = some d) (level : Level) (n : Nat)
    {s : Compilation} (h : s.diagnostic = some d) : (operators operand level n s).diagnostic = some d := by
  induction n generalizing s with
  | zero => exact h
  | succ n ih =>
    simp only [operators]
    split
    · split
      · refine ih ?_
        rw [diagnostic_emitAll]
        exact ho _ _ (diagnostic_advance h)
      · exact h
    · exact h

omit h in
theorem diagnostic_expression {d : Diagnostic} (bound left : Nat) (level : Level) {s : Compilation}
    (h : s.diagnostic = some d) : (expression bound left level s).diagnostic = some d := by
  induction left generalizing level s with
  | zero => exact diagnostic_complain h _
  | succ left ih =>
    have h' := diagnostic_advance h
    simp only [expression]
    split
    · exact diagnostic_complain h' _
    · refine diagnostic_operators (fun level s => ih level) level bound ?_
      split
      · exact diagnostic_emitNumber h'
      · exact h'
      · exact diagnostic_expect (ih .equality h') _ _
      · exact ih .unary h'

end Reported

/-! ## Where a compilation stands -/

/-- A compilation that has taken `previous`, has `ts` in front of it and has written the chunk `c`, nothing being
reported; or one that has reported the error token in front. -/
def Stands (s : Compilation) (previous : Token) (c : Chunk) : List Token → Prop
  | [] => False
  | t :: ts =>
    if t.kind.isError then s.diagnostic = some (.atToken t t.text) else s = ⟨previous, t, ts, c, none⟩

/-- A compilation that has done what a reader has done that gave `r`, the chunk having been `c` before. -/
def Matches (s : Compilation) (c : Chunk) : Reading → Prop
  | .tree e rest => s.Stands e.last (e.writeTo c) rest
  | .stuck complaint rest => s.diagnostic = some (complaint.report rest)

theorem stands_of_isError {s : Compilation} {t : Token} (h : t.kind.isError = true)
    (hs : s.diagnostic = some (.atToken t t.text)) (previous : Token) (c : Chunk) (ts : List Token) :
    s.Stands previous c (t :: ts) := by
  simp only [Stands, h, if_true]
  exact hs

theorem stands_of_eq {t : Token} (h : t.kind.isError = false) (previous : Token) (c : Chunk) (ts : List Token) :
    Stands ⟨previous, t, ts, c, none⟩ previous c (t :: ts) := by
  simp [Stands, h]

/-- A compilation stands in front of an error token, which is reported, or in front of a proper token. -/
theorem Stands.cases {s : Compilation} {previous : Token} {c : Chunk} {ts : List Token}
    (h : s.Stands previous c ts) :
    (∃ t rest, ts = t :: rest ∧ t.kind.isError = true ∧ s.diagnostic = some (.atToken t t.text)) ∨
      ∃ t rest, ts = t :: rest ∧ t.kind.isError = false ∧ s = ⟨previous, t, rest, c, none⟩ := by
  cases ts with
  | nil => exact h.elim
  | cons t rest =>
    cases he : t.kind.isError with
    | true => exact .inl ⟨t, rest, rfl, he, by simpa [Stands, he] using h⟩
    | false => exact .inr ⟨t, rest, rfl, he, by simpa [Stands, he] using h⟩

theorem previous_advance (s : Compilation) : s.advance.previous = s.current :=
  rfl

theorem stands_advance (previous t : Token) {ts : List Token} (c : Chunk) (ne : ts ≠ []) :
    (advance ⟨previous, t, ts, c, none⟩).Stands t c ts := by
  cases ts with
  | nil => exact absurd rfl ne
  | cons u us =>
    cases hu : u.kind.isError with
    | true =>
      refine stands_of_isError hu ?_ t c us
      simp only [advance, fetch, hu, if_true]
      exact fetch_reported ..
    | false =>
      have : advance ⟨previous, t, u :: us, c, none⟩ = ⟨t, u, us, c, none⟩ := by
        simp [advance, fetch, hu]
      exact this ▸ stands_of_eq hu t c us

/-! ## Steps of the simulation -/

/-- Writing an operation moves nothing: its byte is on the line of the token taken last. -/
theorem Stands.emit {s : Compilation} {previous : Token} {c : Chunk} {ts : List Token} (h : s.Stands previous c ts)
    (o : Operation) : (s.emit o).Stands previous (c.extend [(o.byte, previous.line)] []) ts := by
  rcases h.cases with ⟨u, us, rfl, hu, hs⟩ | ⟨u, us, rfl, hu, rfl⟩
  · have hs : (s.emit o).diagnostic = some (.atToken u u.text) := hs
    exact stands_of_isError hu hs _ _ _
  · simp only [Compilation.emit, emitByte, Chunk.write_eq_extend]
    exact stands_of_eq hu _ _ _

theorem Stands.emitAll {s : Compilation} {previous : Token} {c : Chunk} {ts : List Token} (h : s.Stands previous c ts)
    (os : List Operation) :
    (s.emitAll os).Stands previous (c.extend (os.map fun o => (o.byte, previous.line)) []) ts := by
  induction os generalizing s c with
  | nil =>
    rw [List.map_nil, Chunk.extend_nil]
    exact h
  | cons o os ih =>
    have rest := ih (h.emit o)
    rw [Chunk.extend_extend] at rest
    exact rest

theorem emit_matches {s : Compilation} {t : Token} {ts : List Token} {c : Chunk} (h : s.Stands t c ts) (l : Literal) :
    (s.emit l.operation).Matches c (.tree (.literal l t) ts) :=
  h.emit l.operation

theorem emitNumber_matches {s : Compilation} {t : Token} {ts : List Token} {c : Chunk} (h : s.Stands t c ts)
    (ht : t.kind = .number) (spelled : t.IsSpelled) :
    s.emitNumber.Matches c
      (if 0 < c.room then .tree (.number t) ts else .stuck .tooManyConstants (t :: ts)) := by
  have proper : t.kind.isError = false := by rw [ht]; rfl
  rcases h.cases with ⟨u, us, rfl, hu, hs⟩ | ⟨u, us, rfl, hu, rfl⟩
  · have hs := diagnostic_emitNumber hs
    split
    · exact stands_of_isError hu hs _ _ _
    · show s.emitNumber.diagnostic = some (Complaint.tooManyConstants.report (t :: u :: us))
      rw [hs]
      simp [Complaint.report, Complaint.lookahead, firstError?_cons _ proper, firstError?_cons_of_isError _ hu]
  · simp only [emitNumber, spelled ht, emitConstant]
    by_cases has : 0 < c.room
    · simp only [if_pos has, Chunk.addConstant_of_room has, emitByte, Chunk.write_eq_extend, Chunk.extend_extend]
      exact stands_of_eq hu t (Tree.writeTo (.number t) c) us
    · simp only [if_neg has, Chunk.addConstant_of_full has]
      show some _ = some (Complaint.tooManyConstants.report (t :: u :: us))
      simp [Complaint.report, Complaint.lookahead, firstError?, proper, hu]

theorem unary_matches {s : Compilation} {c : Chunk} {r : Reading} (h : s.Matches c r) (op : UnaryOp) (t : Token) :
    (s.emit op.operation).Matches c (r.bind fun e rest => .tree (.unary op t e) rest) := by
  cases r with
  | stuck complaint rest => exact h
  | tree e rest =>
    have done := Stands.emit h op.operation
    rw [← Tree.writeTo_unary op t e c] at done
    exact done

theorem expect_matches {s : Compilation} {c : Chunk} {r : Reading} (h : s.Matches c r) (t : Token)
    (stream : ∀ e rest, r = .tree e rest → IsStream rest) :
    (s.expect .rightParen .expectParen).Matches c (r.bind (Reader.closing t)) := by
  cases r with
  | stuck complaint rest => exact diagnostic_expect h _ _
  | tree e rest =>
    show (s.expect .rightParen .expectParen).Matches c (Reader.closing t e rest)
    rcases Stands.cases h with ⟨u, us, rfl, hu, hs⟩ | ⟨u, us, rfl, hu, rfl⟩
    · have ne : u.kind ≠ .rightParen := by
        intro hk
        rw [hk] at hu
        cases hu
      simp only [Reader.closing, if_neg ne, Matches, report_of_isError _ _ hu]
      exact diagnostic_expect hs _ _
    · simp only [Reader.closing, expect]
      split
      · next hk =>
        show (advance _).Stands u ((Tree.group t e u).writeTo c) us
        refine stands_advance _ _ _ ?_
        rintro rfl
        cases stream e [u] rfl with
        | ending heof => rw [hk] at heof; cases heof
        | cons _ _ h => exact h.ne_nil rfl
      · show some _ = some (Complaint.expectParen.report (u :: us))
        simp [Complaint.report, Complaint.lookahead, firstError?, hu]

/-! ## The simulation -/

theorem isStream_of_found {level : Level} {left room : Nat} {ts : List Token} {e : Tree} {rest : List Token}
    (h : IsStream ts) (found : Reader.Found level left room ts e rest) : IsStream rest := by
  obtain ⟨rfl, fits, _⟩ := found
  exact h.of_append fun t ht => (fits.derives.isProper_of_mem t ht).2

/-- Compiling an expression does what the reader of expressions does. -/
def Simulates (bound left : Nat) : Prop :=
  ∀ (level : Level) (s : Compilation) (previous : Token) (c : Chunk) (ts : List Token), s.Stands previous c ts →
    IsStream ts → ts.length ≤ bound → previous.kind.isError = false →
    (expression bound left level s).Matches c (Reader.expression bound left level c.room previous ts)

theorem binaryOp?_of_isError {k : Kind} (h : k.isError = true) : k.binaryOp? = none := by
  cases k with
  | error cause => rfl
  | _ => cases h

theorem operandStart?_of_isError {k : Kind} (h : k.isError = true) : k.operandStart? = none := by
  cases k with
  | error cause => rfl
  | _ => cases h

theorem diagnostic_operators_expression (bound left : Nat) (level : Level) (n : Nat) {s : Compilation}
    {d : Diagnostic} (h : s.diagnostic = some d) :
    (operators (expression bound left) level n s).diagnostic = some d :=
  diagnostic_operators (fun level _ => diagnostic_expression bound left level) level n h

theorem operators_matches {bound left : Nat} (ih : Simulates bound left) {level : Level} {n : Nat} {s : Compilation}
    {e : Tree} {c : Chunk} {ts : List Token} (h : s.Stands e.last (e.writeTo c) ts) (stream : IsStream ts)
    (len : ts.length ≤ bound) :
    (operators (expression bound left) level n s).Matches c
      (Reader.operators (Reader.expression bound left) level c.room n e ts) := by
  induction n generalizing s e ts with
  | zero => exact h
  | succ n ihn =>
    rcases h.cases with ⟨t, ts, rfl, ht, hs⟩ | ⟨t, ts, rfl, ht, rfl⟩
    · simp only [Reader.operators, binaryOp?_of_isError ht]
      exact stands_of_isError ht (diagnostic_operators_expression bound left level _ hs) _ _ _
    · simp only [operators, Reader.operators]
      cases hop : t.kind.binaryOp? with
      | none => exact h
      | some op =>
        by_cases reach : level.rank ≤ op.level.rank
        · simp only [if_pos reach]
          have proper := (Kind.binaryOp?_eq_some_iff.mp hop) ▸ op.isProper_kind
          have stream := stream.tail proper.2
          have here := stands_advance e.last t (e.writeTo c) stream.ne_nil
          have right := ih op.level.tighter _ t _ ts here stream (Nat.le_of_succ_le len) ht
          rw [Tree.room_writeTo] at right
          cases hr : Reader.expression bound left op.level.tighter (c.room - e.numbers.length) t ts with
          | stuck complaint rest =>
            rw [hr] at right
            refine diagnostic_operators_expression bound left level n ?_
            rw [diagnostic_emitAll]
            exact right
          | tree r rest =>
            rw [hr] at right
            have found := Reader.expression_sound bound left (Nat.le_of_succ_le len) hr
            have done := Stands.emitAll right op.operations
            rw [← Tree.writeTo_binary op e r t c] at done
            refine ihn done (isStream_of_found stream found) ?_
            rw [found.tokens, List.length_cons, List.length_append] at len
            omega
        · simp only [if_neg reach]
          exact h

/-- Taking a token that starts no operand. -/
theorem complain_matches (previous : Token) {t : Token} (ts : List Token) (c : Chunk) (ht : t.kind.isError = false) :
    ((advance ⟨previous, t, ts, c, none⟩).complain .expectExpression).diagnostic =
      some (Complaint.expectExpression.report (t :: ts)) := by
  cases ts with
  | nil => simp [advance, fetch, complain, report, Complaint.report, firstError?, ht]
  | cons u us =>
    cases hu : u.kind.isError with
    | true =>
      have : (advance ⟨previous, t, u :: us, c, none⟩).diagnostic = some (.atToken u u.text) := by
        simp only [advance, fetch, hu, if_true]
        exact fetch_reported ..
      rw [diagnostic_complain this]
      simp [Complaint.report, Complaint.lookahead, firstError?, ht, hu]
    | false => simp [advance, fetch, complain, report, Complaint.report, Complaint.lookahead, firstError?, ht, hu]

/-- The operators after an operand that has been read. -/
theorem operators_operand_matches {bound left : Nat} (ih : Simulates bound left) (level : Level) {s : Compilation}
    {c : Chunk} {t : Token} {ts : List Token} (stream : IsStream (t :: ts)) (len : (t :: ts).length ≤ bound)
    (h : s.Matches c (Reader.operand (Reader.expression bound left) c.room t ts)) :
    (operators (expression bound left) level bound s).Matches c
      (Reader.expression bound (left + 1) level c.room (.synthetic .eof 1) (t :: ts)) := by
  simp only [Reader.expression]
  cases hr : Reader.operand (Reader.expression bound left) c.room t ts with
  | stuck complaint rest =>
    rw [hr] at h
    exact diagnostic_operators_expression bound left level bound h
  | tree e rest =>
    rw [hr] at h
    obtain ⟨htok, fits, _, short⟩ := Reader.operand_ready (Reader.expression_sound bound left) len .unary hr
    exact operators_matches ih h (isStream_of_found stream ⟨htok, fits, Reader.stops_unary _⟩) short

/-- **Compiling simulates reading.** -/
theorem expression_matches (bound left : Nat) : Simulates bound left := by
  induction left with
  | zero =>
    -- the complaint is about the token before, but the one in front has been looked at
    intro level s previous c ts h stream len hp
    show (s.complain .nestsTooDeeply).diagnostic = some (Complaint.nestsTooDeeply.report (previous :: ts))
    rcases h.cases with ⟨t, ts, rfl, ht, hs⟩ | ⟨t, ts, rfl, ht, rfl⟩
    · rw [diagnostic_complain hs]
      simp [Complaint.report, Complaint.lookahead, firstError?, hp, ht]
    · simp [complain, report, Complaint.report, Complaint.lookahead, firstError?, hp, ht]
  | succ left ih =>
    intro level s previous c ts h stream len hp
    rcases h.cases with ⟨t, ts, rfl, ht, hs⟩ | ⟨t, ts, rfl, ht, rfl⟩
    · simp only [Reader.expression, Reader.operand_none _ _ _ (operandStart?_of_isError ht), Reading.bind, Matches,
        report_of_isError _ _ ht]
      exact diagnostic_expression bound (left + 1) level hs
    · rcases t.kind.start_cases with hk | ⟨l, hk⟩ | hk | ⟨op, hk⟩ | hk
      · have here := stands_advance previous t c (stream.tail (by rw [hk]; decide)).ne_nil
        have operand := emitNumber_matches here hk (stream.isSpelled_of_mem t (List.mem_cons_self ..))
        rw [← Reader.operand_number (Reader.expression bound left) _ _ hk] at operand
        simp only [expression, previous_advance, hk, Kind.operandStart?]
        exact operators_operand_matches ih level stream len operand
      · have here := stands_advance previous t c (stream.tail (hk ▸ l.isProper_kind).2).ne_nil
        have operand := emit_matches here l
        rw [← Reader.operand_literal (Reader.expression bound left) c.room _ l hk] at operand
        simp only [expression, previous_advance, hk, l.operandStart?_kind]
        exact operators_operand_matches ih level stream len operand
      · have inner := stream.tail (by rw [hk]; decide)
        have here := stands_advance previous t c inner.ne_nil
        have len' := Nat.le_of_succ_le len
        have body := ih .equality _ t c ts here inner len' ht
        have operand := expect_matches body t fun e rest hr =>
          isStream_of_found inner (Reader.expression_sound bound left len' hr)
        rw [← Reader.operand_group _ _ _ hk] at operand
        simp only [expression, previous_advance, hk, Kind.operandStart?]
        exact operators_operand_matches ih level stream len operand
      · have inner := stream.tail (hk ▸ op.isProper_kind).2
        have here := stands_advance previous t c inner.ne_nil
        have body := ih .unary _ t c ts here inner (Nat.le_of_succ_le len) ht
        have operand := unary_matches body op t
        rw [← Reader.operand_unary _ _ _ op hk] at operand
        simp only [expression, previous_advance, hk, op.operandStart?_kind]
        exact operators_operand_matches ih level stream len operand
      · simp only [expression, previous_advance, hk, Reader.expression, Reader.operand_none _ _ _ hk, Reading.bind]
        exact complain_matches previous ts c ht

end Compilation

end Abacus

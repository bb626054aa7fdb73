import Abacus.Compiler

/-!
# Compiling without lines

Tokens, chunks and reports can be stripped of their lines and places.  Each step of a compilation does to the stripped
state what it does to the state itself, so nothing but lines depends on them.

* `Compilation.unplaced_expression`: reading an expression, on every path;
* `Compilation.unplaced_ofTokens`: a whole compilation shows the kinds and texts of the tokens only.
-/

namespace Abacus

/-! ## What is left without lines and places -/

/-- A token of which only the kind and the text are kept. -/
def Token.unplaced (t : Token) : Token :=
  { t with line := 0, start := 0 }

/-- A chunk with a line table of the same length that tells nothing. -/
def Chunk.unplaced (c : Chunk) : Chunk :=
  { c with lines := c.lines.map fun _ => 0 }

def Diagnostic.unplaced (d : Diagnostic) : Diagnostic :=
  { d with line := 0 }

theorem Chunk.unplaced_write (c : Chunk) (byte : UInt8) (line : Line) :
    (c.write byte line).unplaced = c.unplaced.write byte 0 := by
  simp [write, unplaced]

theorem Chunk.addConstant_unplaced (c : Chunk) (v : Value) :
    c.unplaced.addConstant v = (c.addConstant v).map fun p => (p.1, p.2.unplaced) := by
  have same : c.unplaced.constants = c.constants := rfl
  simp only [addConstant, same]
  split <;> rfl

namespace Compilation

def unplaced (s : Compilation) : Compilation :=
  ⟨s.previous.unplaced, s.current.unplaced, s.rest.map Token.unplaced, s.chunk.unplaced,
    s.diagnostic.map Diagnostic.unplaced⟩

/-! ## Steps -/

variable (s : Compilation)

theorem unplaced_report (d : Diagnostic) : (s.report d).unplaced = s.unplaced.report d.unplaced := by
  cases h : s.diagnostic <;> simp [report, unplaced, h]

theorem unplaced_complain (c : Complaint) : (s.complain c).unplaced = s.unplaced.complain c :=
  s.unplaced_report _

/-- Fetching passes the same tokens over. -/
theorem fetch_unplaced (last : Token) (d : Option Diagnostic) (ts : List Token) :
    fetch last.unplaced (d.map Diagnostic.unplaced) (ts.map Token.unplaced) =
      ((fetch last d ts).1.unplaced, (fetch last d ts).2.1.map Token.unplaced,
        (fetch last d ts).2.2.map Diagnostic.unplaced) := by
  induction ts generalizing d with
  | nil => rfl
  | cons t ts ih =>
    have kind : t.unplaced.kind.isError = t.kind.isError := rfl
    simp only [List.map_cons, fetch, kind]
    split
    · rw [← ih]
      cases d <;> rfl
    · rfl

theorem unplaced_advance : s.advance.unplaced = s.unplaced.advance := by
  have fetched := fetch_unplaced s.current s.diagnostic s.rest
  simp only [advance, unplaced, fetched]

theorem unplaced_expect (kind : Kind) (c : Complaint) : (s.expect kind c).unplaced = s.unplaced.expect kind c := by
  have same : s.unplaced.current.kind = s.current.kind := rfl
  simp only [expect, same]
  split
  · exact s.unplaced_advance
  · exact s.unplaced_report _

theorem unplaced_emitByte (byte : UInt8) : (s.emitByte byte).unplaced = s.unplaced.emitByte byte := by
  simp only [emitByte, unplaced, Chunk.unplaced_write]
  rfl

theorem unplaced_emit (o : Operation) : (s.emit o).unplaced = s.unplaced.emit o :=
  s.unplaced_emitByte o.byte

theorem unplaced_emitAll (os : List Operation) : (s.emitAll os).unplaced = s.unplaced.emitAll os := by
  induction os generalizing s with
  | nil => rfl
  | cons o os ih =>
    show ((s.emit o).emitAll os).unplaced = (s.unplaced.emit o).emitAll os
    rw [ih, unplaced_emit]

theorem unplaced_emitConstant (v : Value) : (s.emitConstant v).unplaced = s.unplaced.emitConstant v := by
  have added : s.unplaced.chunk.addConstant v = _ := s.chunk.addConstant_unplaced v
  simp only [emitConstant, added]
  cases s.chunk.addConstant v with
  | ok p =>
    obtain ⟨index, chunk⟩ := p
    show Compilation.unplaced (emitByte _ index) = _
    rw [unplaced_emitByte, unplaced_emitByte]
    rfl
  | error e =>
    show Compilation.unplaced (emitByte _ 0) = _
    rw [unplaced_emitByte, unplaced_emitByte, unplaced_complain]
    rfl

theorem unplaced_emitNumber : s.emitNumber.unplaced = s.unplaced.emitNumber := by
  have same : s.unplaced.previous.text = s.previous.text := rfl
  simp only [emitNumber, same]
  split
  · exact s.unplaced_emitConstant _
  · exact s.unplaced_complain _

/-! ## Expressions -/

theorem unplaced_operators {operand : Level → Compilation → Compilation}
    (h : ∀ level s, (operand level s).unplaced = operand level s.unplaced) (level : Level) (bound : Nat) :
    (operators operand level bound s).unplaced = operators operand level bound s.unplaced := by
  induction bound generalizing s with
  | zero => rfl
  | succ bound ih =>
    have same : s.unplaced.current.kind = s.current.kind := rfl
    simp only [operators, same]
    split
    · split
      · rw [ih, unplaced_emitAll, h, unplaced_advance]
      · rfl
    · rfl

/-- **Reading an expression** looks at no line and no place. -/
theorem unplaced_expression (bound left : Nat) (level : Level) :
    (expression bound left level s).unplaced = expression bound left level s.unplaced := by
  induction left generalizing level s with
  | zero => exact s.unplaced_complain _
  | succ left ih =>
    simp only [expression, ← unplaced_advance]
    have same : s.advance.unplaced.previous.kind = s.advance.previous.kind := rfl
    rw [same]
    split
    · exact s.advance.unplaced_complain _
    · next start _ =>
      rw [unplaced_operators _ (fun level s => ih s level)]
      congr 1
      cases start with
      | number => exact unplaced_emitNumber _
      | literal o => exact unplaced_emit _ o
      | group => rw [unplaced_expect, ih]
      | unary op => rw [unplaced_emit, ih]

theorem unplaced_start {ts us : List Token} {c d : Chunk} (tokens : ts.map Token.unplaced = us.map Token.unplaced)
    (chunks : c.unplaced = d.unplaced) : (start ts c).unplaced = (start us d).unplaced := by
  simp only [start, unplaced, tokens, chunks]

/-- **A compilation shows the kinds and the texts of the tokens only.** -/
theorem unplaced_ofTokens {ts us : List Token} {c d : Chunk} (tokens : ts.map Token.unplaced = us.map Token.unplaced)
    (chunks : c.unplaced = d.unplaced) : (ofTokens ts c).unplaced = (ofTokens us d).unplaced := by
  have length : ts.length = us.length := by simpa using congrArg List.length tokens
  simp only [ofTokens, unplaced_emit, unplaced_expect, unplaced_expression, unplaced_advance,
    unplaced_start tokens chunks, length]

end Compilation

end Abacus

import Abacus.Chunk.Listing
import Abacus.Diagnostic
import Abacus.Expression.Operator
import Abacus.Token.Cursor

/-!
# The compiler

Compiles one expression into a chunk in a single pass with one token of lookahead; no tree is built.  Operators
are read by level, as deep as `maxNesting` allows, and the operations of an operator are written after its
operands.  Only the first problem of a source is reported; compilation then goes on in silence, and the chunk
ends with the return operation in any case.

`expression` recurs on the levels of nesting that are left, `operators` on a bound of the tokens that are left.
-/

namespace Abacus

/-- A problem that the compiler itself finds. -/
inductive Complaint where
  | expectExpression
  | expectParen
  | expectEnd
  | nestsTooDeeply
  | tooManyConstants
  | invalidNumber
  deriving Repr, DecidableEq

/-- The wording of a problem. -/
def Complaint.message : Complaint → String
  | expectExpression => "Expect expression."
  | expectParen => "Expect ')' after expression."
  | expectEnd => "Expect end of expression."
  | nestsTooDeeply => "Expression nests too deeply."
  | tooManyConstants => ChunkError.message .tooManyConstants
  | invalidNumber => "Invalid number literal."

/-- A compilation under way. -/
structure Compilation where
  /-- The token taken last. -/
  previous : Token
  /-- The token looked at. -/
  current : Token
  /-- The tokens after it. -/
  rest : List Token
  chunk : Chunk
  /-- The problem to report. -/
  diagnostic : Option Diagnostic

namespace Compilation

/-- The most operands, groups and unary operators that may be open at once. -/
def maxNesting : Nat := 1024

/-! ## Reporting -/

/-- Keeps the first problem only. -/
def report (s : Compilation) (d : Diagnostic) : Compilation :=
  { s with diagnostic := s.diagnostic.or (some d) }

/-- Reports a problem at the token taken last. -/
def complain (s : Compilation) (c : Complaint) : Compilation :=
  s.report (.atToken s.previous c.message)

/-! ## Tokens -/

/-- The next token that is no error, or `last` at the end of the source; error tokens on the way are reported
and passed over. -/
def fetch (last : Token) (d : Option Diagnostic) : List Token → Token × List Token × Option Diagnostic
  | [] => (last, [], d)
  | t :: ts =>
    if t.kind.isError then fetch last (d.or (some (.atToken t t.text))) ts else (t, ts, d)

/-- Takes a token. The end token stays in front for ever. -/
def advance (s : Compilation) : Compilation :=
  let (next, rest, diagnostic) := fetch s.current s.diagnostic s.rest
  { s with previous := s.current, current := next, rest, diagnostic }

/-- Takes a token of the given kind, or reports a problem at the token that stands in its place. -/
def expect (s : Compilation) (kind : Kind) (c : Complaint) : Compilation :=
  if s.current.kind = kind then s.advance else s.report (.atToken s.current c.message)

/-! ## Code -/

/-- Writes a byte on the line of the token taken last. -/
def emitByte (s : Compilation) (byte : UInt8) : Compilation :=
  { s with chunk := s.chunk.write byte s.previous.line }

/-- Writes an operation. -/
def emit (s : Compilation) (o : Operation) : Compilation :=
  s.emitByte o.byte

/-- Writes operations in order. -/
def emitAll (s : Compilation) (os : List Operation) : Compilation :=
  os.foldl emit s

/-- Writes an instruction for a constant; without room for it, one for the constant with index 0. -/
def emitConstant (s : Compilation) (v : Value) : Compilation :=
  match s.chunk.addConstant v with
  | .ok (index, chunk) => ({ s with chunk }.emitByte Opcode.constant.byte).emitByte index
  | .error _ => ((s.complain .tooManyConstants).emitByte Opcode.constant.byte).emitByte 0

/-- Writes the number that the token taken last writes. -/
def emitNumber (s : Compilation) : Compilation :=
  match Decimal.ofNumeral? s.previous.text.toList with
  | some d => s.emitConstant (.number d.toFloat)
  | none => s.complain .invalidNumber

/-! ## Expressions -/

/-- Reads binary operators of at least the given level with their right operands, at most as many as the bound
allows. -/
def operators (operand : Level → Compilation → Compilation) (level : Level) : Nat → Compilation → Compilation
  | 0, s => s
  | bound + 1, s =>
    match s.current.kind.binaryOp? with
    | some op =>
      if level.rank ≤ op.level.rank then
        operators operand level bound ((operand op.level.tighter s.advance).emitAll op.operations)
      else s
    | none => s

/-- Reads an expression of at least the given level. The bound is one for the tokens of the source, the number
after it the levels of nesting that are left. -/
def expression (bound : Nat) : Nat → Level → Compilation → Compilation
  | 0, _, s => s.complain .nestsTooDeeply
  | left + 1, level, s =>
    let s := s.advance
    match s.previous.kind.operandStart? with
    | none => s.complain .expectExpression
    | some start =>
      let operand :=
        match start with
        | .number => s.emitNumber
        | .literal o => s.emit o
        | .group => (expression bound left .equality s).expect .rightParen .expectParen
        | .unary op => (expression bound left .unary s).emit op.operation
      operators (expression bound left) level bound operand

/-- A compilation that has taken no token yet. -/
def start (source : List Token) (c : Chunk) : Compilation :=
  ⟨.synthetic .eof 1, .synthetic .eof 1, source, c, none⟩

/-- Reads a source of one expression. -/
def ofTokens (source : List Token) (c : Chunk) : Compilation :=
  let s := (start source c).advance
  ((expression source.length maxNesting .equality s).expect .eof .expectEnd).emit .return

end Compilation

/-- What compiling a source leaves: the chunk with all that was written, and what was reported. -/
structure Compiled where
  chunk : Chunk
  diagnostics : List Diagnostic

/-- Compiles a source into a chunk, after what it holds. -/
def compile (source : String) (c : Chunk) : Compiled :=
  let s := Compilation.ofTokens (tokens source) c
  ⟨s.chunk, s.diagnostic.toList⟩

/-- The listing of a source compiled on its own, or what was reported about it. -/
def listingOf (source name : String) : Except (List Diagnostic) String :=
  let compiled := compile source .empty
  match compiled.diagnostics with
  | [] => .ok (compiled.chunk.listing name)
  | ds => .error ds

end Abacus

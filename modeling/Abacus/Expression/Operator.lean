import Abacus.Chunk.Opcode
import Abacus.Token.Kind

/-!
# Operators

The operators of the language: which token writes them, how tightly they bind and the operations that carry
them out once their operands are on the stack.
-/

namespace Abacus

/-- How tightly an operator binds, loosest first. -/
inductive Level where
  | equality | comparison | term | factor | unary
  deriving Repr, DecidableEq

namespace Level

/-- The position of a level, loosest first. -/
def rank : Level → Nat
  | equality => 0
  | comparison => 1
  | term => 2
  | factor => 3
  | unary => 4

/-- The next tighter level. The right operand of a binary operator is read there, so that a chain of operators
of one level groups to the left. -/
def tighter : Level → Level
  | equality => comparison
  | comparison => term
  | term => factor
  | factor => unary
  | unary => unary

end Level

/-- An operator before its operand. -/
inductive UnaryOp where
  | not | negate
  deriving Repr, DecidableEq

/-- The operation of a unary operator. -/
def UnaryOp.operation : UnaryOp → Operation
  | not => .not
  | negate => .negate

/-- An operator between its operands. -/
inductive BinaryOp where
  | equal | notEqual
  | greater | greaterEqual | less | lessEqual
  | add | subtract | multiply | divide
  deriving Repr, DecidableEq

namespace BinaryOp

/-- How tightly an operator binds. -/
def level : BinaryOp → Level
  | equal | notEqual => .equality
  | greater | greaterEqual | less | lessEqual => .comparison
  | add | subtract => .term
  | multiply | divide => .factor

/-- The operations of an operator. Three comparisons are the negation of another one. -/
def operations : BinaryOp → List Operation
  | equal => [.equal]
  | notEqual => [.equal, .not]
  | greater => [.greater]
  | greaterEqual => [.less, .not]
  | less => [.less]
  | lessEqual => [.greater, .not]
  | add => [.add]
  | subtract => [.subtract]
  | multiply => [.multiply]
  | divide => [.divide]

end BinaryOp

/-- How an operand starts. -/
inductive OperandStart where
  | number
  /-- A literal other than a number, with the operation that pushes it. -/
  | literal (o : Operation)
  | group
  | unary (op : UnaryOp)
  deriving Repr, DecidableEq

namespace Kind

/-- The operand that a token starts. -/
def operandStart? : Kind → Option OperandStart
  | number => some .number
  | nilWord => some (.literal .nil)
  | trueWord => some (.literal .true)
  | falseWord => some (.literal .false)
  | leftParen => some .group
  | bang => some (.unary .not)
  | minus => some (.unary .negate)
  | _ => none

/-- The binary operator that a token writes. -/
def binaryOp? : Kind → Option BinaryOp
  | equalEqual => some .equal
  | bangEqual => some .notEqual
  | greater => some .greater
  | greaterEqual => some .greaterEqual
  | less => some .less
  | lessEqual => some .lessEqual
  | plus => some .add
  | minus => some .subtract
  | star => some .multiply
  | slash => some .divide
  | _ => none

end Kind

end Abacus

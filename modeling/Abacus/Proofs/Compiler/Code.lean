import Abacus.Compiler
import Abacus.Proofs.Syntax.Tree
import Abacus.Proofs.Token.Stream

/-!
# The code of a tree

The translation of a tree in post-order: the code of the operands before the operations of an operator, constants
numbered in the order of the source.  `Tree.code` gives each byte with its line; `Tree.writeTo` appends code and
constants to a chunk, and what the chunk held before stays as it was.
-/

namespace Abacus

/-! ## Trees -/

/-- The constant for a number token. -/
def Token.constant (t : Token) : Value :=
  .number t.numeral.toFloat

namespace Tree

/-- The code of a tree, each byte with its line, when `k` constants are there before it. -/
def code (k : Nat) : Tree → List (UInt8 × Line)
  | number t => [(Opcode.constant.byte, t.line), (UInt8.ofNat k, t.line)]
  | literal l t => [(l.operation.byte, t.line)]
  | group _ e _ => e.code k
  | unary op _ e => e.code k ++ [(op.operation.byte, e.last.line)]
  | binary op left _ right =>
    left.code k ++ right.code (k + left.numbers.length) ++ op.operations.map fun o => (o.byte, right.last.line)

/-- The constants of a tree. -/
def constants (e : Tree) : List Value :=
  e.numbers.map Token.constant

theorem constants_binary (op : BinaryOp) (left right : Tree) (t : Token) :
    (binary op left t right).constants = left.constants ++ right.constants :=
  List.map_append

theorem length_constants (e : Tree) : e.constants.length = e.numbers.length :=
  List.length_map _

end Tree

/-! ## Chunks -/

namespace Chunk

/-- The chunk with further code and constants. -/
def extend (c : Chunk) (code : List (UInt8 × Line)) (constants : List Value) : Chunk where
  code := c.code ++ (code.map Prod.fst).toArray
  lines := c.lines ++ (code.map Prod.snd).toArray
  constants := c.constants ++ constants.toArray

@[simp] theorem extend_nil (c : Chunk) : c.extend [] [] = c := by
  simp [extend]

theorem extend_extend (c : Chunk) (code code' : List (UInt8 × Line)) (constants constants' : List Value) :
    (c.extend code constants).extend code' constants' = c.extend (code ++ code') (constants ++ constants') := by
  simp [extend]

theorem write_eq_extend (c : Chunk) (byte : UInt8) (line : Line) : c.write byte line = c.extend [(byte, line)] [] := by
  simp [extend, write]

theorem size_constants_extend (c : Chunk) (code : List (UInt8 × Line)) (constants : List Value) :
    (c.extend code constants).constants.size = c.constants.size + constants.length := by
  simp [extend]

/-- The constants that can still be added. -/
def room (c : Chunk) : Nat :=
  maxConstants - c.constants.size

theorem addConstant_of_room {c : Chunk} (h : 0 < c.room) (v : Value) :
    c.addConstant v = .ok (UInt8.ofNat c.constants.size, c.extend [] [v]) := by
  have lt : c.constants.size < maxConstants := by
    unfold room at h
    omega
  simp [addConstant, lt, extend]

theorem addConstant_of_full {c : Chunk} (h : ¬ 0 < c.room) (v : Value) :
    c.addConstant v = .error .tooManyConstants := by
  have le : ¬ c.constants.size < maxConstants := by
    unfold room at h
    omega
  simp [addConstant, le]

end Chunk

namespace Tree

/-- The chunk with the code and the constants of a tree. -/
def writeTo (e : Tree) (c : Chunk) : Chunk :=
  c.extend (e.code c.constants.size) e.constants

theorem size_constants_writeTo (e : Tree) (c : Chunk) :
    (e.writeTo c).constants.size = c.constants.size + e.numbers.length := by
  rw [writeTo, Chunk.size_constants_extend, length_constants]

theorem room_writeTo (e : Tree) (c : Chunk) : (e.writeTo c).room = c.room - e.numbers.length := by
  unfold Chunk.room
  rw [size_constants_writeTo]
  omega

theorem writeTo_unary (op : UnaryOp) (t : Token) (e : Tree) (c : Chunk) :
    (unary op t e).writeTo c = (e.writeTo c).extend [(op.operation.byte, e.last.line)] [] := by
  simp [writeTo, code, constants, numbers, Chunk.extend_extend]

theorem writeTo_binary (op : BinaryOp) (left right : Tree) (t : Token) (c : Chunk) :
    (binary op left t right).writeTo c =
      (right.writeTo (left.writeTo c)).extend (op.operations.map fun o => (o.byte, right.last.line)) [] := by
  rw [writeTo, writeTo, size_constants_writeTo, writeTo]
  simp [code, constants, numbers, Chunk.extend_extend]

end Tree

end Abacus

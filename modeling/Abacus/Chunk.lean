import Abacus.Chunk.Opcode
import Abacus.Token
import Abacus.Value

/-!
# Chunks

A chunk is compiled code: instruction bytes, the source line of each byte, and the constants that the code
refers to by index.  Chunks only grow.  `instruction?` is the one decoder; running and listing a chunk both
go through it.
-/

namespace Abacus

/-- Compiled code. -/
structure Chunk where
  code : Array UInt8
  /-- The source line of each code byte. -/
  lines : Array Line
  constants : Array Value
  deriving Inhabited

/-- What building a chunk can refuse. -/
inductive ChunkError where
  /-- The constants are used up: an index is one byte. -/
  | tooManyConstants
  /-- The byte is no opcode. -/
  | unknownOpcode (byte : UInt8)
  deriving Repr, DecidableEq

/-- Two upper-case hexadecimal digits. -/
def hexByte (b : UInt8) : String :=
  String.ofList (((Nat.toDigits 16 b.toNat).map Char.toUpper).leftpad 2 '0')

/-- The wording of a refusal. -/
def ChunkError.message : ChunkError → String
  | tooManyConstants => "Too many constants in one chunk."
  | unknownOpcode byte => "unknown opcode 0x" ++ hexByte byte

/-- An instruction as it stands at some offset of a chunk, whole or not. -/
inductive Instruction where
  /-- The constant instruction with its operand. -/
  | constant (index : UInt8)
  /-- The constant instruction at the end of the code, without its operand. -/
  | truncated
  | plain (o : Operation)
  /-- A byte that is no opcode. -/
  | unknown (byte : UInt8)
  deriving Repr, DecidableEq

/-- The number of bytes that an instruction takes. -/
def Instruction.width : Instruction → Nat
  | constant _ => 2
  | _ => 1

theorem Instruction.width_pos (i : Instruction) : 0 < i.width := by
  cases i <;> simp [width]

namespace Chunk

/-- The chunk without code and constants. -/
def empty : Chunk :=
  ⟨#[], #[], #[]⟩

/-- The most constants that code can refer to. -/
def maxConstants : Nat := 256

/-! ## Growing -/

/-- Appends a byte with its source line. -/
def write (c : Chunk) (byte : UInt8) (line : Line) : Chunk :=
  { c with code := c.code.push byte, lines := c.lines.push line }

/-- Appends a constant and gives its index, unless the indices are used up. -/
def addConstant (c : Chunk) (v : Value) : Except ChunkError (UInt8 × Chunk) :=
  let index := c.constants.size
  if index < maxConstants then .ok (UInt8.ofNat index, { c with constants := c.constants.push v })
  else .error .tooManyConstants

/-! ## Reading -/

/-- The constant with the given index. -/
def constant? (c : Chunk) (index : UInt8) : Option Value :=
  c.constants[index.toNat]?

/-- The source line of the byte at an offset. -/
def lineAt? (c : Chunk) (offset : Nat) : Option Line :=
  c.lines[offset]?

/-- The source line of the byte at an offset, 0 beyond the table. -/
def lineAt (c : Chunk) (offset : Nat) : Line :=
  (c.lineAt? offset).getD 0

/-- The instruction at an offset; `none` past the end of the code. -/
def instruction? (c : Chunk) (offset : Nat) : Option Instruction :=
  c.code[offset]?.map fun byte =>
    match Opcode.ofByte? byte with
    | some .constant =>
      match c.code[offset + 1]? with
      | some index => .constant index
      | none => .truncated
    | some (.plain o) => .plain o
    | none => .unknown byte

theorem lt_size_of_instruction? {c : Chunk} {offset : Nat} {i : Instruction}
    (h : c.instruction? offset = some i) : offset < c.code.size := by
  unfold instruction? at h
  obtain ⟨byte, found, _⟩ := Option.map_eq_some_iff.mp h
  exact (Array.getElem?_eq_some_iff.mp found).1

/-- The offset after the instruction at an offset; past the end each offset counts by itself. -/
def nextOffset (c : Chunk) (offset : Nat) : Nat :=
  match c.instruction? offset with
  | some i => offset + i.width
  | none => offset + 1

theorem lt_nextOffset (c : Chunk) (offset : Nat) : offset < c.nextOffset offset := by
  unfold nextOffset
  split
  · next i _ => exact Nat.lt_add_of_pos_right i.width_pos
  · exact Nat.lt_succ_self offset

end Chunk

end Abacus

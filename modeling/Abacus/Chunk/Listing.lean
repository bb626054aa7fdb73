import Abacus.Chunk
import Abacus.Text.Column

/-!
# Listings

A chunk as text: a heading and one row for each instruction, with its offset, its line (a bar when the byte
before has the same line) and its name; a constant instruction also shows its operand and the constant.
-/

namespace Abacus.Chunk

/-- The line column of the row for an offset. -/
def lineColumn (c : Chunk) (offset : Nat) : String :=
  let line := c.lineAt offset
  if 0 < offset ∧ c.lineAt? (offset - 1) = some line then "   | " else Column.right 4 line.toNat ++ " "

/-- A constant instruction: name and what its operand refers to. -/
def constantText (c : Chunk) (index : UInt8) : String :=
  let shown :=
    match c.constant? index with
    | some v => "'" ++ v.display ++ "'"
    | none => "<invalid>"
  Column.left 16 Opcode.constant.name ++ " " ++ Column.right 4 index.toNat ++ " " ++ shown

/-- The text of an instruction, without the columns before it. -/
def instructionText (c : Chunk) : Option Instruction → String
  | none => "<end of chunk>"
  | some (.plain o) => o.name
  | some (.constant index) => c.constantText index
  | some .truncated => Column.left 16 Opcode.constant.name ++ " <truncated>"
  | some (.unknown byte) => "Unknown opcode " ++ Nat.repr byte.toNat

/-- The row for an offset, which may lie past the end of the code. -/
def row (c : Chunk) (offset : Nat) : String :=
  Column.zeroed 4 offset ++ " " ++ c.lineColumn offset ++ c.instructionText (c.instruction? offset)

/-- Appends the rows from an offset on. -/
def addRows (c : Chunk) (offset : Nat) (listed : String) : String :=
  if offset < c.code.size then addRows c (c.nextOffset offset) (listed ++ c.row offset ++ "\n")
  else listed
termination_by c.code.size - offset
decreasing_by
  have := c.lt_nextOffset offset
  omega

/-- The listing of a chunk under a name. -/
def listing (c : Chunk) (name : String) : String :=
  c.addRows 0 ("== " ++ name ++ " ==\n")

end Abacus.Chunk

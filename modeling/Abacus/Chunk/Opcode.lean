/-!
# Opcodes

The instruction set: `constant` takes one operand byte, an index into the constants; every other opcode is a
plain operation on the stack.  An opcode is one byte, `0x00` to `0x0D`, and `ofByte?` inverts `byte`.
-/

namespace Abacus

/-- An operation on the stack that takes no operand byte. -/
inductive Operation where
  | nil | true | false
  | equal | greater | less
  | add | subtract | multiply | divide
  | not | negate | return
  deriving Repr, DecidableEq

/-- The first byte of an instruction. -/
inductive Opcode where
  /-- Pushes the constant whose index follows. -/
  | constant
  | plain (o : Operation)
  deriving Repr, DecidableEq

namespace Operation

/-- The name of an operation in listings. -/
def name : Operation → String
  | nil => "OP_NIL"
  | true => "OP_TRUE"
  | false => "OP_FALSE"
  | equal => "OP_EQUAL"
  | greater => "OP_GREATER"
  | less => "OP_LESS"
  | add => "OP_ADD"
  | subtract => "OP_SUBTRACT"
  | multiply => "OP_MULTIPLY"
  | divide => "OP_DIVIDE"
  | not => "OP_NOT"
  | negate => "OP_NEGATE"
  | «return» => "OP_RETURN"

/-- The byte of an operation. -/
def byte : Operation → UInt8
  | nil => 0x01
  | true => 0x02
  | false => 0x03
  | equal => 0x04
  | greater => 0x05
  | less => 0x06
  | add => 0x07
  | subtract => 0x08
  | multiply => 0x09
  | divide => 0x0A
  | not => 0x0B
  | negate => 0x0C
  | «return» => 0x0D

end Operation

namespace Opcode

/-- The name of an opcode in listings. -/
def name : Opcode → String
  | constant => "OP_CONSTANT"
  | plain o => o.name

/-- The byte of an opcode. -/
def byte : Opcode → UInt8
  | constant => 0x00
  | plain o => o.byte

/-- The number of operand bytes after an opcode. -/
def operandCount : Opcode → Nat
  | constant => 1
  | plain _ => 0

/-- The opcode of a byte. -/
def ofByte? (b : UInt8) : Option Opcode :=
  match b.toNat with
  | 0x00 => some constant
  | 0x01 => some (plain .nil)
  | 0x02 => some (plain .true)
  | 0x03 => some (plain .false)
  | 0x04 => some (plain .equal)
  | 0x05 => some (plain .greater)
  | 0x06 => some (plain .less)
  | 0x07 => some (plain .add)
  | 0x08 => some (plain .subtract)
  | 0x09 => some (plain .multiply)
  | 0x0A => some (plain .divide)
  | 0x0B => some (plain .not)
  | 0x0C => some (plain .negate)
  | 0x0D => some (plain .return)
  | _ => none

theorem ofByte?_byte (o : Opcode) : ofByte? o.byte = some o := by
  cases o with
  | constant => rfl
  | plain o => cases o <;> rfl

theorem byte_of_ofByte? {b : UInt8} {o : Opcode} (h : ofByte? b = some o) : o.byte = b := by
  unfold ofByte? at h
  split at h <;> cases h
  all_goals exact UInt8.toNat_inj.mp (Eq.symm ‹b.toNat = _›)

end Opcode

end Abacus

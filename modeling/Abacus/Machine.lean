import Abacus.Chunk.Listing
import Abacus.Machine.Stack

/-!
# The machine

Runs the code of a chunk on a stack of values.  `Machine.step` executes one instruction, `Machine.run` goes on
until the return operation or a fault.  Instructions only ever move forward, so the size of the code bounds the
steps of a run.

A fault is placed at the last byte that was read before it: a runtime fault by the line of that byte, a
corruption by its offset.
-/

namespace Abacus

/-! ## Faults -/

/-- A fault of the program. -/
inductive RuntimeFault where
  | stackOverflow
  | operandNotNumber
  | operandsNotNumbers
  deriving Repr, DecidableEq

/-- The wording of a runtime fault. -/
def RuntimeFault.message : RuntimeFault → String
  | stackOverflow => "Stack overflow."
  | operandNotNumber => "Operand must be a number."
  | operandsNotNumbers => "Operands must be numbers."

/-- A fault of the chunk. Code from the compiler never has one. -/
inductive Corruption where
  | pastEnd
  | unknownOpcode
  | noSuchConstant
  | stackUnderflow
  deriving Repr, DecidableEq

/-- The wording of a corruption. -/
def Corruption.reason : Corruption → String
  | pastEnd => "instruction pointer past end of chunk"
  | unknownOpcode => "unknown opcode"
  | noSuchConstant => "constant index out of range"
  | stackUnderflow => "stack underflow"

/-- Why an instruction cannot be executed. -/
inductive Fault where
  | runtime (cause : RuntimeFault)
  | corrupted (cause : Corruption)
  deriving Repr, DecidableEq

/-- A fault with its place. -/
inductive RunError where
  | runtime (cause : RuntimeFault) (line : Line)
  | corrupted (offset : Nat) (cause : Corruption)
  deriving Repr, DecidableEq

/-- A run error as one text. -/
def RunError.text : RunError → String
  | runtime cause line => cause.message ++ "\n[line " ++ Nat.repr line.toNat ++ "] in script"
  | corrupted offset cause => "corrupted chunk at offset " ++ Nat.repr offset ++ ": " ++ cause.reason

/-- Places a fault that arose when the bytes before `ip` were read. -/
def Fault.locate (c : Chunk) (ip : Nat) : Fault → RunError
  | runtime cause => .runtime cause (c.lineAt (ip - 1))
  | corrupted cause => .corrupted (ip - 1) cause

/-! ## Operations -/

/-- What executing an operation does to the stack. -/
inductive Effect where
  | continue (s : Stack)
  /-- Ends the run with a value. -/
  | finish (v : Value) (s : Stack)
  | fault (f : Fault)

namespace Stack

/-- Puts a value on top; a full stack overflows. -/
def push (s : Stack) (v : Value) : Effect :=
  match s.push? v with
  | some t => .continue t
  | none => .fault (.runtime .stackOverflow)

/-- Goes on with the top value taken off; an empty stack underflows. -/
def popping (s : Stack) (k : Value → Stack → Effect) : Effect :=
  match s.pop? with
  | some (v, t) => k v t
  | none => .fault (.corrupted .stackUnderflow)

/-- Replaces the two upper values, both numbers, by a value computed from them; the lower one is the left
operand. -/
def combine (s : Stack) (f : Float → Float → Value) : Effect :=
  s.popping fun right s => s.popping fun left s =>
    match left.number?, right.number? with
    | some x, some y => s.push (f x y)
    | _, _ => .fault (.runtime .operandsNotNumbers)

/-- Executes an operation. -/
def perform (s : Stack) : Operation → Effect
  | .nil => s.push .nil
  | .true => s.push (.bool true)
  | .false => s.push (.bool false)
  | .equal => s.popping fun right s => s.popping fun left s => s.push (.bool (left == right))
  | .greater => s.combine fun x y => .bool (x > y)
  | .less => s.combine fun x y => .bool (x < y)
  | .add => s.combine fun x y => .number (x + y)
  | .subtract => s.combine fun x y => .number (x - y)
  | .multiply => s.combine fun x y => .number (x * y)
  | .divide => s.combine fun x y => .number (x / y)
  | .not => s.popping fun v s => s.push (.bool v.isFalsey)
  | .negate => s.popping fun v s =>
    match v.number? with
    | some x => s.push (.number (-x))
    | none => .fault (.runtime .operandNotNumber)
  | .return => s.popping .finish

end Stack

/-! ## Running -/

/-- A machine between two instructions. -/
structure Machine where
  /-- The offset of the next instruction. -/
  ip : Nat
  stack : Stack

/-- What one instruction leads to. -/
inductive Step where
  | next (m : Machine)
  | done (v : Value) (s : Stack)
  /-- A fault, with the offset after the bytes that were read. -/
  | failed (f : Fault) (ip : Nat)

/-- What an operation leads to when the bytes before `ip` were read. -/
def Effect.atOffset (ip : Nat) : Effect → Step
  | «continue» s => .next ⟨ip, s⟩
  | finish v s => .done v s
  | fault f => .failed f ip

/-- A look at a machine that is about to read an instruction. -/
structure Fetch where
  offset : Nat
  /-- The values on the stack, bottom first. -/
  stack : List Value

/-- How a run ended. -/
structure Run where
  result : Except RunError Value
  /-- The stack afterwards, empty after an error. -/
  stack : Stack
  /-- The looks taken, if asked for. -/
  fetches : Array Fetch

namespace Machine

/-- Executes the next instruction. -/
def step (c : Chunk) (m : Machine) : Step :=
  match c.instruction? m.ip with
  | none => .failed (.corrupted .pastEnd) m.ip
  | some i =>
    let ip := m.ip + i.width
    match i with
    | .constant index =>
      match c.constant? index with
      | some v => (m.stack.push v).atOffset ip
      | none => .failed (.corrupted .noSuchConstant) ip
    | .truncated => .failed (.corrupted .pastEnd) ip
    | .plain o => (m.stack.perform o).atOffset ip
    | .unknown _ => .failed (.corrupted .unknownOpcode) ip

/-- Takes a look before an instruction, if that is asked for. -/
def look (m : Machine) (traced : Bool) (seen : Array Fetch) : Array Fetch :=
  if traced then seen.push ⟨m.ip, m.stack.toList⟩ else seen

/-- Executes at most as many instructions as the bound says, then reads past the end of the code. The bound is
at least the number of code bytes that are left, so it takes away nothing. -/
def run (c : Chunk) (traced : Bool) : Nat → Machine → Array Fetch → Run
  | 0, m, seen => ⟨.error ((Fault.corrupted .pastEnd).locate c m.ip), m.stack.clear, m.look traced seen⟩
  | bound + 1, m, seen =>
    let seen := m.look traced seen
    match m.step c with
    | .next m => run c traced bound m seen
    | .done v s => ⟨.ok v, s, seen⟩
    | .failed f ip => ⟨.error (f.locate c ip), m.stack.clear, seen⟩

end Machine

/-- Runs a chunk from its beginning, on a stack whose values are taken off first. -/
def Chunk.run (c : Chunk) (s : Stack) (traced : Bool) : Run :=
  Machine.run c traced c.code.size ⟨0, s.clear⟩ #[]

/-- A look as text: the values on the stack and, below, the row of the instruction. -/
def traceText (stack : List Value) (c : Chunk) (offset : Nat) : String :=
  "          " ++ String.join (stack.map fun v => "[ " ++ v.display ++ " ]") ++ "\n" ++ c.row offset

end Abacus

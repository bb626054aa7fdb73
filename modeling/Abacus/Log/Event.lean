import Abacus.Diagnostic
import Abacus.Log.Severity
import Abacus.Machine

/-!
# Events

What compiling and running report to the log.  An event is recorded under a target with a severity and a list
of named texts, of which the first is its message.
-/

namespace Abacus

/-- A thing worth recording. -/
inductive Event where
  /-- The compiler found a problem. -/
  | problem (d : Diagnostic)
  /-- The code of a source, listed after it compiled. -/
  | codeListed (listing : String)
  | runStarted (codeSize constantCount : Nat)
  /-- The machine is about to read an instruction. -/
  | fetched (text : String)
  | runFailed (cause : RuntimeFault) (line : Line)
  | chunkCorrupted (offset : Nat) (cause : Corruption)
  /-- A stream took no more text. -/
  | writeFailed

namespace Event

/-- How important an event is. -/
def severity : Event → Severity
  | problem _ | codeListed _ | runStarted .. | runFailed .. => .debug
  | fetched _ => .trace
  | chunkCorrupted .. => .error
  | writeFailed => .warn

/-- The target that an event is recorded under. -/
def target : Event → String
  | problem _ => "brume_compiler"
  | codeListed _ => "brume::code"
  | fetched _ => "brume::trace"
  | runStarted .. | runFailed .. | chunkCorrupted .. | writeFailed => "brume_vm"

/-- The named texts of an event, the message first. -/
def fields : Event → List (String × String)
  | problem d => [("message", "syntax error"), ("diagnostic", d.text)]
  | codeListed listing => [("message", "\n" ++ listing)]
  | runStarted codeSize constantCount =>
    [("message", "run chunk"), ("bytes", Nat.repr codeSize), ("constants", Nat.repr constantCount)]
  | fetched text => [("message", text)]
  | runFailed cause line =>
    [("message", "runtime error"), ("line", Nat.repr line.toNat), ("message", cause.message)]
  | chunkCorrupted offset cause =>
    [("message", "corrupted chunk"), ("offset", Nat.repr offset), ("reason", cause.reason)]
  | writeFailed => [("message", "write failed"), ("error", "closed")]

end Event

end Abacus

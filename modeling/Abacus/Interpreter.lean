import Abacus.Compiler
import Abacus.Log.Event

/-!
# The interpreter

Compiles and runs sources one after the other on one stack.  An interpreter has options, which add events to
the log and change nothing else, and two output streams, one for results and one for reports; a stream may
refuse everything, which is recorded and otherwise without effect.
-/

namespace Abacus

/-- What an interpreter adds to the log. -/
structure Options where
  /-- A record before each instruction. -/
  trace : Bool := false
  /-- The listing of each compiled source. -/
  printCode : Bool := false
  deriving Repr, DecidableEq

/-- How interpreting a source ends. -/
inductive Outcome where
  | ok
  | compileError
  | runtimeError
  deriving Repr, DecidableEq

namespace Outcome

/-- The name of an outcome in the log. -/
def name : Outcome → String
  | ok => "Ok"
  | compileError => "CompileError"
  | runtimeError => "RuntimeError"

/-- The exit code that stands for an outcome. -/
def exitCode : Outcome → Nat
  | ok => 0
  | compileError => 65
  | runtimeError => 70

end Outcome

/-- An output stream. -/
inductive Stream where
  | working
  /-- Refuses every text. -/
  | broken
  deriving Repr, DecidableEq

/-- Writes a line: what the stream took, and what is recorded about it. -/
def Stream.writeLine (text : String) : Stream → String × List Event
  | working => (text ++ "\n", [])
  | broken => ("", [.writeFailed])

/-- An interpreter. -/
structure Interpreter where
  stack : Stack
  options : Options
  /-- The stream for results. -/
  out : Stream
  /-- The stream for reports. -/
  err : Stream

/-- What running a chunk gives. -/
structure RunReport where
  result : Except RunError Value
  events : List Event
  /-- The interpreter afterwards. -/
  interpreter : Interpreter

/-- What interpreting a source gives. -/
structure Report where
  outcome : Outcome
  /-- The text written to the stream for results. -/
  out : String
  /-- The text written to the stream for reports. -/
  err : String
  /-- The events of compiling. -/
  compileEvents : List Event
  /-- The events after compiling: those of the run and of writing. -/
  laterEvents : List Event
  /-- The interpreter afterwards. -/
  interpreter : Interpreter

/-- All events, in order. -/
def Report.events (r : Report) : List Event :=
  r.compileEvents ++ r.laterEvents

/-- The events of a compilation: its problems, or the listing if that is asked for. -/
def Compiled.events (compiled : Compiled) (printCode : Bool) : List Event :=
  match compiled.diagnostics with
  | [] => if printCode then [.codeListed (compiled.chunk.listing "code")] else []
  | ds => ds.map .problem

/-- The event of a failed run. -/
def RunError.event : RunError → Event
  | runtime cause line => .runFailed cause line
  | corrupted offset cause => .chunkCorrupted offset cause

/-- The events of a run. -/
def Run.events (r : Run) (c : Chunk) : List Event :=
  let ending :=
    match r.result with
    | .ok _ => []
    | .error e => [e.event]
  .runStarted c.code.size c.constants.size ::
    (r.fetches.toList.map fun f => .fetched (traceText f.stack c f.offset)) ++ ending

namespace Interpreter

/-- An interpreter that has done nothing yet. -/
def fresh (options : Options) (out err : Stream) : Interpreter :=
  ⟨.fresh, options, out, err⟩

/-- Runs a chunk. -/
def run (i : Interpreter) (c : Chunk) : RunReport :=
  let r := c.run i.stack i.options.trace
  ⟨r.result, r.events c, { i with stack := r.stack }⟩

/-- Compiles a source on its own and runs it; what does not compile is not run. -/
def interpret (i : Interpreter) (source : String) : Report :=
  let compiled := compile source .empty
  let compileEvents := compiled.events i.options.printCode
  match compiled.diagnostics with
  | [] =>
    let r := i.run compiled.chunk
    match r.result with
    | .ok v =>
      let (written, failed) := i.out.writeLine v.display
      ⟨.ok, written, "", compileEvents, r.events ++ failed, r.interpreter⟩
    | .error e =>
      let (written, failed) := i.err.writeLine e.text
      ⟨.runtimeError, "", written, compileEvents, r.events ++ failed, r.interpreter⟩
  | ds =>
    let (written, failed) := i.err.writeLine (diagnosticsText ds)
    ⟨.compileError, "", written, compileEvents, failed, i⟩

end Interpreter

end Abacus

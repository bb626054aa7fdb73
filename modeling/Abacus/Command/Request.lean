/-!
# Requests

What a command line can ask for.
-/

namespace Abacus

/-- Where a source comes from. -/
inductive Input where
  | stdin
  | path (text : String)
  deriving Repr, DecidableEq

namespace Input

/-- The input that an argument names: a lone minus is the standard input. -/
def ofArgument (text : String) : Input :=
  if text = "-" then stdin else path text

/-- The name of an input in headings and in the log. -/
def label : Input → String
  | stdin => "<stdin>"
  | path text => text

end Input

/-- When status tags are painted. -/
inductive ColorChoice where
  /-- When somebody watches; a pipe is not painted. -/
  | auto
  | always
  | never
  deriving Repr, DecidableEq

/-- The options that every command takes. -/
structure Settings where
  /-- How often more messages were asked for, at most 255 times. -/
  verbosity : Nat := 0
  quiet : Bool := false
  color : ColorChoice := .auto
  printCode : Bool := false
  trace : Bool := false
  deriving Repr, DecidableEq

/-- A command with its own options. -/
inductive Task where
  /-- Compiles and runs a source, and tells the time if asked to. -/
  | run (input : Input) (time : Bool)
  /-- Reads, runs and answers line by line. -/
  | repl (prompt : String)
  /-- Lists the code of a source, into a file if one is given. -/
  | disasm (input : Input) (output : Option String)
  /-- Lists the tokens of a source. -/
  | tokens (input : Input)
  deriving Repr, DecidableEq

/-- What a command line asks for. -/
inductive Request where
  | version
  | task (settings : Settings) (task : Task)
  deriving Repr, DecidableEq

end Abacus

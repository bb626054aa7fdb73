import Abacus.Command.Request
import Abacus.Text.Pieces

/-!
# Arguments

Reads the arguments of a command line.  Options stand before or after the name of a command: `--name`,
`--name=value`, `--name value`, or single letters, several behind one minus, of which the last may bring its
value with it.  After two minuses only operands follow.  An option of every command may stand on both sides of
the command's name; then the one behind it counts.

Whatever is not understood is refused: unknown or misplaced options, an option given twice on one side (only
verbosity is counted), values that an option does not take, and too few or too many operands.
-/

namespace Abacus.Arguments

/-- An option. -/
inductive Switch where
  | verbose | quiet | color | printCode | trace | version | time | prompt | output
  deriving Repr, DecidableEq

/-- A side of the command line: before the name of a command, or behind that of one of the four. -/
inductive Scope where
  | top | run | repl | disasm | tokens
  deriving Repr, DecidableEq

/-- Does an option need a value? -/
def Switch.takesValue : Switch → Bool
  | .color | .prompt | .output => true
  | _ => false

/-- Does an option belong to a side? -/
def Switch.allowed : Switch → Scope → Bool
  | .version, scope => scope == .top
  | .time, scope => scope == .run
  | .prompt, scope => scope == .repl
  | .output, scope => scope == .disasm
  | _, _ => true

/-- The options by their names. -/
def longNames : List (String × Switch) :=
  [("verbose", .verbose), ("quiet", .quiet), ("color", .color), ("print-code", .printCode), ("trace", .trace),
    ("version", .version), ("time", .time), ("prompt", .prompt), ("output", .output)]

/-- The options by their letters. -/
def letters : List (Char × Switch) :=
  [('v', .verbose), ('q', .quiet), ('V', .version), ('o', .output)]

/-- The commands by their names. -/
def commands : List (String × Scope) :=
  [("run", .run), ("repl", .repl), ("disasm", .disasm), ("tokens", .tokens)]

/-- An option of a side, found in a table. -/
def find? {α : Type} [BEq α] (table : List (α × Switch)) (scope : Scope) (name : α) : Option Switch :=
  (table.lookup name).filter fun s => s.allowed scope

/-- What was read on one side of the command line. -/
structure Side where
  /-- How often verbosity was asked for, if at all. -/
  verbosity : Option Nat := none
  quiet : Bool := false
  color : Option ColorChoice := none
  printCode : Bool := false
  trace : Bool := false
  time : Bool := false
  prompt : Option String := none
  output : Option String := none
  operand : Option String := none
  deriving Repr, DecidableEq

namespace Side

/-- Sets an option that takes no value. -/
def raise (s : Side) : Switch → Option Side
  | .verbose => some { s with verbosity := some (min (s.verbosity.getD 0 + 1) 255) }
  | .quiet => if s.quiet then none else some { s with quiet := true }
  | .printCode => if s.printCode then none else some { s with printCode := true }
  | .trace => if s.trace then none else some { s with trace := true }
  | .time => if s.time then none else some { s with time := true }
  | _ => none

/-- The choice of color that a word names. -/
def color? : String → Option ColorChoice
  | "auto" => some .auto
  | "always" => some .always
  | "never" => some .never
  | _ => none

/-- Gives an option its value. -/
def assign (s : Side) (o : Switch) (value : String) : Option Side :=
  match o with
  | .color => if s.color.isSome then none else (color? value).map fun c => { s with color := some c }
  | .prompt => if s.prompt.isSome then none else some { s with prompt := some value }
  | .output => if s.output.isSome || value.isEmpty then none else some { s with output := some value }
  | _ => none

/-- Takes an operand: one, and only behind a command that reads a source. -/
def place (s : Side) (scope : Scope) (value : String) : Option Side :=
  if scope == .top || scope == .repl || s.operand.isSome || value.isEmpty then none
  else some { s with operand := some value }

end Side

/-! ## Reading one side -/

/-- What letters behind one minus lead to. -/
inductive Letters where
  | refused
  | version
  | done (s : Side)
  /-- The last letter is an option that waits for its value. -/
  | waiting (s : Side) (o : Switch)

/-- Reads letters behind one minus. A value may follow its letter at once, or behind an equals sign. -/
def readLetters (scope : Scope) : List Char → Side → Letters
  | [], s => .done s
  | c :: cs, s =>
    match find? letters scope c with
    | none => .refused
    | some .version => .version
    | some o =>
      if o.takesValue then
        match cs with
        | [] => .waiting s o
        | '=' :: value => ((s.assign o (String.ofList value)).map Letters.done).getD .refused
        | value => ((s.assign o (String.ofList value)).map Letters.done).getD .refused
      else
        match s.raise o with
        | some s => readLetters scope cs s
        | none => .refused

/-- The form of an argument. -/
inductive Form where
  | endOfOptions
  | long (name : List Char) (value : Option String)
  | letters (cs : List Char)
  /-- An operand, a command or the value of an option. A lone minus is one. -/
  | word

/-- The form of an argument. -/
def form (argument : String) : Form :=
  match argument.toList with
  | ['-', '-'] => .endOfOptions
  | '-' :: '-' :: cs =>
    match cs.dropWhile (· != '=') with
    | [] => .long cs none
    | _ :: value => .long (cs.takeWhile (· != '=')) (some (String.ofList value))
  | '-' :: c :: cs => .letters (c :: cs)
  | _ => .word

/-- Can an argument be the value of the option before it? -/
def isValue (argument : String) : Bool :=
  match form argument with
  | .word => true
  | _ => false

/-- What one side of the command line leads to. -/
inductive Reading where
  | refused
  | version
  | done (s : Side)
  /-- The name of a command, with the arguments behind it. -/
  | command (s : Side) (scope : Scope) (rest : List String)

/-- Takes operands only. -/
def readOperands (scope : Scope) : List String → Side → Reading
  | [], s => .done s
  | a :: rest, s =>
    match s.place scope a with
    | some s => readOperands scope rest s
    | none => .refused

/-- Reads one side; `waiting` is the option whose value comes next. -/
def readSide (scope : Scope) : List String → Option Switch → Side → Reading
  | [], some _, _ => .refused
  | [], none, s => .done s
  | a :: rest, some o, s =>
    if isValue a then
      match s.assign o a with
      | some s => readSide scope rest none s
      | none => .refused
    else .refused
  | a :: rest, none, s =>
    match form a with
    | .endOfOptions => readOperands scope rest s
    | .long name value =>
      match find? longNames scope (String.ofList name), value with
      | none, _ => .refused
      | some .version, none => .version
      | some o, some value =>
        match s.assign o value with
        | some s => readSide scope rest none s
        | none => .refused
      | some o, none =>
        if o.takesValue then readSide scope rest (some o) s
        else
          match s.raise o with
          | some s => readSide scope rest none s
          | none => .refused
    | .letters cs =>
      match readLetters scope cs s with
      | .refused => .refused
      | .version => .version
      | .done s => readSide scope rest none s
      | .waiting s o => readSide scope rest (some o) s
    | .word =>
      match scope, commands.lookup a with
      | .top, some inner => .command s inner rest
      | _, _ =>
        match s.place scope a with
        | some s => readSide scope rest none s
        | none => .refused

/-! ## Both sides together -/

/-- The settings from before and behind the name of a command. -/
def settings (outer inner : Side) : Settings where
  verbosity := (inner.verbosity.or outer.verbosity).getD 0
  quiet := inner.quiet || outer.quiet
  color := (inner.color.or outer.color).getD .auto
  printCode := inner.printCode || outer.printCode
  trace := inner.trace || outer.trace

/-- The prompt unless another one is given. -/
def defaultPrompt : String := "> "

/-- The task that the arguments behind a command describe. -/
def task? (scope : Scope) (s : Side) : Option Task :=
  let input := s.operand.map Input.ofArgument
  match scope with
  | .run => input.map fun i => .run i s.time
  | .disasm => input.map fun i => .disasm i s.output
  | .tokens => input.map .tokens
  | .top | .repl => some (.repl (s.prompt.getD defaultPrompt))

/-- Reads a command line; without a command it asks for the line by line one. -/
def read (arguments : List String) : Option Request :=
  match readSide .top arguments none {} with
  | .refused => none
  | .version => some .version
  | .done s => (task? .top s).map (.task (settings s {}))
  | .command outer scope rest =>
    match readSide scope rest none {} with
    | .done inner => (task? scope inner).map (.task (settings outer inner))
    | _ => none

end Abacus.Arguments

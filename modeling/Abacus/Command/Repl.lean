import Abacus.Command.Console
import Abacus.Command.Source
import Abacus.Text.Backspace
import Abacus.Text.Blank
import Abacus.Text.Pieces

/-!
# The line by line mode

Answers lines one after the other with one interpreter.  The backspaces of a line take back what stands before
them, and the rest is trimmed.  A line that starts with a colon is a directive, any other one that is not blank
is interpreted and remembered for the `:disasm` directive, whether or not it compiled.
-/

namespace Abacus

/-- The state between two lines. -/
structure Repl where
  interpreter : Interpreter
  /-- The line interpreted last. -/
  last : Option String

namespace Repl

/-- What follows an answer. -/
inductive After where
  /-- The state for the next line. -/
  | next (s : Repl)
  /-- The end, with an exit code. -/
  | stop (code : Nat)

/-- The answer to a line. -/
structure Answer where
  printed : Printed
  after : After

/-- The text of the `:help` directive. -/
def helpText : String :=
  ":help           cette aide\n:disasm         bytecode de la dernière expression\n:quit, :q       quitter\n"

/-- What is written before the first line. -/
def banner (c : Console) : Printed :=
  c.status .neutral "BRUME" "REPL (:help pour l'aide, Ctrl-D pour quitter)"

/-- The state before the first line. -/
def start (options : Options) : Repl :=
  ⟨.fresh options .working .working, none⟩

/-- Lists the line interpreted last. -/
def disassemble (s : Repl) (c : Console) : Printed :=
  match s.last with
  | none => c.status .neutral "DISASM" "aucune ligne à désassembler"
  | some source =>
    let listing := listingOf source "repl"
    let shown : Printed :=
      match listing with
      | .ok text => { out := text }
      | .error ds => Console.diagnostics ds
    c.listed source listing ++ shown

/-- Interprets a line. -/
def evaluate (s : Repl) (c : Console) (source : String) : Answer :=
  let r := s.interpreter.interpret source
  ⟨c.interpreted source r ++ c.concluded "repl" r.outcome, .next ⟨r.interpreter, some source⟩⟩

/-- Answers a line. -/
def respond (s : Repl) (c : Console) (line : String) : Answer :=
  let line := Blank.trim (String.ofList (Backspace.erase line.toList))
  match line with
  | "" => ⟨{}, .next s⟩
  | ":q" | ":quit" => ⟨{}, .stop 0⟩
  | ":help" => ⟨{ out := helpText }, .next s⟩
  | ":disasm" => ⟨s.disassemble c, .next s⟩
  | line =>
    if line.toList.head? = some ':' then ⟨c.status .bad "REPL" ("commande inconnue : " ++ line), .next s⟩
    else s.evaluate c line

/-- The report of a failure that ends a command. -/
def failure (cause : String) : Printed :=
  { err := "error: échec d'exécution de la commande: " ++ cause ++ "\n" }

/-- Answers a line of bytes; one that is no text ends the mode. -/
def respondBytes (s : Repl) (c : Console) (line : ByteArray) : Answer :=
  match decodeText line with
  | .ok text => s.respond c text
  | .error e => ⟨failure ("readline: " ++ e.text), .stop 1⟩

/-- The lines of an input. What follows the last line feed is a line unless it is empty. -/
def linesOf (bytes : ByteArray) : List ByteArray :=
  let pieces := Pieces.split 0x0A bytes.data.toList
  let lines := if pieces.getLast? = some [] then pieces.dropLast else pieces
  lines.map fun line => ⟨line.toArray⟩

/-- Answers lines until one ends the mode, after what was printed before. -/
def answerAll (c : Console) : List ByteArray → Repl → Printed → Exit
  | [], _, printed => ⟨0, printed⟩
  | line :: rest, s, printed =>
    let answer := s.respondBytes c line
    match answer.after with
    | .stop code => ⟨code, printed ++ answer.printed⟩
    | .next s => answerAll c rest s (printed ++ answer.printed)

/-- Answers all lines of an input. -/
def run (c : Console) (options : Options) (stdin : ByteArray) : Exit :=
  answerAll c (linesOf stdin) (start options) (banner c)

end Repl

end Abacus

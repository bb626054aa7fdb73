import Abacus.Command.Repl
import Abacus.Files.Replace
import Abacus.Token.Dump

/-!
# Commands

Carries out what a command line asks for.  A command sees the world through a `World`: the standard input, the
file system and a clock, in any monad; `FileTree.world` is the world of a file tree.
-/

namespace Abacus

/-- What a command can see and change. -/
structure World (m : Type → Type) where
  /-- All of the standard input. -/
  stdin : m ByteArray
  /-- What stands at the end of a path. -/
  entry : Path → m (Except FileError Entry)
  files : FileOperations m
  /-- The result of a computation and the milliseconds it took, in words. -/
  timed : {α : Type} → (Unit → α) → m (α × String)

namespace Command

/-- The exit code for a source that cannot be read. -/
def unreadableCode : Nat := 74

/-- The options of the interpreter among the settings. -/
def interpreterOptions (s : Settings) : Options :=
  ⟨s.trace, s.printCode⟩

/-- The console that the settings and the user's filter text ask for, and the complaints about that text. -/
def console (userFilter : Option String) (s : Settings) : Console × Printed :=
  let (filter, complaints) := Filter.read (filterText userFilter s.verbosity s.quiet s.trace s.printCode)
  (⟨filter, s.color == .always⟩, { err := String.join complaints })

section

variable {m : Type → Type} [Monad m] (w : World m) (c : Console)

/-- The source of an input. -/
def source : Input → m (Except ReadError String)
  | .stdin => return Input.decodeStdin (← w.stdin)
  | .path text => return Input.decode text (← w.entry (.ofText text))

/-- Goes on with the source of an input, or reports that it cannot be read. -/
def withSource (input : Input) (k : String → m Exit) : m Exit := do
  match ← source w input with
  | .ok text => k text
  | .error e => return ⟨unreadableCode, c.status .bad "IO" e.text⟩

/-- Runs a source. -/
def run (options : Options) (input : Input) (time : Bool) : m Exit :=
  withSource w c input fun text => do
    let (r, elapsed) ← w.timed fun _ => (Interpreter.fresh options .working .working).interpret text
    let timing := if time then c.status .neutral "TIME" ("run: " ++ elapsed ++ " ms") else {}
    return ⟨r.outcome.exitCode,
      c.interpreted text r ++ c.concluded ("run " ++ input.label) r.outcome ++ timing⟩

/-- The wording of a failure to write a file. -/
def replaceErrorText (path : String) : ReplaceError → String
  | .unnamed => "chemin de sortie sans nom: " ++ path
  | .unending => "aucun nom temporaire libre: " ++ path
  | .failed e => e.text

/-- Writes a listing to its output. -/
def writeListing (listing : String) : Option String → m Exit
  | none => return ⟨0, { out := listing }⟩
  | some path => do
    match ← replaceFile w.files (.ofText path) listing.toUTF8 with
    | .ok () => return ⟨0, c.status .good "DISASM" path⟩
    | .error e =>
      return ⟨1, Repl.failure ("écriture de " ++ path ++ ": " ++ replaceErrorText path e)⟩

/-- Lists the code of a source. -/
def disasm (input : Input) (output : Option String) : m Exit :=
  withSource w c input fun text => do
    let listing := listingOf text input.label
    let records := c.listed text listing
    match listing with
    | .error ds => return ⟨Outcome.compileError.exitCode, records ++ Console.diagnostics ds⟩
    | .ok listing =>
      let written ← writeListing w c listing output
      return { written with printed := records ++ written.printed }

/-- Lists the tokens of a source. -/
def tokens (input : Input) : m Exit :=
  withSource w c input fun text => return ⟨0, { out := Token.dump text }⟩

/-- Carries out a task. -/
def perform (options : Options) : Task → m Exit
  | .run input time => run w c options input time
  | .repl _ => return Repl.run c options (← w.stdin)
  | .disasm input output => disasm w c input output
  | .tokens input => tokens w c input

end

/-- What the version option prints. -/
def versionText : String := "brume 0.1.0\n"

/-- Carries out what a command line asks for, given the user's filter text. -/
def answer {m : Type → Type} [Monad m] (w : World m) (userFilter : Option String) : Request → m Exit
  | .version => return ⟨0, { out := versionText }⟩
  | .task settings task => do
    let (c, complaints) := console userFilter settings
    let done ← perform w c (interpreterOptions settings) task
    return { done with printed := complaints ++ done.printed }

end Command

/-- The world of a file tree, with the given standard input and wording of every duration. -/
def FileTree.world (stdin : ByteArray) (elapsed : String) : World (StateM FileTree) where
  stdin := pure stdin
  entry p := fun t => (t.entry p, t)
  files := FileTree.operations
  timed f := pure (f (), elapsed)

/-- Carries out a request in a file tree. -/
def Request.runIn (r : Request) (t : FileTree) (stdin : ByteArray) (userFilter : Option String)
    (elapsed : String) : Exit × FileTree :=
  (Command.answer (FileTree.world stdin elapsed) userFilter r).run t

end Abacus

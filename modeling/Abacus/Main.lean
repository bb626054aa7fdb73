import Abacus.Command
import Abacus.Command.Arguments

/-!
# The program

The command line program: hands its arguments, its input and the file system of the machine to the commands and
prints what they give.
-/

namespace Abacus.Main

/-- A failure of the system as a file error. -/
def fileError : IO.Error → FileError
  | .noFileOrDirectory .. => .noSuchFile
  | .inappropriateType _ 20 _ => .notDirectory
  | .inappropriateType _ 21 _ => .isDirectory
  | .resourceBusy .. => .busy
  | e => .other e.toString

/-- The result of an action, or the failure that ended it. -/
def attempt {α : Type} (act : IO α) : IO (Except FileError α) := do
  try
    return .ok (← act)
  catch e =>
    return .error (fileError e)

/-- What stands at the end of a path: a directory opens and cannot be read. -/
def entry (p : Path) : IO (Except FileError Entry) := do
  match ← attempt (IO.FS.Handle.mk p.text .read) with
  | .error e => return .error e
  | .ok handle =>
    match ← attempt handle.readBinToEnd with
    | .ok contents => return .ok (.file contents)
    | .error .isDirectory => return .ok .directory
    | .error e => return .error e

/-- Does a path lead to something? -/
def isPresent (p : Path) : IO Bool := do
  match ← attempt (IO.FS.Handle.mk p.text .read) with
  | .error .noSuchFile | .error .notDirectory => return false
  | _ => return true

/-- The file operations of the machine. -/
def files : FileOperations IO where
  isPresent := isPresent
  create p contents := attempt (IO.FS.writeBinFile p.text contents)
  rename source target := attempt (IO.FS.rename source.text target.text)
  copy source target := attempt do
    let contents ← IO.FS.readBinFile source.text
    IO.FS.writeBinFile target.text contents
  remove p := attempt (IO.FS.removeFile p.text)

/-- The world of the machine. -/
def world : World IO where
  stdin := do (← IO.getStdin).readBinToEnd
  entry := entry
  files := files
  timed f := do
    let start ← IO.monoMsNow
    let result ← IO.lazyPure f
    let stop ← IO.monoMsNow
    return (result, Nat.repr (stop - start))

/-- Prints to both output streams. -/
def print (p : Printed) : IO Unit := do
  IO.print p.out
  IO.eprint p.err

/-- Reads a line with its line feed; nothing at the end of the input. -/
partial def readLine (input : IO.FS.Stream) (taken : ByteArray) : IO ByteArray := do
  let next ← input.read 1
  if next.isEmpty then return taken
  let taken := taken ++ next
  if next.data[0]? = some 0x0A then return taken
  readLine input taken

/-- Answers lines until one ends the mode or the input ends. -/
partial def answerLines (c : Console) (s : Repl) : IO UInt32 := do
  let line ← readLine (← IO.getStdin) ByteArray.empty
  if line.isEmpty then return 0
  let answer := s.respondBytes c line
  print answer.printed
  match answer.after with
  | .stop code => return UInt32.ofNat code
  | .next s => answerLines c s

/-- Carries out a request. The line by line mode answers each line before it reads the next one. -/
def carryOut (userFilter : Option String) : Request → IO UInt32
  | .task settings (.repl _) => do
    let (c, complaints) := Command.console userFilter settings
    print (complaints ++ Repl.banner c)
    answerLines c (.start (Command.interpreterOptions settings))
  | request => do
    let exit ← Command.answer world userFilter request
    print exit.printed
    return UInt32.ofNat exit.code

end Abacus.Main

/-- Reads the arguments and carries out what they ask for; what is not understood ends with code 2. -/
def main (arguments : List String) : IO UInt32 := do
  match Abacus.Arguments.read arguments with
  | some request => Abacus.Main.carryOut (← IO.getEnv "RUST_LOG") request
  | none =>
    IO.eprintln "usage: brume [OPTIONS] [run INPUT | repl | disasm INPUT | tokens INPUT]"
    return 2

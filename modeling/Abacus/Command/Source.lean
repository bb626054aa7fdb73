import Abacus.Command.Request
import Abacus.Files.Tree

/-!
# Sources

Reads the source that a command works on: a whole file or all of the standard input, which must be UTF-8.
-/

namespace Abacus

/-- Where reading a source failed. -/
inductive ReadError where
  /-- The file could not be opened. -/
  | opening (label : String) (e : FileError)
  /-- The file was opened and could not be read. -/
  | reading (label : String) (e : FileError)
  | readingStdin (e : FileError)
  deriving Repr, DecidableEq

/-- The wording of a failure to read. -/
def ReadError.text : ReadError → String
  | opening label e => "ouverture: " ++ label ++ ": " ++ e.text
  | reading label e => "lecture: " ++ label ++ ": " ++ e.text
  | readingStdin e => "lecture de stdin: " ++ e.text

/-- Text from bytes. -/
def decodeText (bytes : ByteArray) : Except FileError String :=
  match String.fromUTF8? bytes with
  | some text => .ok text
  | none => .error .notText

/-- A source from what opening and reading its file gave. -/
def Input.decode (label : String) : Except FileError Entry → Except ReadError String
  | .error e => .error (.opening label e)
  | .ok .directory => .error (.reading label .isDirectory)
  | .ok (.file contents) => (decodeText contents).mapError (.reading label)

/-- A source from the standard input. -/
def Input.decodeStdin (bytes : ByteArray) : Except ReadError String :=
  (decodeText bytes).mapError .readingStdin

end Abacus

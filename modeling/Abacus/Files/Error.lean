/-!
# File errors

Why a file cannot be opened, read, made or moved, worded as operating systems word it.
-/

namespace Abacus

/-- A failure of a file operation. -/
inductive FileError where
  | noSuchFile
  | notDirectory
  | isDirectory
  | busy
  /-- The contents are no text. -/
  | notText
  /-- Any other failure, in the words of the system. -/
  | other (text : String)
  deriving Repr, DecidableEq

/-- The wording of a failure. -/
def FileError.text : FileError → String
  | noSuchFile => "No such file or directory (os error 2)"
  | notDirectory => "Not a directory (os error 20)"
  | isDirectory => "Is a directory (os error 21)"
  | busy => "Device or resource busy (os error 16)"
  | notText => "stream did not contain valid UTF-8"
  | other text => text

end Abacus

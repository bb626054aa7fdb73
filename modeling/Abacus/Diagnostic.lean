import Abacus.Token

/-!
# Diagnostics

What a compilation reports about a source that is no expression.
-/

namespace Abacus

/-- The place that a diagnostic names besides its line. -/
inductive Location where
  /-- The end of the source. -/
  | atEnd
  /-- A token, by its text. -/
  | lexeme (text : String)
  /-- None: the message of a lexical error is enough. -/
  | unlocated
  deriving Repr, DecidableEq

namespace Location

/-- The words for a location, to follow "Error". -/
def text : Location → String
  | atEnd => " at end"
  | lexeme text => " at '" ++ text ++ "'"
  | unlocated => ""

/-- The place of a token. -/
def ofToken (t : Token) : Location :=
  match t.kind with
  | .eof => atEnd
  | .error _ => unlocated
  | _ => lexeme t.text

end Location

/-- A report about the source. -/
structure Diagnostic where
  line : Line
  location : Location
  message : String
  deriving Repr, DecidableEq

namespace Diagnostic

/-- A diagnostic as one text. -/
def text (d : Diagnostic) : String :=
  "[line " ++ Nat.repr d.line.toNat ++ "] Error" ++ d.location.text ++ ": " ++ d.message

/-- A report about a token. -/
def atToken (t : Token) (message : String) : Diagnostic :=
  ⟨t.line, .ofToken t, message⟩

end Diagnostic

/-- Several diagnostics as one text, one below the other. -/
def diagnosticsText (ds : List Diagnostic) : String :=
  "\n".intercalate (ds.map Diagnostic.text)

end Abacus

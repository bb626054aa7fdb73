import Abacus.Token.Kind

/-!
# Tokens

A token is a kind with its text and place.  An error token carries its message in place of source text.
-/

namespace Abacus

/-- A source line, counted from 1. -/
abbrev Line := UInt32

/-- A token of the source. -/
structure Token where
  kind : Kind
  /-- The line on which the token ends. -/
  line : Line
  /-- The byte offset in the source at which the token starts. -/
  start : Nat
  /-- The source text, or the message of an error token. -/
  text : String
  deriving Repr, DecidableEq

namespace Token

/-- A token that stands for no source text. -/
def synthetic (kind : Kind) (line : Line) : Token :=
  ⟨kind, line, 0, ""⟩

/-- Is the text of this token a piece of the source? -/
def isFromSource (t : Token) : Bool :=
  !t.kind.isError

end Token

end Abacus

import Abacus.Token.Cursor

/-!
# Scanners

A scanner hands out the tokens of a source one by one.  `scan` goes on with the end token for ever; `next?`
hands it out once and is finished then.
-/

namespace Abacus

/-- A cursor that remembers whether its end token was handed out. -/
structure Scanner where
  cursor : Cursor
  isFinished : Bool

namespace Scanner

/-- A scanner at the beginning of a source. -/
def ofSource (source : String) : Scanner :=
  ⟨.ofSource source, false⟩

/-- The line of the scanner's place. -/
def line (s : Scanner) : Line :=
  s.cursor.line

/-- The next token, whether or not the end was handed out. -/
def scan (s : Scanner) : Token × Scanner :=
  let (token, cursor) := s.cursor.scan
  (token, { s with cursor })

/-- The next token up to the first end token, then nothing. -/
def next? (s : Scanner) : Option Token × Scanner :=
  if s.isFinished then (none, s)
  else
    let (token, cursor) := s.cursor.scan
    (some token, ⟨cursor, token.kind == .eof⟩)

/-- All that `next?` still hands out. -/
def remaining (s : Scanner) : List Token × Scanner :=
  if s.isFinished then ([], s)
  else
    let (found, cursor) := s.cursor.collect #[]
    (found.toList, ⟨cursor, true⟩)

end Scanner

end Abacus

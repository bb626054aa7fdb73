import Abacus.Text.Column
import Abacus.Token.Cursor

/-!
# Token dumps

One row for each token: its line, its kind and its text between quotes.  A line that is also that of the row
above is shown as a bar.
-/

namespace Abacus.Token

/-- The row of one token under a row for line `above`. -/
def row (above : Option Line) (t : Token) : String :=
  let line := if above = some t.line then "   | " else Column.right 4 t.line.toNat ++ " "
  line ++ Column.left 13 t.kind.name ++ " '" ++ t.text ++ "'\n"

/-- Writes the row of a token, given the line of the row above and the rows so far. -/
def addRow (dumped : Option Line × String) (t : Token) : Option Line × String :=
  (some t.line, dumped.2 ++ row dumped.1 t)

/-- The dump of a source. -/
def dump (source : String) : String :=
  ((tokens source).foldl addRow (none, "")).2

end Abacus.Token

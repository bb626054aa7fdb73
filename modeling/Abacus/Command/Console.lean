import Abacus.Interpreter
import Abacus.Log.Record

/-!
# The console

What a command writes to its two output streams.  Log records, status lines and the reports of the interpreter
share the stream for reports, in the order in which they arise.
-/

namespace Abacus

/-- The text of both output streams. -/
structure Printed where
  out : String := ""
  err : String := ""
  deriving Repr, DecidableEq

namespace Printed

/-- One text after the other, on each stream. -/
def append (a b : Printed) : Printed :=
  ⟨a.out ++ b.out, a.err ++ b.err⟩

instance : Append Printed := ⟨append⟩

end Printed

/-- What a finished command leaves: its exit code and what it wrote. -/
structure Exit where
  code : Nat
  printed : Printed

/-- The tone of a status line, which is the color of its tag. -/
inductive Tone where
  | good | neutral | bad
  deriving Repr, DecidableEq

/-- The number of a tone's color. -/
def Tone.color : Tone → String
  | good => "32"
  | neutral => "34"
  | bad => "31"

/-- How reports are written. -/
structure Console where
  filter : Filter
  /-- Are the tags of status lines painted? -/
  isPainted : Bool

namespace Console

/-- A tag, bold and in color on a painted console. -/
def tag (c : Console) (tone : Tone) (text : String) : String :=
  if c.isPainted then "\x1b[" ++ tone.color ++ ";1m" ++ text ++ "\x1b[0m" else text

/-- A status line. -/
def status (c : Console) (tone : Tone) (tagText message : String) : Printed :=
  { err := c.tag tone tagText ++ " " ++ message ++ "\n" }

/-- The log records that the filter lets through. -/
def log (c : Console) (rs : List Record) : Printed :=
  { err := Record.lines c.filter rs }

/-- The diagnostics of a source that does not compile. -/
def diagnostics (ds : List Diagnostic) : Printed :=
  { err := diagnosticsText ds ++ "\n" }

/-- What interpreting a source writes, log records first. -/
def interpreted (c : Console) (source : String) (r : Report) : Printed :=
  c.log (Record.compilation source r.compileEvents ++ r.laterEvents.map .ofEvent) ++ ⟨r.out, r.err⟩

/-- The log records of listing a source. -/
def listed (c : Console) (source : String) (listing : Except (List Diagnostic) String) : Printed :=
  let problems :=
    match listing with
    | .ok _ => []
    | .error ds => ds.map Event.problem
  c.log (Record.compilation source problems)

/-- The record of what a command came to. -/
def concluded (c : Console) (what : String) (outcome : Outcome) : Printed :=
  c.log [⟨.debug, "brume_cli", what ++ " -> " ++ outcome.name⟩]

end Console

end Abacus

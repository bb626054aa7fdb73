import Abacus.Log.Event
import Abacus.Log.Filter
import Abacus.Text.Plain

/-!
# Log records

The written form of the log: a severity and a target in brackets, then the message.  Further lines of a message
are indented; control characters and sequences in it are left out.
-/

namespace Abacus

/-- A record of the log. -/
structure Record where
  severity : Severity
  target : String
  text : String
  deriving Repr, DecidableEq

namespace Record

/-- A message followed by its named texts. -/
def textOfFields : List (String × String) → String
  | [] => ""
  | (_, message) :: rest => message ++ String.join (rest.map fun (name, text) => " " ++ name ++ "=" ++ text)

/-- The record of an event. -/
def ofEvent (e : Event) : Record :=
  ⟨e.severity, e.target, textOfFields e.fields⟩

/-- The record of a compilation that begins. -/
def compiling (source : String) : Record :=
  ⟨.debug, "brume_compiler", "compile; len=" ++ Nat.repr source.utf8ByteSize⟩

/-- The target of the records of entering and leaving a compilation. -/
def activityTarget : String := "tracing::span::active"

/-- The target of the record that a compilation is over. -/
def lifecycleTarget : String := "tracing::span"

/-- The records of a compilation: it begins and is entered, then come its events, then it is left and over. -/
def compilation (source : String) (events : List Event) : List Record :=
  [compiling source, ⟨.trace, activityTarget, "-> compile;"⟩] ++ events.map ofEvent ++
    [⟨.trace, activityTarget, "<- compile;"⟩, ⟨.trace, lifecycleTarget, "-- compile;"⟩]

/-- A message with its further lines indented by four blanks. -/
def indented (text : String) : String :=
  String.ofList (text.toList.flatMap fun c => if c = '\n' then "\n    ".toList else [c])

/-- A record as a line, with all that its message holds. -/
def fullLine (r : Record) : String :=
  "[" ++ String.ofList (r.severity.name.toList.rightpad 5 ' ') ++ " " ++ r.target ++ "] " ++
    indented r.text ++ "\n"

/-- The written form of a record. A sequence that its message leaves open takes in the end of the line. -/
def line (r : Record) : String :=
  String.ofList (Plain.plain r.fullLine.toList)

/-- Does a filter let a record through? -/
def passes (f : Filter) (r : Record) : Bool :=
  f.passes r.severity r.target && f.matchesText r.text

/-- The written form of the records that a filter lets through. -/
def lines (f : Filter) (rs : List Record) : String :=
  String.join ((rs.filter (passes f)).map line)

end Record

end Abacus

import Abacus.Chunk
import Abacus.Json.Text

/-!
# Chunks in JSON

The exchange format of values and chunks.  `nil` is the string `Nil`, every other value an object with its kind
as the only member; a chunk is an object with the members `code`, `lines` and `constants`.  Writing leaves out
all white space; reading takes the members in any order, or their values as a list in the order above.
-/

namespace Abacus

open Json

/-! ## Writing -/

/-- A value in JSON. A number that is not finite has no JSON form that reads back. -/
def Value.toJson : Value → String
  | nil => "\"Nil\""
  | bool true => "\x7b\"Bool\":true\x7d"
  | bool false => "\x7b\"Bool\":false\x7d"
  | number x => "\x7b\"Number\":" ++ String.ofList (Layout.exchange x) ++ "\x7d"

/-- A bracketed list of texts. -/
def listText (items : List String) : String :=
  "[" ++ ",".intercalate items ++ "]"

/-- A chunk in JSON. -/
def Chunk.toJson (c : Chunk) : String :=
  "\x7b\"code\":" ++ listText (c.code.toList.map fun b => Nat.repr b.toNat) ++
    ",\"lines\":" ++ listText (c.lines.toList.map fun l => Nat.repr l.toNat) ++
    ",\"constants\":" ++ listText (c.constants.toList.map Value.toJson) ++ "\x7d"

/-! ## Reading values -/

namespace Value

/-- Reads what stands after the name of a kind. -/
def readContent (kind : String) (cs : List Char) : Option (Value × List Char) :=
  let cs := skipSpace cs
  match kind with
  | "Nil" => (literal "null".toList cs).map fun rest => (nil, rest)
  | "Bool" =>
    match literal "true".toList cs with
    | some rest => some (bool true, rest)
    | none => (literal "false".toList cs).map fun rest => (bool false, rest)
  | "Number" => do
    let (n, rest) ← Numeral.read cs
    let x ← n.toFloat?
    return (number x, rest)
  | _ => none

/-- Reads a value after white space. -/
def read (cs : List Char) : Option (Value × List Char) :=
  match skipSpace cs with
  | '"' :: rest => do
    let (kind, rest) ← stringBody [] rest
    if kind = "Nil" then return (nil, rest) else none
  | '{' :: rest => do
    let (kind, rest) ← string rest
    let rest ← punctuation ':' rest
    let (v, rest) ← readContent kind rest
    let rest ← punctuation '}' rest
    return (v, rest)
  | _ => none

/-- The value that a JSON text writes. -/
def ofJson? (text : String) : Option Value := do
  let (v, rest) ← read text.toList
  if (skipSpace rest).isEmpty then return v else none

end Value

/-! ## Reading chunks -/

namespace Chunk

/-- Reads an integer from 0 up to a limit. -/
def readBelow (limit : Nat) (cs : List Char) : Option (Nat × List Char) := do
  let (n, rest) ← Numeral.read (skipSpace cs)
  let n ← n.toNat?
  if n < limit then return (n, rest) else none

/-- Reads the list of code bytes. -/
def readCode : List Char → Option (Array UInt8 × List Char) :=
  elements fun cs => (readBelow UInt8.size cs).map fun (n, rest) => (UInt8.ofNat n, rest)

/-- Reads the list of lines. -/
def readLines : List Char → Option (Array Line × List Char) :=
  elements fun cs => (readBelow UInt32.size cs).map fun (n, rest) => (UInt32.ofNat n, rest)

/-- Reads the list of constants. -/
def readConstants : List Char → Option (Array Value × List Char) :=
  elements Value.read

/-- The members of a chunk read so far. -/
structure Members where
  code : Option (Array UInt8) := none
  lines : Option (Array Line) := none
  constants : Option (Array Value) := none

namespace Members

/-- Reads the value of a member and keeps it; a second one of the same name is refused, and one of a foreign
name is only checked. The bound is one for the characters left. -/
def readValue (bound : Nat) (m : Members) (name : String) (cs : List Char) : Option (Members × List Char) :=
  match name with
  | "code" =>
    if m.code.isSome then none
    else (readCode cs).map fun (found, rest) => ({ m with code := some found }, rest)
  | "lines" =>
    if m.lines.isSome then none
    else (readLines cs).map fun (found, rest) => ({ m with lines := some found }, rest)
  | "constants" =>
    if m.constants.isSome then none
    else (readConstants cs).map fun (found, rest) => ({ m with constants := some found }, rest)
  | _ => (skipValue bound cs).map fun rest => (m, rest)

/-- Reads members, each followed by a comma or the closing bracket. The bound is one for the characters left:
every member takes at least one. -/
def readFrom : Nat → Members → List Char → Option (Members × List Char)
  | 0, _, _ => none
  | bound + 1, m, cs => do
    let (name, cs) ← string cs
    let cs ← punctuation ':' cs
    let (m, cs) ← m.readValue bound name cs
    match skipSpace cs with
    | ',' :: cs => readFrom bound m cs
    | '}' :: cs => return (m, cs)
    | _ => none

/-- The chunk with these members, if none is missing. -/
def toChunk? (m : Members) : Option Chunk := do
  return ⟨← m.code, ← m.lines, ← m.constants⟩

end Members

/-- Reads a chunk written as an object, after the opening bracket. -/
def readObject (cs : List Char) : Option (Chunk × List Char) := do
  let (m, rest) ←
    match skipSpace cs with
    | '}' :: rest => some ({}, rest)
    | cs => Members.readFrom cs.length {} cs
  return (← m.toChunk?, rest)

/-- Reads a chunk written as a list, after the opening bracket. -/
def readList (cs : List Char) : Option (Chunk × List Char) := do
  let (code, cs) ← readCode cs
  let cs ← punctuation ',' cs
  let (lines, cs) ← readLines cs
  let cs ← punctuation ',' cs
  let (constants, cs) ← readConstants cs
  let rest ← punctuation ']' cs
  return (⟨code, lines, constants⟩, rest)

/-- The chunk that a JSON text writes. -/
def ofJson? (text : String) : Option Chunk := do
  let (c, rest) ←
    match skipSpace text.toList with
    | '{' :: rest => readObject rest
    | '[' :: rest => readList rest
    | _ => none
  if (skipSpace rest).isEmpty then return c else none

end Chunk

end Abacus

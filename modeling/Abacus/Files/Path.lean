import Abacus.Text.Pieces

/-!
# Paths

A path as it is written, cut at its slashes.  Empty parts count for nothing, except that a slash at the end asks
for a directory; a single dot stays where it is and two dots lead one level up.
-/

namespace Abacus

/-- A path as written. -/
structure Path where
  isAbsolute : Bool
  /-- The parts between the slashes, without the empty ones. -/
  names : List String
  endsInSlash : Bool
  deriving Repr, DecidableEq

namespace Path

/-- Reads a path. -/
def ofText (text : String) : Path :=
  let parts := Pieces.split '/' text.toList
  ⟨text.toList.head? == some '/', (parts.filter fun p => !p.isEmpty).map String.ofList,
    text.toList.getLast? == some '/'⟩

/-- The written form of a path, without superfluous slashes. -/
def text (p : Path) : String :=
  (if p.isAbsolute then "/" else "") ++ "/".intercalate p.names ++
    (if p.endsInSlash && !p.names.isEmpty then "/" else "")

/-- The parts that lead somewhere else. -/
def steps (p : Path) : List String :=
  p.names.filter (· != ".")

/-- The name of what a path leads to, unless it leads up or stays. -/
def fileName? (p : Path) : Option String :=
  match p.steps.getLast? with
  | some ".." => none
  | last => last

/-- The path of another name in the same directory. -/
def sibling (p : Path) (name : String) : Path :=
  ⟨p.isAbsolute, p.steps.dropLast ++ [name], false⟩

/-- Does a path end in a name, not in dots? -/
def endsInName (p : Path) : Bool :=
  match p.names.getLast? with
  | none | some "." | some ".." => false
  | some _ => true

end Path

end Abacus

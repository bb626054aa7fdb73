import Abacus.Json.Numeral

/-!
# JSON text

Readers for the pieces of JSON text.  A reader takes what it reads off the front of a list of characters and
gives the rest; `none` is a refusal.  `skipValue` checks any value without keeping it, nested as deep as it
likes: the open brackets are a list, not recursion.
-/

namespace Abacus.Json

/-- White space between the pieces of JSON text. -/
def isSpace (c : Char) : Bool :=
  c == ' ' || c == '\n' || c == '\t' || c == '\r'

/-- Drops white space. -/
def skipSpace (cs : List Char) : List Char :=
  cs.dropWhile isSpace

/-- Reads one character after white space. -/
def punctuation (c : Char) (cs : List Char) : Option (List Char) :=
  match skipSpace cs with
  | d :: rest => if c = d then some rest else none
  | [] => none

/-- Reads a fixed text. -/
def literal : List Char → List Char → Option (List Char)
  | [], cs => some cs
  | l :: ls, c :: cs => if l = c then literal ls cs else none
  | _ :: _, [] => none

/-! ## Strings -/

/-- The value of a hexadecimal digit. -/
def hexDigit? (c : Char) : Option Nat :=
  if c.isDigit then some (c.toNat - '0'.toNat)
  else if 'a' ≤ c ∧ c ≤ 'f' then some (c.toNat - 'a'.toNat + 10)
  else if 'A' ≤ c ∧ c ≤ 'F' then some (c.toNat - 'A'.toNat + 10)
  else none

/-- Reads four hexadecimal digits. -/
def hexUnit : List Char → Option (Nat × List Char)
  | a :: b :: c :: d :: rest => do
    let a ← hexDigit? a
    let b ← hexDigit? b
    let c ← hexDigit? c
    let d ← hexDigit? d
    return (((a * 16 + b) * 16 + c) * 16 + d, rest)
  | _ => none

/-- The character of a one-letter escape. -/
def simpleEscape? : Char → Option Char
  | '"' => some '"'
  | '\\' => some '\\'
  | '/' => some '/'
  | 'b' => some '\x08'
  | 'f' => some '\x0c'
  | 'n' => some '\n'
  | 'r' => some '\r'
  | 't' => some '\t'
  | _ => none

/-- Reads the second half of a surrogate pair. -/
def lowSurrogate : List Char → Option (Nat × List Char)
  | '\\' :: 'u' :: cs => do
    let (low, rest) ← hexUnit cs
    if 0xDC00 ≤ low ∧ low < 0xE000 then return (low, rest) else none
  | _ => none

/-- Reads the character of a hexadecimal escape after its `u`; a surrogate counts only as half of a pair. -/
def hexEscape (cs : List Char) : Option (Char × List Char) := do
  let (unit, rest) ← hexUnit cs
  if unit < 0xD800 ∨ 0xE000 ≤ unit then return (Char.ofNat unit, rest)
  else if unit < 0xDC00 then
    let (low, rest) ← lowSurrogate rest
    return (Char.ofNat (0x10000 + (unit - 0xD800) * 0x400 + (low - 0xDC00)), rest)
  else none

/-- Reads the character of an escape after its backslash. -/
def escape : List Char → Option (Char × List Char)
  | 'u' :: cs => hexEscape cs
  | c :: cs => (simpleEscape? c).map fun found => (found, cs)
  | [] => none

/-- Checks an escape after its backslash, halves of pairs included. -/
def skipEscape : List Char → Option (List Char)
  | 'u' :: cs => (hexUnit cs).map Prod.snd
  | c :: cs => (simpleEscape? c).map fun _ => cs
  | [] => none

theorem length_hexUnit_lt {cs rest : List Char} {n : Nat} (h : hexUnit cs = some (n, rest)) :
    rest.length < cs.length := by
  unfold hexUnit at h
  split at h
  · simp only [bind, pure, Option.bind_eq_some_iff, Option.some.injEq, Prod.mk.injEq] at h
    obtain ⟨_, _, _, _, _, _, _, _, _, rfl⟩ := h
    simp only [List.length_cons]
    omega
  · simp at h

theorem length_lowSurrogate_lt {cs rest : List Char} {n : Nat} (h : lowSurrogate cs = some (n, rest)) :
    rest.length < cs.length := by
  unfold lowSurrogate at h
  split at h
  · next cs =>
    obtain ⟨⟨low, tail⟩, found, inside⟩ := Option.bind_eq_some_iff.mp h
    have shorter := length_hexUnit_lt found
    dsimp only at inside
    split at inside
    · obtain ⟨rfl, rfl⟩ := Prod.mk.inj (Option.some.inj inside)
      simp only [List.length_cons]
      omega
    · simp at inside
  · simp at h

theorem length_hexEscape_lt {cs rest : List Char} {c : Char} (h : hexEscape cs = some (c, rest)) :
    rest.length < cs.length := by
  obtain ⟨⟨unit, tail⟩, found, inside⟩ := Option.bind_eq_some_iff.mp h
  have shorter := length_hexUnit_lt found
  dsimp only at inside
  split at inside
  · obtain ⟨rfl, rfl⟩ := Prod.mk.inj (Option.some.inj inside)
    exact shorter
  · split at inside
    · obtain ⟨⟨low, tail⟩, paired, pair⟩ := Option.bind_eq_some_iff.mp inside
      obtain ⟨rfl, rfl⟩ := Prod.mk.inj (Option.some.inj pair)
      exact Nat.lt_trans (length_lowSurrogate_lt paired) shorter
    · simp at inside

theorem length_escape_lt {cs rest : List Char} {c : Char} (h : escape cs = some (c, rest)) :
    rest.length < cs.length := by
  unfold escape at h
  split at h
  · exact Nat.lt_succ_of_lt (length_hexEscape_lt h)
  · obtain ⟨_, _, inside⟩ := Option.map_eq_some_iff.mp h
    obtain ⟨rfl, rfl⟩ := Prod.mk.inj inside
    simp
  · simp at h

theorem length_skipEscape_lt {cs rest : List Char} (h : skipEscape cs = some rest) :
    rest.length < cs.length := by
  unfold skipEscape at h
  split at h
  · obtain ⟨⟨_, tail⟩, found, rfl⟩ := Option.map_eq_some_iff.mp h
    exact Nat.lt_succ_of_lt (length_hexUnit_lt found)
  · obtain ⟨_, _, rfl⟩ := Option.map_eq_some_iff.mp h
    simp
  · simp at h

/-- Reads a string after its opening quote; `taken` are the characters read so far, last first. -/
def stringBody (taken : List Char) : List Char → Option (String × List Char)
  | [] => none
  | '"' :: rest => some (String.ofList taken.reverse, rest)
  | '\\' :: rest =>
    match _ : escape rest with
    | some (c, after) => stringBody (c :: taken) after
    | none => none
  | c :: rest => if c.toNat < 0x20 then none else stringBody (c :: taken) rest
termination_by cs => cs.length
decreasing_by
  · exact Nat.lt_succ_of_lt (length_escape_lt ‹_›)
  · simp

/-- Checks a string after its opening quote. -/
def skipStringBody : List Char → Option (List Char)
  | [] => none
  | '"' :: rest => some rest
  | '\\' :: rest =>
    match _ : skipEscape rest with
    | some after => skipStringBody after
    | none => none
  | c :: rest => if c.toNat < 0x20 then none else skipStringBody rest
termination_by cs => cs.length
decreasing_by
  · exact Nat.lt_succ_of_lt (length_skipEscape_lt ‹_›)
  · simp

/-- Reads a string after white space. -/
def string (cs : List Char) : Option (String × List Char) :=
  match skipSpace cs with
  | '"' :: rest => stringBody [] rest
  | _ => none

/-! ## Lists -/

/-- Reads elements, each followed by a comma or the closing bracket. The bound is one for the elements left;
`taken` are those read so far. -/
def elementsFrom {α : Type} (element : List Char → Option (α × List Char)) :
    Nat → Array α → List Char → Option (Array α × List Char)
  | 0, _, _ => none
  | bound + 1, taken, cs =>
    match element cs with
    | none => none
    | some (a, cs) =>
      match skipSpace cs with
      | ',' :: cs => elementsFrom element bound (taken.push a) cs
      | ']' :: cs => some (taken.push a, cs)
      | _ => none

/-- Reads a bracketed list after white space. -/
def elements {α : Type} (element : List Char → Option (α × List Char)) (cs : List Char) :
    Option (Array α × List Char) := do
  let cs ← punctuation '[' cs
  match skipSpace cs with
  | ']' :: rest => return (#[], rest)
  | cs => elementsFrom element cs.length #[] cs

/-! ## Values that are not kept -/

/-- An open bracket. -/
inductive Bracket where
  | list
  | object
  deriving DecidableEq

/-- The character that closes a bracket. -/
def Bracket.closing : Bracket → Char
  | list => ']'
  | object => '}'

/-- What stands next inside a value. -/
inductive Expected where
  | value
  /-- A name of an object member. -/
  | name
  /-- What an opened bracket starts with: its end, or its first element. -/
  | opening
  /-- What follows a value. -/
  | following
  deriving DecidableEq

/-- What an element of a bracket starts with. -/
def Bracket.element : Bracket → Expected
  | list => .value
  | object => .name

/-- Checks a value that is neither list nor object. -/
def skipScalar (cs : List Char) : Option (List Char) :=
  match cs with
  | '"' :: rest => skipStringBody rest
  | 'n' :: _ => literal "null".toList cs
  | 't' :: _ => literal "true".toList cs
  | 'f' :: _ => literal "false".toList cs
  | _ => (Numeral.read cs).map Prod.snd

/-- Checks the name of an object member and its colon. -/
def skipName (cs : List Char) : Option (List Char) :=
  match cs with
  | '"' :: rest => (skipStringBody rest).bind (punctuation ':')
  | _ => none

/-- Checks what is left of a value inside the open brackets, innermost first. Every second turn takes a
character, so twice the characters left are a bound. -/
def skipFrom : Nat → List Bracket → Expected → List Char → Option (List Char)
  | 0, _, _, _ => none
  | bound + 1, brackets, expected, cs =>
    match expected, brackets with
    | .following, [] => some cs
    | .following, bracket :: outer =>
      match skipSpace cs with
      | ',' :: rest => skipFrom bound brackets bracket.element rest
      | c :: rest => if c = bracket.closing then skipFrom bound outer .following rest else none
      | [] => none
    | .opening, [] => none
    | .opening, bracket :: outer =>
      match skipSpace cs with
      | c :: rest =>
        if c = bracket.closing then skipFrom bound outer .following rest
        else skipFrom bound brackets bracket.element (c :: rest)
      | [] => none
    | .name, _ =>
      match skipName (skipSpace cs) with
      | some rest => skipFrom bound brackets .value rest
      | none => none
    | .value, _ =>
      match skipSpace cs with
      | '[' :: rest => skipFrom bound (.list :: brackets) .opening rest
      | '{' :: rest => skipFrom bound (.object :: brackets) .opening rest
      | cs =>
        match skipScalar cs with
        | some rest => skipFrom bound brackets .following rest
        | none => none

/-- Checks any value after white space. The bound is one for the characters left. -/
def skipValue (bound : Nat) (cs : List Char) : Option (List Char) :=
  skipFrom (2 * bound + 2) [] .value cs

end Abacus.Json

import Abacus.Token.Kind

/-!
# Lexemes

Splits the first lexeme off a text that starts with no blank and no comment.  A lexeme is the longest piece of
the text that its first character allows; what belongs to no token is an error lexeme.  The text of a lexeme
and what is left of the source always make up the source again (`text_append_rest`).
-/

namespace Abacus

/-- A first piece of source text and what is left after it. -/
structure Lexeme where
  kind : Kind
  /-- The characters of the piece. -/
  text : List Char
  /-- The characters after it. -/
  rest : List Char

namespace Lexeme

/-- A character that starts a word: an ASCII letter or the underscore. -/
def isWordStart (c : Char) : Bool :=
  c.isAlpha || c == '_'

/-- A character inside a word. -/
def isWordChar (c : Char) : Bool :=
  isWordStart c || c.isDigit

/-- The longest word, reserved or not. -/
def word (c : Char) (cs : List Char) : Lexeme :=
  let text := c :: cs.takeWhile isWordChar
  ⟨.ofWord (String.ofList text), text, cs.dropWhile isWordChar⟩

/-- Digits, and a point with more digits if at least one follows it. -/
def number (c : Char) (cs : List Char) : Lexeme :=
  let whole := c :: cs.takeWhile Char.isDigit
  match cs.dropWhile Char.isDigit with
  | '.' :: d :: more =>
    if d.isDigit then
      ⟨.number, whole ++ '.' :: d :: more.takeWhile Char.isDigit, more.dropWhile Char.isDigit⟩
    else ⟨.number, whole, '.' :: d :: more⟩
  | rest => ⟨.number, whole, rest⟩

/-- Everything up to the next quote; without one, everything. -/
def string (cs : List Char) : Lexeme :=
  let body := '"' :: cs.takeWhile (· != '"')
  match cs.dropWhile (· != '"') with
  | [] => ⟨.error .unterminatedString, body, []⟩
  | quote :: rest => ⟨.string, body ++ [quote], rest⟩

/-- A character that makes an operator of two characters with a following equals sign. -/
def operator (c : Char) (pair single : Kind) : List Char → Lexeme
  | '=' :: rest => ⟨pair, [c, '='], rest⟩
  | rest => ⟨single, [c], rest⟩

/-- The lexeme of a text with first character `c` and further characters `cs`. -/
def scan (c : Char) (cs : List Char) : Lexeme :=
  if isWordStart c then word c cs
  else if c.isDigit then number c cs
  else
    match c with
    | '(' => ⟨.leftParen, [c], cs⟩
    | ')' => ⟨.rightParen, [c], cs⟩
    | '{' => ⟨.leftBrace, [c], cs⟩
    | '}' => ⟨.rightBrace, [c], cs⟩
    | ';' => ⟨.semicolon, [c], cs⟩
    | ',' => ⟨.comma, [c], cs⟩
    | '.' => ⟨.dot, [c], cs⟩
    | '-' => ⟨.minus, [c], cs⟩
    | '+' => ⟨.plus, [c], cs⟩
    | '/' => ⟨.slash, [c], cs⟩
    | '*' => ⟨.star, [c], cs⟩
    | '!' => operator c .bangEqual .bang cs
    | '=' => operator c .equalEqual .equal cs
    | '<' => operator c .lessEqual .less cs
    | '>' => operator c .greaterEqual .greater cs
    | '"' => string cs
    | _ => ⟨.error .unexpectedCharacter, [c], cs⟩

/-! ## Nothing is lost -/

theorem word_text_append_rest (c : Char) (cs : List Char) :
    (word c cs).text ++ (word c cs).rest = c :: cs := by
  simp [word, List.takeWhile_append_dropWhile]

theorem number_text_append_rest (c : Char) (cs : List Char) :
    (number c cs).text ++ (number c cs).rest = c :: cs := by
  have split := List.takeWhile_append_dropWhile (p := Char.isDigit) (l := cs)
  unfold number
  split
  · next d more tail =>
    split
    · simp [← tail, List.takeWhile_append_dropWhile, split]
    · simp [← tail, split]
  · next rest _ => simp [split]

theorem string_text_append_rest (cs : List Char) :
    (string cs).text ++ (string cs).rest = '"' :: cs := by
  have split := List.takeWhile_append_dropWhile (p := (· != '"')) (l := cs)
  unfold string
  split
  · next tail => simpa [tail] using split
  · next quote rest tail => simpa [tail] using split

theorem operator_text_append_rest (c : Char) (pair single : Kind) (cs : List Char) :
    (operator c pair single cs).text ++ (operator c pair single cs).rest = c :: cs := by
  unfold operator
  split <;> simp

/-- A lexeme and what is left after it make up the text. -/
theorem text_append_rest (c : Char) (cs : List Char) :
    (scan c cs).text ++ (scan c cs).rest = c :: cs := by
  unfold scan
  split
  · exact word_text_append_rest c cs
  · split
    · exact number_text_append_rest c cs
    · split <;> simp [operator_text_append_rest, string_text_append_rest]

theorem text_ne_nil (c : Char) (cs : List Char) : (scan c cs).text ≠ [] := by
  unfold scan word number string operator
  repeat' split
  all_goals simp

/-- A lexeme takes at least one character. -/
theorem length_rest_lt (c : Char) (cs : List Char) : (scan c cs).rest.length < (c :: cs).length := by
  have total := congrArg List.length (text_append_rest c cs)
  have taken := List.length_pos_iff.mpr (text_ne_nil c cs)
  rw [List.length_append] at total
  omega

end Lexeme

end Abacus

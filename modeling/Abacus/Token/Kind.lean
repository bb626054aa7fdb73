/-!
# Token kinds

The closed set of token kinds with their stable upper-case names, and the table of reserved words.
-/

namespace Abacus

/-- Why a piece of source is no token. -/
inductive LexicalError where
  /-- A character that starts no token. -/
  | unexpectedCharacter
  /-- A string literal that the source ends in. -/
  | unterminatedString
  deriving Repr, DecidableEq

/-- The text that an error token carries. -/
def LexicalError.message : LexicalError → String
  | unexpectedCharacter => "Unexpected character."
  | unterminatedString => "Unterminated string."

/-- The kind of a token. -/
inductive Kind where
  | leftParen | rightParen | leftBrace | rightBrace
  | comma | dot | minus | plus | semicolon | slash | star
  | bang | bangEqual | equal | equalEqual
  | greater | greaterEqual | less | lessEqual
  | identifier | string | number
  | andWord | classWord | elseWord | falseWord | forWord | funWord | ifWord | nilWord
  | orWord | printWord | returnWord | superWord | thisWord | trueWord | varWord | whileWord
  | error (cause : LexicalError)
  | eof
  deriving Repr, DecidableEq

namespace Kind

/-- The stable name of a kind. -/
def name : Kind → String
  | leftParen => "LEFT_PAREN"
  | rightParen => "RIGHT_PAREN"
  | leftBrace => "LEFT_BRACE"
  | rightBrace => "RIGHT_BRACE"
  | comma => "COMMA"
  | dot => "DOT"
  | minus => "MINUS"
  | plus => "PLUS"
  | semicolon => "SEMICOLON"
  | slash => "SLASH"
  | star => "STAR"
  | bang => "BANG"
  | bangEqual => "BANG_EQUAL"
  | equal => "EQUAL"
  | equalEqual => "EQUAL_EQUAL"
  | greater => "GREATER"
  | greaterEqual => "GREATER_EQUAL"
  | less => "LESS"
  | lessEqual => "LESS_EQUAL"
  | identifier => "IDENTIFIER"
  | string => "STRING"
  | number => "NUMBER"
  | andWord => "AND"
  | classWord => "CLASS"
  | elseWord => "ELSE"
  | falseWord => "FALSE"
  | forWord => "FOR"
  | funWord => "FUN"
  | ifWord => "IF"
  | nilWord => "NIL"
  | orWord => "OR"
  | printWord => "PRINT"
  | returnWord => "RETURN"
  | superWord => "SUPER"
  | thisWord => "THIS"
  | trueWord => "TRUE"
  | varWord => "VAR"
  | whileWord => "WHILE"
  | error _ => "ERROR"
  | eof => "EOF"

/-- Is this the kind of an error token? -/
def isError : Kind → Bool
  | error _ => true
  | _ => false

/-- The reserved words and their kinds. -/
def keywords : List (String × Kind) :=
  [("and", andWord), ("class", classWord), ("else", elseWord), ("false", falseWord), ("for", forWord), ("fun", funWord),
    ("if", ifWord), ("nil", nilWord), ("or", orWord), ("print", printWord), ("return", returnWord), ("super", superWord),
    ("this", thisWord), ("true", trueWord), ("var", varWord), ("while", whileWord)]

/-- The kind of a word: its own when it is reserved, otherwise that of identifiers. -/
def ofWord (word : String) : Kind :=
  (keywords.lookup word).getD identifier

end Kind

end Abacus

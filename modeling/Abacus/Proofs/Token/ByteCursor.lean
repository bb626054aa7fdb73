import Abacus.Proofs.Token.Bytes

/-!
# Cursors on bytes

A scanner that knows its source as bytes only.  It looks at the byte at hand and at the one behind it, moves on byte by
byte in loops that nothing bounds, takes the character of number 0 for what lies behind the last byte, and cuts the texts
of tokens out between byte offsets.  What can go wrong with that is an outcome of its own, a `Slip`.

* `ByteCursor.advanceWhile_place`: from between two characters, a loop over a class of characters ends where the class
  does;
* `ByteCursor.slice_place`: a text between two characters can be cut out.
-/

namespace Abacus

/-- Why a scan of bytes is given up. -/
inductive Slip where
  /-- The place was moved on although no byte is left. -/
  | beyondEnd
  /-- A text was to be cut out that does not start and end between two characters. -/
  | splitCharacter
  /-- A loop had more rounds than the source has bytes. -/
  | endless
  deriving DecidableEq

/-- A place among the bytes of a source. -/
structure ByteCursor where
  source : String
  /-- The bytes before this place. -/
  current : Nat
  line : Line

namespace ByteCursor

/-! ## Looking and moving -/

/-- The beginning of a source. -/
def ofSource (source : String) : ByteCursor :=
  ⟨source, 0, 1⟩

/-- The byte at an offset, as the character of that number, and the character 0 behind the last byte. -/
def byteAt (source : String) (i : Nat) : Char :=
  Char.ofUInt8 (source.toByteArray.data.getD i 0)

def isAtEnd (s : ByteCursor) : Bool :=
  s.source.utf8ByteSize ≤ s.current

def peek (s : ByteCursor) : Char :=
  byteAt s.source s.current

def peekNext (s : ByteCursor) : Char :=
  byteAt s.source (s.current + 1)

/-- Moves on by a byte. -/
def advance (s : ByteCursor) : Except Slip ByteCursor :=
  if s.isAtEnd then .error .beyondEnd else .ok { s with current := s.current + 1 }

/-- Moves on while a condition holds; `mark` keeps the line. -/
def advanceWhile (goes : ByteCursor → Bool) (mark : Line → Char → Line) (s : ByteCursor) : Except Slip ByteCursor :=
  if goes s then
    if s.isAtEnd then .error .beyondEnd
    else advanceWhile goes mark { s with current := s.current + 1, line := mark s.line s.peek }
  else .ok s
termination_by s.source.utf8ByteSize - s.current
decreasing_by
  have : ¬ s.source.utf8ByteSize ≤ s.current := by simpa [isAtEnd] using ‹¬ s.isAtEnd = true›
  show s.source.utf8ByteSize - (s.current + 1) < _
  omega

/-- A line that no character changes. -/
def unmarked (line : Line) (_ : Char) : Line :=
  line

/-- A line that is moved on by a line feed. -/
def feed (line : Line) (c : Char) : Line :=
  if c = '\n' then line + 1 else line

/-- The text between two offsets. -/
def slice (source : String) (start stop : Nat) : Except Slip String :=
  if h : start ≤ stop ∧ String.Pos.Raw.IsValid source ⟨start⟩ ∧ String.Pos.Raw.IsValid source ⟨stop⟩ then
    .ok (String.extract ⟨⟨start⟩, h.2.1⟩ ⟨⟨stop⟩, h.2.2⟩)
  else .error .splitCharacter

/-! ## Tokens -/

/-- Moves over white space and comments. -/
def skipGap : Nat → ByteCursor → Except Slip ByteCursor
  | 0, _ => .error .endless
  | rounds + 1, s => do
    if Cursor.isBlank s.peek then skipGap rounds (← s.advance)
    else if s.peek = '\n' then
      let s ← s.advance
      skipGap rounds { s with line := s.line + 1 }
    else if s.peek = '/' ∧ s.peekNext = '/' then
      skipGap rounds (← s.advanceWhile (fun s => s.peek != '\n' && !s.isAtEnd) unmarked)
    else return s

/-- A token of the source, from a start up to the place at hand. -/
def token (start : Nat) (kind : Kind) (s : ByteCursor) : Except Slip (Token × ByteCursor) := do
  let text ← slice s.source start s.current
  return (⟨kind, s.line, start, text⟩, s)

/-- An error token. -/
def error (start : Nat) (cause : LexicalError) (s : ByteCursor) : Token × ByteCursor :=
  (⟨.error cause, s.line, start, cause.message⟩, s)

def word (start : Nat) (s : ByteCursor) : Except Slip (Token × ByteCursor) := do
  let s ← s.advanceWhile (fun s => Lexeme.isWordChar s.peek) unmarked
  s.token start (.ofWord (← slice s.source start s.current))

def number (start : Nat) (s : ByteCursor) : Except Slip (Token × ByteCursor) := do
  let s ← s.advanceWhile (fun s => s.peek.isDigit) unmarked
  if s.peek = '.' ∧ s.peekNext.isDigit then
    let s ← s.advance
    let s ← s.advanceWhile (fun s => s.peek.isDigit) unmarked
    s.token start .number
  else s.token start .number

def string (start : Nat) (s : ByteCursor) : Except Slip (Token × ByteCursor) := do
  let s ← s.advanceWhile (fun s => s.peek != '"' && !s.isAtEnd) feed
  if s.isAtEnd then return s.error start .unterminatedString
  else
    let s ← s.advance
    s.token start .string

/-- A character that makes an operator of two characters with a following equals sign. -/
def operator (start : Nat) (pair single : Kind) (s : ByteCursor) : Except Slip (Token × ByteCursor) := do
  if s.isAtEnd || s.peek != '=' then s.token start single
  else
    let s ← s.advance
    s.token start pair

/-- A byte inside of a character of more than one byte. -/
def isContinuation (c : Char) : Bool :=
  128 ≤ c.toNat && c.toNat < 192

/-- A character that starts no token: its other bytes are passed as well. -/
def unexpected (start : Nat) (c : Char) (s : ByteCursor) : Except Slip (Token × ByteCursor) := do
  if c.toNat < 128 then return s.error start .unexpectedCharacter
  else
    let s ← s.advanceWhile (fun s => !s.isAtEnd && isContinuation s.peek) unmarked
    return s.error start .unexpectedCharacter

/-- The token that starts with the byte `c`, which is passed already. -/
def lexeme (start : Nat) (c : Char) (s : ByteCursor) : Except Slip (Token × ByteCursor) :=
  if Lexeme.isWordStart c then s.word start
  else if c.isDigit then s.number start
  else
    match c with
    | '(' => s.token start .leftParen
    | ')' => s.token start .rightParen
    | '{' => s.token start .leftBrace
    | '}' => s.token start .rightBrace
    | ';' => s.token start .semicolon
    | ',' => s.token start .comma
    | '.' => s.token start .dot
    | '-' => s.token start .minus
    | '+' => s.token start .plus
    | '/' => s.token start .slash
    | '*' => s.token start .star
    | '!' => s.operator start .bangEqual .bang
    | '=' => s.operator start .equalEqual .equal
    | '<' => s.operator start .lessEqual .less
    | '>' => s.operator start .greaterEqual .greater
    | '"' => s.string start
    | c => s.unexpected start c

/-- The next token and the place after it. -/
def scan (s : ByteCursor) : Except Slip (Token × ByteCursor) := do
  let s ← s.skipGap (s.source.utf8ByteSize + 1)
  let start := s.current
  if s.isAtEnd then s.token start .eof
  else
    let c := s.peek
    let s ← s.advance
    s.lexeme start c

/-! ## Bytes in place -/

theorem byteAt_eq (source : String) (i : Nat) : byteAt source i = (bytesOf source.toList).getD i '\x00' := by
  rw [byteAt, bytesOf_toList, Array.getD_eq_getD_getElem?, List.getD_eq_getElem?_getD, List.getElem?_map,
    Array.getElem?_toList]
  cases source.toByteArray.data[i]? <;> rfl

section Bytes

variable {source : String} {pre post : List Char} {b : Char} (line : Line)

theorem isAtEnd_eq (split : bytesOf source.toList = pre ++ post) :
    isAtEnd ⟨source, pre.length, line⟩ = post.isEmpty := by
  rw [isAtEnd, utf8ByteSize_eq, split, List.length_append]
  cases post <;> simp

theorem peek_eq (split : bytesOf source.toList = pre ++ b :: post) : peek ⟨source, pre.length, line⟩ = b := by
  simp [peek, byteAt_eq, split]

theorem peek_of_end (split : bytesOf source.toList = pre) : peek ⟨source, pre.length, line⟩ = '\x00' := by
  simp [peek, byteAt_eq, split]

/-- A loop passes the bytes of a class, one by one. -/
theorem advanceWhile_bytes (mark : Line → Char → Line) {goes : ByteCursor → Bool} {p : Char → Bool} {mid : List Char}
    (test : ∀ s, goes s = (!s.isAtEnd && p s.peek)) (split : bytesOf source.toList = pre ++ (mid ++ post))
    (all : ∀ b ∈ mid, p b = true) (stops : ∀ b ∈ post.head?, p b = false) :
    advanceWhile goes mark ⟨source, pre.length, line⟩ = .ok ⟨source, (pre ++ mid).length, mid.foldl mark line⟩ := by
  induction mid generalizing pre line with
  | nil =>
    have stop : goes ⟨source, pre.length, line⟩ = false := by
      rw [test, isAtEnd_eq line split]
      cases post with
      | nil => rfl
      | cons b post => rw [peek_eq line split, stops b rfl, Bool.and_false]
    rw [advanceWhile, stop, List.append_nil]
    rfl
  | cons b mid ih =>
    have atByte := peek_eq line split
    have within : isAtEnd ⟨source, pre.length, line⟩ = false := isAtEnd_eq line split
    have go : goes ⟨source, pre.length, line⟩ = true := by
      rw [test, within, atByte, all b (List.mem_cons_self ..)]
      rfl
    have split' : bytesOf source.toList = (pre ++ [b]) ++ (mid ++ post) := by simpa using split
    have further := ih (mark line b) split' fun d hd => all d (List.mem_cons_of_mem _ hd)
    rw [advanceWhile, go, within, atByte]
    simpa using further

end Bytes

/-! ## Characters in place -/

theorem foldl_unmarked (line : Line) (cs : List Char) : cs.foldl unmarked line = line := by
  induction cs with
  | nil => rfl
  | cons c cs ih => exact ih

section Places

variable {source : String} {before after : List Char} {c : Char} (line : Line)

theorem bytesOf_split (split : source.toList = before ++ after) :
    bytesOf source.toList = bytesOf before ++ bytesOf after := by
  rw [split, bytesOf_append]

theorem isAtEnd_place (split : source.toList = before ++ after) :
    isAtEnd ⟨source, utf8Length before, line⟩ = after.isEmpty := by
  rw [← length_bytesOf, isAtEnd_eq line (bytesOf_split split), isEmpty_bytesOf]

theorem peek_first {b : Char} {bs : List Char} (split : source.toList = before ++ c :: after)
    (first : bytesOf [c] = b :: bs) : peek ⟨source, utf8Length before, line⟩ = b := by
  have bytes : bytesOf source.toList = bytesOf before ++ b :: (bs ++ bytesOf after) := by
    rw [bytesOf_split split, bytesOf_cons, first, List.cons_append]
  rw [← length_bytesOf]
  exact peek_eq line bytes

theorem peek_ascii (split : source.toList = before ++ c :: after) (h : c.toNat < 128) :
    peek ⟨source, utf8Length before, line⟩ = c :=
  peek_first line split (bytesOf_ascii h)

/-- What a class tells about a character it tells about the byte at hand. -/
theorem peek_class {p : Char → Bool} {wide : Bool} (uniform : Uniform p wide) (split : source.toList = before ++ c :: after) :
    p (peek ⟨source, utf8Length before, line⟩) = p c := by
  obtain ⟨b, bs, bytes, mem⟩ := exists_bytesOf_cons c after
  rw [← length_bytesOf, peek_eq line (bytes ▸ bytesOf_split split)]
  exact uniform.bytes b mem

theorem peek_nul (split : source.toList = before) : peek ⟨source, utf8Length before, line⟩ = '\x00' := by
  rw [← length_bytesOf]
  exact peek_of_end line (split ▸ rfl)

/-- Where the character 0 does not go on, the end of the source need not be asked for. -/
theorem test_of_nul {p : Char → Bool} (nul : p '\x00' = false) (s : ByteCursor) :
    p s.peek = (!s.isAtEnd && p s.peek) := by
  cases atEnd : s.isAtEnd with
  | false => rfl
  | true =>
    have beyond : (bytesOf s.source.toList).length ≤ s.current := by
      rw [← utf8ByteSize_eq]
      simpa [isAtEnd] using atEnd
    rw [peek, byteAt_eq, List.getD_eq_getElem?_getD, List.getElem?_eq_none beyond, Option.getD_none, nul]
    rfl

/-- The byte at hand is in a class without the character 0 if and only if the character there is. -/
theorem class_place {p : Char → Bool} {wide : Bool} (uniform : Uniform p wide) (nul : p '\x00' = false)
    (split : source.toList = before ++ after) :
    p (peek ⟨source, utf8Length before, line⟩) = true ↔ ∃ d more, after = d :: more ∧ p d = true := by
  cases after with
  | nil => simp [peek_nul line (split.trans (List.append_nil _)), nul]
  | cons d more => simp [peek_class line uniform split]

theorem utf8Length_ascii (before : List Char) (h : c.toNat < 128) :
    utf8Length (before ++ [c]) = utf8Length before + 1 := by
  have small : c.utf8Size = 1 := Char.utf8Size_eq_one_iff.mpr (UInt32.le_iff_toNat_le.mpr (Nat.lt_succ_iff.mp h))
  simp [small]

theorem peekNext_ascii (before : List Char) (h : c.toNat < 128) :
    peekNext ⟨source, utf8Length before, line⟩ = peek ⟨source, utf8Length (before ++ [c]), line⟩ := by
  rw [utf8Length_ascii before h]
  rfl

theorem peek_eq_iff {d : Char} (h : d.toNat < 128) (nul : d ≠ '\x00') (split : source.toList = before ++ after) :
    peek ⟨source, utf8Length before, line⟩ = d ↔ ∃ more, after = d :: more := by
  have here := class_place line (uniform_beq h) (beq_eq_false_iff_ne.mpr nul.symm) split
  simp only [beq_iff_eq] at here
  rw [here]
  constructor
  · rintro ⟨_, more, rfl, rfl⟩
    exact ⟨more, rfl⟩
  · rintro ⟨more, rfl⟩
    exact ⟨d, more, rfl, rfl⟩

theorem advance_ascii (split : source.toList = before ++ c :: after) (h : c.toNat < 128) :
    advance ⟨source, utf8Length before, line⟩ = .ok ⟨source, utf8Length (before ++ [c]), line⟩ := by
  have within : isAtEnd ⟨source, utf8Length before, line⟩ = false := isAtEnd_place line split
  simp [advance, within, utf8Length_ascii before h]

theorem advanceWhile_place (mark : Line → Char → Line) {goes : ByteCursor → Bool} {p : Char → Bool} {wide : Bool}
    (uniform : Uniform p wide) (test : ∀ s, goes s = (!s.isAtEnd && p s.peek)) (split : source.toList = before ++ after) :
    advanceWhile goes mark ⟨source, utf8Length before, line⟩ =
      .ok ⟨source, utf8Length (before ++ after.takeWhile p), (bytesOf (after.takeWhile p)).foldl mark line⟩ := by
  have bytes : bytesOf source.toList = bytesOf before ++ (bytesOf (after.takeWhile p) ++ bytesOf (after.dropWhile p)) := by
    rw [← bytesOf_append, List.takeWhile_append_dropWhile, bytesOf_split split]
  have all : ∀ b ∈ bytesOf (after.takeWhile p), p b = true :=
    uniform.all_bytes fun _ => List.mem_takeWhile_imp
  have stops : ∀ b ∈ (bytesOf (after.dropWhile p)).head?, p b = false := by
    have head := head?_dropWhile_eq_false p after
    cases tail : after.dropWhile p with
    | nil => nofun
    | cons c cs =>
      obtain ⟨b, bs, bytes, mem⟩ := exists_bytesOf_cons c cs
      rw [bytes]
      refine forall_mem_head?_cons.mpr ?_
      rw [uniform.bytes _ mem]
      exact head c (by rw [tail]; rfl)
  rw [← length_bytesOf, ← length_bytesOf, bytesOf_append]
  exact advanceWhile_bytes line mark test bytes all stops

/-- Between two characters there is a boundary. -/
theorem isValid_place (split : source.toList = before ++ after) :
    String.Pos.Raw.IsValid source ⟨utf8Length before⟩ := by
  refine String.Pos.Raw.isValid_iff_exists_append.mpr ⟨String.ofList before, String.ofList after, ?_, ?_⟩
  · rw [← String.ofList_append, ← split, String.ofList_toList]
  · rw [String.rawEndPos, utf8ByteSize_ofList]

/-- Texts that end between characters can be cut out. -/
theorem slice_place {text : List Char} (split : source.toList = before ++ (text ++ after)) :
    slice source (utf8Length before) (utf8Length (before ++ text)) = .ok (String.ofList text) := by
  have start := isValid_place split
  have split' : source.toList = before ++ text ++ after := by rw [split, List.append_assoc]
  have stop := isValid_place split'
  have le : utf8Length before ≤ utf8Length (before ++ text) := by simp
  have bytes : source.toByteArray =
      (String.ofList before).toByteArray ++ ((String.ofList text).toByteArray ++ (String.ofList after).toByteArray) := by
    rw [← String.toByteArray_append, ← String.toByteArray_append, ← String.ofList_append, ← String.ofList_append, ← split,
      String.ofList_toList]
  have front : utf8Length before = (String.ofList before).toByteArray.size := (utf8ByteSize_ofList before).symm
  have inner : utf8Length text = (String.ofList text).toByteArray.size := (utf8ByteSize_ofList text).symm
  rw [slice, dif_pos ⟨le, start, stop⟩]
  refine congrArg Except.ok (String.toByteArray_inj.mp ?_)
  show source.toByteArray.extract (utf8Length before) (utf8Length (before ++ text)) = _
  rw [bytes, utf8Length_append, front, inner, ← Nat.add_zero (ByteArray.size _), Nat.add_assoc]
  rw [ByteArray.extract_append_size_add, Nat.zero_add, ByteArray.extract_append_eq_left rfl]

end Places

end ByteCursor

end Abacus

import Abacus.Text.Utf8
import Abacus.Token
import Abacus.Token.Lexeme

/-!
# Cursors

A place in a source: what is left of it, the bytes before it and the line it is on.  `skipGap` moves over
white space and comments, `scan` over one token; a token other than the end of the source leaves less behind
(`length_scan_lt`).
-/

namespace Abacus

/-- A line, moved on by the line feeds of a text. -/
def lineAfter (line : Line) (cs : List Char) : Line :=
  cs.foldl (fun l c => if c = '\n' then l + 1 else l) line

@[simp] theorem lineAfter_nil (line : Line) : lineAfter line [] = line :=
  rfl

@[simp] theorem lineAfter_append (line : Line) (as bs : List Char) :
    lineAfter line (as ++ bs) = lineAfter (lineAfter line as) bs :=
  List.foldl_append

/-- A place in a source. -/
structure Cursor where
  /-- The source from here on. -/
  rest : List Char
  /-- The bytes before this place. -/
  offset : Nat
  /-- The line of this place. -/
  line : Line

namespace Cursor

/-- The beginning of a source. -/
def ofSource (source : String) : Cursor :=
  ⟨source.toList, 0, 1⟩

/-- The place after `text`, where `rest` is left. -/
def pass (c : Cursor) (text rest : List Char) : Cursor :=
  ⟨rest, c.offset + utf8Length text, lineAfter c.line text⟩

/-! ## Gaps between tokens -/

/-- White space within a line. -/
def isBlank (c : Char) : Bool :=
  c == ' ' || c == '\r' || c == '\t'

/-- Moves over white space and comments. A comment runs from two slashes to just before the next line feed;
`inComment` tells whether the text at hand belongs to one. -/
def afterGap (inComment : Bool) : List Char → Nat → Line → Cursor
  | [], offset, line => ⟨[], offset, line⟩
  | c :: cs, offset, line =>
    if c = '\n' then afterGap false cs (offset + 1) (line + 1)
    else if inComment then afterGap true cs (offset + c.utf8Size) line
    else if isBlank c then afterGap false cs (offset + 1) line
    else if c = '/' ∧ cs.head? = some '/' then afterGap true cs (offset + 1) line
    else ⟨c :: cs, offset, line⟩

/-- The next place at which a token starts or the source ends. -/
def skipGap (c : Cursor) : Cursor :=
  afterGap false c.rest c.offset c.line

theorem length_afterGap_le (inComment : Bool) (cs : List Char) (offset : Nat) (line : Line) :
    (afterGap inComment cs offset line).rest.length ≤ cs.length := by
  induction cs generalizing inComment offset line with
  | nil => simp [afterGap]
  | cons c cs ih =>
    unfold afterGap
    repeat' split
    all_goals simp only [List.length_cons]
    all_goals first | exact Nat.le_succ_of_le (ih ..) | exact Nat.le_refl _

/-! ## Tokens -/

/-- The next token and the place after it. At the end of the source that is the end token, again and again. -/
def scan (c : Cursor) : Token × Cursor :=
  let start := c.skipGap
  match start.rest with
  | [] => (⟨.eof, start.line, start.offset, ""⟩, start)
  | ch :: chs =>
    let lexeme := Lexeme.scan ch chs
    let after := start.pass lexeme.text lexeme.rest
    let text :=
      match lexeme.kind with
      | .error cause => cause.message
      | _ => String.ofList lexeme.text
    (⟨lexeme.kind, after.line, start.offset, text⟩, after)

/-- Every token but the end of the source takes at least one character. -/
theorem length_scan_lt (c : Cursor) (h : c.scan.1.kind ≠ .eof) :
    c.scan.2.rest.length < c.rest.length := by
  have gap : c.skipGap.rest.length ≤ c.rest.length := length_afterGap_le false c.rest c.offset c.line
  unfold scan at h ⊢
  dsimp only at h ⊢
  split
  · next empty => simp [empty] at h
  · next ch chs start =>
    have taken := Lexeme.length_rest_lt ch chs
    rw [start] at gap
    exact Nat.lt_of_lt_of_le taken gap

/-- Appends the tokens from here on, the end token included, and gives the place after them. -/
def collect (c : Cursor) (found : Array Token) : Array Token × Cursor :=
  let scanned := c.scan
  if _ : scanned.1.kind = .eof then (found.push scanned.1, scanned.2)
  else collect scanned.2 (found.push scanned.1)
termination_by c.rest.length
decreasing_by exact length_scan_lt c ‹_›

end Cursor

/-- The tokens of a source, closed by its only end token. -/
def tokens (source : String) : List Token :=
  ((Cursor.ofSource source).collect #[]).1.toList

end Abacus

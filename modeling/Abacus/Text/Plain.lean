/-!
# Plain text

Text for a stream that is no terminal: without control sequences and without the control characters that lay
nothing out.  What is left is visible (`isVisible_of_mem_plain`), and text that is visible is left as it is
(`plain_eq_self`).
-/

namespace Abacus.Plain

/-- Is a character one that lays out text: a tab, a line feed, a form feed or a carriage return? -/
def isLayout (c : Char) : Bool :=
  c == '\t' || c == '\n' || c == '\x0c' || c == '\r'

/-- Is a character printed or one that lays out text? -/
def isVisible (c : Char) : Bool :=
  (' ' ≤ c && c != '\x7f') || isLayout c

/-! ## Control sequences -/

/-- The part of a control sequence that a text has come to. -/
inductive Sequence where
  /-- No sequence is open. -/
  | outside
  /-- The escape character was read. -/
  | escape
  /-- Intermediate characters follow the escape character. -/
  | intermediate
  /-- Parameters of a control sequence. -/
  | control
  /-- The beginning of a device control string. -/
  | deviceEntry
  /-- Parameters of a device control string. -/
  | deviceParameters
  /-- Intermediate characters of a device control string. -/
  | deviceIntermediate
  /-- The text of a control string. -/
  | string
  /-- The text of an operating system command. -/
  | command
  deriving DecidableEq

namespace Sequence

/-- The part that follows an escape character and `c`. -/
def afterEscape (c : Char) : Sequence :=
  if ' ' ≤ c ∧ c ≤ '/' then .intermediate
  else if c = '[' then .control
  else if c = ']' then .command
  else if c = 'P' then .deviceEntry
  else if c = 'X' ∨ c = '^' ∨ c = '_' then .string
  else if '0' ≤ c ∧ c ≤ '~' then .outside
  else .escape

/-- The part that follows `c` at the beginning of a device control string. -/
def afterDeviceEntry (c : Char) : Sequence :=
  if ' ' ≤ c ∧ c ≤ '/' then .deviceIntermediate
  else if '0' ≤ c ∧ c ≤ '?' then .deviceParameters
  else if '@' ≤ c ∧ c ≤ '~' then .string
  else .deviceEntry

/-- The part that follows `c` among the parameters of a device control string. -/
def afterDeviceParameter (c : Char) : Sequence :=
  if ' ' ≤ c ∧ c ≤ '/' then .deviceIntermediate
  else if '<' ≤ c ∧ c ≤ '~' then .string
  else .deviceParameters

/-- Does a character end a control string? A reader of bytes takes the byte 9C for the terminator, also inside a
longer character. -/
def endsString (c : Char) : Bool :=
  (String.utf8EncodeChar c).contains 0x9C

/-- The part that follows a character. An escape character begins a sequence anywhere; a cancel or a substitute
character ends one. -/
def next (s : Sequence) (c : Char) : Sequence :=
  if c = '\x1b' then .escape
  else if c = '\x18' ∨ c = '\x1a' then .outside
  else
    match s with
    | outside => .outside
    | escape => afterEscape c
    | intermediate => if '0' ≤ c ∧ c ≤ '~' then .outside else .intermediate
    | control => if '@' ≤ c ∧ c ≤ '~' then .outside else .control
    | deviceEntry => afterDeviceEntry c
    | deviceParameters => afterDeviceParameter c
    | deviceIntermediate => if '0' ≤ c ∧ c ≤ '~' then .string else .deviceIntermediate
    | string => if endsString c then .outside else .string
    | command => if c = '\x07' then .outside else .command

/-- Is a character shown that stands there? -/
def shows : Sequence → Char → Bool
  | outside, c => isVisible c
  | escape, c | intermediate, c | control, c => isLayout c
  | _, _ => false

theorem isVisible_of_shows {s : Sequence} {c : Char} (h : s.shows c) : isVisible c := by
  cases s <;> simp_all [shows, isVisible]

end Sequence

/-! ## Shown text -/

/-- Text shown up to here. -/
structure Shown where
  /-- The characters, last first. -/
  text : List Char
  sequence : Sequence
  /-- Was the last character shown? -/
  inText : Bool

namespace Shown

/-- Nothing is read yet. -/
def start : Shown :=
  ⟨[], .outside, false⟩

/-- The part of a sequence that the next character is taken for. -/
def place (s : Shown) : Sequence :=
  if s.inText then .outside else s.sequence

/-- Goes on by one character. A layout character inside a sequence interrupts it: what follows is shown as text.
The sequence goes on at the next control character, unless a character that is not ASCII came before. -/
def push (s : Shown) (c : Char) : Shown :=
  if s.place.shows c then
    ⟨c :: s.text, if c.toNat < 0x80 then s.sequence else .outside, true⟩
  else ⟨s.text, s.sequence.next c, false⟩

theorem foldl_push_of_isVisible {s : Shown} (cs : List Char) (h : ∀ c ∈ cs, isVisible c)
    (outside : s.sequence = .outside) : (cs.foldl push s).text = cs.reverse ++ s.text := by
  induction cs generalizing s with
  | nil => rfl
  | cons c cs ih =>
    have seen : Sequence.outside.shows c := h c List.mem_cons_self
    have pushed : s.push c = ⟨c :: s.text, .outside, true⟩ := by
      simp [push, place, outside, seen]
    rw [List.foldl_cons, pushed, ih (fun d hd => h d (List.mem_cons_of_mem _ hd)) rfl]
    simp

theorem isVisible_of_mem_text_push {s : Shown} (h : ∀ d ∈ s.text, isVisible d) (c : Char) :
    ∀ d ∈ (s.push c).text, isVisible d := by
  unfold push
  split
  · next seen => exact List.forall_mem_cons.mpr ⟨Sequence.isVisible_of_shows seen, h⟩
  · exact h

theorem isVisible_of_mem_text_foldl {s : Shown} (cs : List Char) (h : ∀ d ∈ s.text, isVisible d) :
    ∀ d ∈ (cs.foldl push s).text, isVisible d := by
  induction cs generalizing s with
  | nil => exact h
  | cons c cs ih => exact ih (isVisible_of_mem_text_push h c)

end Shown

/-- The text that is left of one with control characters and sequences. -/
def plain (cs : List Char) : List Char :=
  (cs.foldl Shown.push .start).text.reverse

/-- Nothing but visible characters is left. -/
theorem isVisible_of_mem_plain {c : Char} {cs : List Char} (h : c ∈ plain cs) : isVisible c :=
  Shown.isVisible_of_mem_text_foldl cs (by simp [Shown.start]) c (List.mem_reverse.mp h)

/-- Visible text is left as it is. -/
theorem plain_eq_self {cs : List Char} (h : ∀ c ∈ cs, isVisible c) : plain cs = cs := by
  rw [plain, Shown.foldl_push_of_isVisible cs h (rfl : Shown.start.sequence = .outside)]
  simp [Shown.start]

end Abacus.Plain

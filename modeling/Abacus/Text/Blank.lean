import Abacus.Text.Runs

/-!
# Blank characters

The characters with the Unicode property White_Space, and cutting them off both ends of a text.
-/

namespace Abacus.Blank

/-- The code points with the property White_Space. -/
def runs : Runs :=
  [(0x09, 0x0D), (0x20, 0x20), (0x85, 0x85), (0xA0, 0xA0), (0x1680, 0x1680), (0x2000, 0x200A), (0x2028, 0x2029),
    (0x202F, 0x202F), (0x205F, 0x205F), (0x3000, 0x3000)]

/-- Is this character white space? -/
def isBlank (c : Char) : Bool :=
  runs.includes c

/-- A list of characters without the blanks at both ends. -/
def trimList (cs : List Char) : List Char :=
  ((cs.dropWhile isBlank).reverse.dropWhile isBlank).reverse

/-- A text without the blanks at both ends. -/
def trim (text : String) : String :=
  String.ofList (trimList text.toList)

/-- ASCII white space is blank. -/
theorem isBlank_of_isWhitespace {c : Char} (h : c.isWhitespace) : isBlank c := by
  simp only [Char.isWhitespace, Bool.or_eq_true, decide_eq_true_eq] at h
  rcases h with ((rfl | rfl) | rfl) | rfl <;> rfl

end Abacus.Blank

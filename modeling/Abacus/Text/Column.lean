/-!
# Columns

Text set in columns of a least width: numbers to the right, names to the left.
-/

namespace Abacus.Column

/-- A number, set to the right among blanks. -/
def right (width n : Nat) : String :=
  String.ofList ((Nat.toDigits 10 n).leftpad width ' ')

/-- A number with leading zeros. -/
def zeroed (width n : Nat) : String :=
  String.ofList ((Nat.toDigits 10 n).leftpad width '0')

/-- A text, set to the left. -/
def left (width : Nat) (text : String) : String :=
  String.ofList (text.toList.rightpad width ' ')

end Abacus.Column

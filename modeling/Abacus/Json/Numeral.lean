import Abacus.Number.Decimal

/-!
# JSON numbers

A number as it is written in JSON: an optional minus, digits without a superfluous zero in front, and optionally
a fraction and an exponent.

Of its digits only the leading ones are kept, as many as fit 64 bits.  The kept digits are rounded to binary64
and then multiplied or divided by a power of ten, which rounds again: a number with few digits and a small
exponent is read exactly, any other one perhaps a unit in the last place off.
-/

namespace Abacus.Json

/-- A number as written, cut to its leading digits. -/
structure Numeral where
  isNegative : Bool
  /-- The number without its sign; the coefficient is below `2 ^ 64`. -/
  decimal : Decimal
  /-- Is it written without fraction and exponent? -/
  isInteger : Bool

namespace Numeral

/-- The digits at the start of a text, and the rest. -/
def digits (cs : List Char) : List Char × List Char :=
  (cs.takeWhile Char.isDigit, cs.dropWhile Char.isDigit)

/-- The digits before the point: a zero stands alone. -/
def readWhole (cs : List Char) : Option (List Char × List Char) :=
  match digits cs with
  | ([], _) => none
  | (['0'], rest) => some (['0'], rest)
  | ('0' :: _, _) => none
  | found => some found

/-- The fraction, empty where no point follows. -/
def readFraction : List Char → Option (List Char × List Char)
  | '.' :: cs =>
    match digits cs with
    | ([], _) => none
    | found => some found
  | cs => some ([], cs)

/-- The digits of an exponent as a number. -/
def readPower (isNegative : Bool) (cs : List Char) : Option (Int × List Char) :=
  match digits cs with
  | ([], _) => none
  | (found, rest) => (Decimal.readDigits 0 found).map fun n => (if isNegative then -(n : Int) else n, rest)

/-- The exponent; `some none` where none is written. -/
def readExponent : List Char → Option (Option Int × List Char)
  | c :: cs =>
    if c = 'e' ∨ c = 'E' then
      let power :=
        match cs with
        | '+' :: cs => readPower false cs
        | '-' :: cs => readPower true cs
        | cs => readPower false cs
      power.map fun (n, rest) => (some n, rest)
    else some (none, c :: cs)
  | [] => some (none, [])

/-- Appends digits to a coefficient as long as it stays below `2 ^ 64`; the digits from the first one that does
not fit are left over. -/
def keep (coefficient : Nat) : List Char → Nat × List Char
  | [] => (coefficient, [])
  | c :: cs =>
    match Decimal.digit? c with
    | some d =>
      if 10 * coefficient + d < UInt64.size then keep (10 * coefficient + d) cs else (coefficient, c :: cs)
    | none => (coefficient, c :: cs)

theorem keep_lt {coefficient : Nat} (h : coefficient < UInt64.size) (cs : List Char) :
    (keep coefficient cs).1 < UInt64.size := by
  induction cs generalizing coefficient with
  | nil => exact h
  | cons c cs ih =>
    unfold keep
    split
    · split
      · next fits => exact ih fits
      · exact h
    · exact h

/-- The leading digits of a number. A digit that is left over before the point counts as a place, one behind it
as nothing. Digits behind the point are kept even if one before it was left over, where they fit. -/
def leading (whole fraction : List Char) : Decimal :=
  let (kept, beyond) := keep 0 whole
  let (coefficient, lost) := keep kept fraction
  ⟨coefficient, (beyond.length : Int) - ((fraction.length : Int) - (lost.length : Int))⟩

theorem coefficient_leading_lt (whole fraction : List Char) :
    (leading whole fraction).coefficient < UInt64.size :=
  keep_lt (keep_lt (by decide) whole) fraction

/-- A number without its sign. -/
def readUnsigned (isNegative : Bool) (cs : List Char) : Option (Numeral × List Char) := do
  let (whole, cs) ← readWhole cs
  let (fraction, cs) ← readFraction cs
  let (power, cs) ← readExponent cs
  let d := leading whole fraction
  return (⟨isNegative, ⟨d.coefficient, d.exponent + power.getD 0⟩, fraction.isEmpty && power.isNone⟩, cs)

/-- The number at the start of a text, and the rest. -/
def read : List Char → Option (Numeral × List Char)
  | '-' :: cs => readUnsigned true cs
  | cs => readUnsigned false cs

/-- The natural number that is written as an integer without a minus, if all its digits were kept. -/
def toNat? (n : Numeral) : Option Nat :=
  if n.isInteger && !n.isNegative && n.decimal.exponent == 0 then some n.decimal.coefficient else none

/-- The largest power of ten that binary64 holds. -/
def maxPower : Int := 308

/-- The binary64 magnitude of a power of ten. -/
def powerOfTen (e : Int) : Nat :=
  Decimal.magnitude ⟨1, e⟩

/-- The magnitude of a decimal, rounded twice: its coefficient, and the product or quotient with a power of ten.
A division by more than the largest power takes two steps, and two such steps bring every coefficient to zero. -/
def magnitude (d : Decimal) : Nat :=
  let b := Binary64.ofRatio d.coefficient 1
  if 0 ≤ d.exponent then
    if d.exponent ≤ maxPower then Binary64.product b (powerOfTen d.exponent)
    else if b = 0 then 0
    else Binary64.infinity
  else if -maxPower ≤ d.exponent then Binary64.quotient b (powerOfTen (-d.exponent))
  else if -(2 * maxPower) ≤ d.exponent then
    Binary64.quotient (Binary64.quotient b (powerOfTen maxPower)) (powerOfTen (-d.exponent - maxPower))
  else 0

/-- The number that is read; `none` when it is infinite. -/
def toFloat? (n : Numeral) : Option Float :=
  let b := magnitude n.decimal
  if b < Binary64.infinity then
    some (Binary64.ofMagnitude (if n.isNegative then Binary64.signBit + b else b))
  else none

end Numeral

end Abacus.Json

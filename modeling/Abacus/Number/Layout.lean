import Abacus.Number.Decimal

/-!
# Layouts of a number

Two ways to write a binary64 number down, both with the fewest digits that read back.  The *positional*
layout never uses an exponent and writes integers without a point; the *scientific* layout of the exchange
format keeps a point in every number near one and falls back to an exponent far from it.
-/

namespace Abacus.Layout

/-- A run of zeros. -/
def zeros (n : Nat) : List Char :=
  List.replicate n '0'

/-! ## Positional -/

/-- Digits with the point where the exponent puts it: `1200`, `1.2`, `0.0012`. -/
def positional (d : Decimal) : List Char :=
  let digits := d.digits
  if d.exponent < 0 then
    let places := (-d.exponent).toNat
    if places < digits.length then
      digits.take (digits.length - places) ++ '.' :: digits.drop (digits.length - places)
    else '0' :: '.' :: zeros (places - digits.length) ++ digits
  else digits ++ zeros d.exponent.toNat

/-- A finite magnitude, positional; of two equally near digit strings the larger. -/
def displayMagnitude (b : Nat) : List Char :=
  if b = 0 then ['0'] else positional (Decimal.shortest .up b)

/-- The text of a number for people: `14`, `-0.5`, `-0`, `inf`, `-inf`, `NaN`. -/
def display (x : Float) : List Char :=
  let b := Binary64.magnitude x
  if Binary64.infinity < b then "NaN".toList
  else
    let body := if b = Binary64.infinity then "inf".toList else displayMagnitude b
    if Binary64.isNegative x then '-' :: body else body

/-! ## Scientific -/

/-- One digit before the point, none of it if no digit follows, and a signed exponent: `1.5e+300`, `1e-7`. -/
def withExponent (digits : List Char) (power : Int) : List Char :=
  let fraction := digits.drop 1
  let sign := if power < 0 then '-' else '+'
  digits.take 1 ++ (if fraction.isEmpty then [] else '.' :: fraction) ++
    'e' :: sign :: Nat.toDigits 10 power.natAbs

/-- Positional while the point stands at most 16 digits right of the first digit or at most four zeros left of
it, always with a point; otherwise with an exponent. -/
def scientific (d : Decimal) : List Char :=
  let point := (d.digits.length : Int) + d.exponent
  if 0 < point ∧ point ≤ 16 then
    if d.exponent < 0 then positional d else positional d ++ ['.', '0']
  else if -5 < point ∧ point ≤ 0 then positional d
  else withExponent d.digits (point - 1)

/-- A finite magnitude, scientific; of two equally near digit strings the one with the even last digit. -/
def exchangeMagnitude (b : Nat) : List Char :=
  if b = 0 then ['0', '.', '0'] else scientific (Decimal.shortest .even b)

/-- The text of a number in the exchange format; one that is not finite is `null`. -/
def exchange (x : Float) : List Char :=
  let b := Binary64.magnitude x
  if b < Binary64.infinity then
    if Binary64.isNegative x then '-' :: exchangeMagnitude b else exchangeMagnitude b
  else "null".toList

end Abacus.Layout

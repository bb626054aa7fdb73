import Abacus.Number.Binary64

/-!
# Decimal numbers

A decimal is a coefficient times a power of ten.  `Decimal.magnitude` rounds it to binary64, and
`shortest` goes back: the decimal with the fewest digits that rounds to a given number and, of those, the one
nearest to it.
-/

namespace Abacus

/-- The number `coefficient * 10 ^ exponent`. -/
structure Decimal where
  /-- The digits, read as one natural. -/
  coefficient : Nat
  /-- The power of ten that the coefficient counts. -/
  exponent : Int
  deriving Repr, DecidableEq

/-- Which of two equally near decimals stands for a number. -/
inductive Tie where
  /-- The larger one. -/
  | up
  /-- The one with the even last digit. -/
  | even
  deriving Repr, DecidableEq

namespace Decimal

/-- The digits of the coefficient, most significant first. -/
def digits (d : Decimal) : List Char :=
  Nat.toDigits 10 d.coefficient

/-- The binary64 magnitude nearest to a decimal. -/
def magnitude (d : Decimal) : Nat :=
  if d.exponent < 0 then Binary64.ofRatio d.coefficient (Nat.pow 10 (-d.exponent).toNat)
  else Binary64.ofRatio (d.coefficient * Nat.pow 10 d.exponent.toNat) 1

/-- The binary64 number nearest to a decimal. -/
def toFloat (d : Decimal) : Float :=
  Binary64.ofMagnitude d.magnitude

/-! ## Numerals -/

/-- The digit that a character stands for. -/
def digit? (c : Char) : Option Nat :=
  if c.isDigit then some (c.toNat - '0'.toNat) else none

/-- Appends digits to a coefficient; `none` on any other character. -/
def readDigits (coefficient : Nat) : List Char → Option Nat
  | [] => some coefficient
  | c :: cs =>
    match digit? c with
    | some d => readDigits (10 * coefficient + d) cs
    | none => none

/-- Reads digits with an optional point between digits: `12`, `3.50`. -/
def ofNumeral? (cs : List Char) : Option Decimal :=
  let (whole, rest) := cs.span (· != '.')
  if whole.isEmpty then none
  else
    match readDigits 0 whole, rest with
    | some n, [] => some ⟨n, 0⟩
    | some n, _ :: fraction =>
      if fraction.isEmpty then none
      else (readDigits n fraction).map fun m => ⟨m, -(fraction.length : Int)⟩
    | none, _ => none

/-! ## Shortest digits -/

/-- The decimal with exponent `e` nearest to `num / den` among its two neighbours there, provided it rounds to
`b`; a neighbour that does not round to `b` is passed over. -/
def nearestAt (tie : Tie) (b num den : Nat) (e : Int) : Option Decimal :=
  let (num, den) := if e < 0 then (num * Nat.pow 10 (-e).toNat, den) else (num, den * Nat.pow 10 e.toNat)
  let below : Decimal := ⟨num / den, e⟩
  let above : Decimal := ⟨num / den + 1, e⟩
  if below.magnitude = b then
    if above.magnitude = b then
      let twice := 2 * (num % den)
      if twice < den then some below
      else if den < twice then some above
      else
        match tie with
        | .up => some above
        | .even => if below.coefficient % 2 = 0 then some below else some above
    else some below
  else if above.magnitude = b then some above
  else none

/-- Tries `tries` exponents downwards from `e`. -/
def firstNearest (tie : Tie) (b num den : Nat) : Nat → Int → Option Decimal
  | 0, _ => none
  | tries + 1, e =>
    match nearestAt tie b num den e with
    | some d => some d
    | none => firstNearest tie b num den tries (e - 1)

/-- An exponent `e` with `m * 2 ^ q < 10 ^ e`, at most two too large: `0.30103` lies above the logarithm of two. -/
def upperExponent (m : Nat) (q : Int) : Int :=
  ((m.log2 : Int) + 1 + q) * 30103 / 100000 + 1

/-- The exact decimal value of `m * 2 ^ q`. -/
def exact (m : Nat) (q : Int) : Decimal :=
  if q < 0 then ⟨m * Nat.pow 5 (-q).toNat, q⟩ else ⟨m <<< q.toNat, 0⟩

/-- The decimal with the fewest digits that rounds to the finite magnitude `b`; of those the nearest one, and
of two equally near ones the one that `tie` names. Seventeen digits always suffice, so twenty exponents do. -/
def shortest (tie : Tie) (b : Nat) : Decimal :=
  let m := Binary64.mantissa b
  let q := Binary64.exponent b
  let (num, den) := Binary64.scale m q
  (firstNearest tie b num den 20 (upperExponent m q)).getD (exact m q)

end Decimal

end Abacus

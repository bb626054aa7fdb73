/-!
# Binary64 magnitudes

A nonnegative binary64 number is stored as a natural below `2 ^ 63`, its *magnitude*: the biased exponent
above 52 fraction bits.  The finite magnitude `b` denotes `mantissa b * 2 ^ exponent b`, and consecutive
magnitudes denote consecutive numbers.  `ofRatio` rounds an exact quotient of naturals to the nearest
magnitude, a half going to the even neighbour; from `infinity` on nothing is finite.
-/

namespace Abacus.Binary64

/-- The exponent of the smallest positive number, `2 ^ (-1074)`. -/
def minExponent : Int := -1074

/-- The weight of the leading bit of a mantissa, `2 ^ 52`. Smaller magnitudes lack it. -/
def leadingBit : Nat := 1 <<< 52

/-- The magnitude of infinity: all exponent bits set, no fraction. -/
def infinity : Nat := 0x7FF * leadingBit

/-! ## Reading a magnitude -/

/-- The integer `m` of the finite number `m * 2 ^ q`; below `2 ^ 53`. -/
def mantissa (b : Nat) : Nat :=
  if b < leadingBit then b else b % leadingBit + leadingBit

/-- The exponent `q` of the finite number `m * 2 ^ q`. -/
def exponent (b : Nat) : Int :=
  if b < leadingBit then minExponent else minExponent - 1 + (b / leadingBit : Nat)

/-- Numerator and denominator of `m * 2 ^ q`. -/
def scale (m : Nat) (q : Int) : Nat × Nat :=
  if q < 0 then (m, 1 <<< (-q).toNat) else (m <<< q.toNat, 1)

/-! ## Rounding -/

/-- The integer nearest to `num / den`, a half going to the even one. -/
def roundDiv (num den : Nat) : Nat :=
  let quotient := num / den
  let twice := 2 * (num % den)
  if twice < den then quotient
  else if den < twice then quotient + 1
  else quotient + quotient % 2

/-- The floor of the binary logarithm of `num / den`, both positive. -/
def floorLog2 (num den : Nat) : Int :=
  let k : Int := (num.log2 : Int) - (den.log2 : Int)
  let reached := if k < 0 then den ≤ num <<< (-k).toNat else den <<< k.toNat ≤ num
  if reached then k else k - 1

/-- The exponent of the grid that `num / den` is rounded on: 53 significant bits, as far as the least exponent
allows them. -/
def gridExponent (num den : Nat) : Int :=
  max (floorLog2 num den - 52) minExponent

/-- The magnitude nearest to `num / den`; `infinity` when that lies beyond the finite numbers. A mantissa that
rounds up to `2 ^ 53` carries into the exponent, which is the next magnitude. -/
def ofRatio (num den : Nat) : Nat :=
  if num = 0 then 0
  else
    let q := gridExponent num den
    let m := if q < 0 then roundDiv (num <<< (-q).toNat) den else roundDiv num (den <<< q.toNat)
    min ((q - minExponent).toNat * leadingBit + m) infinity

/-- The magnitude nearest to `m * 2 ^ q`. -/
def ofScaled (m : Nat) (q : Int) : Nat :=
  let (num, den) := scale m q
  ofRatio num den

/-- The magnitude nearest to the product of two finite magnitudes. -/
def product (a b : Nat) : Nat :=
  ofScaled (mantissa a * mantissa b) (exponent a + exponent b)

/-- The magnitude nearest to the quotient of two finite magnitudes, the second one not zero. -/
def quotient (a b : Nat) : Nat :=
  let (num, den) := scale (mantissa a) (exponent a - exponent b)
  ofRatio num (den * mantissa b)

/-! ## Numbers with a sign -/

/-- The bit that carries the sign. -/
def signBit : Nat := 1 <<< 63

/-- The sign of a number, set also for negative zero. -/
def isNegative (x : Float) : Bool :=
  signBit ≤ x.toBits.toNat

/-- A number without its sign. -/
def magnitude (x : Float) : Nat :=
  x.toBits.toNat % signBit

/-- The nonnegative number with the given magnitude. -/
def ofMagnitude (b : Nat) : Float :=
  Float.ofBits (UInt64.ofNat b)

end Abacus.Binary64

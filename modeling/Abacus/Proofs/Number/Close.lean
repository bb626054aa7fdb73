import Abacus.Proofs.Number.Accuracy

/-!
# A few roundings apart

A result of several operations, each of them rounded, is as many roundings away from the true one.  Counted in units of
the last place, that is not much.

* `Binary64.Close`: at most so many roundings apart, with its laws for products and quotients;
* `Binary64.isRounded_product`, `Binary64.isRounded_quotient`, `Decimal.isRounded_magnitude`: the operations that round;
* `Binary64.IsRounded.near`: numbers five roundings apart are rounded to magnitudes seven units apart.
-/

namespace Abacus.Binary64

/-! ## Closeness -/

/-- A bound of what a rounding multiplies or divides by: `1 / (1 - 2 ^ (-53))` is less. -/
def roundingFactor : ℚ :=
  1 + 1 / 2 ^ 53 + 1 / 2 ^ 105

theorem one_le_roundingFactor : 1 ≤ roundingFactor := by
  norm_num [roundingFactor]

/-- At most `k` roundings apart. -/
structure Close (k : Nat) (x y : ℚ) : Prop where
  le : x ≤ y * roundingFactor ^ k
  ge : y ≤ x * roundingFactor ^ k

namespace Close

variable {j k : Nat} {x y z : ℚ}

theorem refl (x : ℚ) : Close 0 x x :=
  ⟨by simp, by simp⟩

theorem symm (h : Close k x y) : Close k y x :=
  ⟨h.ge, h.le⟩

theorem trans (h : Close j x y) (h' : Close k y z) : Close (j + k) x z := by
  have factor (n : Nat) : 0 ≤ roundingFactor ^ n := pow_nonneg (zero_le_one.trans one_le_roundingFactor) n
  constructor
  · calc x ≤ y * roundingFactor ^ j := h.le
      _ ≤ z * roundingFactor ^ k * roundingFactor ^ j := mul_le_mul_of_nonneg_right h'.le (factor j)
      _ = z * roundingFactor ^ (j + k) := by ring
  · calc z ≤ y * roundingFactor ^ k := h'.ge
      _ ≤ x * roundingFactor ^ j * roundingFactor ^ k := mul_le_mul_of_nonneg_right h.ge (factor k)
      _ = x * roundingFactor ^ (j + k) := by ring

theorem mono (h : Close j x y) (hx : 0 ≤ x) (hy : 0 ≤ y) (le : j ≤ k) : Close k x y := by
  have factor : roundingFactor ^ j ≤ roundingFactor ^ k := pow_le_pow_right₀ one_le_roundingFactor le
  exact ⟨h.le.trans (mul_le_mul_of_nonneg_left factor hy), h.ge.trans (mul_le_mul_of_nonneg_left factor hx)⟩

theorem mul {x' y' : ℚ} (h : Close j x y) (h' : Close k x' y') (hx : 0 ≤ x) (hy : 0 ≤ y) (hx' : 0 ≤ x')
    (hy' : 0 ≤ y') : Close (j + k) (x * x') (y * y') := by
  constructor
  · calc x * x' ≤ y * roundingFactor ^ j * (y' * roundingFactor ^ k) := mul_le_mul h.le h'.le hx' (hx.trans h.le)
      _ = y * y' * roundingFactor ^ (j + k) := by ring
  · calc y * y' ≤ x * roundingFactor ^ j * (x' * roundingFactor ^ k) := mul_le_mul h.ge h'.ge hy' (hy.trans h.ge)
      _ = x * x' * roundingFactor ^ (j + k) := by ring

theorem inv (h : Close k x y) (hx : 0 < x) (hy : 0 < y) : Close k x⁻¹ y⁻¹ := by
  have inverse {a b : ℚ} (ha : 0 < a) (hb : 0 < b) (le : b ≤ a * roundingFactor ^ k) :
      a⁻¹ ≤ b⁻¹ * roundingFactor ^ k := by
    rw [inv_mul_eq_div, le_div_iff₀ hb, inv_mul_le_iff₀ ha]
    exact le
  exact ⟨inverse hx hy h.ge, inverse hy hx h.le⟩

theorem div {x' y' : ℚ} (h : Close j x y) (h' : Close k x' y') (hx : 0 ≤ x) (hy : 0 ≤ y) (hx' : 0 < x')
    (hy' : 0 < y') : Close (j + k) (x / x') (y / y') := by
  rw [div_eq_mul_inv, div_eq_mul_inv]
  exact h.mul (h'.inv hx' hy') hx hy (inv_nonneg.mpr hx'.le) (inv_nonneg.mpr hy'.le)

/-- A number and what it is rounded to are one rounding apart. -/
theorem of_abs_sub_le (hy : 0 ≤ y) (h : |x - y| ≤ y / 2 ^ 53) : Close 1 x y := by
  obtain ⟨above, below⟩ := abs_sub_le_iff.mp h
  have up : 1 + 1 / 2 ^ 53 ≤ roundingFactor := by norm_num [roundingFactor]
  have down : 1 ≤ (1 - 1 / 2 ^ 53) * roundingFactor := by norm_num [roundingFactor]
  rw [div_eq_mul_one_div] at above below
  constructor
  · calc x ≤ y * (1 + 1 / 2 ^ 53) := by linarith
      _ ≤ y * roundingFactor ^ 1 := by
        rw [pow_one]
        exact mul_le_mul_of_nonneg_left up hy
  · calc y ≤ y * ((1 - 1 / 2 ^ 53) * roundingFactor) := le_mul_of_one_le_right hy down
      _ = y * (1 - 1 / 2 ^ 53) * roundingFactor ^ 1 := by ring
      _ ≤ x * roundingFactor ^ 1 :=
        mul_le_mul_of_nonneg_right (by linarith) (pow_nonneg (zero_le_one.trans one_le_roundingFactor) 1)

end Close

/-! ## Operations that round -/

theorem scale_value (m : Nat) (q : Int) :
    0 < (scale m q).2 ∧ ((scale m q).1 / (scale m q).2 : ℚ) = m * 2 ^ q := by
  unfold scale
  split
  · obtain ⟨n, rfl⟩ : ∃ n : Nat, q = -(n : Int) := ⟨(-q).toNat, by omega⟩
    rw [neg_neg, Int.toNat_natCast, Nat.one_shiftLeft, zpow_neg, zpow_natCast]
    refine ⟨Nat.two_pow_pos n, ?_⟩
    push_cast
    rw [div_eq_mul_inv]
  · obtain ⟨n, rfl⟩ : ∃ n : Nat, q = n := ⟨q.toNat, by omega⟩
    rw [Int.toNat_natCast, Nat.shiftLeft_eq, zpow_natCast]
    refine ⟨Nat.one_pos, ?_⟩
    push_cast
    rw [div_one]

theorem isRounded_natCast (n : Nat) : IsRounded n (ofRatio n 1) :=
  ⟨n, 1, Nat.one_pos, by rw [Nat.cast_one, div_one], rfl⟩

theorem isRounded_product (a b : Nat) : IsRounded (value a * value b) (product a b) := by
  obtain ⟨pos, ratio⟩ := scale_value (mantissa a * mantissa b) (exponent a + exponent b)
  refine ⟨(scale _ _).1, _, pos, ?_, rfl⟩
  rw [ratio, value, value, zpow_add₀ two_ne_zero]
  push_cast
  ring

theorem isRounded_quotient (a : Nat) {b : Nat} (hb : 0 < b) : IsRounded (value a / value b) (quotient a b) := by
  obtain ⟨pos, ratio⟩ := scale_value (mantissa a) (exponent a - exponent b)
  refine ⟨(scale _ _).1, _, Nat.mul_pos pos (mantissa_pos hb), ?_, rfl⟩
  rw [Nat.cast_mul, ← div_div, ratio, value, value, zpow_sub₀ two_ne_zero]
  ring

/-! ## Units of the last place -/

/-- Five roundings are less than seven units. -/
theorem value_mul_roundingFactor_le (b : Nat) : value b * roundingFactor ^ 5 ≤ value (b + 6) := by
  have factor : roundingFactor ^ 5 ≤ 1 + 6 / 2 ^ 53 := by norm_num [roundingFactor]
  have lt := value_lt b
  calc value b * roundingFactor ^ 5 ≤ value b * (1 + 6 / 2 ^ 53) := mul_le_mul_of_nonneg_left factor (value_nonneg b)
    _ ≤ value b + (6 : Nat) * 2 ^ exponent b := by
      push_cast
      linarith
    _ ≤ value (b + 6) := value_add_le b 6

/-- **Numbers five roundings apart** are rounded to magnitudes that are less than eight units apart. -/
theorem IsRounded.near {x y : ℚ} {a b : Nat} (ha : IsRounded x a) (hb : IsRounded y b) (close : Close 5 x y)
    (finite : b + 7 ≤ infinity) : a ≤ b + 7 ∧ b ≤ a + 7 := by
  have factor : 0 < roundingFactor ^ 5 := pow_pos (zero_lt_one.trans_le one_le_roundingFactor) 5
  constructor
  · -- the number `y` lies below the next magnitude, and from there five roundings are less than six units
    have below : y ≤ value (b + 1) := by
      by_contra! above
      have := hb.ge (by omega) above.le
      omega
    refine ha.le ?_
    calc x ≤ y * roundingFactor ^ 5 := close.le
      _ ≤ value (b + 1) * roundingFactor ^ 5 := mul_le_mul_of_nonneg_right below factor.le
      _ ≤ value (b + 7) := value_mul_roundingFactor_le (b + 1)
  · by_contra! far
    have above : value (b - 1) ≤ y := by
      by_contra! below
      have := hb.le below.le
      omega
    have reaches : value (a + 1) * roundingFactor ^ 5 ≤ x * roundingFactor ^ 5 :=
      calc value (a + 1) * roundingFactor ^ 5 ≤ value (a + 7) := value_mul_roundingFactor_le (a + 1)
        _ ≤ value (b - 1) := value_strictMono.monotone (by omega)
        _ ≤ y := above
        _ ≤ x * roundingFactor ^ 5 := close.ge
    have := ha.ge (by omega) (le_of_mul_le_mul_right reaches factor)
    omega

end Abacus.Binary64

namespace Abacus.Decimal

open Binary64

/-- The number that a decimal denotes. -/
def value (d : Decimal) : ℚ :=
  d.coefficient * 10 ^ d.exponent

theorem isRounded_magnitude (d : Decimal) : IsRounded d.value d.magnitude := by
  obtain ⟨coefficient, e⟩ := d
  simp only [magnitude, value]
  split
  · obtain ⟨n, rfl⟩ : ∃ n : Nat, e = -(n : Int) := ⟨(-e).toNat, by omega⟩
    refine ⟨_, _, Nat.pow_pos (by decide), ?_, rfl⟩
    simp [zpow_neg, div_eq_mul_inv]
  · obtain ⟨n, rfl⟩ : ∃ n : Nat, e = n := ⟨e.toNat, by omega⟩
    refine ⟨_, _, Nat.one_pos, ?_, rfl⟩
    simp

end Abacus.Decimal

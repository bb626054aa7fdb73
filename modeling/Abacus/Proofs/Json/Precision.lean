import Abacus.Json.Numeral
import Abacus.Proofs.Number.Close

/-!
# The precision of JSON numbers

The reader of JSON numbers rounds the coefficient and the power of ten before it multiplies or divides, which rounds once
more, so it does not always find the nearest number; it does when both are numbers themselves.

* `Json.Numeral.exists_isRounded_magnitude`: what is read comes from a number four roundings away;
* `Json.Numeral.magnitude_of_short`: few digits and a small exponent are read exactly.
-/

namespace Abacus.Binary64

/-! ## Numbers in units -/

/-- How often one holds the least positive number. -/
def unitsInOne : Nat :=
  2 ^ 1074

/-- How often a number holds the least positive one. -/
def units (b : Nat) : Nat :=
  mantissa b * 2 ^ (exponent b - minExponent).toNat

theorem unitsInOne_pos : (0 : ℚ) < unitsInOne :=
  Nat.cast_pos.mpr (by unfold unitsInOne; positivity)

theorem value_eq_div (b : Nat) : value b = units b / unitsInOne := by
  obtain ⟨n, hn⟩ : ∃ n : Nat, exponent b = n - (1074 : Nat) :=
    ⟨(exponent b - minExponent).toNat, by have := minExponent_le_exponent b; unfold minExponent at *; omega⟩
  have shift : (exponent b - minExponent).toNat = n := by
    unfold minExponent
    omega
  rw [value, units, unitsInOne, shift, hn, zpow_sub₀ two_ne_zero, zpow_natCast, zpow_natCast, Nat.cast_mul, Nat.cast_pow,
    Nat.cast_pow, Nat.cast_ofNat, mul_div_assoc]

theorem natCast_le_value_iff {n b : Nat} : (n : ℚ) ≤ value b ↔ n * unitsInOne ≤ units b := by
  rw [value_eq_div, le_div_iff₀ unitsInOne_pos]
  exact_mod_cast Iff.rfl

/-- What a rounding multiplies or divides by, as a quotient. -/
theorem roundingFactor_eq : roundingFactor = (2 ^ 105 + 2 ^ 52 + 1 : Nat) / (2 ^ 105 : Nat) := by
  norm_num [roundingFactor]

section Comparison

variable {b n p k : Nat} (hp : 0 < p)
include hp

theorem value_mul_pow_le_iff :
    value b * roundingFactor ^ k ≤ n / p ↔
      units b * (2 ^ 105 + 2 ^ 52 + 1) ^ k * p ≤ n * (unitsInOne * (2 ^ 105) ^ k) := by
  have pos : (0 : ℚ) < unitsInOne * (2 ^ 105 : Nat) ^ k := mul_pos unitsInOne_pos (by positivity)
  rw [value_eq_div, roundingFactor_eq, div_pow, div_mul_div_comm, div_le_div_iff₀ pos (by exact_mod_cast hp)]
  exact_mod_cast Iff.rfl

/-- Closeness to a quotient, by natural numbers. -/
theorem close_div_iff :
    Close k (value b) (n / p) ↔
      units b * (p * (2 ^ 105) ^ k) ≤ n * (2 ^ 105 + 2 ^ 52 + 1) ^ k * unitsInOne ∧
        n * (unitsInOne * (2 ^ 105) ^ k) ≤ units b * (2 ^ 105 + 2 ^ 52 + 1) ^ k * p := by
  have hp' : (0 : ℚ) < p := by exact_mod_cast hp
  have pos : (0 : ℚ) < p * (2 ^ 105 : Nat) ^ k := mul_pos hp' (by positivity)
  have pos' : (0 : ℚ) < unitsInOne * (2 ^ 105 : Nat) ^ k := mul_pos unitsInOne_pos (by positivity)
  have le : value b ≤ n / p * roundingFactor ^ k ↔
      units b * (p * (2 ^ 105) ^ k) ≤ n * (2 ^ 105 + 2 ^ 52 + 1) ^ k * unitsInOne := by
    rw [value_eq_div, roundingFactor_eq, div_pow, div_mul_div_comm, div_le_div_iff₀ unitsInOne_pos pos]
    exact_mod_cast Iff.rfl
  have ge : n / p ≤ value b * roundingFactor ^ k ↔
      n * (unitsInOne * (2 ^ 105) ^ k) ≤ units b * (2 ^ 105 + 2 ^ 52 + 1) ^ k * p := by
    rw [value_eq_div, roundingFactor_eq, div_pow, div_mul_div_comm, div_le_div_iff₀ hp' pos']
    exact_mod_cast Iff.rfl
  exact ⟨fun h => ⟨le.mp h.le, ge.mp h.ge⟩, fun h => ⟨le.mpr h.1, ge.mpr h.2⟩⟩

end Comparison

/-- The greatest power of ten below infinity. -/
def greatestPower : Nat :=
  10 ^ 308

theorem greatestPower_pos : 0 < greatestPower := by
  unfold greatestPower
  positivity

theorem cast_greatestPower : (greatestPower : ℚ) = 10 ^ (308 : Int) := by
  rw [greatestPower, Nat.cast_pow, Nat.cast_ofNat]
  exact (zpow_natCast 10 308).symm

theorem pow_le_greatestPower {k : Nat} (le : k ≤ 308) : 10 ^ k ≤ greatestPower := by
  unfold greatestPower
  gcongr
  decide

/-- Numbers up to the greatest power of ten are rounded to finite ones. -/
theorem IsRounded.lt_infinity {r : ℚ} {b : Nat} (h : IsRounded r b) (le : r ≤ greatestPower) : b < infinity := by
  have greatest : (greatestPower : ℚ) ≤ value (infinity - 1) := natCast_le_value_iff.mpr (by decide +kernel)
  have := h.le (le.trans greatest)
  have : 0 < infinity := by decide
  omega

/-- A number that is neither small nor large is one rounding away. -/
theorem IsRounded.close {r : ℚ} {b : Nat} (h : IsRounded r b) (normal : (2 : ℚ) ^ (-1022 : Int) ≤ r)
    (le : r ≤ greatestPower) : Close 1 (value b) r :=
  .of_abs_sub_le ((zpow_pos two_pos _).le.trans normal) (h.abs_sub_le (h.lt_infinity le) normal)

theorem Close.pos {k : Nat} {x y : ℚ} (h : Close k x y) (hy : 0 < y) : 0 < x := by
  have factor : 0 ≤ roundingFactor ^ k := pow_nonneg (zero_le_one.trans one_le_roundingFactor) k
  by_contra! nonpos
  exact absurd (h.ge.trans (mul_nonpos_of_nonpos_of_nonneg nonpos factor)) (not_le.mpr hy)

/-- The least number with a full mantissa is less than one. -/
theorem normal_of_one_le {r : ℚ} (h : 1 ≤ r) : (2 : ℚ) ^ (-1022 : Int) ≤ r :=
  (zpow_le_one_of_nonpos₀ one_le_two (by decide)).trans h

/-- Natural numbers of at most 53 bits are numbers. -/
theorem value_ofRatio_of_le {n : Nat} (le : n ≤ 2 ^ 53) : value (ofRatio n 1) = n := by
  rcases Nat.eq_zero_or_pos n with rfl | pos
  · rw [ofRatio_zero, value_zero, Nat.cast_zero]
  have finite := (isRounded_natCast n).lt_infinity (Nat.cast_le.mpr (le.trans (by decide +kernel)))
  -- the grid is that of the natural numbers or finer, or the number is the least one of the next grid
  have on_grid : ∃ g : Nat, (n : ℚ) = g * 2 ^ gridExponent n 1 := by
    rcases Nat.lt_or_eq_of_le le with lt | rfl
    · have small : floorLog2 n 1 < 53 := by
        rw [floorLog2_lt_iff pos Nat.one_pos, Nat.cast_one, div_one]
        exact_mod_cast lt
      obtain ⟨j, hj⟩ : ∃ j : Nat, gridExponent n 1 = -(j : Int) :=
        ⟨(-gridExponent n 1).toNat, by unfold gridExponent minExponent; omega⟩
      refine ⟨n * 2 ^ j, ?_⟩
      rw [hj, zpow_neg, zpow_natCast, Nat.cast_mul, Nat.cast_pow, Nat.cast_ofNat,
        mul_inv_cancel_right₀ (pow_ne_zero _ two_ne_zero)]
    · have next : gridExponent (2 ^ 53) 1 = 1 := by decide +kernel
      exact ⟨2 ^ 52, by rw [next]; norm_num⟩
  obtain ⟨g, hg⟩ := on_grid
  have quotient : (n / (1 : Nat) : ℚ) = g * 2 ^ gridExponent n 1 := by rw [Nat.cast_one, div_one, hg]
  have exact : gridMantissa n 1 = g :=
    Nat.le_antisymm (gridMantissa_le Nat.one_pos quotient.le) (le_gridMantissa Nat.one_pos quotient.ge)
  rw [ofRatio_eq_min pos] at finite ⊢
  rw [min_eq_left (min_lt_iff.mp finite |>.resolve_right (lt_irrefl _)).le, value_grid Nat.one_pos pos, exact, ← hg]

end Abacus.Binary64

namespace Abacus.Json.Numeral

open Binary64

/-! ## Powers of ten -/

theorem isRounded_powerOfTen (k : Nat) : IsRounded (10 ^ k) (powerOfTen k) := by
  have rounded := Decimal.isRounded_magnitude ⟨1, k⟩
  rwa [Decimal.value, Nat.cast_one, one_mul, zpow_natCast] at rounded

theorem close_powerOfTen {k : Nat} (le : k ≤ 308) : Close 1 (value (powerOfTen k)) (10 ^ k) := by
  refine (isRounded_powerOfTen k).close (normal_of_one_le (one_le_pow₀ (by norm_num))) ?_
  calc (10 : ℚ) ^ k = (10 ^ k : Nat) := by rw [Nat.cast_pow, Nat.cast_ofNat]
    _ ≤ greatestPower := Nat.cast_le.mpr (pow_le_greatestPower le)

theorem value_powerOfTen_pos {k : Nat} (le : k ≤ 308) : 0 < value (powerOfTen k) :=
  (close_powerOfTen le).pos (by positivity)

theorem powerOfTen_pos {k : Nat} (le : k ≤ 308) : 0 < powerOfTen k := by
  refine value_strictMono.lt_iff_lt.mp ?_
  rw [value_zero]
  exact value_powerOfTen_pos le

/-- Small powers of ten are numbers. -/
theorem value_powerOfTen {k : Nat} (le : k ≤ 22) : value (powerOfTen k) = 10 ^ k := by
  have table : ∀ k : Nat, k ≤ 22 → units (powerOfTen k) = 10 ^ k * unitsInOne := by decide +kernel
  rw [value_eq_div, table k le, Nat.cast_mul, mul_div_cancel_right₀ _ unitsInOne_pos.ne', Nat.cast_pow, Nat.cast_ofNat]

theorem close_coefficient {n : Nat} (pos : 0 < n) (lt : n < 2 ^ 64) : Close 1 (value (ofRatio n 1)) n := by
  refine (isRounded_natCast n).close (normal_of_one_le (by exact_mod_cast pos)) ?_
  exact Nat.cast_le.mpr (lt.le.trans (by decide +kernel))

/-! ## Magnitudes -/

section Cases

variable (n : Nat) {k : Nat} (le : k ≤ 308)
include le

theorem magnitude_of_nonneg : magnitude ⟨n, k⟩ = product (ofRatio n 1) (powerOfTen k) := by
  simp only [magnitude]
  rw [if_pos (by omega), if_pos (by unfold maxPower; omega)]

variable (pos : 0 < k)
include pos

theorem magnitude_of_neg : magnitude ⟨n, -k⟩ = quotient (ofRatio n 1) (powerOfTen k) := by
  simp only [magnitude]
  rw [if_neg (by omega), if_pos (by unfold maxPower; omega), neg_neg]

theorem magnitude_of_far :
    magnitude ⟨n, -(308 + k)⟩ = quotient (quotient (ofRatio n 1) (powerOfTen (308 : Nat))) (powerOfTen k) := by
  have rest : -(-(308 + (k : Int))) - maxPower = k := by
    unfold maxPower
    omega
  simp only [magnitude]
  rw [if_neg (by omega), if_neg (by unfold maxPower; omega), if_pos (by unfold maxPower; omega), rest]
  rfl

end Cases

section Parts

variable {n k : Nat} (pos : 0 < n) (lt : n < 2 ^ 64) (le : k ≤ 308)
include pos lt le

theorem close_product : Close 2 (value (ofRatio n 1) * value (powerOfTen k)) (n * 10 ^ k) :=
  (close_coefficient pos lt).mul (close_powerOfTen le) (value_nonneg _) (by positivity) (value_nonneg _) (by positivity)

theorem close_quotient : Close 2 (value (ofRatio n 1) / value (powerOfTen k)) (n / 10 ^ k) :=
  (close_coefficient pos lt).div (close_powerOfTen le) (value_nonneg _) (by positivity)
    (value_powerOfTen_pos le) (by positivity)

end Parts

/-- Three are enough for a full mantissa, divided by the greatest power of ten. -/
theorem normal_of_three_le {n : Nat} {x : ℚ} (three : 3 ≤ n) (close : Close 2 x (n / greatestPower)) :
    (2 : ℚ) ^ (-1022 : Int) ≤ x := by
  have factor : 0 < roundingFactor ^ 2 := pow_pos (zero_lt_one.trans_le one_le_roundingFactor) 2
  have least : (2 : ℚ) ^ (-1022 : Int) = value (2 ^ 52) := by
    rw [value, show mantissa (2 ^ 52) = 2 ^ 52 by decide, show exponent (2 ^ 52) = -1074 by decide, Nat.cast_pow,
      ← zpow_natCast, Nat.cast_ofNat, ← zpow_add₀ two_ne_zero]
    rfl
  have three : (3 : ℚ) / greatestPower ≤ n / greatestPower := by
    gcongr
    exact_mod_cast three
  have enough : value (2 ^ 52) * roundingFactor ^ 2 ≤ (3 : Nat) / greatestPower :=
    (value_mul_pow_le_iff greatestPower_pos).mpr (by decide +kernel)
  rw [least]
  exact le_of_mul_le_mul_right (enough.trans (three.trans close.ge)) factor

/-- The first of two divisions. Its result may be too small for a full mantissa, but then the coefficient is one or two. -/
theorem close_quotient_max {n : Nat} (pos : 0 < n) (lt : n < 2 ^ 64) :
    Close 3 (value (quotient (ofRatio n 1) (powerOfTen (308 : Nat)))) (n / greatestPower) := by
  have power : ((10 : ℚ) ^ 308) = greatestPower := by rw [greatestPower, Nat.cast_pow, Nat.cast_ofNat]
  rcases Nat.lt_or_ge n 3 with few | three
  · rw [close_div_iff greatestPower_pos]
    revert pos
    clear lt
    revert n
    decide +kernel
  · have close := close_quotient pos lt (Nat.le_refl 308)
    rw [power] at close
    have small : (n / greatestPower : ℚ) * roundingFactor ^ 2 ≤ greatestPower := by
      have one : (1 : ℚ) ≤ greatestPower := by exact_mod_cast greatestPower_pos
      have few : (n : ℚ) ≤ 2 ^ 64 := by exact_mod_cast lt.le
      have enough : (2 : ℚ) ^ 64 * 2 ≤ greatestPower := by
        have : 2 ^ 64 * 2 ≤ greatestPower := by decide +kernel
        exact_mod_cast this
      have factor : roundingFactor ^ 2 ≤ 2 := by norm_num [roundingFactor]
      calc (n / greatestPower : ℚ) * roundingFactor ^ 2 ≤ n * 2 :=
            mul_le_mul (div_le_self (Nat.cast_nonneg n) one) factor (by positivity) (Nat.cast_nonneg n)
        _ ≤ 2 ^ 64 * 2 := by linarith
        _ ≤ greatestPower := enough
    have rounded := isRounded_quotient (ofRatio n 1) (powerOfTen_pos (Nat.le_refl 308))
    exact (rounded.close (normal_of_three_le three close) (close.le.trans small)).trans close

/-- **What a number is read as** is rounded from a number at most four roundings away. -/
theorem exists_isRounded_magnitude {d : Decimal} (pos : 0 < d.coefficient) (lt : d.coefficient < 2 ^ 64)
    (low : -616 ≤ d.exponent) (high : d.exponent ≤ 308) :
    ∃ x, IsRounded x (magnitude d) ∧ Close 4 x d.value := by
  obtain ⟨n, e⟩ := d
  dsimp only at pos lt low high
  rcases Int.lt_or_le e 0 with neg | nonneg
  · rcases Int.lt_or_le e (-308) with far | near
    · obtain ⟨k, rfl⟩ : ∃ k : Nat, e = -(308 + k) := ⟨(-e - 308).toNat, by omega⟩
      have le : k ≤ 308 := by omega
      rw [magnitude_of_far n le (by omega)]
      refine ⟨_, isRounded_quotient _ (powerOfTen_pos le), ?_⟩
      have quotient : Decimal.value ⟨n, -(308 + k)⟩ = n / greatestPower / 10 ^ k := by
        rw [Decimal.value, zpow_neg, zpow_add₀ (by norm_num), zpow_natCast, cast_greatestPower, mul_inv, ← mul_assoc,
          ← div_eq_mul_inv, ← div_eq_mul_inv]
      rw [quotient]
      exact (close_quotient_max pos lt).div (close_powerOfTen le) (value_nonneg _) (by positivity)
        (value_powerOfTen_pos le) (by positivity)
    · obtain ⟨k, rfl⟩ : ∃ k : Nat, e = -k := ⟨(-e).toNat, by omega⟩
      have le : k ≤ 308 := by omega
      rw [magnitude_of_neg n le (by omega)]
      refine ⟨_, isRounded_quotient _ (powerOfTen_pos le), ?_⟩
      have quotient : Decimal.value ⟨n, -k⟩ = n / 10 ^ k := by
        rw [Decimal.value, zpow_neg, zpow_natCast, div_eq_mul_inv]
      rw [quotient]
      exact (close_quotient pos lt le).mono (div_nonneg (value_nonneg _) (value_nonneg _)) (by positivity) (by decide)
  · obtain ⟨k, rfl⟩ : ∃ k : Nat, e = k := ⟨e.toNat, by omega⟩
    have le : k ≤ 308 := by omega
    rw [magnitude_of_nonneg n le]
    refine ⟨_, isRounded_product _ _, ?_⟩
    rw [Decimal.value, zpow_natCast]
    exact (close_product pos lt le).mono (mul_nonneg (value_nonneg _) (value_nonneg _)) (by positivity) (by decide)

/-- **Few digits and a small exponent are read exactly.** -/
theorem magnitude_of_short {d : Decimal} (few : d.coefficient ≤ 2 ^ 53) (small : d.exponent.natAbs ≤ 22) :
    magnitude d = d.magnitude := by
  refine IsRounded.unique ?_ d.isRounded_magnitude
  obtain ⟨n, e⟩ := d
  dsimp only at few small
  rcases Int.lt_or_le e 0 with neg | nonneg
  · obtain ⟨k, rfl⟩ : ∃ k : Nat, e = -k := ⟨(-e).toNat, by omega⟩
    have le : k ≤ 22 := by omega
    have rounded := isRounded_quotient (ofRatio n 1) (powerOfTen_pos (le.trans (by decide)))
    rw [value_ofRatio_of_le few, value_powerOfTen le] at rounded
    rwa [magnitude_of_neg n (by omega) (by omega), Decimal.value, zpow_neg, zpow_natCast, ← div_eq_mul_inv]
  · obtain ⟨k, rfl⟩ : ∃ k : Nat, e = k := ⟨e.toNat, by omega⟩
    have le : k ≤ 22 := by omega
    have rounded := isRounded_product (ofRatio n 1) (powerOfTen k)
    rw [value_ofRatio_of_le few, value_powerOfTen le] at rounded
    rwa [magnitude_of_nonneg n (by omega), Decimal.value, zpow_natCast]

end Abacus.Json.Numeral

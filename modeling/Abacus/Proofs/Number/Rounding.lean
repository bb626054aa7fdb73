import Abacus.Number.Decimal
import Mathlib.Algebra.Order.Field.Power
import Mathlib.Data.Rat.Cast.Order
import Mathlib.Tactic.FieldSimp
import Mathlib.Tactic.Linarith
import Mathlib.Tactic.Positivity
import Mathlib.Tactic.Ring

/-!
# Exact quotients are not rounded

A quotient that is a binary64 number is rounded to that number.

* `Binary64.zpow_floorLog2_le`, `Binary64.lt_zpow_floorLog2`: the logarithm is the floor of the true one;
* `Binary64.ofRatio_of_value`: the magnitude of an exact quotient;
* `Decimal.magnitude_shortest`: the shortest decimal of a magnitude rounds back to it.
-/

namespace Abacus.Binary64

/-! ## Logarithms -/

section Log

variable {num den : Nat}

/-- A power of two is compared with a quotient by shifting one of its terms. -/
theorem zpow_le_iff (hd : 0 < den) (k : Int) :
    (if k < 0 then den ≤ num <<< (-k).toNat else den <<< k.toNat ≤ num) ↔ (2 : ℚ) ^ k ≤ num / den := by
  have hd' : (0 : ℚ) < den := by exact_mod_cast hd
  rw [le_div_iff₀ hd']
  split
  · next neg =>
    obtain ⟨n, rfl⟩ : ∃ n : Nat, k = -(n : Int) := ⟨(-k).toNat, by omega⟩
    have hp : (0 : ℚ) < 2 ^ n := by positivity
    rw [neg_neg, Int.toNat_natCast, Nat.shiftLeft_eq, zpow_neg, zpow_natCast, inv_mul_le_iff₀ hp]
    exact_mod_cast (by rw [Nat.mul_comm] : den ≤ num * 2 ^ n ↔ den ≤ 2 ^ n * num)
  · next pos =>
    obtain ⟨n, rfl⟩ : ∃ n : Nat, k = n := ⟨k.toNat, by omega⟩
    rw [Int.toNat_natCast, Nat.shiftLeft_eq, zpow_natCast]
    exact_mod_cast (by rw [Nat.mul_comm] : den * 2 ^ n ≤ num ↔ 2 ^ n * den ≤ num)

theorem zpow_log2_le {n : Nat} (h : 0 < n) : (2 : ℚ) ^ (n.log2 : Int) ≤ n := by
  rw [zpow_natCast]
  exact_mod_cast Nat.log2_self_le (Nat.ne_of_gt h)

theorem lt_zpow_log2 (n : Nat) : (n : ℚ) < 2 ^ ((n.log2 : Int) + 1) := by
  rw [← Nat.cast_add_one, zpow_natCast]
  exact_mod_cast Nat.lt_log2_self

/-- The difference of the logarithms is at most one too large. -/
theorem zpow_pred_le (hn : 0 < num) (hd : 0 < den) :
    (2 : ℚ) ^ ((num.log2 : Int) - den.log2 - 1) ≤ num / den := by
  have hd' : (0 : ℚ) < den := by exact_mod_cast hd
  rw [le_div_iff₀ hd']
  calc (2 : ℚ) ^ ((num.log2 : Int) - den.log2 - 1) * den
      ≤ 2 ^ ((num.log2 : Int) - den.log2 - 1) * 2 ^ ((den.log2 : Int) + 1) := by
        gcongr
        exact (lt_zpow_log2 den).le
    _ = 2 ^ (num.log2 : Int) := by
        rw [← zpow_add₀ two_ne_zero]
        congr 1
        omega
    _ ≤ num := zpow_log2_le hn

theorem lt_zpow_succ (hd : 0 < den) : (num / den : ℚ) < 2 ^ ((num.log2 : Int) - den.log2 + 1) := by
  have hd' : (0 : ℚ) < den := by exact_mod_cast hd
  rw [div_lt_iff₀ hd']
  calc (num : ℚ) < 2 ^ ((num.log2 : Int) + 1) := lt_zpow_log2 num
    _ = 2 ^ ((num.log2 : Int) - den.log2 + 1) * 2 ^ (den.log2 : Int) := by
        rw [← zpow_add₀ two_ne_zero]
        congr 1
        omega
    _ ≤ 2 ^ ((num.log2 : Int) - den.log2 + 1) * den := by
        gcongr
        exact zpow_log2_le hd

theorem floorLog2_eq (hd : 0 < den) :
    floorLog2 num den =
      if (2 : ℚ) ^ ((num.log2 : Int) - den.log2) ≤ num / den then (num.log2 : Int) - den.log2
      else (num.log2 : Int) - den.log2 - 1 := by
  unfold floorLog2
  exact if_congr (zpow_le_iff hd _) rfl rfl

/-- **The binary logarithm** of a quotient, from below and from above. -/
theorem floorLog2_bounds (hn : 0 < num) (hd : 0 < den) :
    (2 : ℚ) ^ floorLog2 num den ≤ num / den ∧ (num / den : ℚ) < 2 ^ (floorLog2 num den + 1) := by
  rw [floorLog2_eq hd]
  split
  · next reached => exact ⟨reached, lt_zpow_succ hd⟩
  · next missed =>
    refine ⟨zpow_pred_le hn hd, ?_⟩
    rw [sub_add_cancel]
    exact lt_of_not_ge missed

/-- No other power of two has the quotient above it and below its double. -/
theorem floorLog2_lt_iff (hn : 0 < num) (hd : 0 < den) (k : Int) : floorLog2 num den < k ↔ (num / den : ℚ) < 2 ^ k := by
  obtain ⟨below, above⟩ := floorLog2_bounds hn hd
  constructor
  · intro lt
    exact lt_of_lt_of_le above (zpow_le_zpow_right₀ one_le_two lt)
  · intro lt
    exact (zpow_lt_zpow_iff_right₀ one_lt_two).mp (lt_of_le_of_lt below lt)

end Log

/-! ## Magnitudes -/

theorem leadingBit_eq : leadingBit = 2 ^ 52 :=
  rfl

/-- What the parts of a finite magnitude can be. -/
theorem mantissa_cases (b : Nat) :
    (b < 2 ^ 52 ∧ mantissa b = b ∧ exponent b = minExponent) ∨
      2 ^ 52 ≤ b ∧ mantissa b = b % 2 ^ 52 + 2 ^ 52 ∧ exponent b = minExponent - 1 + (b / 2 ^ 52 : Nat) := by
  unfold mantissa exponent
  rw [leadingBit_eq]
  split
  · next small => exact .inl ⟨small, rfl, rfl⟩
  · next large => exact .inr ⟨Nat.not_lt.mp large, rfl, rfl⟩

theorem mantissa_lt (b : Nat) : mantissa b < 2 ^ 53 := by
  rcases mantissa_cases b with ⟨small, hm, -⟩ | ⟨-, hm, -⟩ <;> omega

theorem mantissa_pos {b : Nat} (h : 0 < b) : 0 < mantissa b := by
  rcases mantissa_cases b with ⟨-, hm, -⟩ | ⟨-, hm, -⟩ <;> omega

/-- The place of the leading bit in the sequence of the magnitudes. -/
theorem exponent_mul_add_mantissa (b : Nat) : (exponent b - minExponent).toNat * leadingBit + mantissa b = b := by
  rcases mantissa_cases b with ⟨-, hm, hq⟩ | ⟨large, hm, hq⟩
  · rw [hm, hq, sub_self]
    simp
  · have : (exponent b - minExponent).toNat = b / 2 ^ 52 - 1 := by omega
    rw [this, hm, leadingBit_eq]
    omega

theorem roundDiv_mul (m : Nat) {den : Nat} (h : 0 < den) : roundDiv (m * den) den = m := by
  simp [roundDiv, Nat.mul_div_cancel m h, h]

/-- The grid of a quotient that is a number is that of the number. -/
theorem gridExponent_of_value {b num den : Nat} (hn : 0 < num) (hd : 0 < den)
    (value : (num / den : ℚ) = mantissa b * 2 ^ exponent b) : gridExponent num den = exponent b := by
  have lt (k : Int) : floorLog2 num den < k + exponent b ↔ (mantissa b : ℚ) < 2 ^ k := by
    rw [floorLog2_lt_iff hn hd, value, zpow_add₀ two_ne_zero]
    exact mul_lt_mul_iff_of_pos_right (zpow_pos two_pos _)
  have upper : floorLog2 num den < 53 + exponent b := (lt 53).mpr (by exact_mod_cast mantissa_lt b)
  unfold gridExponent
  rcases mantissa_cases b with ⟨small, hm, hq⟩ | ⟨large, hm, hq⟩
  · have lower : floorLog2 num den < 52 + exponent b := (lt 52).mpr (by rw [hm]; exact_mod_cast small)
    omega
  · have lower : ¬ floorLog2 num den < 52 + exponent b := by
      rw [lt 52, not_lt, hm]
      exact_mod_cast (Nat.le_add_left _ _ : 2 ^ 52 ≤ b % 2 ^ 52 + 2 ^ 52)
    have : 1 ≤ b / 2 ^ 52 := Nat.div_pos large (by decide)
    omega

/-- On the grid the quotient is the mantissa. -/
theorem roundDiv_of_value {m num den : Nat} {q : Int} (hd : 0 < den) (value : (num / den : ℚ) = m * 2 ^ q) :
    (if q < 0 then roundDiv (num <<< (-q).toNat) den else roundDiv num (den <<< q.toNat)) = m := by
  have hd' : (den : ℚ) ≠ 0 := by exact_mod_cast Nat.ne_of_gt hd
  rw [div_eq_iff hd'] at value
  split
  · obtain ⟨n, rfl⟩ : ∃ n : Nat, q = -(n : Int) := ⟨(-q).toNat, by omega⟩
    have shifted : num * 2 ^ n = m * den := by
      have : (num : ℚ) * 2 ^ n = m * den := by
        rw [value, zpow_neg, zpow_natCast]
        field_simp
      exact_mod_cast this
    rw [neg_neg, Int.toNat_natCast, Nat.shiftLeft_eq, shifted, roundDiv_mul m hd]
  · obtain ⟨n, rfl⟩ : ∃ n : Nat, q = n := ⟨q.toNat, by omega⟩
    have whole : num = m * (den * 2 ^ n) := by
      have : (num : ℚ) = m * (den * 2 ^ n) := by
        rw [value, zpow_natCast]
        ring
      exact_mod_cast this
    rw [Int.toNat_natCast, Nat.shiftLeft_eq, whole, roundDiv_mul m (Nat.mul_pos hd (Nat.two_pow_pos n))]

/-- **An exact quotient is not rounded.** -/
theorem ofRatio_of_value {b num den : Nat} (hb : 0 < b) (finite : b < infinity) (hd : 0 < den)
    (value : (num / den : ℚ) = mantissa b * 2 ^ exponent b) : ofRatio num den = b := by
  have hn : 0 < num := by
    have hm : (0 : ℚ) < mantissa b := by exact_mod_cast mantissa_pos hb
    have hd' : (0 : ℚ) < den := by exact_mod_cast hd
    have : (0 : ℚ) < num := (div_pos_iff_of_pos_right hd').mp (value ▸ mul_pos hm (zpow_pos two_pos _))
    exact_mod_cast this
  rw [ofRatio, if_neg (Nat.ne_of_gt hn)]
  simp only [gridExponent_of_value hn hd value, roundDiv_of_value hd value, exponent_mul_add_mantissa]
  exact Nat.min_eq_left (Nat.le_of_lt finite)

end Abacus.Binary64

namespace Abacus.Decimal

open Binary64

/-! ## Decimals of a magnitude -/

theorem value_exact_of_neg (m n : Nat) : ((m * 5 ^ n : Nat) / (10 ^ n : Nat) : ℚ) = m * 2 ^ (-(n : Int)) := by
  have ten : (10 : ℚ) ^ n = 2 ^ n * 5 ^ n := by
    rw [← mul_pow]
    norm_num
  rw [zpow_neg, zpow_natCast]
  push_cast
  rw [ten]
  field_simp

theorem value_exact_of_nonneg (m n : Nat) : ((m <<< n * 10 ^ 0 : Nat) / (1 : Nat) : ℚ) = m * 2 ^ (n : Int) := by
  rw [Nat.shiftLeft_eq, zpow_natCast]
  push_cast
  ring

/-- The exact decimal of a number rounds to it. -/
theorem magnitude_exact {b : Nat} (hb : 0 < b) (finite : b < infinity) :
    (exact (mantissa b) (Binary64.exponent b)).magnitude = b := by
  unfold exact
  split
  · next neg =>
    rw [magnitude, if_pos neg]
    refine ofRatio_of_value hb finite (Nat.pow_pos (by decide)) ?_
    have value := value_exact_of_neg (mantissa b) (-Binary64.exponent b).toNat
    rwa [Int.toNat_of_nonneg (by omega), neg_neg] at value
  · next pos =>
    rw [magnitude, if_neg (Int.lt_irrefl _)]
    refine ofRatio_of_value hb finite Nat.one_pos ?_
    have value := value_exact_of_nonneg (mantissa b) (Binary64.exponent b).toNat
    rwa [Int.toNat_of_nonneg (by omega)] at value

theorem magnitude_of_nearestAt {tie : Tie} {b num den : Nat} {e : Int} {d : Decimal}
    (h : nearestAt tie b num den e = some d) : d.magnitude = b := by
  unfold nearestAt at h
  generalize (if e < 0 then (num * Nat.pow 10 (-e).toNat, den) else (num, den * Nat.pow 10 e.toNat)) = scaled at h
  dsimp only at h
  by_cases below : magnitude ⟨scaled.1 / scaled.2, e⟩ = b
  · by_cases above : magnitude ⟨scaled.1 / scaled.2 + 1, e⟩ = b
    · rw [if_pos below, if_pos above] at h
      repeat' split at h
      all_goals
        cases h
        assumption
    · rw [if_pos below, if_neg above] at h
      cases h
      exact below
  · by_cases above : magnitude ⟨scaled.1 / scaled.2 + 1, e⟩ = b
    · rw [if_neg below, if_pos above] at h
      cases h
      exact above
    · rw [if_neg below, if_neg above] at h
      cases h

theorem magnitude_of_firstNearest {tie : Tie} {b num den : Nat} {tries : Nat} {e : Int} {d : Decimal}
    (h : firstNearest tie b num den tries e = some d) : d.magnitude = b := by
  induction tries generalizing e with
  | zero => cases h
  | succ tries ih =>
    unfold firstNearest at h
    split at h
    · next found =>
      cases h
      exact magnitude_of_nearestAt found
    · exact ih h

/-- **The shortest decimal** of a number rounds to it. -/
theorem magnitude_shortest (tie : Tie) {b : Nat} (hb : 0 < b) (finite : b < infinity) :
    (shortest tie b).magnitude = b := by
  unfold shortest
  dsimp only
  cases h : firstNearest tie b (scale (mantissa b) (Binary64.exponent b)).1 (scale (mantissa b) (Binary64.exponent b)).2 20
      (upperExponent (mantissa b) (Binary64.exponent b)) with
  | none => exact magnitude_exact hb finite
  | some d => exact magnitude_of_firstNearest h

end Abacus.Decimal

import Abacus.Proofs.Number.Rounding
import Mathlib.Order.Monotone.Basic

/-!
# How rounding behaves

Rounding to binary64 respects the order, depends on nothing but the quotient, and stays close to it.

* `Binary64.value`: the number that a magnitude denotes, and `Binary64.value_succ`, the step to the next one;
* `Binary64.ofRatio_congr`: rounding looks at the quotient only;
* `Binary64.IsRounded`: a magnitude that a number is rounded to; `IsRounded.le`, `IsRounded.ge`, `IsRounded.unique`.
-/

namespace Abacus.Binary64

/-! ## Values of magnitudes -/

/-- The number that a magnitude denotes; from infinity on, as if there were exponents without end. -/
def value (b : Nat) : ℚ :=
  mantissa b * 2 ^ exponent b

theorem value_nonneg (b : Nat) : 0 ≤ value b :=
  mul_nonneg (Nat.cast_nonneg _) (zpow_pos two_pos _).le

theorem value_lt (b : Nat) : value b < 2 ^ 53 * 2 ^ exponent b := by
  unfold value
  gcongr
  exact_mod_cast mantissa_lt b

/-- A mantissa on the grid of an exponent, and the place of the magnitude with this value: what a full mantissa carries
goes to the exponent. -/
theorem value_place {m : Nat} {q : Int} (least : minExponent ≤ q) (normal : q = minExponent ∨ 2 ^ 52 ≤ m)
    (le : m ≤ 2 ^ 53) : value ((q - minExponent).toNat * leadingBit + m) = m * 2 ^ q := by
  obtain ⟨n, rfl⟩ : ∃ n : Nat, q = minExponent + n := ⟨(q - minExponent).toNat, by omega⟩
  rw [add_sub_cancel_left, Int.toNat_natCast, leadingBit_eq, value]
  rcases mantissa_cases (n * 2 ^ 52 + m) with ⟨small, hm, hq⟩ | ⟨large, hm, hq⟩
  · obtain rfl : n = 0 := by omega
    rw [hm, hq]
    simp
  · have full : 2 ^ 52 ≤ m := by omega
    rcases Nat.lt_or_eq_of_le le with lt | carried
    · have hm : mantissa (n * 2 ^ 52 + m) = m := by omega
      have hq : exponent (n * 2 ^ 52 + m) = minExponent + n := by omega
      rw [hm, hq]
    · have hm : mantissa (n * 2 ^ 52 + m) = 2 ^ 52 := by omega
      have hq : exponent (n * 2 ^ 52 + m) = 1 + (minExponent + n) := by omega
      rw [hm, hq, zpow_add₀ two_ne_zero, carried]
      norm_num
      ring

/-- **The next magnitude** denotes the next number of the grid. -/
theorem value_succ (b : Nat) : value (b + 1) = value b + 2 ^ exponent b := by
  have place := exponent_mul_add_mantissa b
  have lt := mantissa_lt b
  have next : value (b + 1) = (mantissa b + 1 : Nat) * 2 ^ exponent b := by
    conv_lhs => rw [← place, Nat.add_assoc]
    refine value_place ?_ ?_ lt
    all_goals rcases mantissa_cases b with ⟨small, hm, hq⟩ | ⟨large, hm, hq⟩ <;> omega
  rw [next, Nat.cast_succ, add_mul, one_mul, value]

theorem value_strictMono : StrictMono value :=
  strictMono_nat_of_lt_succ fun b => by
    rw [value_succ]
    exact lt_add_of_pos_right _ (zpow_pos two_pos _)

theorem exponent_mono {a b : Nat} (le : a ≤ b) : exponent a ≤ exponent b := by
  have := Nat.div_le_div_right (c := 2 ^ 52) le
  rcases mantissa_cases a with ⟨small, -, ha⟩ | ⟨large, -, ha⟩ <;>
    rcases mantissa_cases b with ⟨small', -, hb⟩ | ⟨large', -, hb⟩ <;> omega

theorem value_add_le (b n : Nat) : value b + n * 2 ^ exponent b ≤ value (b + n) := by
  induction n with
  | zero => simp
  | succ n ih =>
    have grows : (2 : ℚ) ^ exponent b ≤ 2 ^ exponent (b + n) :=
      zpow_le_zpow_right₀ one_le_two (exponent_mono (Nat.le_add_right b n))
    rw [← Nat.add_assoc, value_succ, Nat.cast_succ, add_mul, one_mul, ← add_assoc]
    exact add_le_add ih grows

@[simp] theorem value_zero : value 0 = 0 := by
  simp [value, mantissa, leadingBit]

theorem minExponent_le_exponent (b : Nat) : minExponent ≤ exponent b := by
  rcases mantissa_cases b with ⟨-, -, hq⟩ | ⟨large, -, hq⟩ <;> omega

/-- Numbers with a finer grid are far below those that fill a coarser one. -/
theorem value_lt_of_exponent_lt {b : Nat} {q : Int} (h : exponent b < q) : value b < 2 ^ 52 * 2 ^ q := by
  have finer : (2 : ℚ) ^ (exponent b + 1) ≤ 2 ^ q := zpow_le_zpow_right₀ one_le_two h
  rw [zpow_add_one₀ two_ne_zero] at finer
  have := value_lt b
  linarith

/-- Numbers of a coarser grid lie on a finer one. -/
theorem exists_value_eq_mul {b : Nat} {q : Int} (h : q ≤ exponent b) : ∃ g : Nat, value b = g * 2 ^ q := by
  obtain ⟨n, hn⟩ : ∃ n : Nat, exponent b = n + q := ⟨(exponent b - q).toNat, by omega⟩
  refine ⟨mantissa b * 2 ^ n, ?_⟩
  rw [value, hn, zpow_add₀ two_ne_zero, zpow_natCast]
  push_cast
  ring

/-! ## Rounding quotients to integers -/

section RoundDiv

variable {num den : Nat} (hd : 0 < den)
include hd

variable (num) in
/-- Rounding to an integer goes at most a half away. -/
theorem abs_roundDiv_sub_le : |(roundDiv num den : ℚ) - num / den| ≤ 1 / 2 := by
  have hd' : (0 : ℚ) < den := by exact_mod_cast hd
  have parts : (num : ℚ) = den * (num / den : Nat) + (num % den : Nat) := by exact_mod_cast (Nat.div_add_mod num den).symm
  have quotient : (num / den : ℚ) = (num / den : Nat) + (num % den : Nat) / den := by
    rw [div_eq_iff hd'.ne', parts]
    field_simp
  rw [quotient]
  have rest : ((num % den : Nat) : ℚ) / den ≤ 1 / 2 ↔ 2 * (num % den) ≤ den := by
    rw [div_le_iff₀ hd', one_div, ← div_eq_inv_mul, le_div_iff₀' two_pos]
    exact_mod_cast Iff.rfl
  have rest' : 1 / 2 ≤ ((num % den : Nat) : ℚ) / den ↔ den ≤ 2 * (num % den) := by
    rw [le_div_iff₀ hd', one_div, ← div_eq_inv_mul, div_le_iff₀' two_pos]
    exact_mod_cast Iff.rfl
  have nonneg : 0 ≤ ((num % den : Nat) : ℚ) / den := by positivity
  have le_one : ((num % den : Nat) : ℚ) / den ≤ 1 := by
    rw [div_le_one hd']
    exact_mod_cast (Nat.mod_lt num hd).le
  generalize ((num % den : Nat) : ℚ) / den = x at *
  rw [abs_sub_le_iff]
  simp only [roundDiv]
  split
  · next low =>
    have := rest.mpr low.le
    constructor <;> linarith
  split
  · next high =>
    have := rest'.mpr high.le
    push_cast
    constructor <;> linarith
  · next low high =>
    have := rest.mpr (by omega)
    have := rest'.mpr (by omega)
    rcases Nat.mod_two_eq_zero_or_one (num / den) with even | odd
    · rw [even]
      constructor <;> push_cast <;> linarith
    · rw [odd]
      constructor <;> push_cast <;> linarith

theorem roundDiv_le {g : Nat} (h : (num / den : ℚ) ≤ g) : roundDiv num den ≤ g := by
  have near := (abs_sub_le_iff.mp (abs_roundDiv_sub_le num hd)).1
  have lt : (roundDiv num den : ℚ) < g + 1 := by linarith
  exact Nat.lt_succ_iff.mp (by exact_mod_cast lt)

theorem le_roundDiv {g : Nat} (h : (g : ℚ) ≤ num / den) : g ≤ roundDiv num den := by
  have near := (abs_sub_le_iff.mp (abs_roundDiv_sub_le num hd)).2
  have lt : (g : ℚ) < roundDiv num den + 1 := by linarith
  exact Nat.lt_succ_iff.mp (by exact_mod_cast lt)

omit hd in
theorem roundDiv_mul_mul {k : Nat} (hk : 0 < k) : roundDiv (num * k) (den * k) = roundDiv num den := by
  unfold roundDiv
  rw [Nat.mul_div_mul_right _ _ hk, Nat.mul_mod_mul_right, ← Nat.mul_assoc]
  simp only [Nat.mul_lt_mul_right hk]

/-- Equal quotients are rounded alike. -/
theorem roundDiv_congr {num' den' : Nat} (hd' : 0 < den') (h : (num / den : ℚ) = num' / den') :
    roundDiv num den = roundDiv num' den' := by
  have cross : num * den' = num' * den := by
    rw [div_eq_div_iff (by positivity) (by positivity)] at h
    exact_mod_cast h
  rw [← roundDiv_mul_mul hd', cross, Nat.mul_comm den den', roundDiv_mul_mul hd]

end RoundDiv

/-! ## Rounding numbers -/

/-- The mantissa of a quotient on its grid, before a carry. -/
def gridMantissa (num den : Nat) : Nat :=
  let q := gridExponent num den
  if q < 0 then roundDiv (num <<< (-q).toNat) den else roundDiv num (den <<< q.toNat)

theorem ofRatio_zero (den : Nat) : ofRatio 0 den = 0 :=
  if_pos rfl

theorem ofRatio_eq_min {num den : Nat} (hn : 0 < num) :
    ofRatio num den =
      min ((gridExponent num den - minExponent).toNat * leadingBit + gridMantissa num den) infinity := by
  rw [ofRatio, if_neg (Nat.ne_of_gt hn)]
  rfl

theorem minExponent_le_gridExponent (num den : Nat) : minExponent ≤ gridExponent num den :=
  le_max_right _ _

section Grid

variable {num den : Nat} (hd : 0 < den)
include hd

variable (num) in
/-- The mantissa comes from rounding the quotient as seen from its grid. -/
theorem exists_gridMantissa_eq : ∃ n d, 0 < d ∧ gridMantissa num den = roundDiv n d ∧
    (n / d : ℚ) = num / den / 2 ^ gridExponent num den := by
  unfold gridMantissa
  generalize gridExponent num den = q
  dsimp only
  have hd' : (den : ℚ) ≠ 0 := by exact_mod_cast Nat.ne_of_gt hd
  split
  · obtain ⟨n, rfl⟩ : ∃ n : Nat, q = -(n : Int) := ⟨(-q).toNat, by omega⟩
    refine ⟨_, _, hd, rfl, ?_⟩
    rw [neg_neg, Int.toNat_natCast, Nat.shiftLeft_eq, zpow_neg, zpow_natCast]
    push_cast
    field_simp
  · obtain ⟨n, rfl⟩ : ∃ n : Nat, q = n := ⟨q.toNat, by omega⟩
    refine ⟨_, _, ?_, rfl, ?_⟩
    · rw [Nat.shiftLeft_eq]
      exact Nat.mul_pos hd (Nat.two_pow_pos _)
    · rw [Int.toNat_natCast, Nat.shiftLeft_eq, zpow_natCast]
      push_cast
      field_simp

theorem gridMantissa_le {g : Nat} (h : (num / den : ℚ) ≤ g * 2 ^ gridExponent num den) : gridMantissa num den ≤ g := by
  obtain ⟨n, d, pos, eq, value⟩ := exists_gridMantissa_eq num hd
  rw [eq]
  refine roundDiv_le pos ?_
  rwa [value, div_le_iff₀ (zpow_pos two_pos _)]

theorem le_gridMantissa {g : Nat} (h : (g : ℚ) * 2 ^ gridExponent num den ≤ num / den) : g ≤ gridMantissa num den := by
  obtain ⟨n, d, pos, eq, value⟩ := exists_gridMantissa_eq num hd
  rw [eq]
  refine le_roundDiv pos ?_
  rwa [value, le_div_iff₀ (zpow_pos two_pos _)]

variable (num) in
theorem abs_gridMantissa_sub_le :
    |gridMantissa num den * 2 ^ gridExponent num den - (num / den : ℚ)| ≤ 2 ^ gridExponent num den / 2 := by
  obtain ⟨n, d, pos, eq, value⟩ := exists_gridMantissa_eq num hd
  have hq : (0 : ℚ) < 2 ^ gridExponent num den := zpow_pos two_pos _
  have near := abs_roundDiv_sub_le n pos
  rw [eq]
  rw [value] at near
  have scaled : (roundDiv n d : ℚ) * 2 ^ gridExponent num den - num / den =
      (roundDiv n d - num / den / 2 ^ gridExponent num den) * 2 ^ gridExponent num den := by
    rw [sub_mul, div_mul_cancel₀ _ hq.ne']
  rw [scaled, abs_mul, abs_of_pos hq]
  nlinarith

variable (hn : 0 < num)
include hn

/-- Above the least exponent, the quotient fills its grid. -/
theorem le_quotient_of_gridExponent (h : minExponent < gridExponent num den) :
    (2 : ℚ) ^ 52 * 2 ^ gridExponent num den ≤ num / den := by
  have grid : gridExponent num den = floorLog2 num den - 52 := by
    unfold gridExponent at h ⊢
    omega
  have below := (floorLog2_bounds hn hd).1
  rwa [grid, ← zpow_natCast, ← zpow_add₀ two_ne_zero, Nat.cast_ofNat, add_sub_cancel]

theorem gridMantissa_le_full : gridMantissa num den ≤ 2 ^ 53 := by
  refine gridMantissa_le hd (le_trans (floorLog2_bounds hn hd).2.le ?_)
  rw [Nat.cast_pow, Nat.cast_ofNat, ← zpow_natCast, ← zpow_add₀ two_ne_zero]
  refine zpow_le_zpow_right₀ one_le_two ?_
  unfold gridExponent
  omega

/-- **What a quotient is rounded to**, if that is finite. -/
theorem value_grid : value ((gridExponent num den - minExponent).toNat * leadingBit + gridMantissa num den) =
    gridMantissa num den * 2 ^ gridExponent num den := by
  have least := minExponent_le_gridExponent num den
  refine value_place least ?_ (gridMantissa_le_full hd hn)
  rcases least.eq_or_lt with eq | lt
  · exact .inl eq.symm
  · exact .inr (le_gridMantissa hd (by exact_mod_cast le_quotient_of_gridExponent hd hn lt))

end Grid

/-! ## Equal quotients -/

section Congr

variable {num den num' den' : Nat} (hd : 0 < den) (hd' : 0 < den') (same : (num / den : ℚ) = num' / den')
include hd hd' same

theorem gridExponent_congr (hn : 0 < num) (hn' : 0 < num') : gridExponent num den = gridExponent num' den' := by
  have log : floorLog2 num den = floorLog2 num' den' :=
    eq_of_forall_gt_iff fun k => by rw [floorLog2_lt_iff hn hd, floorLog2_lt_iff hn' hd', same]
  rw [gridExponent, log, gridExponent]

theorem gridMantissa_congr (hn : 0 < num) (hn' : 0 < num') : gridMantissa num den = gridMantissa num' den' := by
  obtain ⟨n, d, pos, eq, value⟩ := exists_gridMantissa_eq num hd
  obtain ⟨n', d', pos', eq', value'⟩ := exists_gridMantissa_eq num' hd'
  rw [eq, eq']
  refine roundDiv_congr pos pos' ?_
  rw [value, value', same, gridExponent_congr hd hd' same hn hn']

/-- **Rounding depends on the quotient only.** -/
theorem ofRatio_congr : ofRatio num den = ofRatio num' den' := by
  have positive : 0 < num ↔ 0 < num' := by
    have iff (n : Nat) {d : Nat} (hd : 0 < d) : 0 < n ↔ (0 : ℚ) < n / d := by
      rw [div_pos_iff_of_pos_right (by exact_mod_cast hd), Nat.cast_pos]
    rw [iff num hd, same, ← iff num' hd']
  rcases Nat.eq_zero_or_pos num with rfl | hn
  · rw [(Nat.eq_zero_or_pos num').resolve_right fun h => Nat.lt_irrefl 0 (positive.mpr h), ofRatio_zero, ofRatio_zero]
  · have hn' := positive.mp hn
    rw [ofRatio_eq_min hn, ofRatio_eq_min hn', gridExponent_congr hd hd' same hn hn',
      gridMantissa_congr hd hd' same hn hn']

end Congr

/-! ## Roundings -/

/-- A number and the magnitude that it is rounded to. -/
def IsRounded (r : ℚ) (b : Nat) : Prop :=
  ∃ num den : Nat, 0 < den ∧ (num / den : ℚ) = r ∧ ofRatio num den = b

namespace IsRounded

variable {r : ℚ} {b b' : Nat}

theorem unique (h : IsRounded r b) (h' : IsRounded r b') : b = b' := by
  obtain ⟨num, den, hd, value, rfl⟩ := h
  obtain ⟨num', den', hd', value', rfl⟩ := h'
  exact ofRatio_congr hd hd' (value.trans value'.symm)

/-- A number up to that of a magnitude is not rounded beyond it. -/
theorem le (h : IsRounded r b) (le : r ≤ value b') : b ≤ b' := by
  obtain ⟨num, den, hd, rfl, rfl⟩ := h
  rcases Nat.eq_zero_or_pos num with rfl | hn
  · exact Nat.zero_le b'
  rw [ofRatio_eq_min hn]
  refine (min_le_left _ _).trans (value_strictMono.le_iff_le.mp ?_)
  rw [value_grid hd hn]
  rcases le_or_gt (gridExponent num den) (exponent b') with coarse | fine
  · obtain ⟨g, on⟩ := exists_value_eq_mul coarse
    rw [on] at le ⊢
    gcongr
    exact gridMantissa_le hd le
  · have fills := le_quotient_of_gridExponent hd hn (lt_of_le_of_lt (minExponent_le_exponent b') fine)
    exact absurd (value_lt_of_exponent_lt fine) (not_lt.mpr (fills.trans le))

/-- A number from that of a magnitude on is not rounded below it. -/
theorem ge (h : IsRounded r b) (finite : b' ≤ infinity) (ge : value b' ≤ r) : b' ≤ b := by
  obtain ⟨num, den, hd, rfl, rfl⟩ := h
  rcases Nat.eq_zero_or_pos num with rfl | hn
  · refine value_strictMono.le_iff_le.mp ?_
    rw [Nat.cast_zero, zero_div] at ge
    exact ge.trans (value_nonneg _)
  rw [ofRatio_eq_min hn]
  refine le_min (value_strictMono.le_iff_le.mp ?_) finite
  rw [value_grid hd hn]
  rcases le_or_gt (gridExponent num den) (exponent b') with coarse | fine
  · obtain ⟨g, on⟩ := exists_value_eq_mul coarse
    rw [on] at ge ⊢
    gcongr
    exact le_gridMantissa hd ge
  · have fills := le_quotient_of_gridExponent hd hn (lt_of_le_of_lt (minExponent_le_exponent b') fine)
    have full : 2 ^ 52 ≤ gridMantissa num den := le_gridMantissa hd (by exact_mod_cast fills)
    refine (value_lt_of_exponent_lt fine).le.trans ?_
    gcongr
    exact_mod_cast full

/-- Half of the least positive number is the least number that may be rounded up to it. -/
theorem le_of_pos (h : IsRounded r b) (pos : 0 < b) : (2 : ℚ) ^ (-1075 : Int) ≤ r := by
  obtain ⟨num, den, hd, rfl, rfl⟩ := h
  rcases Nat.eq_zero_or_pos num with rfl | hn
  · exact absurd pos (Nat.lt_irrefl 0)
  by_contra! small
  have bottom : gridExponent num den = minExponent := by
    have := (floorLog2_lt_iff hn hd (-1075)).mpr small
    unfold gridExponent minExponent
    omega
  have near := (abs_sub_le_iff.mp (abs_gridMantissa_sub_le num hd)).1
  have half : (2 : ℚ) ^ minExponent = 2 * 2 ^ (-1075 : Int) := by
    rw [minExponent, ← zpow_one_add₀ two_ne_zero]
    rfl
  rw [bottom, half] at near
  have none : gridMantissa num den < 1 := by
    have hp : (0 : ℚ) < 2 ^ (-1075 : Int) := zpow_pos two_pos _
    have : (gridMantissa num den : ℚ) < 1 := by
      by_contra! one
      nlinarith
    exact_mod_cast this
  rw [ofRatio_eq_min hn, bottom, sub_self, Nat.lt_one_iff.mp none] at pos
  simp at pos

/-- A number in the range of full mantissas is rounded to one nearby. -/
theorem abs_sub_le (h : IsRounded r b) (finite : b < infinity) (normal : (2 : ℚ) ^ (-1022 : Int) ≤ r) :
    |value b - r| ≤ r / 2 ^ 53 := by
  obtain ⟨num, den, hd, rfl, rfl⟩ := h
  rcases Nat.eq_zero_or_pos num with rfl | hn
  · rw [Nat.cast_zero, zero_div] at normal
    exact absurd normal (not_le.mpr (zpow_pos two_pos _))
  have fills : (2 : ℚ) ^ 52 * 2 ^ gridExponent num den ≤ num / den := by
    rcases (minExponent_le_gridExponent num den).eq_or_lt with eq | lt
    · rwa [← eq, minExponent, ← zpow_natCast, ← zpow_add₀ two_ne_zero]
    · exact le_quotient_of_gridExponent hd hn lt
  rw [ofRatio_eq_min hn] at finite ⊢
  rw [min_eq_left (min_lt_iff.mp finite |>.resolve_right (lt_irrefl _)).le, value_grid hd hn]
  refine (abs_gridMantissa_sub_le num hd).trans ?_
  linarith

end IsRounded

end Abacus.Binary64

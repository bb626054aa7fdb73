import Abacus.Number.Layout
import Abacus.Proofs.Number.Rounding
import Abacus.Proofs.Token.Stream

/-!
# Numerals read back

The positional layout of a decimal is a numeral that reads as a decimal of the same magnitude, so the text of a magnitude
reads back to it.

* `Layout.isNumeral_displayMagnitude`, `Layout.read_displayMagnitude`: the text of a finite magnitude;
* `Layout.display_of_finite`, `Layout.display_of_not_finite`: the text of a number.
-/

namespace Abacus.Layout

/-! ## Positional layouts -/

theorem isDigit_zeros {n : Nat} : ∀ c ∈ zeros n, c.isDigit := by
  intro c hc
  rw [List.eq_of_mem_replicate hc]
  rfl

theorem isDigit_digits (d : Decimal) : ∀ c ∈ d.digits, c.isDigit :=
  fun _ => Nat.isDigit_of_mem_toDigits (by decide) (by decide)

theorem isDigit_append {ds fs : List Char} (h : ∀ c ∈ ds, c.isDigit) (h' : ∀ c ∈ fs, c.isDigit) :
    ∀ c ∈ ds ++ fs, c.isDigit := by
  intro c hc
  exact (List.mem_append.mp hc).elim (h c) (h' c)

theorem ofDigitChars_digits (d : Decimal) : Nat.ofDigitChars 10 d.digits 0 = d.coefficient :=
  Nat.ofDigitChars_toDigits (by decide) (by decide)

theorem digits_ne_nil (d : Decimal) : d.digits ≠ [] :=
  Nat.toDigits_ne_nil

/-- The forms of a positional layout: what stands on both sides of the point, or no point. -/
theorem positional_cases (d : Decimal) :
    (0 ≤ d.exponent ∧ positional d = d.digits ++ zeros d.exponent.toNat) ∨
      d.exponent < 0 ∧ ∃ ds fs, positional d = ds ++ '.' :: fs ∧ ds ≠ [] ∧ fs ≠ [] ∧
        (fs.length : Int) = -d.exponent ∧ (∀ c ∈ ds, c.isDigit) ∧ (∀ c ∈ fs, c.isDigit) ∧
        Nat.ofDigitChars 10 (ds ++ fs) 0 = d.coefficient := by
  have digits := isDigit_digits d
  have ne := digits_ne_nil d
  have value := ofDigitChars_digits d
  by_cases neg : d.exponent < 0
  · refine .inr ⟨neg, ?_⟩
    have places : 0 < (-d.exponent).toNat := by omega
    simp only [positional, if_pos neg]
    by_cases inside : (-d.exponent).toNat < d.digits.length
    · rw [if_pos inside]
      refine ⟨_, _, rfl, ?_, ?_, ?_, fun c hc => digits c (List.mem_of_mem_take hc),
        fun c hc => digits c (List.mem_of_mem_drop hc), by rw [List.take_append_drop, value]⟩
      · rw [← List.length_pos_iff, List.length_take]
        omega
      · rw [← List.length_pos_iff, List.length_drop]
        omega
      · rw [List.length_drop]
        omega
    · rw [if_neg inside]
      refine ⟨['0'], zeros ((-d.exponent).toNat - d.digits.length) ++ d.digits, by simp, by simp, by simp [ne], ?_,
        List.forall_mem_singleton.mpr rfl, isDigit_append isDigit_zeros digits, ?_⟩
      · simp [zeros]
        omega
      · simp [Nat.ofDigitChars_append, Nat.ofDigitChars_cons, zeros, Nat.ofDigitChars_replicate_zero, value]
  · exact .inl ⟨Int.not_lt.mp neg, by simp only [positional, if_neg neg]⟩

theorem isNumeral_positional (d : Decimal) : Decimal.IsNumeral (positional d) := by
  rcases positional_cases d with ⟨-, whole⟩ | ⟨-, ds, fs, point, ne, ne', -, digits, digits', -⟩
  · rw [whole]
    exact .whole (by simp [digits_ne_nil]) (isDigit_append (isDigit_digits d) isDigit_zeros)
  · rw [point]
    exact .point ne digits ne' digits'

/-- **A positional layout reads** as a decimal of the same magnitude. -/
theorem read_positional (d : Decimal) :
    ∃ d', Decimal.ofNumeral? (positional d) = some d' ∧ d'.magnitude = d.magnitude := by
  rcases positional_cases d with ⟨pos, whole⟩ | ⟨neg, ds, fs, point, ne, ne', length, digits, digits', value⟩
  · have all := isDigit_append (isDigit_digits d) (isDigit_zeros (n := d.exponent.toNat))
    refine ⟨_, by rw [whole, Decimal.ofNumeral?_whole (by simp [digits_ne_nil]) all], ?_⟩
    have value : Nat.ofDigitChars 10 (d.digits ++ zeros d.exponent.toNat) 0 = d.coefficient * 10 ^ d.exponent.toNat := by
      rw [Nat.ofDigitChars_append, ofDigitChars_digits, zeros, Nat.ofDigitChars_replicate_zero, Nat.mul_comm]
    simp [Decimal.magnitude, value, Int.not_lt.mpr pos]
  · refine ⟨d, ?_, rfl⟩
    rw [point, Decimal.ofNumeral?_point ne digits ne' digits', value, length, Int.neg_neg]

/-! ## Magnitudes -/

theorem isNumeral_displayMagnitude (b : Nat) : Decimal.IsNumeral (displayMagnitude b) := by
  unfold displayMagnitude
  split
  · exact .whole (List.cons_ne_nil _ _) (List.forall_mem_singleton.mpr rfl)
  · exact isNumeral_positional _

/-- **The text of a finite magnitude reads back to it.** -/
theorem read_displayMagnitude {b : Nat} (finite : b < Binary64.infinity) :
    ∃ d, Decimal.ofNumeral? (displayMagnitude b) = some d ∧ d.magnitude = b := by
  unfold displayMagnitude
  split
  · next zero => exact ⟨⟨0, 0⟩, by decide, by rw [zero]; rfl⟩
  · next pos =>
    obtain ⟨d, read, same⟩ := read_positional (Decimal.shortest .up b)
    exact ⟨d, read, same.trans (Decimal.magnitude_shortest .up (Nat.pos_of_ne_zero pos) finite)⟩

/-! ## Numbers -/

/-- The text of a finite number is its sign, if any, and a numeral. -/
theorem display_of_finite {x : Float} (finite : Binary64.magnitude x < Binary64.infinity) :
    display x = (if Binary64.isNegative x then ['-'] else []) ++ displayMagnitude (Binary64.magnitude x) := by
  unfold display
  simp only [if_neg (Nat.lt_asymm finite), if_neg (Nat.ne_of_lt finite)]
  split <;> rfl

/-- The texts of the numbers that are not finite. -/
theorem display_of_not_finite {x : Float} (h : ¬ Binary64.magnitude x < Binary64.infinity) :
    String.ofList (display x) ∈ ["inf", "-inf", "NaN"] := by
  unfold display
  dsimp only
  by_cases above : Binary64.infinity < Binary64.magnitude x
  · rw [if_pos above]
    decide
  · rw [if_neg above, if_pos (Nat.le_antisymm (Nat.not_lt.mp above) (Nat.not_lt.mp h))]
    split <;> decide

end Abacus.Layout

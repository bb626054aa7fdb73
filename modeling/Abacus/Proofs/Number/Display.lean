import Abacus.Proofs.Number.Bits
import Abacus.Proofs.Number.ReadBack
import Abacus.Proofs.Text.Columns
import Abacus.Value

/-!
# Values told by their texts

The text of a number shows all of it, with its sign, so values that are written alike are the same.  The exception is
`NaN`, whose text does not say how it is stored.

* `Layout.display_injective`, `Value.display_injective`: numbers and values that are written alike;
* `Decimal.magnitude_toFloat`, `Decimal.isNegative_toFloat`, `Decimal.isNaN_toFloat`: the number that a decimal is rounded
  to is not `NaN` and has no sign.
-/

namespace Abacus

/-! ## Numbers -/

namespace Layout

open Binary64 (magnitude isNegative infinity)

theorem displayMagnitude_injective {a b : Nat} (ha : a < infinity) (hb : b < infinity)
    (same : displayMagnitude a = displayMagnitude b) : a = b := by
  obtain ⟨d, reads, value⟩ := read_displayMagnitude ha
  obtain ⟨d', reads', value'⟩ := read_displayMagnitude hb
  rw [same, reads'] at reads
  rw [← value, ← value', Option.some.inj reads]

/-- The text of a magnitude, infinity included. -/
def unsigned (b : Nat) : List Char :=
  if b = infinity then "inf".toList else displayMagnitude b

theorem display_of_le {x : Float} (h : magnitude x ≤ infinity) :
    display x = (if isNegative x then ['-'] else []) ++ unsigned (magnitude x) := by
  unfold display unsigned
  simp only [if_neg (Nat.not_lt.mpr h)]
  split <;> rfl

theorem head?_displayMagnitude (b : Nat) : ∃ c, (displayMagnitude b).head? = some c ∧ c.isDigit = true := by
  obtain ⟨c, cs, text, digit⟩ := (isNumeral_displayMagnitude b).exists_cons
  exact ⟨c, by rw [text, List.head?_cons], digit⟩

theorem head?_unsigned (b : Nat) : ∃ c, (unsigned b).head? = some c ∧ (c.isDigit = true ∨ c = 'i') := by
  unfold unsigned
  split
  · exact ⟨'i', rfl, .inr rfl⟩
  · obtain ⟨c, head, digit⟩ := head?_displayMagnitude b
    exact ⟨c, head, .inl digit⟩

theorem unsigned_injective {a b : Nat} (ha : a ≤ infinity) (hb : b ≤ infinity) (same : unsigned a = unsigned b) :
    a = b := by
  have inf (b : Nat) : "inf".toList ≠ displayMagnitude b := by
    intro text
    obtain ⟨c, head, digit⟩ := head?_displayMagnitude b
    rw [← text] at head
    obtain rfl := Option.some.inj head
    cases digit
  unfold unsigned at same
  split at same
  · next ha =>
    split at same
    · next hb => rw [ha, hb]
    · exact absurd same (inf b)
  · next hna =>
    split at same
    · exact absurd same.symm (inf a)
    · next hnb => exact displayMagnitude_injective (Nat.lt_of_le_of_ne ha hna) (Nat.lt_of_le_of_ne hb hnb) same

/-- **A number other than `NaN` is told by its text.** -/
theorem display_injective {x y : Float} (hx : magnitude x ≤ infinity) (hy : magnitude y ≤ infinity)
    (same : display x = display y) : x = y := by
  have sign (x : Float) : ∀ c ∈ (if isNegative x then ['-'] else []), (c == '-') = true := by
    intro c hc
    split at hc
    · rw [List.mem_singleton.mp hc]
      rfl
    · cases hc
  have next (x : Float) : ∀ c ∈ (unsigned (magnitude x)).head?, (c == '-') = false := by
    intro c hc
    obtain ⟨d, head, first⟩ := head?_unsigned (magnitude x)
    rw [head] at hc
    obtain rfl := Option.some.inj hc
    rw [beq_eq_false_iff_ne]
    rintro rfl
    rcases first with digit | i
    · cases digit
    · exact absurd i (by decide)
  rw [display_of_le hx, display_of_le hy] at same
  obtain ⟨signs, unsigneds⟩ := append_inj_of_class (sign x) (sign y) (next x) (next y) same
  have magnitudes := unsigned_injective hx hy unsigneds
  have negative : isNegative x = isNegative y := by
    cases hnx : isNegative x <;> cases hny : isNegative y <;> simp [hnx, hny] at signs ⊢
  apply Binary64.eq_of_toBits
  rw [Binary64.toNat_toBits, Binary64.toNat_toBits, negative, magnitudes]

end Layout

/-! ## Values -/

namespace Value

/-- A number that is `NaN`, however it is stored. -/
def IsNaN : Value → Prop
  | number x => Binary64.infinity < Binary64.magnitude x
  | _ => False

instance : DecidablePred IsNaN
  | number x => inferInstanceAs (Decidable (Binary64.infinity < Binary64.magnitude x))
  | nil | bool _ => inferInstanceAs (Decidable False)

/-- Numbers are not written as the words of the language. -/
theorem display_number_ne_word {x : Float} (h : ¬ (number x).IsNaN) :
    ∀ word ∈ ["nil", "true", "false"], (number x).display ≠ word := by
  have words : ∀ word ∈ ["nil", "true", "false"], word.toList.head? ∈ [some 'n', some 't', some 'f'] := by decide
  rintro word mem rfl
  have letter := words _ mem
  rw [display, String.toList_ofList, Layout.display_of_le (Nat.not_lt.mp h)] at letter
  split at letter
  · exact absurd letter (by simp)
  · obtain ⟨c, head, first⟩ := Layout.head?_unsigned (Binary64.magnitude x)
    rw [List.nil_append, head] at letter
    simp only [List.mem_cons, Option.some.injEq, List.not_mem_nil, or_false] at letter
    rcases letter with rfl | rfl | rfl
    all_goals
      rcases first with digit | i
      · cases digit
      · exact absurd i (by decide)

/-- **A value other than `NaN` is told by its text.** -/
theorem display_injective {v w : Value} (hv : ¬ v.IsNaN) (hw : ¬ w.IsNaN) (same : v.display = w.display) : v = w := by
  cases v with
  | number x =>
    cases w with
    | number y => exact congrArg number (Layout.display_injective (Nat.not_lt.mp hv) (Nat.not_lt.mp hw)
        (String.ofList_injective same))
    | nil => exact absurd same (display_number_ne_word hv _ (by decide))
    | bool b => cases b <;> exact absurd same (display_number_ne_word hv _ (by decide))
  | nil =>
    cases w with
    | number y => exact absurd same.symm (display_number_ne_word hw _ (by decide))
    | nil => rfl
    | bool b => cases b <;> exact absurd same (by decide)
  | bool a =>
    cases w with
    | number y => cases a <;> exact absurd same.symm (display_number_ne_word hw _ (by decide))
    | nil => cases a <;> exact absurd same (by decide)
    | bool b => cases a <;> cases b <;> first | rfl | exact absurd same (by decide)

end Value

/-! ## Decimals -/

theorem Binary64.magnitude_ofMagnitude {b : Nat} (h : b ≤ infinity) : magnitude (ofMagnitude b) = b := by
  rcases Nat.lt_or_eq_of_le h with finite | rfl
  · exact (parts_signed false finite).2
  · decide +kernel

theorem Binary64.isNegative_ofMagnitude {b : Nat} (h : b ≤ infinity) : isNegative (ofMagnitude b) = false := by
  rcases Nat.lt_or_eq_of_le h with finite | rfl
  · exact (parts_signed false finite).1
  · decide +kernel

theorem Binary64.isNaN_ofMagnitude {b : Nat} (h : b ≤ infinity) : (ofMagnitude b).isNaN = false := by
  rcases Nat.lt_or_eq_of_le h with finite | rfl
  · have word : (ofMagnitude b).toBits.toBitVec.toNat = b := toNat_toBits_ofMagnitude finite
    have fits : b % signBit = b := Nat.mod_eq_of_lt (Nat.lt_trans finite (by decide))
    show (Float.Model.UnpackedFloat.unpack Float.Model.Format.binary64 (ofMagnitude b).toBits.toBitVec).isNaN = false
    rw [unpack_eq (b := b) (by rw [word, fits]) finite]
    cases b <;> rfl
  · decide +kernel

theorem Binary64.ofRatio_le_infinity (num den : Nat) : ofRatio num den ≤ infinity := by
  unfold ofRatio
  split
  · exact Nat.zero_le _
  · exact Nat.min_le_right _ _

namespace Decimal

theorem magnitude_le_infinity (d : Decimal) : d.magnitude ≤ Binary64.infinity := by
  unfold magnitude
  split <;> exact Binary64.ofRatio_le_infinity _ _

/-- The number nearest to a decimal has the magnitude nearest to it. -/
theorem magnitude_toFloat (d : Decimal) : Binary64.magnitude d.toFloat = d.magnitude :=
  Binary64.magnitude_ofMagnitude d.magnitude_le_infinity

/-- **The number nearest to a decimal has a clear sign bit**, also where it is zero or infinite. -/
theorem isNegative_toFloat (d : Decimal) : Binary64.isNegative d.toFloat = false :=
  Binary64.isNegative_ofMagnitude d.magnitude_le_infinity

theorem isNaN_toFloat (d : Decimal) : d.toFloat.isNaN = false :=
  Binary64.isNaN_ofMagnitude d.magnitude_le_infinity

end Decimal

end Abacus

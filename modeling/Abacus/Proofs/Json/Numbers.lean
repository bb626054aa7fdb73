import Abacus.Proofs.Json.Precision
import Abacus.Proofs.Json.Written
import Abacus.Proofs.Number.Bits

/-!
# Numbers written and read again

The scientific layout writes a finite number with digits that round to it.  The reader of JSON numbers rounds more than
once, so what it finds has the same sign, but may be a few units of the last place away.

* `Layout.IsWritten`: a text of the JSON grammar that denotes a number, and `Layout.isWritten_scientific`;
* `Json.Numeral.reread`: what the reader makes of the text of a number, and `Json.Numeral.exists_reread`.
-/

namespace Abacus.Layout

open Json.Numeral

/-! ## Scientific layouts -/

/-- A text of the JSON grammar, without many digits before the point, and the number that it denotes. -/
def IsWritten (text : List Char) (r : ℚ) : Prop :=
  ∃ p : Parts, p.WellFormed ∧ p.whole.length ≤ 16 ∧ p.text = text ∧ p.value = r

theorem text_of_fraction {whole fraction : List Char} (ne : fraction ≠ []) :
    Parts.text ⟨whole, fraction, none⟩ = whole ++ '.' :: fraction := by
  cases fraction with
  | nil => exact absurd rfl ne
  | cons c cs => simp [Parts.text, Parts.fractionText, Parts.powerText]

section Scientific

variable {d : Decimal}

theorem length_digits_pos (d : Decimal) : 0 < d.digits.length :=
  List.length_pos_iff.mpr (digits_ne_nil d)

/-- The digits of a positive number, with something between them. -/
theorem wellFormed_split (pos : 0 < d.coefficient) {n : Nat} (hn : 0 < n) (power : Option Int) :
    Parts.WellFormed ⟨d.digits.take n, d.digits.drop n, power⟩ where
  ne_nil := by
    have := length_digits_pos d
    rw [← List.length_pos_iff, List.length_take]
    omega
  whole c hc := isDigit_digits d c (List.mem_of_mem_take hc)
  fraction c hc := isDigit_digits d c (List.mem_of_mem_drop hc)
  zero head := by
    rw [List.head?_take, if_neg (Nat.ne_of_gt hn)] at head
    exact absurd head (head_toDigits_ne_zero pos)

theorem value_split (n : Nat) (power : Option Int) :
    Parts.value ⟨d.digits.take n, d.digits.drop n, power⟩ =
      d.coefficient * 10 ^ (power.getD 0 - (d.digits.length - n : Nat)) := by
  rw [Parts.value, List.take_append_drop, ofDigitChars_digits, List.length_drop]

/-- The point stands between digits. -/
theorem isWritten_positional (pos : 0 < d.coefficient) (neg : d.exponent < 0)
    (first : 0 < d.digits.length + d.exponent) (near : d.digits.length + d.exponent ≤ 16) :
    IsWritten (positional d) d.value := by
  have inside : (-d.exponent).toNat < d.digits.length := by omega
  refine ⟨_, wellFormed_split pos (Nat.sub_pos_of_lt inside) none, ?_, ?_, ?_⟩
  · rw [List.length_take]
    omega
  · have ne : d.digits.drop (d.digits.length - (-d.exponent).toNat) ≠ [] := by
      rw [← List.length_pos_iff, List.length_drop]
      omega
    rw [text_of_fraction ne, positional]
    simp only [if_pos neg, if_pos inside]
  · have places : (0 - (d.digits.length - (d.digits.length - (-d.exponent).toNat) : Nat) : Int) = d.exponent := by omega
    rw [value_split, Option.getD_none, places, Decimal.value]

/-- An integer, written with a zero behind the point. -/
theorem isWritten_integer (pos : 0 < d.coefficient) (nonneg : ¬ d.exponent < 0)
    (near : d.digits.length + d.exponent ≤ 16) : IsWritten (positional d ++ ['.', '0']) d.value := by
  have ne := digits_ne_nil d
  obtain ⟨n, hn⟩ : ∃ n : Nat, d.exponent = n := ⟨d.exponent.toNat, by omega⟩
  refine ⟨⟨d.digits ++ zeros n, ['0'], none⟩, ⟨?_, ?_, ?_, ?_⟩, ?_, ?_, ?_⟩
  · exact List.append_ne_nil_of_left_ne_nil ne _
  · exact isDigit_append (isDigit_digits d) isDigit_zeros
  · exact List.forall_mem_singleton.mpr rfl
  · intro head
    rw [List.head?_append_of_ne_nil _ ne] at head
    exact absurd head (head_toDigits_ne_zero pos)
  · simp only [List.length_append, zeros, List.length_replicate]
    omega
  · rw [text_of_fraction (List.cons_ne_nil _ _), positional]
    simp only [hn, Int.not_lt.mpr (Int.natCast_nonneg n), if_false, Int.toNat_natCast]
  · rw [Parts.value, Decimal.value, hn, zpow_natCast]
    simp [Nat.ofDigitChars_append, Nat.ofDigitChars_cons, ofDigitChars_digits, zeros, Nat.ofDigitChars_replicate_zero]
    field_simp

/-- All digits stand behind the point. -/
theorem isWritten_fraction (far : d.digits.length + d.exponent ≤ 0) : IsWritten (positional d) d.value := by
  have ne := digits_ne_nil d
  have length := length_digits_pos d
  have neg : d.exponent < 0 := by omega
  have outside : ¬ (-d.exponent).toNat < d.digits.length := by omega
  refine ⟨⟨['0'], zeros ((-d.exponent).toNat - d.digits.length) ++ d.digits, none⟩,
    ⟨?_, ?_, ?_, fun _ => rfl⟩, ?_, ?_, ?_⟩
  · exact List.cons_ne_nil _ _
  · exact List.forall_mem_singleton.mpr rfl
  · exact isDigit_append isDigit_zeros (isDigit_digits d)
  · exact Nat.le_add_left 1 15
  · rw [text_of_fraction (List.append_ne_nil_of_right_ne_nil _ ne), positional]
    simp only [if_pos neg, if_neg outside]
    rfl
  · have places : (0 - ((-d.exponent).toNat - d.digits.length + d.digits.length : Nat) : Int) = d.exponent := by omega
    rw [Parts.value, Option.getD_none, List.length_append, zeros, List.length_replicate, places, Decimal.value]
    simp [Nat.ofDigitChars_append, Nat.ofDigitChars_cons, Nat.ofDigitChars_replicate_zero, ofDigitChars_digits]

/-- One digit stands before the point, and an exponent follows. -/
theorem isWritten_withExponent (pos : 0 < d.coefficient) :
    IsWritten (withExponent d.digits (d.digits.length + d.exponent - 1)) d.value := by
  have length := length_digits_pos d
  refine ⟨_, wellFormed_split pos Nat.one_pos (some (d.digits.length + d.exponent - 1)), ?_, ?_, ?_⟩
  · rw [List.length_take]
    omega
  · simp only [withExponent, Parts.text, Parts.fractionText, Parts.powerText, List.append_assoc]
  · have places : (d.digits.length + d.exponent - 1 - (d.digits.length - 1 : Nat) : Int) = d.exponent := by omega
    rw [value_split, Option.getD_some, places, Decimal.value]

/-- **A scientific layout** is a number of the JSON grammar and denotes the decimal. -/
theorem isWritten_scientific (pos : 0 < d.coefficient) : IsWritten (scientific d) d.value := by
  unfold scientific
  dsimp only
  split
  · next near =>
    split
    · next neg => exact isWritten_positional pos neg near.1 near.2
    · next nonneg => exact isWritten_integer pos nonneg near.2
  · split
    · next far => exact isWritten_fraction far.2
    · exact isWritten_withExponent pos

end Scientific

open Binary64 in
/-- **A finite magnitude is written** as a number that rounds to it. -/
theorem exists_isWritten_exchangeMagnitude {b : Nat} (finite : b < infinity) :
    ∃ r, IsWritten (exchangeMagnitude b) r ∧ IsRounded r b := by
  unfold exchangeMagnitude
  split
  · next zero =>
    have parts : Parts.WellFormed ⟨['0'], ['0'], none⟩ :=
      ⟨List.cons_ne_nil _ _, List.forall_mem_singleton.mpr rfl, List.forall_mem_singleton.mpr rfl, fun _ => rfl⟩
    refine ⟨0, ⟨_, parts, Nat.le_add_left 1 15, rfl, ?_⟩, 0, 1, Nat.one_pos, ?_, ?_⟩
    · simp [Parts.value, Nat.ofDigitChars_cons]
    · simp
    · rw [ofRatio_zero, zero]
  · next ne =>
    have pos := Nat.pos_of_ne_zero ne
    have rounded := (Decimal.shortest .even b).isRounded_magnitude
    rw [Decimal.magnitude_shortest .even pos finite] at rounded
    refine ⟨_, isWritten_scientific (Nat.pos_of_ne_zero fun zero => ?_), rounded⟩
    have none := rounded.le_of_pos pos
    rw [Decimal.value, zero, Nat.cast_zero, zero_mul] at none
    exact absurd none (not_le.mpr (zpow_pos two_pos _))

end Abacus.Layout

namespace Abacus.Json.Numeral

open Binary64 Layout

/-! ## Numbers read -/

section Range

variable {d : Decimal} {r : ℚ} {b : Nat} (close : Close 1 d.value r) (rounded : IsRounded r b)
include close rounded

theorem coefficient_pos (pos : 0 < b) : 0 < d.coefficient := by
  have value := close.pos ((zpow_pos two_pos _).trans_le (rounded.le_of_pos pos))
  refine Nat.pos_of_ne_zero fun zero => ?_
  rw [Decimal.value, zero, Nat.cast_zero, zero_mul] at value
  exact absurd value (lt_irrefl 0)

theorem exponent_le (finite : b < infinity) (pos : 0 < d.coefficient) : d.exponent ≤ 308 := by
  by_contra! high
  have factor : 0 < roundingFactor ^ 1 := pow_pos (zero_lt_one.trans_le one_le_roundingFactor) 1
  have below : r < value infinity := by
    by_contra! above
    exact absurd (rounded.ge (Nat.le_refl _) above) (Nat.not_le.mpr finite)
  have enough : value infinity * roundingFactor ^ 1 ≤ (10 * greatestPower : Nat) / (1 : Nat) :=
    (value_mul_pow_le_iff Nat.one_pos).mpr (by decide +kernel)
  have large : ((10 * greatestPower : Nat) / (1 : Nat) : ℚ) ≤ d.value := by
    calc ((10 * greatestPower : Nat) / (1 : Nat) : ℚ) = 10 ^ (309 : Int) := by
          rw [Nat.cast_one, div_one, Nat.cast_mul, cast_greatestPower, Nat.cast_ofNat, ← zpow_one_add₀ (by norm_num)]
          rfl
      _ ≤ 10 ^ d.exponent := zpow_le_zpow_right₀ (by norm_num) high
      _ ≤ d.coefficient * 10 ^ d.exponent := le_mul_of_one_le_left (by positivity) (by exact_mod_cast pos)
  have := (large.trans close.le).trans_lt (mul_lt_mul_of_pos_right below factor)
  exact absurd enough (not_le.mpr this)

theorem le_exponent (pos : 0 < b) (lt : d.coefficient < 2 ^ 64) : -616 ≤ d.exponent := by
  by_contra! low
  obtain ⟨k, hk⟩ : ∃ k : Nat, d.exponent = -k := ⟨(-d.exponent).toNat, by omega⟩
  have power : (10 : ℚ) ^ d.exponent ≤ 2 ^ (-1140 : Int) := by
    rw [hk, zpow_neg, zpow_natCast]
    calc ((10 : ℚ) ^ k)⁻¹ ≤ ((2 ^ 3) ^ k)⁻¹ := by
          gcongr
          norm_num
      _ = 2 ^ (-(3 * k : Nat) : Int) := by rw [← pow_mul, zpow_neg, zpow_natCast]
      _ ≤ 2 ^ (-1140 : Int) := zpow_le_zpow_right₀ one_le_two (by omega)
  have factor : roundingFactor ^ 1 < 2 := by norm_num [roundingFactor]
  have coefficient : (d.coefficient : ℚ) ≤ 2 ^ 64 := by exact_mod_cast lt.le
  have least : (2 : ℚ) ^ 64 * 2 ^ (-1140 : Int) * 2 = 2 ^ (-1075 : Int) := by
    rw [← zpow_natCast, ← zpow_add₀ two_ne_zero, ← zpow_add_one₀ two_ne_zero]
    rfl
  have value : d.value ≤ 2 ^ 64 * 2 ^ (-1140 : Int) := mul_le_mul coefficient power (by positivity) (by positivity)
  have : r < 2 ^ (-1075 : Int) :=
    calc r ≤ d.value * roundingFactor ^ 1 := close.ge
      _ ≤ 2 ^ 64 * 2 ^ (-1140 : Int) * roundingFactor ^ 1 :=
        mul_le_mul_of_nonneg_right value (pow_nonneg (zero_le_one.trans one_le_roundingFactor) 1)
      _ < 2 ^ 64 * 2 ^ (-1140 : Int) * 2 := mul_lt_mul_of_pos_left factor (by positivity)
      _ = 2 ^ (-1075 : Int) := least
  exact absurd (rounded.le_of_pos pos) (not_le.mpr this)

end Range

section Magnitude

variable {p : Parts} (h : p.WellFormed) (short : p.whole.length ≤ 16) {b : Nat} (rounded : IsRounded p.value b)
include h short rounded

/-- What is read of a number lies near the magnitude that it rounds to. -/
theorem magnitude_kept_near (pos : 0 < b) (finite : b + 7 ≤ infinity) :
    magnitude p.kept ≤ b + 7 ∧ b ≤ magnitude p.kept + 7 := by
  have close := Parts.close_value_kept h short
  have lt : p.kept.coefficient < 2 ^ 64 := coefficient_leading_lt p.whole p.fraction
  have positive := coefficient_pos close rounded pos
  obtain ⟨x, found, near⟩ := exists_isRounded_magnitude positive lt (le_exponent close rounded pos lt)
    (exponent_le close rounded (by omega) positive)
  exact found.near rounded (near.trans close) finite

theorem magnitude_kept_of_short (few : p.kept.coefficient ≤ 2 ^ 53) (small : p.kept.exponent.natAbs ≤ 22) :
    magnitude p.kept = b := by
  rw [magnitude_of_short few small]
  refine IsRounded.unique p.kept.isRounded_magnitude ?_
  rwa [Parts.value_kept h short few]

end Magnitude

/-- What is found in a decimal is finite and at most seven units from a magnitude. -/
structure FindsNear (d : Decimal) (b : Nat) : Prop where
  finite : magnitude d < infinity
  above : magnitude d ≤ b + 7
  below : b ≤ magnitude d + 7

instance (d : Decimal) (b : Nat) : Decidable (FindsNear d b) :=
  decidable_of_iff (magnitude d < infinity ∧ magnitude d ≤ b + 7 ∧ b ≤ magnitude d + 7)
    ⟨fun h => ⟨h.1, h.2.1, h.2.2⟩, fun h => ⟨h.finite, h.above, h.below⟩⟩

/-- Zero, and the greatest finite numbers, which have fewer neighbours above them than seven. -/
theorem findsNear_of_extreme :
    (∃ found ∈ read (exchangeMagnitude 0), FindsNear found.1.decimal 0) ∧
      ∀ k < 7, ∃ found ∈ read (exchangeMagnitude (infinity - 1 - k)), FindsNear found.1.decimal (infinity - 1 - k) := by
  decide +kernel

theorem read_exchangeMagnitude {b : Nat} (finite : b < infinity) :
    ∃ p : Parts, p.WellFormed ∧ p.text = exchangeMagnitude b ∧ FindsNear p.kept b ∧
      (p.kept.coefficient ≤ 2 ^ 53 → p.kept.exponent.natAbs ≤ 22 → magnitude p.kept = b) := by
  obtain ⟨r, ⟨p, form, short, text, rfl⟩, rounded⟩ := exists_isWritten_exchangeMagnitude finite
  refine ⟨p, form, text, ?_, magnitude_kept_of_short form short rounded⟩
  have reads := Parts.read_sign_text form Parts.ends_nil false
  rw [if_neg Bool.false_ne_true, List.append_nil, text] at reads
  -- the digits were computed from the magnitude, so what was computed for it is what these parts are read as
  have of_extreme (h : ∃ found ∈ read (exchangeMagnitude b), FindsNear found.1.decimal b) : FindsNear p.kept b := by
    obtain ⟨found, mem, near⟩ := h
    obtain rfl := Option.some.inj (reads.symm.trans mem)
    exact near
  rcases Nat.eq_zero_or_pos b with rfl | pos
  · exact of_extreme findsNear_of_extreme.1
  rcases Nat.lt_or_ge (b + 7) infinity with inside | top
  · obtain ⟨above, below⟩ := magnitude_kept_near form short rounded pos inside.le
    exact ⟨above.trans_lt inside, above, below⟩
  · have place : b = infinity - 1 - (infinity - 1 - b) := by omega
    exact of_extreme (place ▸ findsNear_of_extreme.2 (infinity - 1 - b) (by omega))

/-! ## Numbers read again -/

/-- What the reader makes of the text that is written for a number. -/
def reread (x : Float) : Option Float :=
  (read (exchange x)).bind fun found => found.1.toFloat?

/-- The text of a number has few digits and a small exponent. -/
def IsShort (x : Float) : Prop :=
  ∃ found ∈ read (exchange x), found.1.decimal.coefficient ≤ 2 ^ 53 ∧ found.1.decimal.exponent.natAbs ≤ 22

instance : DecidablePred IsShort :=
  fun x => inferInstanceAs (Decidable (∃ found ∈ read (exchange x), _))

theorem toFloat?_of_finite {n : Numeral} (finite : magnitude n.decimal < infinity) :
    n.toFloat? = some (signed n.isNegative (magnitude n.decimal)) := by
  rw [toFloat?, if_pos finite, signed_eq_ofMagnitude _ finite]

section Exchange

variable {x : Float} {rest : List Char}

theorem read_exchange (finite : Binary64.magnitude x < infinity) :
    ∃ n : Numeral, (∀ rest, Parts.Ends rest → read (exchange x ++ rest) = some (n, rest)) ∧
      n.isNegative = Binary64.isNegative x ∧
      FindsNear n.decimal (Binary64.magnitude x) ∧
      (n.decimal.coefficient ≤ 2 ^ 53 → n.decimal.exponent.natAbs ≤ 22 →
        magnitude n.decimal = Binary64.magnitude x) := by
  obtain ⟨p, form, text, near, exact⟩ := read_exchangeMagnitude finite
  let n : Numeral := ⟨Binary64.isNegative x, p.kept, p.fraction.isEmpty && p.power.isNone⟩
  refine ⟨n, fun rest ends => ?_, rfl, near, exact⟩
  rw [exchange, if_pos finite, ← text]
  exact Parts.read_sign_text form ends (Binary64.isNegative x)

theorem exchange_of_not_finite (infinite : ¬ Binary64.magnitude x < infinity) : exchange x = "null".toList :=
  if_neg infinite

/-- **A finite number is read again** with its sign and nearby; exactly, if its text is short. -/
theorem exists_reread (finite : Binary64.magnitude x < infinity) :
    ∃ y, reread x = some y ∧ Binary64.isNegative y = Binary64.isNegative x ∧ Binary64.magnitude y < infinity ∧
      Binary64.magnitude y ≤ Binary64.magnitude x + 7 ∧ Binary64.magnitude x ≤ Binary64.magnitude y + 7 ∧
      (IsShort x → y = x) := by
  obtain ⟨n, reads, sign, near, exact⟩ := read_exchange finite
  have reads := reads [] Parts.ends_nil
  rw [List.append_nil] at reads
  obtain ⟨sign', same⟩ := parts_signed n.isNegative near.finite
  refine ⟨signed n.isNegative (magnitude n.decimal), ?_, sign'.trans sign, ?_, ?_, ?_, ?_⟩
  · rw [reread, reads, Option.bind_some, toFloat?_of_finite near.finite]
  · exact same.symm ▸ near.finite
  · exact same.symm ▸ near.above
  · exact same.symm ▸ near.below
  · rintro ⟨found, mem, few, small⟩
    obtain rfl := Option.some.inj (reads.symm.trans mem)
    rw [exact few small, sign, signed_magnitude finite]

theorem reread_of_not_finite (infinite : ¬ Binary64.magnitude x < infinity) : reread x = none := by
  rw [reread, exchange_of_not_finite infinite]
  rfl

theorem exists_exchange_eq_cons (x : Float) : ∃ c cs, exchange x = c :: cs ∧ isSpace c = false := by
  by_cases finite : Binary64.magnitude x < infinity
  · obtain ⟨p, form, text, -⟩ := read_exchangeMagnitude finite
    obtain ⟨c, cs, head, digit⟩ := Parts.exists_text_eq_cons form
    rw [exchange, if_pos finite, ← text]
    split
    · exact ⟨_, _, rfl, rfl⟩
    · exact ⟨c, cs, head, isSpace_of_isDigit digit⟩
  · exact ⟨_, _, exchange_of_not_finite finite, rfl⟩

/-- What stands behind a number does not matter. -/
theorem read_exchange_append (ends : Parts.Ends rest) :
    ((read (exchange x ++ rest)).bind fun found => found.1.toFloat?.map fun y => (y, found.2)) =
      (reread x).map fun y => (y, rest) := by
  by_cases finite : Binary64.magnitude x < infinity
  · obtain ⟨n, reads, -⟩ := read_exchange finite
    have alone := reads [] Parts.ends_nil
    rw [List.append_nil] at alone
    rw [reread, reads rest ends, alone, Option.bind_some, Option.bind_some]
  · rw [reread_of_not_finite finite, exchange_of_not_finite finite]
    rfl

end Exchange

end Abacus.Json.Numeral

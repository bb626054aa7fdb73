import Abacus.Json.Text
import Abacus.Proofs.Number.Close
import Abacus.Proofs.Number.ReadBack

/-!
# JSON numbers as they are written

A number is written in parts: digits, perhaps a point and more digits, perhaps an exponent.  Whatever stands behind it, as
long as no number goes on like that, it is read as these parts.

* `Json.Numeral.Parts`: the parts of a number, and `Parts.read_text`, how they are read;
* `Json.Numeral.Parts.kept`: the decimal that is left when too many digits have been dropped.
-/

namespace Abacus.Json.Numeral

/-! ## Digits -/

/-- What stands behind digits is no digit. -/
def NoDigit (rest : List Char) : Prop :=
  ∀ c ∈ rest.head?, c.isDigit = false

theorem digits_append {ds rest : List Char} (all : ∀ c ∈ ds, c.isDigit) (stop : NoDigit rest) :
    digits (ds ++ rest) = (ds, rest) := by
  have ends : rest.takeWhile Char.isDigit = [] ∧ rest.dropWhile Char.isDigit = rest := by
    cases rest with
    | nil => exact ⟨rfl, rfl⟩
    | cons c cs =>
      have other := stop c rfl
      exact ⟨List.takeWhile_cons_of_neg (by simp [other]), List.dropWhile_cons_of_neg (by simp [other])⟩
  rw [digits, List.takeWhile_append_of_pos all, List.dropWhile_append_of_pos all, ends.1, ends.2, List.append_nil]

theorem digit_le {c : Char} (h : c.isDigit) : c.toNat - '0'.toNat ≤ 9 := by
  simp only [Char.isDigit, Bool.and_eq_true, decide_eq_true_eq, UInt32.le_iff_toNat_le] at h
  have bound : c.toNat ≤ 57 := h.2
  exact Nat.sub_le_sub_right bound 48

theorem isSpace_of_isDigit {c : Char} (h : c.isDigit) : isSpace c = false := by
  refine Bool.eq_false_iff.mpr fun space => ?_
  simp only [isSpace, Bool.or_eq_true, beq_iff_eq, or_assoc] at space
  rcases space with rfl | rfl | rfl | rfl <;> exact absurd h (by decide)

/-- Digits with a further coefficient in front of them. -/
theorem ofDigitChars_bounds {ds : List Char} (all : ∀ c ∈ ds, c.isDigit) (n : Nat) :
    n * 10 ^ ds.length ≤ Nat.ofDigitChars 10 ds n ∧ Nat.ofDigitChars 10 ds n < (n + 1) * 10 ^ ds.length := by
  induction ds generalizing n with
  | nil => simp
  | cons c cs ih =>
    obtain ⟨ge, lt⟩ := ih (fun d hd => all d (List.mem_cons_of_mem c hd)) (10 * n + (c.toNat - '0'.toNat))
    have digit : c.toNat - '0'.toNat ≤ 9 := digit_le (all c List.mem_cons_self)
    rw [Nat.ofDigitChars_cons, List.length_cons, Nat.pow_succ', ← Nat.mul_assoc, ← Nat.mul_assoc]
    constructor
    · exact (Nat.mul_le_mul_right _ (by omega)).trans ge
    · exact lt.trans_le (Nat.mul_le_mul_right _ (by omega))

/-- Digits behind a coefficient are less than its next place. -/
theorem ofDigitChars_div_bounds {ds : List Char} (all : ∀ c ∈ ds, c.isDigit) (n : Nat) :
    (n : ℚ) ≤ Nat.ofDigitChars 10 ds n / 10 ^ ds.length ∧ (Nat.ofDigitChars 10 ds n / 10 ^ ds.length : ℚ) ≤ n + 1 := by
  obtain ⟨ge, lt⟩ := ofDigitChars_bounds all n
  have scale : (0 : ℚ) < 10 ^ ds.length := by positivity
  rw [le_div_iff₀ scale, div_le_iff₀ scale]
  exact ⟨by exact_mod_cast ge, by exact_mod_cast lt.le⟩

/-- No digits of a positive number start with a zero. -/
theorem head_toDigits_ne_zero {n : Nat} (pos : 0 < n) : (Nat.toDigits 10 n).head? ≠ some '0' := by
  induction n using Nat.strong_induction_on with
  | _ n ih =>
    rw [Nat.toDigits_eq_if (by decide)]
    split
    · next digit =>
      have table : ∀ n < 10, 0 < n → [n.digitChar].head? ≠ some '0' := by decide
      exact table n digit pos
    · next more =>
      rw [List.head?_append_of_ne_nil _ Nat.toDigits_ne_nil]
      exact ih (n / 10) (by omega) (by omega)

/-! ## Parts -/

/-- The parts of a number without a sign. -/
structure Parts where
  whole : List Char
  /-- The digits behind the point; without any there is no point. -/
  fraction : List Char
  power : Option Int

namespace Parts

/-- How an exponent is written. -/
def powerText : Option Int → List Char
  | none => []
  | some e => 'e' :: (if e < 0 then '-' else '+') :: Nat.toDigits 10 e.natAbs

/-- How the digits behind the point are written. -/
def fractionText (fraction : List Char) : List Char :=
  if fraction.isEmpty then [] else '.' :: fraction

/-- How a number is written. -/
def text (p : Parts) : List Char :=
  p.whole ++ (fractionText p.fraction ++ powerText p.power)

/-- Digits before and behind the point, and no zero in front that could be left out. -/
structure WellFormed (p : Parts) : Prop where
  ne_nil : p.whole ≠ []
  whole : ∀ c ∈ p.whole, c.isDigit
  fraction : ∀ c ∈ p.fraction, c.isDigit
  zero : p.whole.head? = some '0' → p.whole = ['0']

/-- What may stand behind a number. -/
def Ends (rest : List Char) : Prop :=
  ∀ c ∈ rest.head?, c.isDigit = false ∧ c ≠ '.' ∧ c ≠ 'e' ∧ c ≠ 'E'

/-- The decimal that is kept of a number. -/
def kept (p : Parts) : Decimal :=
  ⟨(leading p.whole p.fraction).coefficient, (leading p.whole p.fraction).exponent + p.power.getD 0⟩

variable {p : Parts} {rest : List Char}

theorem ends_nil : Ends [] :=
  fun _ none => nomatch none

theorem Ends.noDigit (h : Ends rest) : NoDigit rest :=
  fun c hc => (h c hc).1

theorem readPower_append (isNegative : Bool) (n : Nat) (stop : NoDigit rest) :
    readPower isNegative (Nat.toDigits 10 n ++ rest) = some (if isNegative then -(n : Int) else n, rest) := by
  have all : ∀ c ∈ Nat.toDigits 10 n, c.isDigit := fun _ => Nat.isDigit_of_mem_toDigits (by decide) (by decide)
  have value : Nat.ofDigitChars 10 (Nat.toDigits 10 n) 0 = n := Nat.ofDigitChars_toDigits (by decide) (by decide)
  rw [readPower, digits_append all stop]
  split
  · next none => exact absurd (congrArg Prod.fst none) Nat.toDigits_ne_nil
  · next found _ _ same =>
    obtain ⟨rfl, rfl⟩ := Prod.mk.inj same
    rw [Decimal.readDigits_eq all, value]
    rfl

theorem readExponent_append (e : Option Int) (ends : Ends rest) : readExponent (powerText e ++ rest) = some (e, rest) := by
  cases e with
  | none =>
    cases rest with
    | nil => rfl
    | cons c cs =>
      obtain ⟨-, -, lower, upper⟩ := ends c rfl
      simp [powerText, readExponent, lower, upper]
  | some e =>
    rcases Int.lt_or_le e 0 with neg | nonneg
    · have power := readPower_append true e.natAbs ends.noDigit
      have value : -(e.natAbs : Int) = e := by omega
      rw [if_pos rfl, value] at power
      simp [powerText, readExponent, neg, power]
    · have power := readPower_append false e.natAbs ends.noDigit
      have value : (e.natAbs : Int) = e := by omega
      rw [if_neg Bool.false_ne_true, value] at power
      simp [powerText, readExponent, Int.not_lt.mpr nonneg, power]

theorem readFraction_append {fraction : List Char} (all : ∀ c ∈ fraction, c.isDigit) (stop : NoDigit rest)
    (point : rest.head? ≠ some '.') : readFraction (fractionText fraction ++ rest) = some (fraction, rest) := by
  cases fraction with
  | nil =>
    cases rest with
    | nil => rfl
    | cons c cs =>
      have other : c ≠ '.' := fun same => point (congrArg some same)
      simp [fractionText, readFraction, other]
  | cons c cs =>
    have found : digits (c :: (cs ++ rest)) = (c :: cs, rest) := digits_append all stop
    simp [fractionText, readFraction, found]

theorem readWhole_append (h : p.WellFormed) (stop : NoDigit rest) :
    readWhole (p.whole ++ rest) = some (p.whole, rest) := by
  rw [readWhole, digits_append h.whole stop]
  split
  · next none => exact absurd (congrArg Prod.fst none) h.ne_nil
  · next same =>
    obtain ⟨whole, rfl⟩ := Prod.mk.inj same
    rw [whole]
  · next cs _ other same =>
    obtain ⟨whole, rfl⟩ := Prod.mk.inj same
    have alone := h.zero (by rw [whole]; rfl)
    exact absurd (List.cons.inj (whole.symm.trans alone)).2 other
  · rfl

theorem powerText_append_ends (e : Option Int) (ends : Ends rest) :
    NoDigit (powerText e ++ rest) ∧ (powerText e ++ rest).head? ≠ some '.' := by
  cases e with
  | none => exact ⟨ends.noDigit, fun point => (ends '.' point).2.1 rfl⟩
  | some e => exact ⟨fun c hc => by rw [← Option.mem_some.mp hc]; rfl, by simp [powerText]⟩

theorem fractionText_append_noDigit (fraction : List Char) (stop : NoDigit rest) :
    NoDigit (fractionText fraction ++ rest) := by
  cases fraction with
  | nil => exact stop
  | cons c cs => exact fun c hc => by rw [← Option.mem_some.mp hc]; rfl

/-- **A written number is read as its parts.** -/
theorem readUnsigned_text (h : p.WellFormed) (ends : Ends rest) (isNegative : Bool) :
    readUnsigned isNegative (p.text ++ rest) =
      some (⟨isNegative, p.kept, p.fraction.isEmpty && p.power.isNone⟩, rest) := by
  obtain ⟨noDigit, noPoint⟩ := powerText_append_ends p.power ends
  have whole := readWhole_append h (fractionText_append_noDigit p.fraction noDigit)
  have fraction := readFraction_append h.fraction noDigit noPoint
  have power := readExponent_append p.power ends
  rw [text, List.append_assoc, List.append_assoc]
  simp only [readUnsigned, whole, fraction, power, bind, Option.bind_some, pure, kept]

theorem exists_text_eq_cons (h : p.WellFormed) : ∃ c cs, p.text = c :: cs ∧ c.isDigit := by
  obtain ⟨c, cs, whole⟩ := List.exists_cons_of_ne_nil h.ne_nil
  exact ⟨c, cs ++ (fractionText p.fraction ++ powerText p.power), by rw [text, whole, List.cons_append],
    h.whole c (whole ▸ List.mem_cons_self)⟩

theorem read_sign_text (h : p.WellFormed) (ends : Ends rest) (negative : Bool) :
    read ((if negative then '-' :: p.text else p.text) ++ rest) =
      some (⟨negative, p.kept, p.fraction.isEmpty && p.power.isNone⟩, rest) := by
  have unsigned := readUnsigned_text h ends negative
  cases negative with
  | true => exact unsigned
  | false =>
    obtain ⟨c, cs, head, digit⟩ := exists_text_eq_cons h
    have plain : c ≠ '-' := by
      rintro rfl
      exact absurd digit (by decide)
    rw [if_neg Bool.false_ne_true, ← unsigned, head]
    unfold read
    split
    · next same => exact absurd (List.cons.inj same).1 plain
    · rfl

/-! ## What is kept of the digits -/

/-- Digits are kept up to the first one that does not fit. -/
theorem exists_keep_eq {cs : List Char} (all : ∀ c ∈ cs, c.isDigit) (n : Nat) :
    ∃ taken lost, cs = taken ++ lost ∧ keep n cs = (Nat.ofDigitChars 10 taken n, lost) ∧
      (lost = [] ∨ UInt64.size ≤ 10 * Nat.ofDigitChars 10 taken n + 9) := by
  induction cs generalizing n with
  | nil => exact ⟨[], [], rfl, rfl, .inl rfl⟩
  | cons c cs ih =>
    have digit := all c List.mem_cons_self
    have le := digit_le digit
    have value : Decimal.digit? c = some (c.toNat - '0'.toNat) := if_pos digit
    by_cases fits : 10 * n + (c.toNat - '0'.toNat) < UInt64.size
    · obtain ⟨taken, lost, rfl, kept, full⟩ :=
        ih (fun d hd => all d (List.mem_cons_of_mem c hd)) (10 * n + (c.toNat - '0'.toNat))
      refine ⟨c :: taken, lost, rfl, ?_, ?_⟩
      · simp only [keep, value, if_pos fits, kept, Nat.ofDigitChars_cons]
      · rwa [Nat.ofDigitChars_cons]
    · refine ⟨[], c :: cs, rfl, ?_, .inr ?_⟩
      · simp only [keep, value, if_neg fits, Nat.ofDigitChars_nil]
      · rw [Nat.ofDigitChars_nil]
        omega

/-- Few digits are all kept. -/
theorem keep_eq {cs : List Char} (all : ∀ c ∈ cs, c.isDigit) {n : Nat}
    (small : 10 * Nat.ofDigitChars 10 cs n + 9 < UInt64.size) : keep n cs = (Nat.ofDigitChars 10 cs n, []) := by
  obtain ⟨taken, lost, rfl, kept, full⟩ := exists_keep_eq all n
  obtain ⟨ge, -⟩ :=
    ofDigitChars_bounds (fun c hc => all c (List.mem_append_right taken hc)) (Nat.ofDigitChars 10 taken n)
  have grows : Nat.ofDigitChars 10 taken n ≤ Nat.ofDigitChars 10 taken n * 10 ^ lost.length :=
    Nat.le_mul_of_pos_right _ (by positivity)
  rw [Nat.ofDigitChars_append] at small
  obtain rfl : lost = [] := full.resolve_right (by omega)
  rw [kept, List.append_nil]

/-- The number that the parts denote. -/
def value (p : Parts) : ℚ :=
  Nat.ofDigitChars 10 (p.whole ++ p.fraction) 0 * 10 ^ (p.power.getD 0 - p.fraction.length)

theorem exists_kept_eq (h : p.WellFormed) (short : p.whole.length ≤ 16) :
    ∃ taken lost, p.fraction = taken ++ lost ∧
      p.kept = ⟨Nat.ofDigitChars 10 (p.whole ++ taken) 0, p.power.getD 0 - taken.length⟩ ∧
      (lost = [] ∨ UInt64.size ≤ 10 * p.kept.coefficient + 9) := by
  have small : 10 * Nat.ofDigitChars 10 p.whole 0 + 9 < UInt64.size := by
    have lt := (ofDigitChars_bounds h.whole 0).2
    have le : 10 ^ p.whole.length ≤ 10 ^ 16 := Nat.pow_le_pow_right (by decide) short
    have size : 10 * 10 ^ 16 + 9 < UInt64.size := by decide
    omega
  obtain ⟨taken, lost, split, kept, full⟩ := exists_keep_eq h.fraction (Nat.ofDigitChars 10 p.whole 0)
  have found : p.kept = ⟨Nat.ofDigitChars 10 (p.whole ++ taken) 0, p.power.getD 0 - taken.length⟩ := by
    have places : ((0 : Nat) : Int) - ((taken.length + lost.length : Nat) - (lost.length : Int)) + p.power.getD 0 =
        p.power.getD 0 - taken.length := by omega
    rw [split] at kept
    simp only [Parts.kept, leading, keep_eq h.whole small, kept, split, List.length_append, List.length_nil, places,
      Nat.ofDigitChars_append]
  refine ⟨taken, lost, split, found, ?_⟩
  rwa [found, Nat.ofDigitChars_append]

/-- Unless digits are lost, the decimal that is kept is the number. -/
theorem value_kept (h : p.WellFormed) (short : p.whole.length ≤ 16) (few : p.kept.coefficient ≤ 2 ^ 53) :
    p.kept.value = p.value := by
  obtain ⟨taken, lost, split, kept, full⟩ := exists_kept_eq h short
  have fits : 10 * p.kept.coefficient + 9 < UInt64.size :=
    lt_of_le_of_lt (by omega : _ ≤ 10 * 2 ^ 53 + 9) (by decide)
  obtain rfl : lost = [] := full.resolve_right (Nat.not_le.mpr fits)
  rw [value, split, List.append_nil, kept, Decimal.value]

/-- **Lost digits matter less than a rounding.** -/
theorem close_value_kept (h : p.WellFormed) (short : p.whole.length ≤ 16) : Binary64.Close 1 p.kept.value p.value := by
  obtain ⟨taken, lost, split, kept, full⟩ := exists_kept_eq h short
  have all : ∀ c ∈ lost, c.isDigit := fun c hc => h.fraction c (split ▸ List.mem_append_right taken hc)
  have shift : p.value = Nat.ofDigitChars 10 lost p.kept.coefficient / 10 ^ lost.length * 10 ^ p.kept.exponent := by
    rw [value, split, ← List.append_assoc, Nat.ofDigitChars_append, kept, List.length_append, Nat.cast_add, ← sub_sub,
      zpow_sub₀ (by norm_num), zpow_natCast]
    ring
  obtain ⟨above, next⟩ := ofDigitChars_div_bounds all p.kept.coefficient
  -- either nothing is lost, or the coefficient is so large that one more is less than a rounding
  have below : Nat.ofDigitChars 10 lost p.kept.coefficient / 10 ^ lost.length ≤
      (p.kept.coefficient : ℚ) * Binary64.roundingFactor := by
    rcases full with rfl | full
    · simpa using le_mul_of_one_le_right (Nat.cast_nonneg _) Binary64.one_le_roundingFactor
    · have full : (2 : ℚ) ^ 64 ≤ 10 * p.kept.coefficient + 9 := by exact_mod_cast full
      refine next.trans ?_
      rw [Binary64.roundingFactor]
      linarith
  have power : (0 : ℚ) < 10 ^ p.kept.exponent := by positivity
  rw [shift, Decimal.value]
  refine ⟨?_, ?_⟩ <;> rw [pow_one]
  · exact (mul_le_mul_of_nonneg_right above power.le).trans
      (le_mul_of_one_le_right (by positivity) Binary64.one_le_roundingFactor)
  · rw [mul_right_comm]
    exact mul_le_mul_of_nonneg_right below power.le

/-! ## Natural numbers -/

/-- The parts of a natural number. -/
def ofNat (n : Nat) : Parts :=
  ⟨Nat.toDigits 10 n, [], none⟩

theorem wellFormed_ofNat (n : Nat) : (ofNat n).WellFormed where
  ne_nil := Nat.toDigits_ne_nil
  whole _ := Nat.isDigit_of_mem_toDigits (by decide) (by decide)
  fraction _ none := nomatch none
  zero head := by
    rcases Nat.eq_zero_or_pos n with rfl | pos
    · rfl
    · exact absurd head (head_toDigits_ne_zero pos)

theorem kept_ofNat {n : Nat} (small : 10 * n + 9 < UInt64.size) : (ofNat n).kept = ⟨n, 0⟩ := by
  have value : Nat.ofDigitChars 10 (Nat.toDigits 10 n) 0 = n := Nat.ofDigitChars_toDigits (by decide) (by decide)
  have kept : keep 0 (Nat.toDigits 10 n) = (n, []) := by
    have all := keep_eq (wellFormed_ofNat n).whole (n := 0) (by rwa [ofNat, value])
    rwa [ofNat, value] at all
  simp only [Parts.kept, ofNat, leading, kept, keep]
  rfl

/-- **A natural number that is not too large is read** as itself. -/
theorem read_toDigits {n : Nat} (small : 10 * n + 9 < UInt64.size) (ends : Ends rest) :
    read (Nat.toDigits 10 n ++ rest) = some (⟨false, ⟨n, 0⟩, true⟩, rest) := by
  have reads := read_sign_text (wellFormed_ofNat n) ends false
  have text : (ofNat n).text = Nat.toDigits 10 n := List.append_nil _
  rwa [if_neg Bool.false_ne_true, text, kept_ofNat small] at reads

end Parts

end Abacus.Json.Numeral

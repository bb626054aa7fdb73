import Abacus.Proofs.Number.Rounding

/-!
# Finite numbers bit by bit

A finite number is its sign and its magnitude, and negation changes the one and keeps the other.

* `Binary64.unpack_eq`, `Binary64.toNat_pack`: words of finite numbers, read and written;
* `Binary64.signed_magnitude`: a finite number is made of its sign and its magnitude.
-/

namespace Abacus.Binary64

open Float.Model (Format UnpackedFloat)
open Float.Model.UnpackedFloat

theorem infinity_eq : infinity = 2047 * 2 ^ 52 :=
  rfl

theorem signBit_eq : signBit = 2 ^ 63 :=
  rfl

/-! ## Parts of a word -/

/-- The sign in a word. -/
def signOf (n : Nat) : Sign :=
  if signBit ≤ n then .negative else .positive

/-- The weight of a sign in a word. -/
def signWeight : Sign → Nat
  | .positive => 0
  | .negative => 2 ^ 63

/-- The finite number of a sign and a magnitude, in parts. -/
def parts (s : Sign) (b : Nat) : UnpackedFloat :=
  if h : 0 < b then .finite s (mantissa b) (exponent b) (mantissa_pos h) else .zero s

theorem finite_congr (s : Sign) {m m' : Nat} {q q' : Int} (hm : m = m') (hq : q = q') (pos : 0 < m) (pos' : 0 < m') :
    UnpackedFloat.finite s m q pos = UnpackedFloat.finite s m' q' pos' := by
  subst hm hq
  rfl

theorem parts_of_pos (s : Sign) {b : Nat} (h : 0 < b) :
    parts s b = .finite s (mantissa b) (exponent b) (mantissa_pos h) :=
  dif_pos h

theorem neg_parts (s : Sign) (b : Nat) : (parts s b).neg = parts (-s) b := by
  cases b with
  | zero => rfl
  | succ b =>
    rw [parts_of_pos _ (Nat.succ_pos b), parts_of_pos _ (Nat.succ_pos b)]
    rfl

theorem ofBitVec_unpackSign (w : BitVec Format.binary64.numBits) : Sign.ofBitVec (unpackSign w) = signOf w.toNat := by
  have bit : (unpackSign w).toNat = w.toNat / 2 ^ 63 % 2 := by
    show (BitVec.extractLsb 63 63 w).toNat = _
    rw [BitVec.extractLsb_toNat, Nat.shiftRight_eq_div_pow]
  have lt : w.toNat < 2 ^ 64 := w.isLt
  unfold Sign.ofBitVec signOf
  rw [signBit_eq]
  refine (if_congr ?_ rfl rfl).trans (ite_not ..)
  rw [← BitVec.toNat_inj, bit, BitVec.toNat_zero]
  omega

section Fields

variable {w : BitVec Format.binary64.numBits} {b : Nat} (h : w.toNat % signBit = b)
include h

theorem toNat_unpackMantissa : (unpackMantissa w).toNat = b % 2 ^ 52 := by
  have field : (unpackMantissa w).toNat = w.toNat % 2 ^ 52 := by
    show (BitVec.extractLsb 51 0 w).toNat = _
    rw [BitVec.extractLsb_toNat, Nat.shiftRight_zero]
  rw [signBit_eq] at h
  omega

theorem toNat_unpackExponent : (unpackExponent w).toNat = b / 2 ^ 52 := by
  have field : (unpackExponent w).toNat = w.toNat / 2 ^ 52 % 2 ^ 11 := by
    show (BitVec.extractLsb 62 52 w).toNat = _
    rw [BitVec.extractLsb_toNat, Nat.shiftRight_eq_div_pow]
  rw [signBit_eq] at h
  omega

/-- The greatest exponent is that of no finite number. -/
theorem unpackExponent_ne_top (finite : b < infinity) : unpackExponent w ≠ -1#11 := by
  rw [infinity_eq, Nat.mul_comm] at finite
  rw [ne_eq, ← BitVec.toNat_inj, toNat_unpackExponent h]
  exact Nat.ne_of_lt (Nat.div_lt_of_lt_mul finite)

end Fields

theorem toNat_packComponents (s : Sign) (e : BitVec 11) (m : BitVec 52) :
    (packComponents Format.binary64 s e m).toNat = signWeight s + e.toNat * 2 ^ 52 + m.toNat := by
  unfold packComponents
  rw [BitVec.toNat_append, BitVec.toNat_append, ← Nat.shiftLeft_add_eq_or_of_lt m.isLt,
    ← Nat.shiftLeft_add_eq_or_of_lt e.isLt, Nat.shiftLeft_eq, Nat.shiftLeft_eq]
  cases s with
  | positive => simp [signWeight, Sign.toBitVec]
  | negative =>
    simp only [signWeight, Sign.toBitVec, BitVec.toNat_ofNat]
    omega

theorem toNat_append_one (m : BitVec 52) : (1#1 ++ m).toNat = m.toNat + 2 ^ 52 := by
  rw [BitVec.toNat_append, ← Nat.shiftLeft_add_eq_or_of_lt m.isLt, Nat.add_comm]
  rfl

/-! ## Words -/

/-- **A word of a finite number, read.** -/
theorem unpack_eq {w : BitVec Format.binary64.numBits} {b : Nat} (h : w.toNat % signBit = b) (finite : b < infinity) :
    unpack Format.binary64 w = parts (signOf w.toNat) b := by
  have field := toNat_unpackExponent h
  have fraction := toNat_unpackMantissa h
  have bias : Format.binary64.exponentBias = 1023 := rfl
  unfold unpack
  dsimp only
  rw [if_neg (unpackExponent_ne_top h finite), ofBitVec_unpackSign]
  -- the leading bit is not stored: it is there unless the field of the exponent is zero
  rcases mantissa_cases b with ⟨small, hm, hq⟩ | ⟨large, hm, hq⟩
  · have bottom : unpackExponent w = 0#11 := by
      rw [← BitVec.toNat_inj, field]
      exact Nat.div_eq_of_lt small
    rw [Nat.mod_eq_of_lt small] at fraction
    rw [if_pos bottom]
    rcases Nat.eq_zero_or_pos b with rfl | pos
    · have eq : unpackMantissa w = 0#52 := BitVec.toNat_inj.mp fraction
      rw [dif_pos eq]
      rfl
    · have ne : unpackMantissa w ≠ 0#52 := by
        rw [ne_eq, ← BitVec.toNat_inj, fraction]
        exact Nat.ne_of_gt pos
      rw [dif_neg ne, parts_of_pos _ pos]
      refine finite_congr _ ?_ ?_ _ _
      · rw [fraction, hm]
      · rw [hq, bottom, bias]
        rfl
  · have bottom : unpackExponent w ≠ 0#11 := by
      rw [ne_eq, ← BitVec.toNat_inj, field]
      exact Nat.ne_of_gt (Nat.div_pos large (by decide))
    rw [if_neg bottom, parts_of_pos _ (Nat.lt_of_lt_of_le (by decide) large)]
    refine finite_congr _ ?_ ?_ _ _
    · rw [toNat_append_one, fraction, hm]
    · rw [hq, field, bias, minExponent]
      omega

theorem pack_finite (s : Sign) {m : Nat} {q : Int} (pos : 0 < m) :
    pack Format.binary64 (.finite s m q pos) =
      if 2 ^ 11 ≤ (q + 1023 + 52).toNat + 1 then packedInfinity Format.binary64 s
      else if m.log2 + 1 = 53 then
        packComponents Format.binary64 s (BitVec.ofNat 11 (q + 1023 + 52).toNat) (BitVec.ofNat 52 m)
      else packComponents Format.binary64 s 0#11 (BitVec.ofNat 52 m) :=
  rfl

/-- **A word of a finite number, written.** -/
theorem toNat_pack (s : Sign) {b : Nat} (finite : b < infinity) :
    (pack Format.binary64 (parts s b)).toNat = signWeight s + b := by
  rw [infinity_eq] at finite
  rcases Nat.eq_zero_or_pos b with rfl | pos
  · show (packComponents Format.binary64 s 0 0).toNat = _
    rw [toNat_packComponents]
    rfl
  · have ne : mantissa b ≠ 0 := Nat.ne_of_gt (mantissa_pos pos)
    rw [parts_of_pos s pos, pack_finite]
    rcases mantissa_cases b with ⟨small, hm, hq⟩ | ⟨large, hm, hq⟩
    · have short : ¬ (mantissa b).log2 + 1 = 53 := by
        have := (Nat.log2_lt ne).mpr (hm ▸ small)
        omega
      rw [hq, if_neg (by decide), if_neg short, toNat_packComponents, BitVec.toNat_ofNat, BitVec.toNat_ofNat, hm]
      omega
    · have full : (mantissa b).log2 + 1 = 53 := by
        have := (Nat.log2_lt ne).mpr (mantissa_lt b)
        have := (Nat.le_log2 ne (k := 52)).mpr (by omega)
        omega
      rw [hq, minExponent, if_neg (by omega), if_pos full]
      rw [toNat_packComponents, BitVec.toNat_ofNat, BitVec.toNat_ofNat, hm]
      omega

/-! ## Numbers -/

theorem eq_of_toBits {x y : Float} (h : x.toBits.toNat = y.toBits.toNat) : x = y := by
  obtain ⟨⟨a, _⟩⟩ := x
  obtain ⟨⟨b, _⟩⟩ := y
  obtain rfl : a = b := UInt64.toNat_inj.mp h
  rfl

/-- A word whose magnitude is finite is that of its number. -/
theorem toNat_toBits_of_finite {n : Nat} (word : n < 2 ^ 64) (finite : n % signBit < infinity) :
    (ofMagnitude n).toBits.toNat = n := by
  have word : (UInt64.ofNat n).toNat = n := UInt64.toNat_ofNat_of_lt' word
  show (pack Format.binary64 (unpack Format.binary64 (UInt64.ofNat n).toBitVec)).toNat = n
  rw [unpack_eq (b := n % signBit) (by rw [UInt64.toNat_toBitVec, word]) finite, toNat_pack _ finite,
    UInt64.toNat_toBitVec, word, signOf]
  rw [signBit_eq]
  split <;> simp only [signWeight] <;> omega

theorem toNat_toBits_ofMagnitude {b : Nat} (finite : b < infinity) : (ofMagnitude b).toBits.toNat = b := by
  have positive : b < signBit := Nat.lt_trans finite (by decide)
  exact toNat_toBits_of_finite (Nat.lt_trans positive (by decide)) (by rwa [Nat.mod_eq_of_lt positive])

/-- The word of a number is its sign bit and its magnitude. -/
theorem toNat_toBits (x : Float) : x.toBits.toNat = (if isNegative x then signBit else 0) + magnitude x := by
  have word : x.toBits.toNat < 2 ^ 64 := x.toBits.toNat_lt
  simp only [isNegative, magnitude, decide_eq_true_eq]
  split <;>
  · rw [signBit_eq] at *
    omega

theorem toNat_toBits_neg {x : Float} (finite : magnitude x < infinity) :
    (-x).toBits.toNat = (if isNegative x then 0 else signBit) + magnitude x := by
  show (pack Format.binary64 (unpack Format.binary64 x.toBits.toBitVec).neg).toNat = _
  rw [unpack_eq (b := magnitude x) rfl finite, neg_parts, toNat_pack _ finite, UInt64.toNat_toBitVec, signOf]
  simp only [isNegative, decide_eq_true_eq]
  split <;> rfl

/-- The number of a sign and a magnitude. -/
def signed (negative : Bool) (b : Nat) : Float :=
  if negative then -ofMagnitude b else ofMagnitude b

theorem toNat_toBits_signed (negative : Bool) {b : Nat} (finite : b < infinity) :
    (signed negative b).toBits.toNat = (if negative then signBit else 0) + b := by
  have bits := toNat_toBits_ofMagnitude finite
  cases negative with
  | false => simpa [signed] using bits
  | true =>
    have below : b < signBit := Nat.lt_trans finite (by decide)
    have magnitude_eq : magnitude (ofMagnitude b) = b := by rw [magnitude, bits, Nat.mod_eq_of_lt below]
    have positive : isNegative (ofMagnitude b) = false := by
      rw [isNegative, bits]
      exact decide_eq_false (Nat.not_le.mpr below)
    show (-ofMagnitude b).toBits.toNat = _
    rw [toNat_toBits_neg (magnitude_eq.symm ▸ finite), magnitude_eq, positive]
    rfl

/-- The number of a word with the sign bit and a finite magnitude. -/
theorem signed_eq_ofMagnitude (negative : Bool) {b : Nat} (finite : b < infinity) :
    ofMagnitude (if negative then signBit + b else b) = signed negative b := by
  cases negative with
  | false => rfl
  | true =>
    have below : b < signBit := Nat.lt_trans finite (by decide)
    apply eq_of_toBits
    rw [toNat_toBits_signed true finite, if_pos rfl]
    refine toNat_toBits_of_finite (by rw [signBit_eq] at *; omega) ?_
    rwa [Nat.add_mod_left, Nat.mod_eq_of_lt below]

theorem parts_signed (negative : Bool) {b : Nat} (finite : b < infinity) :
    isNegative (signed negative b) = negative ∧ magnitude (signed negative b) = b := by
  have below : b < signBit := Nat.lt_trans finite (by decide)
  rw [isNegative, magnitude, toNat_toBits_signed negative finite]
  cases negative with
  | false => exact ⟨decide_eq_false (by simpa using below), by simp [Nat.mod_eq_of_lt below]⟩
  | true => exact ⟨decide_eq_true (Nat.le_add_right _ _), by simp [Nat.mod_eq_of_lt below]⟩

/-- **A finite number is its sign and its magnitude.** -/
theorem signed_magnitude {x : Float} (finite : magnitude x < infinity) : signed (isNegative x) (magnitude x) = x := by
  apply eq_of_toBits
  rw [toNat_toBits_signed _ finite, toNat_toBits]

end Abacus.Binary64

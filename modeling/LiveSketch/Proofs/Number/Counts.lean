import Mathlib
import LiveSketch.Number.Arithmetic
import LiveSketch.Proofs.Number.Plain

/-!
# Numbers that count

A natural number below `2 ^ 53` is a double, and reading its decimal digits and counting by the result gives
the number again (`toCount_ofDecimal`). Its double is `mantissa * 2 ^ exponent` with a mantissa of 53 bits:
`unpack_pack` says that such a double, and a smaller one, is stored as it is, and `roundWithAccuracy_mul` that
rounding leaves it alone.
-/
namespace LiveSketch.Number

open Float.Model Float.Model.UnpackedFloat

/-! ## Doubles with a full mantissa -/

section

variable {m : Nat} {e : Int}

theorem log2_mul (hl : 2 ^ 52 ≤ m) (hu : m < 2 ^ 53) (j : Nat) : (m * 2 ^ j).log2 = 52 + j := by
  have hpos : 0 < 2 ^ j := Nat.two_pow_pos j
  refine (Nat.log2_eq_iff (Nat.mul_ne_zero (by omega) (by omega))).2 ⟨?_, ?_⟩
  · rw [Nat.pow_add]
    exact Nat.mul_le_mul_right _ hl
  · rw [show 52 + j + 1 = 53 + j by omega, Nat.pow_add]
    exact Nat.mul_lt_mul_of_pos_right hu hpos

theorem getLsbD_append_append (sign : BitVec 1) (exponent : BitVec 11) (mantissa : BitVec 52) :
    (sign ++ exponent ++ mantissa).getLsbD 63 = sign.getLsbD 0 := by
  rw [BitVec.getLsbD_append, BitVec.getLsbD_append]
  rfl

theorem unpackSign_packComponents (sign : Sign) (exponent : BitVec 11) (mantissa : BitVec 52) :
    unpackSign (packComponents .binary64 sign exponent mantissa) = sign.toBitVec := by
  apply BitVec.eq_of_getLsbD_eq
  intro i hi
  obtain rfl : i = 0 := by omega
  rw [unpackSign, BitVec.getLsbD_cast, BitVec.getLsbD_extractLsb,
    ← getLsbD_append_append sign.toBitVec exponent mantissa]
  rfl

/-- A mantissa and an exponent that a double can have, the greatest exponent apart: the mantissa has 53 bits, or
fewer and the exponent is the least. -/
structure Normal (m : Nat) (e : Int) : Prop where
  lt : m < 2 ^ 53
  least : -1074 ≤ e
  full : 2 ^ 52 ≤ m ∨ e = -1074

theorem log2_eq_of_full (hl : 2 ^ 52 ≤ m) (hu : m < 2 ^ 53) : m.log2 + 1 = 53 := by
  have h := log2_mul hl hu 0
  rw [Nat.pow_zero, Nat.mul_one] at h
  omega

theorem ofBitVec_toBitVec (sign : Sign) : Sign.ofBitVec sign.toBitVec = sign := by
  cases sign <;> rfl

/-- What is stored is found again. -/
theorem unpack_pack (hn : Normal m e) (he : e ≤ 971) (hm : 0 < m) (sign : Sign) :
    UnpackedFloat.unpack .binary64 (UnpackedFloat.pack .binary64 (.finite sign m e hm)) =
      .finite sign m e hm := by
  obtain ⟨hu, hleast, hfull⟩ := hn
  have hfits : ¬2 ^ 11 ≤ (e + 1023 + 52).toNat + 1 := by omega
  by_cases hl : 2 ^ 52 ≤ m
  · have hbiased : ((BitVec.ofNat 11 (e + 1023 + 52).toNat).toNat : Int) = e + 1075 := by
      rw [BitVec.toNat_ofNat, Nat.mod_eq_of_lt (by omega)]
      omega
    have hmantissa : (1#1 ++ BitVec.ofNat 52 m).toNat = m := by
      rw [BitVec.toNat_append, ← Nat.shiftLeft_add_eq_or_of_lt (BitVec.isLt _)]
      simp
      omega
    have hne : BitVec.ofNat 11 (e + 1023 + 52).toNat ≠ -1#11 := by
      intro h
      rw [h] at hbiased
      simp at hbiased
      omega
    have hne' : BitVec.ofNat 11 (e + 1023 + 52).toNat ≠ 0#11 := by
      intro h
      rw [h] at hbiased
      simp at hbiased
      omega
    have hpack : UnpackedFloat.pack .binary64 (.finite sign m e hm) =
        packComponents .binary64 sign (BitVec.ofNat 11 (e + 1023 + 52).toNat) (BitVec.ofNat 52 m) := by
      rw [UnpackedFloat.pack]
      exact (if_neg hfits).trans (if_pos (log2_eq_of_full hl hu))
    rw [hpack, UnpackedFloat.unpack]
    simp only [unpackMantissa_packComponents, unpackExponent_packComponents,
      unpackSign_packComponents, ofBitVec_toBitVec, hne, hne', if_false, hmantissa, hbiased]
    congr 1
    simp [Format.exponentBias]
  · -- the mantissa has fewer bits, and the exponent is stored as zero
    obtain rfl : e = -1074 := hfull.resolve_left hl
    have hlog : m.log2 + 1 ≠ 53 := by
      have hlt := (Nat.log2_lt (Nat.ne_of_gt hm)).2 (Nat.lt_of_not_le hl)
      omega
    have hmantissa : (BitVec.ofNat 52 m).toNat = m := by
      rw [BitVec.toNat_ofNat, Nat.mod_eq_of_lt (Nat.lt_of_not_le hl)]
    have hne : BitVec.ofNat 52 m ≠ 0#52 := by
      intro h
      rw [h] at hmantissa
      simp at hmantissa
      omega
    have hpack : UnpackedFloat.pack .binary64 (.finite sign m (-1074) hm) =
        packComponents .binary64 sign 0#11 (BitVec.ofNat 52 m) := by
      rw [UnpackedFloat.pack]
      exact (if_neg hfits).trans (if_neg hlog)
    have hzero : (0#11 : BitVec 11) ≠ -1#11 := by decide
    rw [hpack, UnpackedFloat.unpack]
    simp only [unpackMantissa_packComponents, unpackExponent_packComponents,
      unpackSign_packComponents, ofBitVec_toBitVec, hzero, hne, if_false, if_true, dite_false, hmantissa]
    rfl

/-- Shifting zeros out of a mantissa loses nothing. -/
theorem shiftRight_mul (m j : Nat) :
    (⟨m * 2 ^ j, false, false⟩ : ExtendedMantissa) >>> j = ⟨m, false, false⟩ := by
  change Nat.repeat ExtendedMantissa.shiftRightOne j _ = _
  induction j generalizing m with
  | zero => simp [Nat.repeat]
  | succ j ih =>
    have hm : m * 2 ^ (j + 1) = (2 * m) * 2 ^ j := by
      rw [Nat.pow_succ]
      ac_rfl
    rw [Nat.repeat, hm, ih]
    simp [ExtendedMantissa.shiftRightOne]

theorem shiftToTargetExponent_mul (hl : 2 ^ 52 ≤ m) (hu : m < 2 ^ 53) (he : -1000 ≤ e) (j : Nat) :
    shiftToTargetExponent .binary64 (m * 2 ^ j) (e - j) .exact = (⟨m, false, false⟩, e) := by
  have htarget : Format.binary64.targetExponent (totalExponent (m * 2 ^ j) (e - j)) = e := by
    rw [Format.targetExponent, totalExponent, log2_mul hl hu j]
    simp [Format.mantissaBits, Format.minExponent]
    omega
  have hshift : (e - (e - (j : Int))).toNat = j := by omega
  rw [shiftToTargetExponent, htarget, shiftToExponent]
  simp only [hshift, ExtendedMantissa.ofMantissaAndAccuracy, shiftRight_mul]
  congr 1
  omega

/-- Rounding finds the full mantissa. -/
theorem roundWithAccuracy_mul (hl : 2 ^ 52 ≤ m) (hu : m < 2 ^ 53) (he : -1000 ≤ e) (hm : 0 < m)
    (sign : Sign) (j : Nat) :
    roundWithAccuracy .binary64 sign (m * 2 ^ j) (e - j) .exact = .finite sign m e hm := by
  have hfirst := shiftToTargetExponent_mul hl hu he j
  have hsecond := shiftToTargetExponent_mul hl hu he 0
  have hrounded : (⟨m, false, false⟩ : ExtendedMantissa).roundedMantissa = m := rfl
  simp only [Nat.pow_zero, Nat.mul_one, Int.natCast_zero, Int.sub_zero] at hsecond
  have hne : m ≠ 0 := by omega
  simp only [roundWithAccuracy, hfirst, hrounded, hsecond, hne, dite_false]

end

/-! ## Natural numbers as doubles -/

/-- The double of a natural number: its mantissa is the number, shifted to 53 bits. -/
theorem ofNat_eq {n : Nat} (h0 : 0 < n) (h : n < 2 ^ 53) :
    ∃ k : Nat, k ≤ 52 ∧ ∃ hm : 0 < n * 2 ^ k, 2 ^ 52 ≤ n * 2 ^ k ∧ n * 2 ^ k < 2 ^ 53 ∧
      UnpackedFloat.ofNat .binary64 n = .finite .positive (n * 2 ^ k) (-k) hm := by
  have hlog := (Nat.log2_eq_iff (k := n.log2) (Nat.ne_of_gt h0)).1 rfl
  have hle : n.log2 ≤ 52 := by
    have hlt := (Nat.log2_lt (Nat.ne_of_gt h0)).2 h
    omega
  obtain ⟨k, hk⟩ : ∃ k, n.log2 + k = 52 := ⟨52 - n.log2, by omega⟩
  have hpos : 0 < 2 ^ k := Nat.two_pow_pos k
  have hl : 2 ^ 52 ≤ n * 2 ^ k := by
    rw [← hk, Nat.pow_add]
    exact Nat.mul_le_mul_right _ hlog.1
  have hu : n * 2 ^ k < 2 ^ 53 := by
    rw [show 53 = n.log2 + 1 + k by omega, Nat.pow_add]
    exact Nat.mul_lt_mul_of_pos_right hlog.2 hpos
  have hm : 0 < n * 2 ^ k := by omega
  refine ⟨k, by omega, hm, hl, hu, ?_⟩
  have htarget : Format.binary64.targetExponent (totalExponent n 0) = -(k : Int) := by
    rw [Format.targetExponent, totalExponent]
    simp [Format.mantissaBits, Format.minExponent]
    omega
  have hdecrease : decreaseExponent n 0 (-k) = (n * 2 ^ k, -(k : Int)) := by
    simp [decreaseExponent, Nat.shiftLeft_eq]
  have hround := roundWithAccuracy_mul hl hu (e := -k) (by omega) hm .positive 0
  simp only [Nat.pow_zero, Nat.mul_one, Int.natCast_zero, Int.sub_zero] at hround
  have hcompare : compare (n : Int) 0 = .gt := by
    rw [Int.compare_eq_gt]
    omega
  simp only [UnpackedFloat.ofNat, UnpackedFloat.ofInt, UnpackedFloat.normalize, hcompare,
    UnpackedFloat.round, Int.toNat_natCast, htarget, hdecrease, hround]

/-- Counting by a double that holds the natural number `n`. -/
theorem toCount_of_unpack {n k : Nat} {x : Float} (hn : n < 2 ^ 53) (hm : 0 < n * 2 ^ k)
    (hx : x.toModel.unpack = .finite .positive (n * 2 ^ k) (-k) hm) : toCount x = n := by
  have hfinite : x.isFinite = true := by
    simp only [Float.isFinite, Float.Model.isFinite, hx, UnpackedFloat.isFinite]
  have hpos : 0 < x := by
    have hzero : (0 : Float).toModel.unpack = .zero .positive := rfl
    have hlt : UnpackedFloat.lt (0 : Float).toModel.unpack x.toModel.unpack = true := by
      rw [hzero, hx]
      rfl
    exact decide_eq_true hlt
  have hround : roundToInt .positive (n * 2 ^ k) (-k) = n := by
    have hdecrease : decreaseExponent (n * 2 ^ k) (-k) 0 = (n * 2 ^ k, -(k : Int)) := by
      simp [decreaseExponent]
    have hk : (0 - -(k : Int)).toNat = k := by omega
    simp only [roundToInt, hdecrease, shiftToExponent, hk, ExtendedMantissa.ofMantissaAndAccuracy,
      shiftRight_mul]
    rfl
  have hclamp : (UInt64.ofNatClamp n).toNat = n := by
    have hsize : n < UInt64.size := Nat.lt_trans hn (by decide)
    rw [UInt64.ofNatClamp, dif_pos hsize]
    rfl
  simp only [toCount, hfinite, hpos, Bool.true_and, decide_true, if_true, Float.toUInt64,
    Float.Model.toUInt64, hx, UnpackedFloat.toUInt64, toInt, hround, Int.toNat_natCast, hclamp]

/-- The double of a word that is a small number. -/
theorem unpack_toFloat {n : Nat} (h0 : 0 < n) (h : n < 2 ^ 53) :
    ∃ k : Nat, k ≤ 52 ∧ ∃ hm : 0 < n * 2 ^ k, 2 ^ 52 ≤ n * 2 ^ k ∧ n * 2 ^ k < 2 ^ 53 ∧
      n.toUInt64.toFloat.toModel.unpack = .finite .positive (n * 2 ^ k) (-k) hm := by
  obtain ⟨k, hk, hm, hl, hu, hofNat⟩ := ofNat_eq h0 h
  have hword : n.toUInt64.toNat = n := by
    rw [Nat.toUInt64, UInt64.toNat_ofNat', Nat.mod_eq_of_lt (Nat.lt_trans h (by decide))]
  have hunpack : n.toUInt64.toFloat.toModel.unpack =
      UnpackedFloat.unpack .binary64
        (UnpackedFloat.pack .binary64 (UnpackedFloat.ofNat .binary64 n.toUInt64.toNat)) := rfl
  refine ⟨k, hk, hm, hl, hu, ?_⟩
  rw [hunpack, hword, hofNat]
  exact unpack_pack ⟨hu, by omega, .inl hl⟩ (by omega) hm .positive

/-- A whole number written in decimal is its double: the factor is the power of ten that is one. -/
theorem unpack_ofScientific {n : Nat} (h0 : 0 < n) (h : n < 2 ^ 53) :
    ∃ k : Nat, ∃ hm : 0 < n * 2 ^ k,
      (Float.ofScientific n false 0).toModel.unpack = .finite .positive (n * 2 ^ k) (-k) hm := by
  obtain ⟨k, hk, hm, hl, hu, hfirst⟩ := unpack_toFloat h0 h
  refine ⟨k, hm, ?_⟩
  have hone : Float.exactlyRepresentablePowersOfTen[0].toModel.unpack =
      .finite .positive (1 * 2 ^ 52) (-52) (by decide) := rfl
  have hfast : Float.ofScientific n false 0 =
      n.toUInt64.toFloat * Float.exactlyRepresentablePowersOfTen[0] := dif_pos ⟨h, by decide⟩
  have hproduct : (n.toUInt64.toFloat * Float.exactlyRepresentablePowersOfTen[0]).toModel.unpack =
      UnpackedFloat.unpack .binary64 (UnpackedFloat.pack .binary64
        (UnpackedFloat.mul .binary64 n.toUInt64.toFloat.toModel.unpack
          Float.exactlyRepresentablePowersOfTen[0].toModel.unpack)) := rfl
  have hround := roundWithAccuracy_mul hl hu (e := -k) (by omega) hm .positive 52
  have hsign : Sign.positive * Sign.positive = Sign.positive := rfl
  have hexponent : -(k : Int) + -52 = -k - (52 : Nat) := by omega
  rw [hfast, hproduct, hfirst, hone, UnpackedFloat.mul, Nat.one_mul, hsign, hexponent, hround]
  exact unpack_pack ⟨hu, by omega, .inl hl⟩ (by omega) hm .positive

/-- The digits of a small number count to it. -/
theorem toCount_ofDecimal {n : Nat} (h : n < 2 ^ 53) : toCount (ofDecimal n 0) = n := by
  by_cases h0 : n = 0
  · subst h0
    rfl
  · obtain ⟨k, hm, hx⟩ := unpack_ofScientific (Nat.pos_of_ne_zero h0) h
    have hlength : (Nat.toDigits 10 n).length ≤ 16 :=
      (Nat.length_toDigits_le_iff (by decide) (by decide)).2 (Nat.lt_of_lt_of_le h (by decide))
    have hsmall : ¬((n == 0 || decide (((Nat.toDigits 10 n).length : Int) + 0 < -330)) = true) := by
      simp [h0]
    have hlarge : ¬(311 < ((Nat.toDigits 10 n).length : Int) + 0) := by omega
    have hdecimal : ofDecimal n 0 = Float.ofScientific n false 0 :=
      (if_neg hsmall).trans (if_neg hlarge)
    rw [hdecimal, toCount_of_unpack h hm hx]

/-! ## Digits -/

theorem ofDigits_digitsOf (n : Nat) : ofDigits (digitsOf n) = n := by
  have h : ofDigits (digitsOf n) = Nat.ofDigitChars 10 (Nat.toDigits 10 n) 0 := by
    simp only [ofDigits, digitsOf, Nat.ofDigitChars, Nat.mul_comm 10]
  rw [h, Nat.ofDigitChars_ten_toDigits]

theorem digitsOf_isNumeral (n : Nat) : IsNumeral (digitsOf n) (digitsOf n) [] :=
  ⟨(List.append_nil _).symm, digitsOf_ne_nil n, fun _ => isDigit_of_mem_digitsOf, .inl rfl⟩

/-- Counting by the digits of a small number. -/
theorem toCount_digitsOf {n : Nat} (h : n < 2 ^ 53) : toCount (IsNumeral.value (digitsOf n) []) = n := by
  have hvalue : IsNumeral.value (digitsOf n) [] = ofDecimal n 0 := by
    simp [IsNumeral.value, Numeral.toFloat, ofDigits_digitsOf]
  rw [hvalue, toCount_ofDecimal h]

end LiveSketch.Number

import Mathlib
import LiveSketch.Number.Reading
import LiveSketch.Random.Draw
import LiveSketch.Proofs.Number.Order

/-!
# Signs of doubles

What has no minus sign (`Plus`) keeps none when it is stored, and products, quotients and sums of such numbers
have none either.
-/
namespace LiveSketch.Number

open Float.Model Float.Model.UnpackedFloat

/-- A number without a minus sign, or no number. -/
def Plus : UnpackedFloat → Prop
  | .notANumber => True
  | .infinity s => s = .positive
  | .zero s => s = .positive
  | .finite s _ _ _ => s = .positive

theorem unpackSign_pack {u : UnpackedFloat} (h : Plus u) :
    Sign.ofBitVec (unpackSign (UnpackedFloat.pack .binary64 u)) = .positive := by
  have hcomponents : ∀ (exponent : BitVec 11) (mantissa : BitVec 52),
      Sign.ofBitVec (unpackSign (packComponents .binary64 .positive exponent mantissa)) = .positive := by
    intro exponent mantissa
    rw [unpackSign_packComponents]
    rfl
  cases u with
  | notANumber => exact hcomponents _ _
  | infinity s =>
    cases h
    exact hcomponents _ _
  | zero s =>
    cases h
    exact hcomponents _ _
  | finite s m e hm =>
    cases h
    unfold UnpackedFloat.pack
    dsimp only
    split_ifs <;> exact hcomponents _ _

/-- What is read from bits without a minus sign. -/
theorem plus_unpack {b : BitVec Format.binary64.numBits} (h : Sign.ofBitVec (unpackSign b) = .positive) :
    Plus (UnpackedFloat.unpack .binary64 b) := by
  unfold UnpackedFloat.unpack
  dsimp only
  rw [h]
  split_ifs <;> trivial

theorem plus_pack {u : UnpackedFloat} (h : Plus u) :
    Plus (UnpackedFloat.unpack .binary64 (UnpackedFloat.pack .binary64 u)) := plus_unpack (unpackSign_pack h)

theorem plus_roundWithAccuracy (spec : Format) (m : Nat) (e : Int) (acc : Accuracy) :
    Plus (roundWithAccuracy spec .positive m e acc) := by
  unfold roundWithAccuracy
  dsimp only
  split_ifs <;> rfl

theorem plus_round (spec : Format) (m : Nat) (e : Int) : Plus (UnpackedFloat.round spec .positive m e) :=
  plus_roundWithAccuracy _ _ _ _

theorem plus_normalize (spec : Format) {z : Int} (hz : 0 ≤ z) (e : Int) :
    Plus (UnpackedFloat.normalize spec z e .positive) := by
  rcases Int.lt_or_eq_of_le hz with hz | rfl
  · simp only [UnpackedFloat.normalize, Int.compare_eq_gt.2 hz]
    exact plus_round _ _ _
  · rfl

theorem plus_mul {u v : UnpackedFloat} (hu : Plus u) (hv : Plus v) : Plus (UnpackedFloat.mul .binary64 u v) := by
  cases u <;> cases v <;> cases hu <;> cases hv <;> first | rfl | trivial | exact plus_roundWithAccuracy _ _ _ _

theorem plus_div {u v : UnpackedFloat} (hu : Plus u) (hv : Plus v) : Plus (UnpackedFloat.div .binary64 u v) := by
  cases u <;> cases v <;> cases hu <;> cases hv <;> first | rfl | trivial | exact plus_roundWithAccuracy _ _ _ _

theorem plus_add {u v : UnpackedFloat} (hu : Plus u) (hv : Plus v) : Plus (UnpackedFloat.add .binary64 u v) := by
  cases u <;> cases v <;> cases hu <;> cases hv <;> first | rfl | trivial | skip
  refine plus_normalize _ ?_ _
  exact Int.add_nonneg (Int.natCast_nonneg _) (Int.natCast_nonneg _)

/-! ## Rounding of long mantissas -/

variable {m m₁ m₂ : Nat} {e e₁ e₂ : Int}

/-- The exponent of what a long mantissa is rounded to. -/
def roundedExponent (m : Nat) (e : Int) : Int := max ((m.log2 : Int) + e - 52) (-1074)

theorem le_roundedExponent (h : e ≤ -1074 ∨ 52 ≤ m.log2) : e ≤ roundedExponent m e := by
  unfold roundedExponent
  omega

/-- A long mantissa, rounded to the exponent above. -/
def roundedLong (m : Nat) (e : Int) : Nat := roundHalfEven m (2 ^ (roundedExponent m e - e).toNat)

theorem shiftToTargetExponent_long (h : e ≤ -1074 ∨ 52 ≤ m.log2) :
    shiftToTargetExponent .binary64 m e .exact =
      ((⟨m, false, false⟩ : ExtendedMantissa) >>> (roundedExponent m e - e).toNat, roundedExponent m e) := by
  have htarget : Format.binary64.targetExponent (totalExponent m e) = roundedExponent m e := by
    rw [Format.targetExponent, totalExponent, roundedExponent]
    simp [Format.mantissaBits, Format.minExponent]
    omega
  have hle := le_roundedExponent h
  rw [shiftToTargetExponent, htarget, shiftToExponent]
  simp only [ExtendedMantissa.ofMantissaAndAccuracy]
  congr 1
  omega

theorem roundedLong_le (m : Nat) (e : Int) : roundedLong m e ≤ 2 ^ 53 := by
  have hle : m ≤ 2 ^ 53 * 2 ^ (roundedExponent m e - e).toNat := by
    rw [← Nat.pow_add]
    refine Nat.le_trans (Nat.le_of_lt Nat.lt_log2_self) (Nat.pow_le_pow_right (by decide) ?_)
    unfold roundedExponent
    omega
  have hr := roundHalfEven_mono (2 ^ (roundedExponent m e - e).toNat) hle
  rwa [roundHalfEven_mul _ (Nat.two_pow_pos _)] at hr

theorem le_roundedLong (hm : 0 < m) (h : e ≤ -1074 ∨ 52 ≤ m.log2) (hT : -1074 < roundedExponent m e) :
    2 ^ 52 ≤ roundedLong m e := by
  have hle : 2 ^ 52 * 2 ^ (roundedExponent m e - e).toNat ≤ m := by
    rw [← Nat.pow_add]
    refine Nat.le_trans (Nat.pow_le_pow_right (by decide) ?_) (Nat.log2_self_le (Nat.ne_of_gt hm))
    unfold roundedExponent at hT ⊢
    omega
  have hr := roundHalfEven_mono (2 ^ (roundedExponent m e - e).toNat) hle
  rwa [roundHalfEven_mul _ (Nat.two_pow_pos _)] at hr

/-- Rounding a long mantissa: what is too small becomes zero. -/
theorem roundWithAccuracy_long (hm : 0 < m) (h : e ≤ -1074 ∨ 52 ≤ m.log2) (s : Sign) :
    roundWithAccuracy .binary64 s m e .exact = .zero s ∨
      ∃ m' e', ∃ h' : 0 < m', roundWithAccuracy .binary64 s m e .exact = .finite s m' e' h' ∧ Normal m' e' ∧
        magnitude m' e' = roundedLong m e * 2 ^ (roundedExponent m e + 1074).toNat := by
  have hT : -1074 ≤ roundedExponent m e := Int.le_max_right _ _
  obtain ⟨a, ha⟩ : ∃ a : Nat, roundedExponent m e = a - 1074 := ⟨(roundedExponent m e + 1074).toNat, by omega⟩
  obtain ⟨m', hshift, hlt, hfull, hcarry⟩ := shiftRight_carry (roundedLong_le m e)
  have hround : ((⟨m, false, false⟩ : ExtendedMantissa) >>> (roundedExponent m e - e).toNat).roundedMantissa =
      roundedLong m e := roundedMantissa_shiftRight _ _
  have hvalue : roundWithAccuracy .binary64 s m e .exact =
      if hm' : m' = 0 then .zero s
      else .finite s m' (((excess (roundedLong m e) + a : Nat) : Int) - 1074) (Nat.pos_of_ne_zero hm') := by
    simp only [roundWithAccuracy, shiftToTargetExponent_long h, hround]
    simp only [ha, shiftToTargetExponent_exact, hshift]
  rw [hvalue]
  split_ifs with h0
  · exact .inl rfl
  · have hexponent : (((excess (roundedLong m e) + a : Nat) : Int) - 1074 + 1074).toNat =
        excess (roundedLong m e) + a := by omega
    refine .inr ⟨m', _, Nat.pos_of_ne_zero h0, rfl, ⟨hlt, by omega, ?_⟩, ?_⟩
    · rcases Nat.lt_or_ge 0 a with ha0 | ha0
      · exact .inl (hfull (le_roundedLong hm h (by omega)))
      · by_cases hl : 2 ^ 52 ≤ roundedLong m e
        · exact .inl (hfull hl)
        · have hexcess : excess (roundedLong m e) = 0 := by
            unfold excess
            by_cases hr0 : roundedLong m e = 0
            · rw [hr0]
              rfl
            · have := (Nat.log2_lt hr0).2 (Nat.lt_of_not_le hl)
              omega
          exact .inr (by omega)
    · rw [magnitude, hexponent, Nat.pow_add, ← Nat.mul_assoc, hcarry, ha]
      congr 2
      omega

/-- The product with a factor that is not greater than one is not greater. -/
theorem roundedLong_mul_le (hn : Normal m₁ e₁) (hm : 0 < m₁ * m₂) (he : e₂ ≤ 0) (h : m₂ ≤ 2 ^ (-e₂).toNat) :
    roundedLong (m₁ * m₂) (e₁ + e₂) * 2 ^ (roundedExponent (m₁ * m₂) (e₁ + e₂) + 1074).toNat ≤ magnitude m₁ e₁ := by
  obtain ⟨T, hT⟩ : ∃ T, T = roundedExponent (m₁ * m₂) (e₁ + e₂) := ⟨_, rfl⟩
  have hleast : -1074 ≤ T := hT ▸ Int.le_max_right _ _
  rw [roundedLong, ← hT]
  rcases lt_or_ge e₁ T with hlt | hge
  · -- then the product would have too many bits
    have hlog : (m₁ * m₂).log2 + 1 ≤ 53 + (-e₂).toNat := by
      refine (Nat.log2_lt (Nat.ne_of_gt hm)).2 ?_
      rw [Nat.pow_add]
      exact Nat.mul_lt_mul_of_lt_of_le hn.lt h (Nat.two_pow_pos _)
    have := hn.least
    unfold roundedExponent at hT
    omega
  · have hscaled : m₁ * m₂ ≤ m₁ * 2 ^ (e₁ - T).toNat * 2 ^ (T - (e₁ + e₂)).toNat := by
      rw [Nat.mul_assoc, ← Nat.pow_add]
      exact Nat.mul_le_mul_left _ (Nat.le_trans h (Nat.pow_le_pow_right (by decide) (by omega)))
    have hr := roundHalfEven_mono (2 ^ (T - (e₁ + e₂)).toNat) hscaled
    rw [roundHalfEven_mul _ (Nat.two_pow_pos _)] at hr
    have hsum : (e₁ - T).toNat + (T + 1074).toNat = (e₁ + 1074).toNat := by omega
    calc _ ≤ m₁ * 2 ^ (e₁ - T).toNat * 2 ^ (T + 1074).toNat := Nat.mul_le_mul_right _ hr
      _ = magnitude m₁ e₁ := by rw [magnitude, Nat.mul_assoc, ← Nat.pow_add, hsum]

/-- The mantissas of two doubles make a long one. -/
theorem long_mul (hn₁ : Normal m₁ e₁) (hn₂ : Normal m₂ e₂) (h₁ : 0 < m₁) (h₂ : 0 < m₂) :
    e₁ + e₂ ≤ -1074 ∨ 52 ≤ (m₁ * m₂).log2 := by
  have hne : m₁ * m₂ ≠ 0 := Nat.mul_ne_zero (Nat.ne_of_gt h₁) (Nat.ne_of_gt h₂)
  rcases hn₁.full with hl | he₁
  · exact .inr ((Nat.le_log2 hne).2 (Nat.le_trans hl (Nat.le_mul_of_pos_right m₁ h₂)))
  · rcases hn₂.full with hl | he₂
    · exact .inr ((Nat.le_log2 hne).2 (Nat.le_trans hl (Nat.le_mul_of_pos_left m₂ h₁)))
    · exact .inl (by omega)

/-! ## A number and a part of it -/

/-- A number of at most one has an exponent that is not positive. -/
theorem factor_of_magnitude_le (hm : 0 < m) (h : magnitude m e ≤ magnitude 1 0) (he : -1074 ≤ e) :
    e ≤ 0 ∧ m ≤ 2 ^ (-e).toNat := by
  rw [magnitude, magnitude, Nat.one_mul] at h
  have hle : e ≤ 0 := by
    by_contra hpos
    have hlt : 2 ^ (0 + 1074 : Int).toNat < 2 ^ (e + 1074).toNat := Nat.pow_lt_pow_right (by decide) (by omega)
    exact Nat.lt_irrefl _ (Nat.lt_of_lt_of_le hlt (Nat.le_trans (Nat.le_mul_of_pos_left _ hm) h))
  refine ⟨hle, ?_⟩
  have hsum : (0 + 1074 : Int).toNat = (-e).toNat + (e + 1074).toNat := by omega
  rw [hsum, Nat.pow_add] at h
  exact Nat.le_of_mul_le_mul_right h (Nat.two_pow_pos _)

/-- A part that is taken away leaves no minus sign. -/
theorem plus_sub_part (hn₁ : Normal m₁ e₁) (he₁ : e₁ ≤ 971) (h₁ : 0 < m₁) (hn₂ : Normal m₂ e₂) (h₂ : 0 < m₂)
    (hle : magnitude m₂ e₂ ≤ magnitude 1 0) :
    Plus (UnpackedFloat.add .binary64 (.finite .positive m₁ e₁ h₁) (UnpackedFloat.unpack .binary64
      (UnpackedFloat.pack .binary64 (UnpackedFloat.mul .binary64 (.finite .positive m₁ e₁ h₁)
        (.finite .negative m₂ e₂ h₂))))) := by
  obtain ⟨he₂, hm₂⟩ := factor_of_magnitude_le h₂ hle hn₂.least
  have hpos := Nat.mul_pos h₁ h₂
  have hmul : UnpackedFloat.mul .binary64 (.finite .positive m₁ e₁ h₁) (.finite .negative m₂ e₂ h₂) =
      roundWithAccuracy .binary64 .negative (m₁ * m₂) (e₁ + e₂) .exact := rfl
  rw [hmul]
  rcases roundWithAccuracy_long hpos (long_mul hn₁ hn₂ h₁ h₂) .negative with hz | ⟨m', e', h', hr, hn', hmag⟩
  · rw [hz]
    exact rfl
  · have hpart : magnitude m' e' ≤ magnitude m₁ e₁ := hmag ▸ roundedLong_mul_le hn₁ hpos he₂ hm₂
    have he' : e' ≤ 971 := by
      by_contra h
      have hlarge := le_magnitude hn' (by omega)
      have hsmall := magnitude_lt hn₁ he₁
      omega
    rw [hr, unpack_pack hn' he' h' .negative]
    have hmin : -1074 ≤ min e₁ e' := by
      have := hn₁.least
      have := hn'.least
      omega
    have hdecrease : (decreaseExponent m' e' (min e₁ e')).1 ≤ (decreaseExponent m₁ e₁ (min e₁ e')).1 := by
      refine Nat.le_of_mul_le_mul_right ?_ (Nat.two_pow_pos (min e₁ e' + 1074).toNat)
      rwa [decreaseExponent_magnitude m' hmin (by omega), decreaseExponent_magnitude m₁ hmin (by omega)]
    refine plus_normalize _ ?_ _
    change (0 : Int) ≤ ((decreaseExponent m₁ e₁ (min e₁ e')).1 : Int) + -((decreaseExponent m' e' (min e₁ e')).1 : Int)
    omega

theorem magnitude_one : magnitude (2 ^ 52) (-52) = magnitude 1 0 := by
  have hsum : (0 + 1074 : Int).toNat = 52 + (-52 + 1074 : Int).toNat := rfl
  rw [magnitude, magnitude, hsum, Nat.pow_add, Nat.one_mul]

theorem one_lt_overflow : magnitude 1 0 < overflow := by
  rw [← magnitude_one]
  exact magnitude_lt ⟨by decide, by decide, .inl (Nat.le_refl _)⟩ (by decide)

/-- A number without a minus sign and its product with a factor that is not less than minus one have a sum
without a minus sign. -/
theorem plus_add_mul {u v : UnpackedFloat} (hu : Plus u) (hou : u = .notANumber ∨ Ordered u)
    (hv : v = .notANumber ∨ Ordered v ∧ -(magnitude 1 0 : Int) ≤ units v) :
    Plus (UnpackedFloat.add .binary64 u (UnpackedFloat.unpack .binary64
      (UnpackedFloat.pack .binary64 (UnpackedFloat.mul .binary64 u v)))) := by
  by_cases hplus : Plus v
  · exact plus_add hu (plus_pack (plus_mul hu hplus))
  · have hstored : ∀ {w : UnpackedFloat}, UnpackedFloat.mul .binary64 u v = w →
        UnpackedFloat.unpack .binary64 (UnpackedFloat.pack .binary64 w) = w →
        Plus (UnpackedFloat.add .binary64 u w) → Plus (UnpackedFloat.add .binary64 u (UnpackedFloat.unpack .binary64
          (UnpackedFloat.pack .binary64 (UnpackedFloat.mul .binary64 u v)))) := by
      rintro w rfl hw h
      rwa [hw]
    cases v with
    | notANumber => exact absurd trivial hplus
    | infinity s =>
      cases s with
      | positive => exact absurd rfl hplus
      | negative =>
        rcases hv with hv | ⟨-, hle⟩
        · cases hv
        · have hlt := one_lt_overflow
          change -(magnitude 1 0 : Int) ≤ -(overflow : Int) at hle
          omega
    | zero s =>
      cases s with
      | positive => exact absurd rfl hplus
      | negative =>
        cases u with
        | notANumber => exact hstored (w := .notANumber) rfl rfl trivial
        | infinity s => exact hstored (w := .notANumber) rfl rfl trivial
        | zero s =>
          cases hu
          exact hstored (w := .zero .negative) rfl rfl rfl
        | finite s m e h =>
          cases hu
          exact hstored (w := .zero .negative) rfl rfl rfl
    | finite s m e hm =>
      cases s with
      | positive => exact absurd rfl hplus
      | negative =>
        rcases hv with hv | ⟨hov, hle⟩
        · cases hv
        · change -(magnitude 1 0 : Int) ≤ -(magnitude m e : Int) at hle
          cases u with
          | notANumber => exact hstored (w := .notANumber) rfl rfl trivial
          | infinity s =>
            cases hu
            exact hstored (w := .infinity .negative) rfl rfl trivial
          | zero s =>
            cases hu
            exact hstored (w := .zero .negative) rfl rfl rfl
          | finite s m₁ e₁ h₁ =>
            cases hu
            rcases hou with hou | hou
            · cases hou
            · exact plus_sub_part hou.1 hou.2 h₁ hov.1 hm (by omega)

/-! ## Bits -/

theorem toNat_unpackExponent (b : UInt64) :
    (@unpackExponent .binary64 b.toBitVec).toNat = b.toNat / 2 ^ 52 % 2 ^ 11 := by
  rw [unpackExponent, BitVec.toNat_cast, BitVec.extractLsb_toNat, Nat.shiftRight_eq_div_pow]
  rfl

theorem toNat_unpackSign (b : UInt64) :
    (@unpackSign .binary64 b.toBitVec).toNat = b.toNat / 2 ^ 63 % 2 ^ 1 := by
  rw [unpackSign, BitVec.toNat_cast, BitVec.extractLsb_toNat, Nat.shiftRight_eq_div_pow]
  rfl

theorem toNat_exponentBits (b : UInt64) : ((b >>> 52) &&& 0x7FF).toNat = b.toNat / 2 ^ 52 % 2 ^ 11 := by
  rw [UInt64.toNat_and, UInt64.toNat_shiftRight]
  exact (Nat.and_two_pow_sub_one_eq_mod _ 11).trans (by rw [Nat.shiftRight_eq_div_pow]; rfl)

theorem toNat_signBit (b : UInt64) : (b >>> 63).toNat = b.toNat / 2 ^ 63 % 2 ^ 1 := by
  have hlt := b.toNat_lt
  rw [UInt64.toNat_shiftRight]
  change b.toNat >>> 63 = _
  rw [Nat.shiftRight_eq_div_pow]
  omega

/-- The sign bit of a finite number without a minus sign. -/
theorem sign_of_plus {b : BitVec Format.binary64.numBits} (h : Plus (UnpackedFloat.unpack .binary64 b))
    (he : (unpackExponent b).toNat ≠ 0x7FF) : unpackSign b = 0#1 := by
  have hsign : Sign.ofBitVec (unpackSign b) = .positive := by
    unfold UnpackedFloat.unpack at h
    dsimp only at h
    split_ifs at h with hones
    · exact absurd (by rw [hones]; rfl) he
    · exact absurd (by rw [hones]; rfl) he
    · exact h
    · exact h
    · exact h
  by_contra hne
  rw [Sign.ofBitVec, if_neg hne] at hsign
  cases hsign

/-- A number without a minus sign is written without one. -/
theorem ofFloat?_negative {x : Float} {b : Binary} (h : Binary.ofFloat? x = some b) (hx : Plus x.toModel.unpack) :
    b.negative = false := by
  have hbits : UnpackedFloat.unpack .binary64 x.toBits.toBitVec = x.toModel.unpack := rfl
  by_cases he : ((x.toBits >>> 52) &&& 0x7FF).toNat = 0x7FF
  · simp [Binary.ofFloat?, he] at h
  · have hexponent : (@unpackExponent .binary64 x.toBits.toBitVec).toNat ≠ 0x7FF := by
      rwa [toNat_unpackExponent, ← toNat_exponentBits]
    have htop : (x.toBits >>> 63).toNat = 0 := by
      rw [toNat_signBit, ← toNat_unpackSign, sign_of_plus (hbits ▸ hx) hexponent]
      rfl
    have hzero : (x.toBits >>> 63 == 1) = false := by
      refine beq_eq_false_iff_ne.2 fun h1 => ?_
      rw [h1] at htop
      cases htop
    unfold Binary.ofFloat? at h
    simp only [beq_iff_eq, he, if_false, hzero] at h
    split at h <;> cases h <;> rfl

/-! ## Drawn parts -/

/-- A number without a minus sign, less one. -/
theorem units_sub_one {u : UnpackedFloat} (hu : Plus u) (hou : u = .notANumber ∨ Ordered u) :
    let v := UnpackedFloat.unpack .binary64 (UnpackedFloat.pack .binary64
      (UnpackedFloat.add .binary64 u (.finite .negative (2 ^ 52) (-52) (by decide))))
    v = .notANumber ∨ Ordered v ∧ -(magnitude 1 0 : Int) ≤ units v := by
  have hone : Ordered (.finite .negative (2 ^ 52) (-52) (by decide)) :=
    ⟨⟨by decide, by decide, .inl (Nat.le_refl _)⟩, by decide⟩
  have hunits : units (.finite .negative (2 ^ 52) (-52) (by decide)) = -(magnitude 1 0 : Int) := by
    rw [← magnitude_one]
    rfl
  cases u with
  | notANumber => exact .inl rfl
  | infinity s =>
    cases hu
    refine .inr ⟨trivial, ?_⟩
    change -(magnitude 1 0 : Int) ≤ (overflow : Int)
    omega
  | zero s =>
    cases hu
    refine .inr ?_
    have hadd : UnpackedFloat.add .binary64 (.zero .positive) (.finite .negative (2 ^ 52) (-52) (by decide)) =
        .finite .negative (2 ^ 52) (-52) (by decide) := rfl
    rw [hadd, unpack_pack_of_ordered hone rfl]
    exact ⟨hone, Int.le_of_eq hunits.symm⟩
  | finite s m e h =>
    cases hu
    rcases hou with hou | hou
    · cases hou
    · have hmin : -1074 ≤ min e (-52) := by
        have := hou.1.least
        omega
      have hscaled : (((decreaseExponent m e (min e (-52))).1 : Int) +
            -((decreaseExponent (2 ^ 52) (-52) (min e (-52))).1 : Int)) * (2 ^ (min e (-52) + 1074).toNat : Nat) =
          (magnitude m e : Int) + -(magnitude 1 0 : Int) := by
        rw [Int.add_mul, Int.neg_mul, ← Int.natCast_mul, ← Int.natCast_mul,
          decreaseExponent_magnitude m hmin (by omega), decreaseExponent_magnitude (2 ^ 52) hmin (by omega),
          magnitude_one]
      have hn := units_normalize (((decreaseExponent m e (min e (-52))).1 : Int) +
            -((decreaseExponent (2 ^ 52) (-52) (min e (-52))).1 : Int)) hmin
      rw [hscaled] at hn
      refine .inr ⟨hn.1, ?_⟩
      have hr := rounded_mono (show -(magnitude 1 0 : Int) ≤ (magnitude m e : Int) + -(magnitude 1 0 : Int) by omega)
      rw [← hunits, rounded_units hone rfl, hunits] at hr
      exact Int.le_trans hr (Int.le_of_eq hn.2.symm)

/-- The bits of a number from one to two. -/
theorem unpack_unitBits (w : UInt64) : ∃ m, ∃ h : 0 < m,
    UnpackedFloat.unpack .binary64 ((w >>> 12) ||| 0x3FF0000000000000).toBitVec = .finite .positive m (-52) h ∧
      2 ^ 52 ≤ m ∧ m < 2 ^ 53 := by
  obtain ⟨b, hb⟩ : ∃ b, b = (w >>> 12) ||| 0x3FF0000000000000 := ⟨_, rfl⟩
  have hlt := w.toNat_lt
  have hvalue : b.toNat = 1023 * 2 ^ 52 + w.toNat / 2 ^ 12 := by
    have hshift : (w >>> 12).toNat = w.toNat / 2 ^ 12 := by
      rw [UInt64.toNat_shiftRight]
      exact Nat.shiftRight_eq_div_pow _ _
    have hsmall : w.toNat / 2 ^ 12 < 2 ^ 52 := by omega
    have hor := Nat.shiftLeft_add_eq_or_of_lt hsmall 1023
    rw [hb, UInt64.toNat_or, hshift, Nat.lor_comm]
    exact hor.symm
  have hexponent : (@unpackExponent .binary64 b.toBitVec).toNat = 1023 := by
    rw [toNat_unpackExponent, hvalue]
    omega
  have hsign : @unpackSign .binary64 b.toBitVec = 0#1 := by
    refine BitVec.eq_of_toNat_eq ?_
    rw [toNat_unpackSign, hvalue, BitVec.toNat_ofNat]
    omega
  have hmantissa : (@unpackMantissa .binary64 b.toBitVec).toNat < 2 ^ 52 := BitVec.isLt _
  have hfull : (1#1 ++ @unpackMantissa .binary64 b.toBitVec).toNat =
      2 ^ 52 + (@unpackMantissa .binary64 b.toBitVec).toNat := by
    rw [BitVec.toNat_append, ← Nat.shiftLeft_add_eq_or_of_lt (BitVec.isLt _)]
    rfl
  have hones : @unpackExponent .binary64 b.toBitVec ≠ -1#11 := fun h => by
    rw [h] at hexponent
    exact absurd hexponent (by decide)
  have hzeros : @unpackExponent .binary64 b.toBitVec ≠ 0#11 := fun h => by
    rw [h] at hexponent
    exact absurd hexponent (by decide)
  refine ⟨(1#1 ++ @unpackMantissa .binary64 b.toBitVec).toNat, by omega, ?_, by omega, by omega⟩
  rw [← hb]
  unfold UnpackedFloat.unpack
  dsimp only
  rw [if_neg hones, if_neg hzeros, hsign, hexponent]
  rfl

/-- What is left of a number from one to two when one is taken away. -/
theorem plus_unit (g : Random.Generator) : Plus g.unit.1.toModel.unpack := by
  obtain ⟨m, h, hbits, hl, hu⟩ := unpack_unitBits g.doubleWord.1
  have hstored : (Float.ofBits ((g.doubleWord.1 >>> 12) ||| 0x3FF0000000000000)).toModel.unpack =
      .finite .positive m (-52) h := by
    have hread : (Float.ofBits ((g.doubleWord.1 >>> 12) ||| 0x3FF0000000000000)).toModel.unpack =
        UnpackedFloat.unpack .binary64 (UnpackedFloat.pack .binary64 (UnpackedFloat.unpack .binary64
          ((g.doubleWord.1 >>> 12) ||| 0x3FF0000000000000).toBitVec)) := rfl
    rw [hread, hbits]
    exact unpack_pack ⟨hu, by decide, .inl hl⟩ (by decide) h .positive
  have hone : (1.0 : Float).toModel.unpack = .finite .positive (2 ^ 52) (-52) (by decide) := rfl
  have hunit : g.unit.1.toModel.unpack = UnpackedFloat.unpack .binary64 (UnpackedFloat.pack .binary64
      (UnpackedFloat.sub .binary64 (.finite .positive m (-52) h)
        (.finite .positive (2 ^ 52) (-52) (by decide)))) := by
    rw [← hstored, ← hone]
    rfl
  rw [hunit]
  refine plus_pack (plus_normalize _ ?_ _)
  have hsame : ∀ n : Nat, (decreaseExponent n (-52) (min (-52) (-52))).1 = n := fun n => by simp [decreaseExponent]
  change (0 : Int) ≤ ((decreaseExponent m (-52) (min (-52) (-52))).1 : Int) -
    ((decreaseExponent (2 ^ 52) (-52) (min (-52) (-52))).1 : Int)
  rw [hsame, hsame]
  omega

/-- The sum of a number without a minus sign and a part of it that is drawn. -/
theorem plus_jitter {x : Float} (hx : Plus x.toModel.unpack) (g : Random.Generator) :
    Plus (x + x * g.jitter.1).toModel.unpack := by
  have hread : ∀ y : Float, y.toModel.unpack = .notANumber ∨ Ordered y.toModel.unpack := fun y => by
    by_cases hy : y.toModel.unpack = .notANumber
    · exact .inl hy
    · exact .inr (unpack_ordered _ hy)
  have hfactor : Plus (Float.ofBits 0x4000000000000001).toModel.unpack := rfl
  have hproduct : Plus (g.unit.1 * Float.ofBits 0x4000000000000001).toModel.unpack :=
    plus_pack (plus_mul (plus_unit g) hfactor)
  have hone : (-1.0 : Float).toModel.unpack = .finite .negative (2 ^ 52) (-52) (by decide) := rfl
  have hjitter := units_sub_one hproduct (hread _)
  rw [← hone] at hjitter
  exact plus_pack (plus_add_mul hx (hread x) hjitter)

/-! ## Numbers that are read -/

theorem plus_ofScientific (m : Nat) (e : Int) : Plus (UnpackedFloat.ofScientific .binary64 m e) := by
  unfold UnpackedFloat.ofScientific
  split_ifs
  · rfl
  · rfl
  · rfl
  · exact plus_mul rfl rfl
  · exact plus_div rfl rfl

theorem plus_powerOfTen (e : Fin 23) : Plus (Float.exactlyRepresentablePowersOfTen[e]).toModel.unpack := by
  fin_cases e <;> rfl

theorem plus_decimal (m : Nat) (below : Bool) (e : Nat) : Plus (Float.ofScientific m below e).toModel.unpack := by
  have hword : Plus m.toUInt64.toFloat.toModel.unpack := plus_pack (plus_normalize _ (Int.natCast_nonneg _) _)
  unfold Float.ofScientific
  dsimp only
  split_ifs with h hbelow hbelow
  · exact plus_pack (plus_div hword (plus_powerOfTen ⟨e, by omega⟩))
  · exact plus_pack (plus_mul hword (plus_powerOfTen ⟨e, by omega⟩))
  · exact plus_pack (plus_ofScientific _ _)
  · exact plus_pack (plus_ofScientific _ _)

theorem plus_ofDecimal (m : Nat) (e : Int) : Plus (ofDecimal m e).toModel.unpack := by
  unfold ofDecimal
  dsimp only
  split_ifs
  · exact plus_decimal 0 true 1
  · exact rfl
  · exact plus_decimal _ _ _

theorem plus_readUnsigned? {s : List Char} {x : Float} (h : readUnsigned? s = some x) : Plus x.toModel.unpack := by
  unfold readUnsigned? at h
  split at h
  · cases h
    exact rfl
  · cases h
    exact rfl
  · cases h
    exact trivial
  · obtain ⟨n, -, rfl⟩ := Option.map_eq_some_iff.1 h
    exact plus_ofDecimal _ _

/-- A number that is written without a minus sign. -/
theorem plus_read? {s : List Char} {x : Float} (h : read? s = some x) (hs : s.head? ≠ some '-') :
    Plus x.toModel.unpack := by
  unfold read? at h
  split at h
  · exact absurd rfl hs
  · exact plus_readUnsigned? h
  · exact plus_readUnsigned? h

end LiveSketch.Number

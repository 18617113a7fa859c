import LiveSketch.Number.Scalar
import LiveSketch.Proofs.Number.Signs

/-!
# Rounding and clamping doubles

A double that is no NaN is rounded between the natural numbers that it lies between (`le_toNearest`, `toNearest_le`) and
is clamped into its range (`clamp_mem`). A NaN is clamped to itself and rounded to zero.

The time between two readings of a clock is the difference of two doubles. Readings may be infinite: the time since an
earlier reading is not below what the time since a later one is not below (`not_sub_lt`).
-/
namespace LiveSketch.Number

open Float.Model Float.Model.UnpackedFloat

/-! ## The exact number behind a double -/

theorem toNat_unpackMantissa (b : UInt64) : (@unpackMantissa .binary64 b.toBitVec).toNat = b.toNat % 2 ^ 52 := by
  rw [unpackMantissa, BitVec.toNat_cast, BitVec.extractLsb_toNat, Nat.shiftRight_zero]
  rfl

theorem toNat_fractionBits (b : UInt64) : (b &&& 0xFFFFFFFFFFFFF).toNat = b.toNat % 2 ^ 52 := by
  rw [UInt64.toNat_and]
  exact Nat.and_two_pow_sub_one_eq_mod _ 52

/-- The sign that bits stand for. -/
def signOf (b : UInt64) : Sign := if b >>> 63 == 1 then .negative else .positive

theorem ofBitVec_unpackSign (b : UInt64) : Sign.ofBitVec (@unpackSign .binary64 b.toBitVec) = signOf b := by
  have hsign := (toNat_unpackSign b).trans (toNat_signBit b).symm
  unfold signOf
  by_cases h : b >>> 63 = 1
  · rw [h] at hsign
    have h1 : @unpackSign .binary64 b.toBitVec = 1#1 := BitVec.eq_of_toNat_eq hsign
    rw [h1, h]
    rfl
  · have h0 : @unpackSign .binary64 b.toBitVec = 0#1 := by
      refine BitVec.eq_of_toNat_eq ?_
      have hlt : (@unpackSign .binary64 b.toBitVec).toNat < 2 := (unpackSign _).isLt
      have hne : (b >>> 63).toNat ≠ 1 := fun h1 => h (UInt64.toNat_inj.1 h1)
      change _ = 0
      omega
    rw [h0, beq_eq_false_iff_ne.2 h]
    rfl

section

variable {b : UInt64}

theorem unpack_greatest (h : ((b >>> 52) &&& 0x7FF).toNat = 0x7FF) :
    UnpackedFloat.unpack .binary64 b.toBitVec = .notANumber ∨
      UnpackedFloat.unpack .binary64 b.toBitVec = .infinity (signOf b) := by
  have hones : @unpackExponent .binary64 b.toBitVec = -BitVec.ofNat Format.binary64.exponentBits 1 :=
    BitVec.eq_of_toNat_eq (((toNat_unpackExponent b).trans (toNat_exponentBits b).symm).trans h)
  unfold UnpackedFloat.unpack
  dsimp only
  rw [if_pos hones, ofBitVec_unpackSign]
  split_ifs
  · exact .inr rfl
  · exact .inl rfl

theorem units_unpack_least (h : ((b >>> 52) &&& 0x7FF).toNat = 0) :
    (UnpackedFloat.unpack .binary64 b.toBitVec).isFinite ∧ units (UnpackedFloat.unpack .binary64 b.toBitVec) =
      (signOf b).apply (magnitude (b &&& 0xFFFFFFFFFFFFF).toNat (-1074)) := by
  have hzeros : @unpackExponent .binary64 b.toBitVec = BitVec.ofNat Format.binary64.exponentBits 0 :=
    BitVec.eq_of_toNat_eq (((toNat_unpackExponent b).trans (toNat_exponentBits b).symm).trans h)
  have hmantissa := (toNat_unpackMantissa b).trans (toNat_fractionBits b).symm
  unfold UnpackedFloat.unpack
  dsimp only
  rw [hzeros, if_neg (by decide), if_pos rfl, ofBitVec_unpackSign, ← hmantissa]
  split_ifs with hzero
  · rw [hzero]
    cases signOf b <;> exact ⟨rfl, rfl⟩
  · exact ⟨rfl, rfl⟩

theorem units_unpack_full (hmin : ((b >>> 52) &&& 0x7FF).toNat ≠ 0) (hmax : ((b >>> 52) &&& 0x7FF).toNat ≠ 0x7FF) :
    (UnpackedFloat.unpack .binary64 b.toBitVec).isFinite ∧ units (UnpackedFloat.unpack .binary64 b.toBitVec) =
      (signOf b).apply (magnitude (0x10000000000000 + (b &&& 0xFFFFFFFFFFFFF).toNat)
        ((((b >>> 52) &&& 0x7FF).toNat : Int) - 1075)) := by
  have hexponent := (toNat_unpackExponent b).trans (toNat_exponentBits b).symm
  have hmantissa := (toNat_unpackMantissa b).trans (toNat_fractionBits b).symm
  have hones : @unpackExponent .binary64 b.toBitVec ≠ -BitVec.ofNat Format.binary64.exponentBits 1 :=
    fun h => hmax (hexponent.symm.trans (by rw [h]; rfl))
  have hzeros : @unpackExponent .binary64 b.toBitVec ≠ BitVec.ofNat Format.binary64.exponentBits 0 :=
    fun h => hmin (hexponent.symm.trans (by rw [h]; rfl))
  have hfull : (1#1 ++ @unpackMantissa .binary64 b.toBitVec).toNat =
      0x10000000000000 + (@unpackMantissa .binary64 b.toBitVec).toNat := by
    rw [BitVec.toNat_append, ← Nat.shiftLeft_add_eq_or_of_lt (BitVec.isLt _)]
    rfl
  unfold UnpackedFloat.unpack
  dsimp only
  rw [if_neg hones, if_neg hzeros, ofBitVec_unpackSign, ← hmantissa, ← hexponent, ← hfull]
  exact ⟨rfl, rfl⟩

end

/-- What a double is: an exact number, whose units are those of the double, an infinity or a NaN. -/
theorem ofFloat?_cases (x : Float) :
    (∃ b, Binary.ofFloat? x = some b ∧ x.isFinite ∧ -1074 ≤ b.exponent ∧ units x.toModel.unpack =
        (if b.negative then Sign.negative else .positive).apply (magnitude b.mantissa b.exponent)) ∨
      (Binary.ofFloat? x = none ∧ (x.toModel.unpack = .notANumber ∨ ∃ s, x.toModel.unpack = .infinity s)) := by
  have hunpack : x.toModel.unpack = UnpackedFloat.unpack .binary64 x.toBits.toBitVec := rfl
  have hfinite : x.isFinite = x.toModel.unpack.isFinite := rfl
  rw [hfinite, hunpack]
  unfold Binary.ofFloat?
  by_cases hmax : ((x.toBits >>> 52) &&& 0x7FF).toNat = 0x7FF
  · simp only [hmax, beq_self_eq_true, if_true]
    exact .inr ⟨trivial, (unpack_greatest hmax).imp_right fun h => ⟨_, h⟩⟩
  · by_cases hmin : ((x.toBits >>> 52) &&& 0x7FF).toNat = 0
    · obtain ⟨hf, hu⟩ := units_unpack_least hmin
      simp only [hmin, Nat.reduceBEq, Bool.false_eq_true, if_false, beq_self_eq_true, if_true]
      exact .inl ⟨_, rfl, hf, Int.le_refl _, hu⟩
    · obtain ⟨hf, hu⟩ := units_unpack_full hmin hmax
      simp only [beq_eq_false_iff_ne.2 hmax, beq_eq_false_iff_ne.2 hmin, Bool.false_eq_true, if_false]
      refine .inl ⟨_, rfl, hf, ?_, hu⟩
      dsimp only
      omega

/-! ## Comparisons -/

section

variable {x y : Float}

theorem ordered_of_not_isNaN (h : x.isNaN = false) : Ordered x.toModel.unpack :=
  unpack_ordered _ fun hn => by
    have hx : x.toModel.unpack.isNaN = false := h
    rw [Float.Model.unpack, hn] at hx
    cases hx

theorem lt_iff_unpack (x y : Float) : x < y ↔ UnpackedFloat.lt x.toModel.unpack y.toModel.unpack = true :=
  decide_eq_true_iff

theorem lt_iff (hx : Ordered x.toModel.unpack) (hy : Ordered y.toModel.unpack) :
    x < y ↔ units x.toModel.unpack < units y.toModel.unpack := by
  rw [lt_iff_unpack, UnpackedFloat.lt, compare_eq hx hy, beq_iff_eq, Option.some.injEq, Int.compare_eq_lt]

theorem unpack_of_isNaN (h : x.isNaN) : x.toModel.unpack = .notANumber := by
  have hx : x.toModel.unpack.isNaN = true := h
  cases hu : x.toModel.unpack with
  | notANumber => rfl
  | _ => rw [hu] at hx; cases hx

/-- A NaN is not less than a number. -/
theorem not_lt_of_isNaN_left (h : x.isNaN) (y : Float) : ¬x < y := by
  rw [lt_iff_unpack, unpack_of_isNaN h]
  exact Bool.false_ne_true

/-- No number is less than a NaN. -/
theorem not_lt_of_isNaN_right (x : Float) (h : y.isNaN) : ¬x < y := by
  rw [lt_iff_unpack, unpack_of_isNaN h]
  cases x.toModel.unpack <;> exact Bool.false_ne_true

/-- No number is at most a NaN. -/
theorem not_le_of_isNaN_right (x : Float) (h : y.isNaN) : ¬x ≤ y := by
  have hle : x ≤ y ↔ UnpackedFloat.le x.toModel.unpack y.toModel.unpack = true := decide_eq_true_iff
  rw [hle, unpack_of_isNaN h]
  cases x.toModel.unpack <;> exact Bool.false_ne_true

/-- A NaN is not at most a number. -/
theorem not_le_of_isNaN_left (h : x.isNaN) (y : Float) : ¬x ≤ y := by
  have hle : x ≤ y ↔ UnpackedFloat.le x.toModel.unpack y.toModel.unpack = true := decide_eq_true_iff
  rw [hle, unpack_of_isNaN h]
  exact Bool.false_ne_true

theorem ordered_of_le (h : x ≤ y) : Ordered x.toModel.unpack ∧ Ordered y.toModel.unpack :=
  ⟨ordered_of_not_isNaN (Bool.eq_false_iff.2 fun hn => not_le_of_isNaN_left hn y h),
    ordered_of_not_isNaN (Bool.eq_false_iff.2 fun hn => not_le_of_isNaN_right x hn h)⟩

theorem ordered_of_lt (h : x < y) : Ordered x.toModel.unpack ∧ Ordered y.toModel.unpack :=
  ⟨ordered_of_not_isNaN (Bool.eq_false_iff.2 fun hn => not_lt_of_isNaN_left hn y h),
    ordered_of_not_isNaN (Bool.eq_false_iff.2 fun hn => not_lt_of_isNaN_right x hn h)⟩

theorem le_of_le_of_le {z : Float} (h : x ≤ y) (h' : y ≤ z) : x ≤ z := by
  obtain ⟨hx, hy⟩ := ordered_of_le h
  obtain ⟨-, hz⟩ := ordered_of_le h'
  exact (le_iff hx hz).2 (Int.le_trans ((le_iff hx hy).1 h) ((le_iff hy hz).1 h'))

theorem lt_of_le_of_less {z : Float} (h : x ≤ y) (h' : y < z) : x < z := by
  obtain ⟨hx, hy⟩ := ordered_of_le h
  obtain ⟨-, hz⟩ := ordered_of_lt h'
  exact (lt_iff hx hz).2 (Int.lt_of_le_of_lt ((le_iff hx hy).1 h) ((lt_iff hy hz).1 h'))

theorem le_of_lt_of_ordered (hx : Ordered x.toModel.unpack) (h : x < y) : x ≤ y := by
  have hy : y.isNaN = false := Bool.eq_false_iff.2 fun hn => not_lt_of_isNaN_right x hn h
  have hyo := ordered_of_not_isNaN hy
  exact (le_iff hx hyo).2 ((lt_iff hx hyo).1 h).le

end

/-! ## Rounding to the nearest natural number -/

/-- Rounding an exact number is rounding its units. -/
theorem roundHalfUp_eq {e : Int} (m : Nat) (he : -1074 ≤ e) :
    roundHalfUp m e = (2 * magnitude m e + magnitude 1 0) / (2 * magnitude 1 0) := by
  unfold roundHalfUp magnitude
  rw [Nat.one_mul]
  by_cases h : 0 ≤ e
  · have hexponent : (e + 1074).toNat = e.toNat + (0 + 1074 : Int).toNat := by omega
    rw [if_pos h, hexponent]
    generalize (0 + 1074 : Int).toNat = k
    have hunits : 2 * (m * 2 ^ (e.toNat + k)) + 2 ^ k = (2 * (m * 2 ^ e.toNat) + 1) * 2 ^ k := by ring
    rw [hunits, Nat.mul_div_mul_right _ _ (Nat.two_pow_pos k), Nat.shiftLeft_eq]
    omega
  · have hexponent : (0 + 1074 : Int).toNat = (-e).toNat + (e + 1074).toNat := by omega
    rw [if_neg h, hexponent]
    generalize (e + 1074).toNat = k
    have hunits : 2 * (m * 2 ^ k) + 2 ^ ((-e).toNat + k) = (2 * m + 2 ^ (-e).toNat) * 2 ^ k := by ring
    have hwhole : 2 * 2 ^ ((-e).toNat + k) = 2 ^ ((-e).toNat + 1) * 2 ^ k := by ring
    rw [hunits, hwhole, Nat.mul_div_mul_right _ _ (Nat.two_pow_pos k)]
    rfl

theorem magnitude_zero (n : Nat) : magnitude n 0 = n * magnitude 1 0 := by
  rw [magnitude, magnitude, Nat.one_mul]

theorem le_roundHalfUp {n m : Nat} {e : Int} (he : -1074 ≤ e) (h : magnitude n 0 ≤ magnitude m e) :
    n ≤ roundHalfUp m e := by
  have hpos : 0 < magnitude 1 0 := magnitude_pos 0 Nat.one_pos
  rw [magnitude_zero] at h
  rw [roundHalfUp_eq m he, Nat.le_div_iff_mul_le (by omega)]
  calc n * (2 * magnitude 1 0) = 2 * (n * magnitude 1 0) := by ring
    _ ≤ 2 * magnitude m e + magnitude 1 0 := by omega

theorem roundHalfUp_le {n m : Nat} {e : Int} (he : -1074 ≤ e) (h : magnitude m e ≤ magnitude n 0) :
    roundHalfUp m e ≤ n := by
  have hpos : 0 < magnitude 1 0 := magnitude_pos 0 Nat.one_pos
  rw [magnitude_zero] at h
  rw [roundHalfUp_eq m he, ← Nat.lt_succ_iff, Nat.div_lt_iff_lt_mul (by omega)]
  calc 2 * magnitude m e + magnitude 1 0 < 2 * (n * magnitude 1 0) + 2 * magnitude 1 0 := by omega
    _ = (n + 1) * (2 * magnitude 1 0) := by ring

theorem eq_zero_of_magnitude {n : Nat} (h : (magnitude n 0 : Int) ≤ 0) : n = 0 := by
  by_contra hn
  have hpos := magnitude_pos 0 (Nat.pos_of_ne_zero hn)
  omega

theorem wordMax_lt_overflow : magnitude wordMax 0 < overflow := by decide +kernel

theorem toNearest_of_isNaN {x : Float} (h : x.isNaN) : toNearest x = 0 := by
  have hu := unpack_of_isNaN h
  unfold toNearest
  rcases ofFloat?_cases x with ⟨b, -, hf, -, -⟩ | ⟨hb, -⟩
  · have hfinite : x.toModel.unpack.isFinite := hf
    rw [hu] at hfinite
    cases hfinite
  · rw [hb]
    exact if_neg (not_lt_of_isNaN_right 0 h)

/-- A double between natural numbers is rounded between them. -/
theorem toNearest_mem {x : Float} {low high : Nat} (hmax : high ≤ wordMax)
    (hl : (magnitude low 0 : Int) ≤ units x.toModel.unpack) (hh : units x.toModel.unpack ≤ magnitude high 0) :
    low ≤ toNearest x ∧ toNearest x ≤ high := by
  rcases ofFloat?_cases x with ⟨b, hb, -, hb0, hu⟩ | ⟨-, hu | ⟨s, hu⟩⟩
  · have hle : low ≤ high := (magnitude_strictMono 0).le_iff_le.1 (hl.trans hh)
    unfold toNearest
    rw [hb]
    rw [hu] at hl hh
    dsimp only
    cases hneg : b.negative with
    | false =>
      rw [hneg] at hl hh
      exact ⟨le_min (le_roundHalfUp hb0 (Int.ofNat_le.1 hl)) (hle.trans hmax),
        (min_le_left _ _).trans (roundHalfUp_le hb0 (Int.ofNat_le.1 hh))⟩
    | true =>
      rw [hneg] at hl
      have h : (magnitude low 0 : Int) ≤ -(magnitude b.mantissa b.exponent : Int) := hl
      exact ⟨(eq_zero_of_magnitude (by omega)).le, Nat.zero_le _⟩
  · -- a NaN has no units
    rw [toNearest_of_isNaN (show x.toModel.unpack.isNaN = true by rw [hu]; rfl)]
    rw [hu] at hl
    exact ⟨(eq_zero_of_magnitude hl).le, Nat.zero_le _⟩
  · exfalso
    have hpos := overflow_pos
    have hlt := wordMax_lt_overflow
    have hle : magnitude high 0 ≤ magnitude wordMax 0 := Nat.mul_le_mul_right _ hmax
    rw [hu] at hl hh
    cases s with
    | positive =>
      have h : (overflow : Int) ≤ magnitude high 0 := hh
      omega
    | negative =>
      have h : (magnitude low 0 : Int) ≤ -overflow := hl
      omega

/-! ## Clamping -/

/-- A number is clamped into a range. -/
theorem clamp_mem {low high x : Float} (hl : Ordered low.toModel.unpack) (hh : Ordered high.toModel.unpack)
    (h : units low.toModel.unpack ≤ units high.toModel.unpack) (hx : x.isNaN = false) :
    Ordered (Scalar.clamp low high x).toModel.unpack ∧
      units low.toModel.unpack ≤ units (Scalar.clamp low high x).toModel.unpack ∧
      units (Scalar.clamp low high x).toModel.unpack ≤ units high.toModel.unpack := by
  have hxo := ordered_of_not_isNaN hx
  unfold Scalar.clamp
  simp only [Scalar.less, decide_eq_true_eq, lt_iff hxo hl, lt_iff hh hxo]
  split_ifs with hlow hhigh
  · exact ⟨hl, Int.le_refl _, h⟩
  · exact ⟨hh, h, Int.le_refl _⟩
  · exact ⟨hxo, by omega, by omega⟩

theorem clamp_of_isNaN {x : Float} (low high : Float) (hx : x.isNaN) : Scalar.clamp low high x = x := by
  unfold Scalar.clamp
  simp only [Scalar.less, not_lt_of_isNaN_left hx, not_lt_of_isNaN_right _ hx, decide_false, Bool.false_eq_true, if_false]

/-! ## Time that has passed -/

/-- Less than an infinity is finite. -/
theorem isFinite_iff {u : UnpackedFloat} (hu : Ordered u) : u.isFinite ↔ (units u).natAbs < overflow := by
  have hsign : ∀ (s : Sign) (n : Nat), (s.apply n).natAbs = n := by
    intro s n
    cases s
    · exact Int.natAbs_neg n
    · rfl
  cases u with
  | notANumber => exact hu.elim
  | infinity s =>
    have h : ¬(units (.infinity s)).natAbs < overflow := by
      rw [units, hsign]
      exact Nat.lt_irrefl _
    exact iff_of_false Bool.false_ne_true h
  | zero s => exact iff_of_true rfl overflow_pos
  | finite s m e h =>
    refine iff_of_true rfl ?_
    rw [units, hsign]
    exact magnitude_lt hu.1 hu.2

section

variable {x o o' c : Float}

/-- Taking away less leaves more. -/
theorem sub_antitone (hx : x.isFinite) (ho : o.isFinite) (ho' : o'.isFinite) (h : o ≤ o') : x - o' ≤ x - o := by
  obtain ⟨hxo, hfx⟩ := ordered_of_isFinite hx
  obtain ⟨hoo, hfo⟩ := ordered_of_isFinite ho
  obtain ⟨hoo', hfo'⟩ := ordered_of_isFinite ho'
  have hd := units_sub hxo hoo hfx hfo
  have hd' := units_sub hxo hoo' hfx hfo'
  rw [← unpack_sub] at hd hd'
  have hle := (le_iff hoo hoo').1 h
  have hr := rounded_mono (show units x.toModel.unpack - units o'.toModel.unpack ≤
    units x.toModel.unpack - units o.toModel.unpack by omega)
  rw [← hd.2, ← hd'.2] at hr
  exact (le_iff hd'.1 hd.1).2 hr

theorem eq_infinity {u : UnpackedFloat} (hu : Ordered u) (hf : ¬u.isFinite) : ∃ s, u = .infinity s := by
  cases u with
  | infinity s => exact ⟨s, rfl⟩
  | notANumber => exact hu.elim
  | _ => exact absurd rfl hf

/-- No number is beyond the infinities. -/
theorem natAbs_units_le {u : UnpackedFloat} (hu : Ordered u) : (units u).natAbs ≤ overflow := by
  by_cases hf : u.isFinite
  · exact Nat.le_of_lt ((isFinite_iff hu).1 hf)
  · obtain ⟨s, rfl⟩ := eq_infinity hu hf
    cases s
    · exact Nat.le_of_eq (Int.natAbs_neg _)
    · exact Nat.le_refl _

/-- What is left of a number when no more is taken away, if one of the two is infinite. -/
theorem sub_of_infinite {u v : UnpackedFloat} (hu : Ordered u) (hv : Ordered v) (h : units v ≤ units u)
    (hf : ¬(v.isFinite ∧ u.isFinite)) :
    UnpackedFloat.sub .binary64 u v = .notANumber ∨ UnpackedFloat.sub .binary64 u v = .infinity .positive := by
  have hpos := overflow_pos
  -- either nothing is above the first, or nothing is below the second
  have hend : u = .infinity .positive ∨ v = .infinity .negative := by
    by_cases hfu : u.isFinite
    · obtain ⟨s, rfl⟩ := eq_infinity hv fun hfv => hf ⟨hfv, hfu⟩
      cases s with
      | positive =>
        have hlt := (isFinite_iff hu).1 hfu
        change (overflow : Int) ≤ units u at h
        omega
      | negative => exact .inr rfl
    · obtain ⟨s, rfl⟩ := eq_infinity hu hfu
      cases s with
      | positive => exact .inl rfl
      | negative =>
        change units v ≤ -(overflow : Int) at h
        obtain ⟨s', rfl⟩ := eq_infinity hv fun hfv => by
          have hlt := (isFinite_iff hv).1 hfv
          omega
        cases s' with
        | positive =>
          change (overflow : Int) ≤ -(overflow : Int) at h
          omega
        | negative => exact .inr rfl
  rcases hend with rfl | rfl
  · cases v with
    | notANumber => exact hv.elim
    | infinity s => cases s <;> first | exact .inl rfl | exact .inr rfl
    | _ => exact .inr rfl
  · cases u with
    | notANumber => exact hu.elim
    | infinity s => cases s <;> first | exact .inl rfl | exact .inr rfl
    | _ => exact .inr rfl

/-- The difference is then less than no number. -/
theorem not_sub_lt_of_infinite (h : o ≤ x) (hf : ¬(o.isFinite ∧ x.isFinite)) : ¬x - o < c := by
  intro hlt
  obtain ⟨hd, hc⟩ := ordered_of_lt hlt
  obtain ⟨hoo, hxo⟩ := ordered_of_le h
  have hunits := (lt_iff hd hc).1 hlt
  rcases sub_of_infinite hxo hoo ((le_iff hoo hxo).1 h) hf with hsub | hsub
  · rw [unpack_sub, hsub] at hd
    exact hd
  · have hinfinity : UnpackedFloat.unpack .binary64 (UnpackedFloat.pack .binary64 (.infinity .positive)) =
        .infinity .positive := rfl
    have hle := natAbs_units_le hc
    rw [unpack_sub, hsub, hinfinity] at hunits
    change (overflow : Int) < _ at hunits
    omega

/-- The time since an earlier reading of a clock is not below what the time since a later one is not below. Readings may
be infinite. -/
theorem not_sub_lt (ho : o ≤ o') (hx : o' ≤ x) (h : ¬x - o' < c) : ¬x - o < c := by
  by_cases hf : o.isFinite ∧ x.isFinite
  · obtain ⟨hfo, hfx⟩ := hf
    obtain ⟨hoo, ho'o⟩ := ordered_of_le ho
    obtain ⟨-, hxo⟩ := ordered_of_le hx
    have hfo' : o'.isFinite := by
      have hlow := (le_iff hoo ho'o).1 ho
      have hhigh := (le_iff ho'o hxo).1 hx
      have hl := (isFinite_iff hoo).1 (ordered_of_isFinite hfo).2
      have hh := (isFinite_iff hxo).1 (ordered_of_isFinite hfx).2
      exact (isFinite_iff ho'o).2 (by omega)
    have hle := sub_antitone hfx hfo hfo' ho
    exact fun hlt => h (lt_of_le_of_less hle hlt)
  · exact not_sub_lt_of_infinite (le_of_le_of_le ho hx) hf

end

end LiveSketch.Number

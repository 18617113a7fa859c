import Mathlib
import LiveSketch.Number.Notation
import LiveSketch.Proofs.Number.Counts

/-!
# Differences of doubles

Every double is a whole number of units of `2 ^ -1074`, and an infinity counts as the least power of two that is
too large for a double (`units`). In units, doubles are compared as integers are (`compare_eq`), and the
difference of two doubles is the difference of the integers, rounded (`units_sub`). Rounding keeps the order, so
taking away the same finite number does (`sub_le_sub`), and a difference of ordered numbers is not negative
(`sub_nonneg`).
-/
namespace LiveSketch.Number

open Float.Model Float.Model.UnpackedFloat

/-! ## Rounding to a natural number -/

theorem roundHalfEven_cases (num den : Nat) :
    roundHalfEven num den = num / den ∨ roundHalfEven num den = num / den + 1 := by
  unfold roundHalfEven
  dsimp only
  split_ifs <;> simp

theorem roundHalfEven_mono {a b : Nat} (den : Nat) (h : a ≤ b) :
    roundHalfEven a den ≤ roundHalfEven b den := by
  have hq : a / den ≤ b / den := Nat.div_le_div_right h
  rcases Nat.lt_or_ge (a / den) (b / den) with hlt | hge
  · rcases roundHalfEven_cases a den with ha | ha <;> rcases roundHalfEven_cases b den with hb | hb <;> omega
  · -- the same quotient: the remainders are ordered
    have heq : a / den = b / den := Nat.le_antisymm hq hge
    have hr : a % den ≤ b % den := by
      have ha := Nat.div_add_mod a den
      have hb := Nat.div_add_mod b den
      rw [heq] at ha
      omega
    unfold roundHalfEven
    dsimp only
    rw [heq]
    split_ifs <;> omega

theorem roundHalfEven_mul (q : Nat) {den : Nat} (h : 0 < den) : roundHalfEven (q * den) den = q := by
  unfold roundHalfEven
  simp [Nat.mul_div_cancel q h, h]

theorem roundHalfEven_scale (num den : Nat) {c : Nat} (h : 0 < c) :
    roundHalfEven (num * c) (den * c) = roundHalfEven num den := by
  unfold roundHalfEven
  rw [Nat.mul_div_mul_right num den h, Nat.mul_mod_mul_right]
  dsimp only
  rw [← Nat.mul_assoc]
  simp only [Nat.mul_lt_mul_right h]

/-- A shifted mantissa keeps the bit behind the point and whether anything comes after it. -/
theorem shiftRight_succ (m j : Nat) :
    (⟨m, false, false⟩ : ExtendedMantissa) >>> (j + 1) =
      ⟨m / 2 ^ (j + 1), m / 2 ^ j % 2 != 0, m % 2 ^ j != 0⟩ := by
  change Nat.repeat ExtendedMantissa.shiftRightOne (j + 1) _ = _
  induction j with
  | zero => simp [Nat.repeat, ExtendedMantissa.shiftRightOne, Nat.mod_one]
  | succ j ih =>
    rw [Nat.repeat, ih, ExtendedMantissa.shiftRightOne]
    have hq : m / 2 ^ (j + 1) / 2 = m / 2 ^ (j + 1 + 1) := by
      rw [Nat.div_div_eq_div_mul, ← Nat.pow_succ]
    have hr : ((m / 2 ^ j % 2 != 0) || (m % 2 ^ j != 0)) = (m % 2 ^ (j + 1) != 0) := by
      have hpos : 0 < 2 ^ j := Nat.two_pow_pos j
      rw [Nat.mod_pow_succ, Bool.eq_iff_iff]
      simp only [Bool.or_eq_true, bne_iff_ne, ne_eq, Nat.add_eq_zero_iff, Nat.mul_eq_zero]
      omega
    rw [hq, hr]

theorem roundedMantissa_eq (q : Nat) (half more : Bool) :
    (⟨q, half, more⟩ : ExtendedMantissa).roundedMantissa =
      if half then if more then q + 1 else q + q % 2 else q := by
  cases half <;> cases more <;> rfl

/-- A shifted mantissa rounds as the quotient does. -/
theorem roundedMantissa_shiftRight (m j : Nat) :
    ((⟨m, false, false⟩ : ExtendedMantissa) >>> j).roundedMantissa = roundHalfEven m (2 ^ j) := by
  cases j with
  | zero =>
    have h := roundHalfEven_mul m Nat.one_pos
    rw [Nat.mul_one] at h
    exact h.symm
  | succ j =>
    have hlt : m % 2 ^ j < 2 ^ j := Nat.mod_lt _ (Nat.two_pow_pos j)
    rw [shiftRight_succ, roundedMantissa_eq]
    unfold roundHalfEven
    dsimp only
    rw [Nat.mod_pow_succ, Nat.pow_succ]
    -- the bit behind the point says on which side of the half the rest is
    rcases Nat.mod_two_eq_zero_or_one (m / 2 ^ j) with hb | hb <;>
      simp only [hb, bne_iff_ne, beq_iff_eq, ne_eq, not_true, if_false, one_ne_zero, not_false_eq_true,
        if_true] <;> split_ifs <;> omega

/-! ## Rounding to 53 bits -/

theorem log2_mul_pow {m : Nat} (h : 0 < m) (a : Nat) : (m * 2 ^ a).log2 = m.log2 + a := by
  obtain ⟨hl, hu⟩ := (Nat.log2_eq_iff (k := m.log2) (Nat.ne_of_gt h)).1 rfl
  have hpos : 0 < 2 ^ a := Nat.two_pow_pos a
  refine (Nat.log2_eq_iff (Nat.mul_ne_zero (by omega) (by omega))).2 ⟨?_, ?_⟩
  · rw [Nat.pow_add]
    exact Nat.mul_le_mul_right _ hl
  · rw [show m.log2 + a + 1 = m.log2 + 1 + a by omega, Nat.pow_add]
    exact Nat.mul_lt_mul_of_pos_right hu hpos

/-- How many bits of a number go beyond 53. -/
def excess (n : Nat) : Nat := n.log2 - 52

/-- The number with 53 bits and zeros behind them that is nearest. -/
def roundUnits (n : Nat) : Nat := roundHalfEven n (2 ^ excess n) * 2 ^ excess n

theorem lt_of_excess (n : Nat) : n < 2 ^ 53 * 2 ^ excess n := by
  have h : n < 2 ^ (n.log2 + 1) := Nat.lt_log2_self
  have hle : n.log2 + 1 ≤ 53 + excess n := by
    unfold excess
    omega
  rw [← Nat.pow_add]
  exact Nat.lt_of_lt_of_le h (Nat.pow_le_pow_right (by decide) hle)

theorem le_of_excess {n : Nat} (h : 52 ≤ n.log2) : 2 ^ 52 * 2 ^ excess n ≤ n := by
  have hn : n ≠ 0 := by
    rintro rfl
    simp at h
  have heq : 52 + excess n = n.log2 := by
    unfold excess
    omega
  rw [← Nat.pow_add, heq]
  exact Nat.log2_self_le hn

/-- A number is rounded to 53 bits, or to the next power of two. -/
theorem rounded_le (n : Nat) : roundHalfEven n (2 ^ excess n) ≤ 2 ^ 53 := by
  have h := roundHalfEven_mono (2 ^ excess n) (Nat.le_of_lt (lt_of_excess n))
  rwa [roundHalfEven_mul _ (Nat.two_pow_pos _)] at h

theorem le_rounded {n : Nat} (h : 52 ≤ n.log2) : 2 ^ 52 ≤ roundHalfEven n (2 ^ excess n) := by
  have h := roundHalfEven_mono (2 ^ excess n) (le_of_excess h)
  rwa [roundHalfEven_mul _ (Nat.two_pow_pos _)] at h

theorem log2_mono {a b : Nat} (h : a ≤ b) : a.log2 ≤ b.log2 := by
  by_cases hb : b = 0
  · obtain rfl : a = 0 := by omega
    rw [hb]
  · by_cases ha : a = 0
    · simp [ha]
    · exact (Nat.le_log2 hb).2 (Nat.le_trans (Nat.log2_self_le ha) h)

theorem roundUnits_mono {a b : Nat} (h : a ≤ b) : roundUnits a ≤ roundUnits b := by
  have hlog := log2_mono h
  rcases Nat.lt_or_ge (excess a) (excess b) with hlt | hge
  · -- a power of two lies between
    have hb : 52 ≤ b.log2 := by
      unfold excess at hlt
      omega
    calc roundUnits a ≤ 2 ^ 53 * 2 ^ excess a := Nat.mul_le_mul_right _ (rounded_le a)
      _ = 2 ^ 52 * 2 ^ (excess a + 1) := by rw [Nat.pow_succ]; omega
      _ ≤ 2 ^ 52 * 2 ^ excess b := Nat.mul_le_mul_left _ (Nat.pow_le_pow_right (by decide) hlt)
      _ ≤ roundUnits b := Nat.mul_le_mul_right _ (le_rounded hb)
  · have heq : excess a = excess b := by
      unfold excess at *
      omega
    unfold roundUnits
    rw [heq]
    exact Nat.mul_le_mul_right _ (roundHalfEven_mono _ h)

/-- Zeros behind 53 bits do not matter. -/
theorem roundUnits_mul {m : Nat} (a : Nat) (h : 0 < m) (ha : a = 0 ∨ 52 ≤ m.log2) :
    roundUnits (m * 2 ^ a) = roundHalfEven m (2 ^ excess m) * 2 ^ (excess m + a) := by
  have hexcess : excess (m * 2 ^ a) = excess m + a := by
    rw [excess, excess, log2_mul_pow h]
    omega
  rw [roundUnits, hexcess, Nat.pow_add, roundHalfEven_scale _ _ (Nat.two_pow_pos a)]

/-! ## Doubles in units -/

/-- A number of units, from the mantissa and the exponent. -/
def magnitude (m : Nat) (e : Int) : Nat := m * 2 ^ (e + 1074).toNat

/-- Rounding a number of 53 bits changes nothing. -/
theorem roundUnits_magnitude {m : Nat} {e : Int} (hn : Normal m e) (hm : 0 < m) :
    roundUnits (magnitude m e) = magnitude m e := by
  obtain ⟨hu, hleast, hfull⟩ := hn
  have hlog : m.log2 < 53 := (Nat.log2_lt (Nat.ne_of_gt hm)).2 hu
  have hexcess : excess m = 0 := by
    unfold excess
    omega
  have ha : (e + 1074).toNat = 0 ∨ 52 ≤ m.log2 := by
    rcases hfull with hl | rfl
    · exact .inr ((Nat.le_log2 (Nat.ne_of_gt hm)).2 hl)
    · exact .inl rfl
  rw [magnitude, roundUnits_mul _ hm ha, hexcess]
  have h := roundHalfEven_mul m Nat.one_pos
  rw [Nat.mul_one] at h
  rw [Nat.pow_zero, h, Nat.zero_add]

theorem shiftToTargetExponent_exact (m a : Nat) :
    shiftToTargetExponent .binary64 m (a - 1074) .exact =
      ((⟨m, false, false⟩ : ExtendedMantissa) >>> excess m, ((excess m + a : Nat) : Int) - 1074) := by
  have htarget : Format.binary64.targetExponent (totalExponent m (a - 1074)) =
      ((m.log2 + a - 52 : Nat) : Int) - 1074 := by
    rw [Format.targetExponent, totalExponent]
    simp [Format.mantissaBits, Format.minExponent]
    omega
  have hshift : ((((m.log2 + a - 52 : Nat) : Int) - 1074) - ((a : Int) - 1074)).toNat = excess m := by
    unfold excess
    omega
  rw [shiftToTargetExponent, htarget, shiftToExponent]
  simp only [hshift, ExtendedMantissa.ofMantissaAndAccuracy]
  congr 1
  omega

/-- The second rounding, after a carry, only drops a zero. -/
theorem shiftRight_carry {r : Nat} (h : r ≤ 2 ^ 53) :
    ∃ m, (⟨r, false, false⟩ : ExtendedMantissa) >>> excess r = ⟨m, false, false⟩ ∧ m < 2 ^ 53 ∧
      (2 ^ 52 ≤ r → 2 ^ 52 ≤ m) ∧ m * 2 ^ excess r = r := by
  rcases Nat.lt_or_eq_of_le h with hlt | rfl
  · have hexcess : excess r = 0 := by
      by_cases h0 : r = 0
      · rw [h0]
        rfl
      · have hlog := (Nat.log2_lt h0).2 hlt
        unfold excess
        omega
    rw [hexcess]
    exact ⟨r, rfl, hlt, id, Nat.mul_one r⟩
  · have hexcess : excess (2 ^ 53) = 1 := by rw [excess, Nat.log2_two_pow]
    rw [hexcess]
    exact ⟨2 ^ 52, shiftRight_mul (2 ^ 52) 1, by decide, fun _ => Nat.le_refl _, rfl⟩

/-- Rounding a number of units that has 53 bits at least, or no zeros behind it. -/
theorem roundWithAccuracy_exact {m a : Nat} (hm : 0 < m) (ha : a = 0 ∨ 52 ≤ m.log2) (s : Sign) :
    ∃ m' e', ∃ h' : 0 < m', roundWithAccuracy .binary64 s m (a - 1074) .exact = .finite s m' e' h' ∧
      Normal m' e' ∧ magnitude m' e' = roundUnits (m * 2 ^ a) := by
  obtain ⟨r, hr⟩ : ∃ r, r = roundHalfEven m (2 ^ excess m) := ⟨_, rfl⟩
  obtain ⟨m', hshift, hlt, hfull, hcarry⟩ := shiftRight_carry (hr ▸ rounded_le m)
  have hlarge : 2 ^ 52 ≤ r ∨ (excess m + a = 0 ∧ excess r = 0 ∧ r = m) := by
    by_cases hl : 52 ≤ m.log2
    · exact .inl (hr ▸ le_rounded hl)
    · -- there is nothing to round
      have hexcess : excess m = 0 := by
        unfold excess
        omega
      have hsame : r = m := by
        have h := roundHalfEven_mul m Nat.one_pos
        rwa [Nat.mul_one, ← Nat.pow_zero 2, ← hexcess, ← hr] at h
      exact .inr ⟨by omega, hsame ▸ hexcess, hsame⟩
  have hm' : 0 < m' := by
    refine Nat.pos_of_ne_zero fun h0 => ?_
    rw [h0, Nat.zero_mul] at hcarry
    omega
  have hexponent : (((excess r + (excess m + a) : Nat) : Int) - 1074 + 1074).toNat =
      excess r + (excess m + a) := by omega
  refine ⟨m', ((excess r + (excess m + a) : Nat) : Int) - 1074, hm', ?_, ⟨hlt, by omega, ?_⟩, ?_⟩
  · have hround := roundedMantissa_shiftRight m (excess m)
    have hne : m' ≠ 0 := Nat.ne_of_gt hm'
    simp only [roundWithAccuracy, shiftToTargetExponent_exact, hround, ← hr, hshift, hne, dite_false]
  · rcases hlarge with hl | ⟨hk, hr0, -⟩
    · exact .inl (hfull hl)
    · exact .inr (by omega)
  · rw [magnitude, hexponent, Nat.pow_add, ← Nat.mul_assoc, hcarry, roundUnits_mul a hm ha, hr]

/-- Rounding an exact value. -/
theorem round_eq {m : Nat} {e : Int} (hm : 0 < m) (he : -1074 ≤ e) (s : Sign) :
    ∃ m' e', ∃ h' : 0 < m', UnpackedFloat.round .binary64 s m e = .finite s m' e' h' ∧
      Normal m' e' ∧ magnitude m' e' = roundUnits (magnitude m e) := by
  obtain ⟨a, rfl⟩ : ∃ a : Nat, e = a - 1074 := ⟨(e + 1074).toNat, by omega⟩
  -- a short mantissa is lengthened first, as far as the exponent allows
  obtain ⟨j, hj⟩ : ∃ j, j = a - (m.log2 + a - 52) := ⟨_, rfl⟩
  have htarget : Format.binary64.targetExponent (totalExponent m (a - 1074)) =
      ((m.log2 + a - 52 : Nat) : Int) - 1074 := by
    rw [Format.targetExponent, totalExponent]
    simp [Format.mantissaBits, Format.minExponent]
    omega
  have hamount : (((a : Int) - 1074) - (((m.log2 + a - 52 : Nat) : Int) - 1074)).toNat = j := by omega
  have hexponent : (a : Int) - 1074 - j = ((a - j : Nat) : Int) - 1074 := by omega
  have hm' : 0 < m * 2 ^ j := Nat.mul_pos hm (Nat.two_pow_pos j)
  have ha : a - j = 0 ∨ 52 ≤ (m * 2 ^ j).log2 := by
    rw [log2_mul_pow hm]
    omega
  obtain ⟨m', e', h', hround, hn, hmag⟩ := roundWithAccuracy_exact hm' ha s
  refine ⟨m', e', h', ?_, hn, ?_⟩
  · simp only [UnpackedFloat.round, htarget, decreaseExponent, hamount, Nat.shiftLeft_eq, hexponent, hround]
  · have hsum : ((a : Int) - 1074 + 1074).toNat = j + (a - j) := by omega
    rw [hmag, magnitude, hsum, Nat.pow_add, Nat.mul_assoc]

theorem magnitude_pos {m : Nat} (e : Int) (h : 0 < m) : 0 < magnitude m e :=
  Nat.mul_pos h (Nat.two_pow_pos _)

theorem magnitude_strictMono (e : Int) : StrictMono fun m => (magnitude m e : Int) :=
  fun _ _ h => Int.ofNat_lt.2 (Nat.mul_lt_mul_of_pos_right h (Nat.two_pow_pos _))

/-- A greater exponent outweighs any mantissa. -/
theorem magnitude_lt_of_lt {m m' : Nat} {e e' : Int} (hn : Normal m e) (hn' : Normal m' e') (h : e < e') :
    magnitude m e < magnitude m' e' := by
  have hleast := hn.least
  have hfull : 2 ^ 52 ≤ m' := hn'.full.resolve_right (by omega)
  have hexponent : (e + 1074).toNat + 1 ≤ (e' + 1074).toNat := by omega
  calc magnitude m e < 2 ^ 53 * 2 ^ (e + 1074).toNat :=
        Nat.mul_lt_mul_of_pos_right hn.lt (Nat.two_pow_pos _)
    _ = 2 ^ 52 * 2 ^ ((e + 1074).toNat + 1) := by rw [Nat.pow_succ]; omega
    _ ≤ 2 ^ 52 * 2 ^ (e' + 1074).toNat := Nat.mul_le_mul_left _ (Nat.pow_le_pow_right (by decide) hexponent)
    _ ≤ magnitude m' e' := Nat.mul_le_mul_right _ hfull

/-- Mantissas and exponents are ordered as the magnitudes are. -/
theorem compare_magnitude {m m' : Nat} {e e' : Int} (hn : Normal m e) (hn' : Normal m' e') :
    (compare e e').then (compare m m') = compare (magnitude m e : Int) (magnitude m' e' : Int) := by
  rcases Int.lt_trichotomy e e' with hlt | rfl | hgt
  · rw [Int.compare_eq_lt.2 hlt, Int.compare_eq_lt.2 (Int.ofNat_lt.2 (magnitude_lt_of_lt hn hn' hlt))]
    rfl
  · rw [Int.compare_eq_eq.2 rfl, Ordering.eq_then]
    simpa only [cmp_eq_compare] using ((magnitude_strictMono e).cmp_map_eq m m').symm
  · rw [Int.compare_eq_gt.2 hgt, Int.compare_eq_gt.2 (Int.ofNat_lt.2 (magnitude_lt_of_lt hn' hn hgt))]
    rfl

/-- The least number of units that is too large. -/
def overflow : Nat := magnitude (2 ^ 52) 972

theorem overflow_normal : Normal (2 ^ 52) 972 := ⟨by decide, by decide, .inl (Nat.le_refl _)⟩

theorem overflow_pos : 0 < overflow := magnitude_pos _ (by decide)

theorem magnitude_lt {m : Nat} {e : Int} (hn : Normal m e) (he : e ≤ 971) : magnitude m e < overflow :=
  magnitude_lt_of_lt hn overflow_normal (by omega)

theorem le_magnitude {m : Nat} {e : Int} (hn : Normal m e) (he : 971 < e) : overflow ≤ magnitude m e := by
  rcases Int.lt_or_eq_of_le (show 972 ≤ e by omega) with hlt | rfl
  · exact Nat.le_of_lt (magnitude_lt_of_lt overflow_normal hn hlt)
  · exact Nat.mul_le_mul_right _ (hn.full.resolve_right (by decide))

/-- A double in units. -/
def units : UnpackedFloat → Int
  | .notANumber => 0
  | .infinity s => s.apply overflow
  | .zero _ => 0
  | .finite s m e _ => s.apply (magnitude m e)

/-- What can be read from 64 bits, no NaN. -/
def Ordered : UnpackedFloat → Prop
  | .notANumber => False
  | .finite _ m e _ => Normal m e ∧ e ≤ 971
  | _ => True

theorem compare_neg (a b : Int) : compare (-a) (-b) = (compare a b).swap := by
  rcases Int.lt_trichotomy a b with h | rfl | h
  · rw [Int.compare_eq_lt.2 h, Int.compare_eq_gt.2 (by omega)]
    rfl
  · rw [Int.compare_eq_eq.2 rfl, Int.compare_eq_eq.2 rfl]
    rfl
  · rw [Int.compare_eq_gt.2 h, Int.compare_eq_lt.2 (by omega)]
    rfl

theorem compare_lt {a b : Int} (h : a < b) : some .lt = some (compare a b) := by
  rw [Int.compare_eq_lt.2 h]

theorem compare_gt {a b : Int} (h : b < a) : some .gt = some (compare a b) := by
  rw [Int.compare_eq_gt.2 h]

theorem compare_infinity (s : Sign) {v : UnpackedFloat} (hv : Ordered v) :
    (UnpackedFloat.infinity s).compare v = some (compare (units (.infinity s)) (units v)) := by
  have hpos := overflow_pos
  cases v with
  | notANumber => exact hv.elim
  | infinity s' =>
    cases s <;> cases s' <;> simp only [UnpackedFloat.compare, units, Sign.apply]
    · rw [Int.compare_eq_eq.2 rfl]
      rfl
    · exact compare_lt (by omega)
    · exact compare_gt (by omega)
    · rw [Int.compare_eq_eq.2 rfl]
      rfl
  | zero s' =>
    cases s <;> simp only [UnpackedFloat.compare, units, Sign.apply]
    · exact compare_lt (by omega)
    · exact compare_gt (by omega)
  | finite s' m' e' h' =>
    have hlt := magnitude_lt hv.1 hv.2
    cases s <;> cases s' <;> simp only [UnpackedFloat.compare, units, Sign.apply]
    · exact compare_lt (by omega)
    · exact compare_lt (by omega)
    · exact compare_gt (by omega)
    · exact compare_gt (by omega)

theorem compare_zero (s : Sign) {v : UnpackedFloat} (hv : Ordered v) :
    (UnpackedFloat.zero s).compare v = some (compare (units (.zero s)) (units v)) := by
  have hpos := overflow_pos
  cases v with
  | notANumber => exact hv.elim
  | infinity s' =>
    cases s' <;> simp only [UnpackedFloat.compare, units, Sign.apply]
    · exact compare_gt (by omega)
    · exact compare_lt (by omega)
  | zero s' => rfl
  | finite s' m' e' h' =>
    have hm := magnitude_pos e' h'
    cases s' <;> simp only [UnpackedFloat.compare, units, Sign.apply]
    · exact compare_gt (by omega)
    · exact compare_lt (by omega)

theorem compare_finite {s : Sign} {m : Nat} {e : Int} (h : 0 < m) (hu : Ordered (.finite s m e h))
    {v : UnpackedFloat} (hv : Ordered v) :
    (UnpackedFloat.finite s m e h).compare v = some (compare (units (.finite s m e h)) (units v)) := by
  have hm := magnitude_pos e h
  have hlt := magnitude_lt hu.1 hu.2
  cases v with
  | notANumber => exact hv.elim
  | infinity s' =>
    cases s <;> cases s' <;> simp only [UnpackedFloat.compare, units, Sign.apply]
    · exact compare_gt (by omega)
    · exact compare_lt (by omega)
    · exact compare_gt (by omega)
    · exact compare_lt (by omega)
  | zero s' =>
    cases s <;> simp only [UnpackedFloat.compare, units, Sign.apply]
    · exact compare_lt (by omega)
    · exact compare_gt (by omega)
  | finite s' m' e' h' =>
    have hm' := magnitude_pos e' h'
    cases s <;> cases s' <;> simp only [UnpackedFloat.compare, units, Sign.apply]
    · rw [compare_magnitude hu.1 hv.1, compare_neg]
    · exact compare_lt (by omega)
    · exact compare_gt (by omega)
    · rw [compare_magnitude hu.1 hv.1]

/-- Doubles are compared as integers are. -/
theorem compare_eq {u v : UnpackedFloat} (hu : Ordered u) (hv : Ordered v) :
    u.compare v = some (compare (units u) (units v)) := by
  cases u with
  | notANumber => exact hu.elim
  | infinity s => exact compare_infinity s hv
  | zero s => exact compare_zero s hv
  | finite s m e h => exact compare_finite h hu hv

/-! ## Differences -/

/-- An exact number of units, rounded to a double. -/
def rounded (z : Int) : Int :=
  if z < 0 then -(min (roundUnits z.natAbs) overflow : Nat) else (min (roundUnits z.natAbs) overflow : Nat)

theorem rounded_mono {a b : Int} (h : a ≤ b) : rounded a ≤ rounded b := by
  unfold rounded
  split_ifs with ha hb hb
  · have hab := roundUnits_mono (show b.natAbs ≤ a.natAbs by omega)
    omega
  · omega
  · omega
  · have hab := roundUnits_mono (show a.natAbs ≤ b.natAbs by omega)
    omega

theorem rounded_zero : rounded 0 = 0 := by
  have h : roundUnits 0 = 0 := rfl
  simp [rounded, h]

/-- What is stored of a rounded number, which is an infinity if the number is too large. -/
theorem units_pack {m : Nat} {e : Int} (hm : 0 < m) (hn : Normal m e) (s : Sign) :
    let u := UnpackedFloat.unpack .binary64 (UnpackedFloat.pack .binary64 (.finite s m e hm))
    Ordered u ∧ units u = s.apply (min (magnitude m e) overflow : Nat) := by
  rcases lt_or_ge 971 e with he | he
  · have hpack : UnpackedFloat.pack .binary64 (.finite s m e hm) =
        UnpackedFloat.pack .binary64 (.infinity s) := by
      rw [UnpackedFloat.pack]
      exact if_pos (show 2 ^ 11 ≤ (e + 1023 + 52).toNat + 1 by omega)
    have hunpack : UnpackedFloat.unpack .binary64 (UnpackedFloat.pack .binary64 (.infinity s)) =
        .infinity s := by
      cases s <;> rfl
    rw [hpack, hunpack, Nat.min_eq_right (le_magnitude hn he)]
    exact ⟨trivial, rfl⟩
  · have hlt := magnitude_lt hn he
    rw [unpack_pack hn he hm s, Nat.min_eq_left (Nat.le_of_lt hlt)]
    exact ⟨⟨hn, he⟩, rfl⟩

/-- An exact value, rounded and stored. -/
theorem units_normalize (z : Int) {e : Int} (he : -1074 ≤ e) :
    let u := UnpackedFloat.unpack .binary64
      (UnpackedFloat.pack .binary64 (UnpackedFloat.normalize .binary64 z e .positive))
    Ordered u ∧ units u = rounded (z * (2 ^ (e + 1074).toNat : Nat)) := by
  have hpos : 0 < 2 ^ (e + 1074).toNat := Nat.two_pow_pos _
  rcases Int.lt_trichotomy z 0 with hz | rfl | hz
  · obtain ⟨n, rfl⟩ : ∃ n : Nat, z = -n := ⟨z.natAbs, by omega⟩
    obtain ⟨m', e', h', hround, hn, hmag⟩ := round_eq (show 0 < n by omega) he .negative
    have hsign : (-(n : Int)) * (2 ^ (e + 1074).toNat : Nat) = -(magnitude n e : Nat) := by
      rw [magnitude, Int.neg_mul, Int.natCast_mul]
    have hmagpos := magnitude_pos e (show 0 < n by omega)
    have hneg : -(magnitude n e : Int) < 0 := by omega
    have hcompare : compare (-(n : Int)) 0 = .lt := Int.compare_eq_lt.2 hz
    have hpack := units_pack h' hn .negative
    simp only [UnpackedFloat.normalize, hcompare, Int.neg_neg, Int.toNat_natCast, hround]
    rw [hsign, rounded, if_pos hneg, Int.natAbs_neg, Int.natAbs_natCast, ← hmag]
    exact hpack
  · have hcompare : compare (0 : Int) 0 = .eq := Int.compare_eq_eq.2 rfl
    simp only [UnpackedFloat.normalize, hcompare]
    rw [Int.zero_mul, rounded_zero]
    exact ⟨trivial, rfl⟩
  · obtain ⟨n, rfl⟩ : ∃ n : Nat, z = n := ⟨z.natAbs, by omega⟩
    obtain ⟨m', e', h', hround, hn, hmag⟩ := round_eq (show 0 < n by omega) he .positive
    have hsign : (n : Int) * (2 ^ (e + 1074).toNat : Nat) = (magnitude n e : Nat) := by
      rw [magnitude, Int.natCast_mul]
    have hneg : ¬(magnitude n e : Int) < 0 := by omega
    have hcompare : compare (n : Int) 0 = .gt := Int.compare_eq_gt.2 hz
    have hpack := units_pack h' hn .positive
    simp only [UnpackedFloat.normalize, hcompare, Int.toNat_natCast, hround]
    rw [hsign, rounded, if_neg hneg, Int.natAbs_natCast, ← hmag]
    exact hpack

theorem apply_mul (s : Sign) (a c : Int) : s.apply (a * c) = s.apply a * c := by
  cases s
  · exact (Int.neg_mul a c).symm
  · rfl

theorem decreaseExponent_magnitude (m : Nat) {e t : Int} (ht : -1074 ≤ t) (h : t ≤ e) :
    (decreaseExponent m e t).1 * 2 ^ (t + 1074).toNat = magnitude m e := by
  have hsum : (e - t).toNat + (t + 1074).toNat = (e + 1074).toNat := by omega
  rw [decreaseExponent, magnitude, Nat.shiftLeft_eq, Nat.mul_assoc, ← Nat.pow_add, hsum]

/-- A finite double is its own rounded value. -/
theorem rounded_units {u : UnpackedFloat} (hu : Ordered u) (hf : u.isFinite) : rounded (units u) = units u := by
  cases u with
  | notANumber => exact hu.elim
  | infinity s => cases hf
  | zero s => exact rounded_zero
  | finite s m e h =>
    have hpos := magnitude_pos e h
    have hlt := magnitude_lt hu.1 hu.2
    have hr := roundUnits_magnitude hu.1 h
    cases s <;> simp only [units, Sign.apply, rounded, Int.natAbs_neg, Int.natAbs_natCast, hr] <;>
      split_ifs <;> omega

/-- A finite double is stored as it is. -/
theorem unpack_pack_of_ordered {u : UnpackedFloat} (hu : Ordered u) (hf : u.isFinite) :
    UnpackedFloat.unpack .binary64 (UnpackedFloat.pack .binary64 u) = u := by
  cases u with
  | notANumber => exact hu.elim
  | infinity s => cases hf
  | zero s => cases s <;> rfl
  | finite s m e h => exact unpack_pack hu.1 hu.2 h s

/-- The difference of finite doubles is the exact difference, rounded. -/
theorem units_sub {u v : UnpackedFloat} (hu : Ordered u) (hv : Ordered v) (hfu : u.isFinite)
    (hfv : v.isFinite) :
    let d := UnpackedFloat.unpack .binary64 (UnpackedFloat.pack .binary64 (UnpackedFloat.sub .binary64 u v))
    Ordered d ∧ units d = rounded (units u - units v) := by
  -- no rounding takes place where the difference is a finite double
  have exact_sub : ∀ w : UnpackedFloat, Ordered w → w.isFinite → units w = units u - units v →
      UnpackedFloat.sub .binary64 u v = w →
      let d := UnpackedFloat.unpack .binary64 (UnpackedFloat.pack .binary64 (UnpackedFloat.sub .binary64 u v))
      Ordered d ∧ units d = rounded (units u - units v) := by
    rintro w hw hf hunits rfl
    rw [unpack_pack_of_ordered hw hf, ← hunits, rounded_units hw hf]
    exact ⟨hw, rfl⟩
  cases u with
  | notANumber => exact hu.elim
  | infinity s => cases hfu
  | zero s =>
    cases v with
    | notANumber => exact hv.elim
    | infinity s' => cases hfv
    | zero s' => cases s <;> cases s' <;> exact exact_sub (.zero _) trivial rfl rfl rfl
    | finite s' m' e' h' =>
      refine exact_sub (.finite (-s') m' e' h') hv rfl ?_ rfl
      cases s'
      · change (magnitude m' e' : Int) = 0 - -(magnitude m' e' : Int)
        omega
      · change -(magnitude m' e' : Int) = 0 - (magnitude m' e' : Int)
        omega
  | finite s m e h =>
    cases v with
    | notANumber => exact hv.elim
    | infinity s' => cases hfv
    | zero s' => exact exact_sub (.finite s m e h) hu rfl (Int.sub_zero _).symm rfl
    | finite s' m' e' h' =>
      have hleast := hu.1.least
      have hleast' := hv.1.least
      have hmin : -1074 ≤ min e e' := by omega
      have hscaled : units (.finite s m e h) - units (.finite s' m' e' h') =
          (s.apply (decreaseExponent m e (min e e')).1 - s'.apply (decreaseExponent m' e' (min e e')).1) *
            (2 ^ (min e e' + 1074).toNat : Nat) := by
        rw [Int.sub_mul, ← apply_mul, ← apply_mul, ← Int.natCast_mul, ← Int.natCast_mul,
          decreaseExponent_magnitude m hmin (by omega), decreaseExponent_magnitude m' hmin (by omega)]
        rfl
      rw [hscaled]
      exact units_normalize _ hmin

/-! ## Finite doubles -/

/-- What is read from 64 bits is ordered, unless it is a NaN. -/
theorem unpack_ordered (b : BitVec Format.binary64.numBits)
    (h : UnpackedFloat.unpack .binary64 b ≠ .notANumber) : Ordered (UnpackedFloat.unpack .binary64 b) := by
  have hmantissa : (unpackMantissa b).toNat < 2 ^ 52 := (unpackMantissa b).isLt
  have hexponent : (unpackExponent b).toNat < 2 ^ 11 := (unpackExponent b).isLt
  have hbias : (Format.binary64.exponentBias : Int) = 1023 := rfl
  unfold UnpackedFloat.unpack at h ⊢
  dsimp only at h ⊢
  rw [hbias] at h ⊢
  split_ifs at h ⊢ with hones hinfinity hzeros hzero
  · trivial
  · exact absurd rfl h
  · trivial
  · -- the exponent is the least one
    have h0 : (unpackExponent b).toNat = 0 := by rw [hzeros]; rfl
    rw [h0]
    exact ⟨⟨by omega, by decide, .inr rfl⟩, by decide⟩
  · have hmax : (unpackExponent b).toNat ≠ 2 ^ 11 - 1 := fun hm => hones (BitVec.eq_of_toNat_eq hm)
    have hmin : (unpackExponent b).toNat ≠ 0 := fun hm => hzeros (BitVec.eq_of_toNat_eq hm)
    have hfull : (1#1 ++ unpackMantissa b).toNat = 2 ^ 52 + (unpackMantissa b).toNat := by
      rw [BitVec.toNat_append, ← Nat.shiftLeft_add_eq_or_of_lt (BitVec.isLt _)]
      rfl
    exact ⟨⟨by omega, by omega, .inl (by omega)⟩, by omega⟩

section

variable {x y o : Float}

theorem ordered_of_isFinite (h : x.isFinite) : Ordered x.toModel.unpack ∧ x.toModel.unpack.isFinite := by
  refine ⟨unpack_ordered _ fun hn => ?_, h⟩
  have hf : x.toModel.unpack.isFinite := h
  rw [Float.Model.unpack, hn] at hf
  cases hf

/-- Doubles are ordered as their units are. -/
theorem le_iff (hx : Ordered x.toModel.unpack) (hy : Ordered y.toModel.unpack) :
    x ≤ y ↔ units x.toModel.unpack ≤ units y.toModel.unpack := by
  have hle : x ≤ y ↔ UnpackedFloat.le x.toModel.unpack y.toModel.unpack = true := decide_eq_true_iff
  rw [hle, UnpackedFloat.le, compare_eq hx hy, Option.any_some, Int.isLE_compare]

theorem unpack_sub (x o : Float) : (x - o).toModel.unpack =
    UnpackedFloat.unpack .binary64 (UnpackedFloat.pack .binary64
      (UnpackedFloat.sub .binary64 x.toModel.unpack o.toModel.unpack)) := rfl

/-- Taking away the same number keeps the order. -/
theorem sub_le_sub (ho : o.isFinite) (hx : x.isFinite) (hy : y.isFinite) (h : x ≤ y) : x - o ≤ y - o := by
  obtain ⟨hxo, hfx⟩ := ordered_of_isFinite hx
  obtain ⟨hyo, hfy⟩ := ordered_of_isFinite hy
  obtain ⟨hoo, hfo⟩ := ordered_of_isFinite ho
  have hx' := units_sub hxo hoo hfx hfo
  have hy' := units_sub hyo hoo hfy hfo
  rw [← unpack_sub] at hx' hy'
  have hle := (le_iff hxo hyo).1 h
  have hr := rounded_mono (show units x.toModel.unpack - units o.toModel.unpack ≤
    units y.toModel.unpack - units o.toModel.unpack by omega)
  rw [← hx'.2, ← hy'.2] at hr
  exact (le_iff hx'.1 hy'.1).2 hr

theorem sub_self (hx : x.isFinite) : x - x = 0 := by
  have hsub : UnpackedFloat.sub .binary64 x.toModel.unpack x.toModel.unpack = .zero .positive := by
    obtain ⟨-, hf⟩ := ordered_of_isFinite hx
    cases hu : x.toModel.unpack with
    | notANumber => simp [hu, UnpackedFloat.isFinite] at hf
    | infinity s => simp [hu, UnpackedFloat.isFinite] at hf
    | zero s => cases s <;> rfl
    | finite s m e h =>
      have hcompare : compare (0 : Int) 0 = .eq := Int.compare_eq_eq.2 rfl
      simp only [UnpackedFloat.sub, Int.sub_self, UnpackedFloat.normalize, hcompare]
  have h : x - x = ⟨Float.Model.pack (UnpackedFloat.sub .binary64 x.toModel.unpack x.toModel.unpack)⟩ := rfl
  rw [h, hsub]
  rfl

theorem sub_nonneg (hx : x.isFinite) (hy : y.isFinite) (h : x ≤ y) : 0 ≤ y - x := by
  have hle := sub_le_sub hx hx hy h
  rwa [sub_self hx] at hle

end

end LiveSketch.Number

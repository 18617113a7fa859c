import Mathlib.Algebra.BigOperators.Intervals
import Mathlib.Algebra.Order.BigOperators.Ring.Finset
import Mathlib.Data.ZMod.Basic
import Mathlib.GroupTheory.OrderOfElement
import Mathlib.Tactic.Linarith
import Mathlib.Tactic.NormNum
import Mathlib.Tactic.Ring
import LiveSketch.Noise.Field
import LiveSketch.Proofs.Noise.Seams

/-!
# The range of noise

On a line and in the plane, the gradient of a corner is as long as one of the offsets from it. What is interpolated is
between -1 and 1, and so is the value.

A gradient in space adds two of the three offsets up, and near a corner of the cell that is almost 2. So the weights matter.
The two greater offsets of each corner, interpolated like the gradients, bound every value in the cell (`envelope`). Measured
from the middle of the cell, with the coordinates in descending order, the envelope is one plus a part for each coordinate
(`envelope_centred`), and the three parts are at most 1/20 together. They are more than zero somewhere, and there are
lattices whose values are greater than 1 (`sample_above_one`).

The octaves after it make up for that: where one is greater than 1, the next, with half its weight, is far from its own
bound (`pairEnvelope_le`). So the sum is between 0 and 1 for an even number of octaves that are each half as strong as the
one before.
-/
namespace LiveSketch.Noise

open Finset

variable {K : Type} [Exact K]

/-! ## Interpolation -/

theorem fade_mem {t : K} (ht : t ∈ Set.Icc 0 1) : fade t ∈ Set.Icc 0 1 := by
  obtain ⟨h0, h1⟩ := ht
  rw [fade_eq]
  have hslack : 0 ≤ (1 - t) * (1 - t) * (1 + 2 * t) := by
    have := sub_nonneg.2 h1
    positivity
  have hfactor : 0 ≤ 3 - 2 * t := by linarith
  exact ⟨by positivity, by linarith [show 1 - (3 - 2 * t) * t * t = (1 - t) * (1 - t) * (1 + 2 * t) by ring]⟩

theorem fade_one_sub (t : K) : fade (1 - t) = 1 - fade t := by
  simp only [fade_eq]
  ring

theorem lerp_one_sub (t a b : K) : lerp (1 - t) a b = lerp t b a := by
  unfold lerp
  ring

theorem lerp_mono {t a b a' b' : K} (ht : t ∈ Set.Icc 0 1) (ha : a ≤ a') (hb : b ≤ b') : lerp t a b ≤ lerp t a' b' := by
  have hlow : (1 - t) * a ≤ (1 - t) * a' := mul_le_mul_of_nonneg_left ha (sub_nonneg.2 ht.2)
  have hhigh : t * b ≤ t * b' := mul_le_mul_of_nonneg_left hb ht.1
  unfold lerp
  linarith

theorem abs_lerp_le {t a b a' b' : K} (ht : t ∈ Set.Icc 0 1) (ha : |a| ≤ a') (hb : |b| ≤ b') :
    |lerp t a b| ≤ lerp t a' b' := by
  obtain ⟨halow, hahigh⟩ := abs_le.1 ha
  obtain ⟨hblow, hbhigh⟩ := abs_le.1 hb
  refine abs_le.2 ⟨?_, lerp_mono ht hahigh hbhigh⟩
  calc -lerp t a' b' = lerp t (-a') (-b') := by unfold lerp; ring
    _ ≤ lerp t a b := lerp_mono ht halow hblow

theorem abs_lerp_le_one {t a b : K} (ht : t ∈ Set.Icc 0 1) (ha : |a| ≤ 1) (hb : |b| ≤ 1) : |lerp t a b| ≤ 1 := by
  simpa [lerp] using abs_lerp_le ht ha hb

/-! ## Gradients -/

theorem abs_slope1 (h : Nat) (x : K) : |slope1 h x| = |x| := by
  unfold slope1
  split <;> simp

theorem abs_slope2_le (h : Nat) {x y : K} (hx : |x| ≤ 1) (hy : |y| ≤ 1) : |slope2 h x y| ≤ 1 := by
  unfold slope2
  dsimp only
  split_ifs <;> simpa

/-- The two greatest of three offsets together. -/
def reach (a b c : K) : K := a + b + c - min a (min b c)

theorem reach_swap (a b c : K) : reach b a c = reach a b c := by
  simp only [reach, min_left_comm b a c, add_comm b a]

theorem reach_swap' (a b c : K) : reach a c b = reach a b c := by
  simp only [reach, min_comm c b, add_right_comm a c b]

theorem reach_le {m a b c : K} (ha : m ≤ a) (hb : m ≤ b) (hc : m ≤ c) : reach a b c ≤ a + b + c - m :=
  sub_le_sub_left (le_min ha (le_min hb hc)) _

theorem reach_eq {m a b c : K} (ha : m ≤ a) (hb : m ≤ b) (hc : m ≤ c) (hm : m = a ∨ m = b ∨ m = c) :
    reach a b c = a + b + c - m := by
  refine le_antisymm (reach_le ha hb hc) (sub_le_sub_left ?_ _)
  rcases hm with rfl | rfl | rfl <;> simp

theorem add_le_reach (a b c : K) : a + b ≤ reach a b c := by
  have hmin : min a (min b c) ≤ c := (min_le_right _ _).trans (min_le_right _ _)
  unfold reach
  linarith

theorem abs_slope3_le (h : Nat) (x y z : K) : |slope3 h x y z| ≤ reach |x| |y| |z| := by
  have hxy : |x| + |y| ≤ reach |x| |y| |z| := add_le_reach _ _ _
  have hxz : |x| + |z| ≤ reach |x| |y| |z| := by simpa only [reach_swap'] using add_le_reach |x| |z| |y|
  have hyz : |y| + |z| ≤ reach |x| |y| |z| := by
    have hle := add_le_reach |y| |z| |x|
    rwa [reach_swap' |y| |x| |z|, reach_swap |x| |y| |z|] at hle
  have hyx : |y| + |x| ≤ reach |x| |y| |z| := by rwa [add_comm]
  have hsign : ∀ (c : Prop) [Decidable c] (a : K), |if c then a else -a| = |a| := by
    intro c _ a
    split <;> simp
  unfold slope3
  dsimp only
  refine (abs_add_le _ _).trans ?_
  rw [hsign, hsign]
  split_ifs <;> first | assumption | omega

/-! ## The values of a cell -/

/-- A value for the offsets of each corner of a cell, interpolated like the gradients. -/
def blend (g : K → K → K → K) (x y z : K) : K :=
  lerp (fade z)
    (lerp (fade y) (lerp (fade x) (g x y z) (g (1 - x) y z)) (lerp (fade x) (g x (1 - y) z) (g (1 - x) (1 - y) z)))
    (lerp (fade y) (lerp (fade x) (g x y (1 - z)) (g (1 - x) y (1 - z)))
      (lerp (fade x) (g x (1 - y) (1 - z)) (g (1 - x) (1 - y) (1 - z))))

/-- A bound for the values inside a cell. -/
def envelope (x y z : K) : K := blend reach x y z

namespace Lattice

variable (l : Lattice) (i j k : Nat) {x y z : K}

theorem abs_sub_one_le (hx : x ∈ Set.Icc 0 1) : |x| ≤ 1 ∧ |x - 1| ≤ 1 := by
  rw [abs_of_nonneg hx.1, abs_of_nonpos (sub_nonpos.2 hx.2)]
  exact ⟨hx.2, by linarith [hx.1]⟩

theorem abs_value1_le (hx : x ∈ Set.Icc 0 1) : |l.value1 i x| ≤ 1 := by
  obtain ⟨h0, h1⟩ := abs_sub_one_le hx
  simp only [value1, Exact.nat_eq, Nat.cast_one]
  exact abs_lerp_le_one (fade_mem hx) (by rwa [abs_slope1]) (by rwa [abs_slope1])

theorem abs_value2_le (hx : x ∈ Set.Icc 0 1) (hy : y ∈ Set.Icc 0 1) : |l.value2 i j x y| ≤ 1 := by
  obtain ⟨hx0, hx1⟩ := abs_sub_one_le hx
  obtain ⟨hy0, hy1⟩ := abs_sub_one_le hy
  simp only [value2, Exact.nat_eq, Nat.cast_one]
  exact abs_lerp_le_one (fade_mem hy)
    (abs_lerp_le_one (fade_mem hx) (abs_slope2_le _ hx0 hy0) (abs_slope2_le _ hx1 hy0))
    (abs_lerp_le_one (fade_mem hx) (abs_slope2_le _ hx0 hy1) (abs_slope2_le _ hx1 hy1))

theorem abs_value3_le (hx : x ∈ Set.Icc 0 1) (hy : y ∈ Set.Icc 0 1) (hz : z ∈ Set.Icc 0 1) :
    |l.value3 i j k x y z| ≤ envelope x y z := by
  have hnear : ∀ {t : K}, t ∈ Set.Icc 0 1 → |t| = t := fun ht => abs_of_nonneg ht.1
  have hfar : ∀ {t : K}, t ∈ Set.Icc 0 1 → |t - 1| = 1 - t := by
    intro t ht
    rw [abs_of_nonpos (sub_nonpos.2 ht.2), neg_sub]
  have hcorner : ∀ (h : Nat) {a b c a' b' c' : K}, |a| = a' → |b| = b' → |c| = c' → |slope3 h a b c| ≤ reach a' b' c' := by
    rintro h a b c _ _ _ rfl rfl rfl
    exact abs_slope3_le h a b c
  simp only [value3, Exact.nat_eq, Nat.cast_zero, Nat.cast_one, sub_zero]
  have fx := fade_mem hx
  have fy := fade_mem hy
  have fz := fade_mem hz
  refine abs_lerp_le fz
    (abs_lerp_le fy (abs_lerp_le fx (hcorner _ (hnear hx) (hnear hy) (hnear hz)) (hcorner _ (hfar hx) (hnear hy) (hnear hz)))
      (abs_lerp_le fx (hcorner _ (hnear hx) (hfar hy) (hnear hz)) (hcorner _ (hfar hx) (hfar hy) (hnear hz))))
    (abs_lerp_le fy (abs_lerp_le fx (hcorner _ (hnear hx) (hnear hy) (hfar hz)) (hcorner _ (hfar hx) (hnear hy) (hfar hz)))
      (abs_lerp_le fx (hcorner _ (hnear hx) (hfar hy) (hfar hz)) (hcorner _ (hfar hx) (hfar hy) (hfar hz))))

end Lattice

/-! ## Symmetries -/

theorem envelope_one_sub (x y z : K) : envelope (1 - x) y z = envelope x y z := by
  simp only [envelope, blend, fade_one_sub, lerp_one_sub, sub_sub_cancel]

theorem envelope_swap (x y z : K) : envelope y x z = envelope x y z := by
  simp only [envelope, blend, lerp, reach_swap x, reach_swap (1 - x)]
  ring

theorem envelope_swap' (x y z : K) : envelope x z y = envelope x y z := by
  simp only [envelope, blend, lerp, reach_swap' _ y, reach_swap' _ (1 - y)]
  ring

/-- A coordinate may be measured from either end of its cell. -/
def Mirrored (s t : K) : Prop := s = t ∨ s = 1 - t

theorem envelope_mirrored {x y z x' y' z' : K} (hx : Mirrored x x') (hy : Mirrored y y') (hz : Mirrored z z') :
    envelope x y z = envelope x' y' z' := by
  have hfirst : ∀ {s t : K}, Mirrored s t → ∀ b c, envelope s b c = envelope t b c := by
    rintro s t (rfl | rfl) b c
    · rfl
    · exact envelope_one_sub t b c
  rw [hfirst hx, ← envelope_swap, hfirst hy, envelope_swap, ← envelope_swap', ← envelope_swap, hfirst hz, envelope_swap,
    envelope_swap']

/-- It is enough to bound a symmetric function where its arguments descend. -/
theorem le_of_descending {f : K → K → K → K} {lo hi bound : K} (hswap : ∀ a b c, f b a c = f a b c)
    (hswap' : ∀ a b c, f a c b = f a b c)
    (hbound : ∀ a b c, lo ≤ c → c ≤ b → b ≤ a → a ≤ hi → f a b c ≤ bound) {a b c : K} (ha : a ∈ Set.Icc lo hi)
    (hb : b ∈ Set.Icc lo hi) (hc : c ∈ Set.Icc lo hi) : f a b c ≤ bound := by
  have hinsert : ∀ b c, lo ≤ c → c ≤ b → b ≤ hi → f a b c ≤ bound := by
    intro b c hc hcb hb
    rcases le_total b a with hba | hab
    · exact hbound a b c hc hcb hba ha.2
    · rw [← hswap]
      rcases le_total c a with hca | hac
      · exact hbound b a c hc hca hab hb
      · rw [← hswap']
        exact hbound b c a ha.1 hac hcb hb
  rcases le_total c b with hcb | hbc
  · exact hinsert b c hc.1 hcb hb.2
  · rw [← hswap']
    exact hinsert c b hb.1 hbc hc.2

/-! ## The greatest value -/

section

variable {u v w : K}

/-- How much the lower corner outweighs the upper one, half of it, at this distance below the middle of a cell. -/
def tilt (u : K) : K := Scalar.ofDecimal 15 1 * u - Scalar.nat 2 * u ^ 3

theorem tilt_eq (u : K) : tilt u = 3 / 2 * u - 2 * u ^ 3 := by norm_num [tilt]

theorem fade_half_sub (u : K) : fade (1 / 2 - u) = 1 / 2 - tilt u := by
  rw [fade_eq, tilt_eq]
  ring

theorem tilt_nonneg (h0 : 0 ≤ u) (h1 : u ≤ 1 / 2) : 0 ≤ tilt u := by
  have hfactor : 0 ≤ 3 / 2 - 2 * u ^ 2 := by nlinarith
  calc 0 ≤ u * (3 / 2 - 2 * u ^ 2) := mul_nonneg h0 hfactor
    _ = tilt u := by rw [tilt_eq]; ring

theorem tilt_mono (h0 : 0 ≤ v) (hvu : v ≤ u) (h1 : u ≤ 1 / 2) : tilt v ≤ tilt u := by
  have hfactor : 0 ≤ 3 / 2 - 2 * (u ^ 2 + u * v + v ^ 2) := by nlinarith
  have hdiff := mul_nonneg (sub_nonneg.2 hvu) hfactor
  rw [tilt_eq, tilt_eq]
  linarith

theorem tilt_le (h0 : 0 ≤ u) (h1 : u ≤ 1 / 2) : tilt u ≤ 1 / 2 := by
  have htop : tilt (1 / 2 : K) = 1 / 2 := by norm_num [tilt_eq]
  exact htop ▸ tilt_mono h0 h1 le_rfl

/-- The envelope where the first coordinate is the farthest from the middle and the last one the nearest. -/
theorem envelope_centred (h0 : 0 ≤ w) (hwv : w ≤ v) (hvu : v ≤ u) :
    envelope (1 / 2 - u) (1 / 2 - v) (1 / 2 - w) =
      1 + u * (1 / 2 - tilt u) - v * (2 * tilt v - (1 / 2 - tilt u) * (1 / 2 + tilt v)) -
        2 * w * tilt w * (1 - (1 / 2 - tilt u) * (1 / 2 - tilt v)) := by
  simp only [envelope, blend, fade_half_sub]
  -- the least offset of each corner
  rw [reach_eq (m := 1 / 2 - u), reach_eq (m := 1 / 2 - v), reach_eq (m := 1 / 2 - u), reach_eq (m := 1 / 2 - w),
    reach_eq (m := 1 / 2 - u), reach_eq (m := 1 / 2 - v), reach_eq (m := 1 / 2 - u), reach_eq (m := 1 - (1 / 2 - w))]
  · unfold lerp
    ring
  all_goals first | linarith | simp

/-- What the coordinate farthest from the middle adds to the envelope, at most. -/
def farPart (u : K) : K := u * (Scalar.ofDecimal 5 1 - tilt u)

/-- What the coordinate between the others adds, at most. -/
def midPart (v : K) : K := v * (Scalar.ofDecimal 25 2 - Scalar.nat 2 * tilt v)

/-- What the coordinate nearest to the middle takes away, at least. -/
def nearPart (w : K) : K := Scalar.ofDecimal 15 1 * w * tilt w

theorem farPart_eq (u : K) : farPart u = u * (1 / 2 - tilt u) := by norm_num [farPart]

theorem midPart_eq (v : K) : midPart v = v * (1 / 4 - 2 * tilt v) := by norm_num [midPart]

theorem nearPart_eq (w : K) : nearPart w = 3 / 2 * w * tilt w := by norm_num [nearPart]

theorem envelope_le_parts (h0 : 0 ≤ w) (hwv : w ≤ v) (hvu : v ≤ u) (h1 : u ≤ 1 / 2) :
    envelope (1 / 2 - u) (1 / 2 - v) (1 / 2 - w) ≤ 1 + farPart u + midPart v - nearPart w := by
  have hv0 : 0 ≤ v := h0.trans hwv
  have htv := tilt_nonneg hv0 (hvu.trans h1)
  have htw := tilt_nonneg h0 ((hwv.trans hvu).trans h1)
  have htu := tilt_le (hv0.trans hvu) h1
  have htvu := tilt_mono hv0 hvu h1
  have hmid : (1 / 2 - tilt u) * (1 / 2 + tilt v) ≤ 1 / 4 := by nlinarith
  have hnear : (1 / 2 - tilt u) * (1 / 2 - tilt v) ≤ 1 / 4 := by nlinarith
  have hv := mul_le_mul_of_nonneg_left hmid hv0
  have hw := mul_le_mul_of_nonneg_left hnear (mul_nonneg h0 htw)
  rw [envelope_centred h0 hwv hvu]
  rw [farPart_eq, midPart_eq, nearPart_eq]
  linarith

/-! Each bound on one variable below is a tangent: the polynomial is the tangent at the place named, less a square times a
factor that is not negative. -/

theorem farPart_le (h0 : 0 ≤ u) (h1 : u ≤ 1 / 2) : farPart u ≤ 11 / 250 := by
  have hfactor : 0 ≤ 1 - 73 / 100 * u - 2 * u ^ 2 := by nlinarith
  rw [farPart_eq, tilt_eq]
  nlinarith [mul_nonneg (sq_nonneg (u - 73 / 400)) hfactor]

theorem midPart_le (h0 : 0 ≤ v) (h1 : v ≤ 1 / 2) : midPart v ≤ 3 / 500 := by
  have hfactor : 0 ≤ 143 / 48 - v / 3 - 4 * v ^ 2 := by nlinarith
  rw [midPart_eq, tilt_eq]
  nlinarith [mul_nonneg (sq_nonneg (v - 1 / 24)) hfactor]

theorem midPart_le_of_far (h0 : 1 / 4 ≤ v) (h1 : v ≤ 1 / 2) : midPart v ≤ -(109 / 1000) := by
  rw [midPart_eq, tilt_eq]
  nlinarith [mul_nonneg (sub_nonneg.2 h0) (sub_nonneg.2 h1), sq_nonneg v, sq_nonneg (v ^ 2)]

theorem nearPart_nonneg (h0 : 0 ≤ w) (h1 : w ≤ 1 / 2) : 0 ≤ nearPart w := by
  have htilt := tilt_nonneg h0 h1
  rw [nearPart_eq]
  positivity

theorem envelope_le_of_descending (u v w : K) (h0 : 0 ≤ w) (hwv : w ≤ v) (hvu : v ≤ u) (h1 : u ≤ 1 / 2) :
    envelope (1 / 2 - u) (1 / 2 - v) (1 / 2 - w) ≤ 21 / 20 := by
  have hv0 : 0 ≤ v := h0.trans hwv
  have hparts := envelope_le_parts h0 hwv hvu h1
  linarith [farPart_le (hv0.trans hvu) h1, midPart_le hv0 (hvu.trans h1),
    nearPart_nonneg h0 ((hwv.trans hvu).trans h1)]

theorem mirrored_middle (t : K) : Mirrored t (1 / 2 - |t - 1 / 2|) := by
  rcases abs_cases (t - 1 / 2) with ⟨h, -⟩ | ⟨h, -⟩ <;> rw [h]
  · right
    ring
  · left
    ring

theorem abs_sub_half_mem {t : K} (ht : t ∈ Set.Icc 0 1) : |t - 1 / 2| ∈ Set.Icc 0 (1 / 2) :=
  ⟨abs_nonneg _, abs_le.2 ⟨by linarith [ht.1], by linarith [ht.2]⟩⟩

theorem envelope_le {x y z : K} (hx : x ∈ Set.Icc 0 1) (hy : y ∈ Set.Icc 0 1) (hz : z ∈ Set.Icc 0 1) :
    envelope x y z ≤ 21 / 20 := by
  rw [envelope_mirrored (mirrored_middle x) (mirrored_middle y) (mirrored_middle z)]
  exact le_of_descending (f := fun u v w => envelope (1 / 2 - u) (1 / 2 - v) (1 / 2 - w)) (fun _ _ _ => envelope_swap _ _ _)
    (fun _ _ _ => envelope_swap' _ _ _) envelope_le_of_descending (abs_sub_half_mem hx) (abs_sub_half_mem hy)
    (abs_sub_half_mem hz)

/-! ## An octave and the next -/

/-- The two offsets of one coordinate, interpolated. -/
def mean (t : K) : K := lerp (fade t) t (1 - t)

theorem mean_eq (t : K) : mean t = t + 3 * t ^ 2 - 8 * t ^ 3 + 4 * t ^ 4 := by
  rw [mean, lerp, fade_eq]
  ring

theorem mean_one_sub (t : K) : mean (1 - t) = mean t := by
  rw [mean, fade_one_sub, lerp_one_sub, sub_sub_cancel, mean]

theorem blend_mono {g h : K → K → K → K} {x y z : K} (hx : x ∈ Set.Icc 0 1) (hy : y ∈ Set.Icc 0 1) (hz : z ∈ Set.Icc 0 1)
    (hgh : ∀ a b c, Mirrored a x → Mirrored b y → Mirrored c z → g a b c ≤ h a b c) : blend g x y z ≤ blend h x y z := by
  have hlow (t : K) : Mirrored t t := .inl rfl
  have hhigh (t : K) : Mirrored (1 - t) t := .inr rfl
  have hline : ∀ {b c : K}, Mirrored b y → Mirrored c z →
      lerp (fade x) (g x b c) (g (1 - x) b c) ≤ lerp (fade x) (h x b c) (h (1 - x) b c) :=
    fun hb hc => lerp_mono (fade_mem hx) (hgh _ _ _ (hlow x) hb hc) (hgh _ _ _ (hhigh x) hb hc)
  exact lerp_mono (fade_mem hz)
    (lerp_mono (fade_mem hy) (hline (hlow y) (hlow z)) (hline (hhigh y) (hlow z)))
    (lerp_mono (fade_mem hy) (hline (hlow y) (hhigh z)) (hline (hhigh y) (hhigh z)))

/-- The sum of the three offsets bounds the envelope, less a number that is not above any of them. -/
theorem envelope_le_mean {m x y z : K} (hx : x ∈ Set.Icc m (1 - m)) (hy : y ∈ Set.Icc m (1 - m))
    (hz : z ∈ Set.Icc m (1 - m)) (hm : 0 ≤ m) : envelope x y z ≤ mean x + mean y + mean z - m := by
  have hinside : ∀ {t : K}, t ∈ Set.Icc m (1 - m) → t ∈ Set.Icc 0 1 := fun ht => ⟨hm.trans ht.1, by linarith [ht.2]⟩
  have hleast : ∀ {s t : K}, t ∈ Set.Icc m (1 - m) → Mirrored s t → m ≤ s := by
    rintro s t ht (rfl | rfl)
    · exact ht.1
    · linarith [ht.2]
  calc envelope x y z ≤ blend (fun a b c => a + b + c - m) x y z :=
        blend_mono (hinside hx) (hinside hy) (hinside hz) fun a b c ha hb hc =>
          reach_le (hleast hx ha) (hleast hy hb) (hleast hz hc)
    _ = mean x + mean y + mean z - m := by
        unfold blend mean lerp
        ring

theorem mean_le {t : K} (ht : t ∈ Set.Icc 0 1) : mean t ≤ 1 / 2 := by
  have hmid : 0 ≤ 3 - 4 * (t - 1 / 2) ^ 2 := by nlinarith [ht.1, ht.2]
  rw [mean_eq]
  nlinarith [mul_nonneg (sq_nonneg (t - 1 / 2)) hmid]

theorem mean_sub_le {t : K} (h0 : 0 ≤ t) (h1 : t ≤ 1 / 2) : mean t - t ≤ 1 / 8 := by
  have hfactor : 0 ≤ 1 + 16 / 3 * t - 4 * t ^ 2 := by nlinarith
  rw [mean_eq]
  nlinarith [mul_nonneg (sq_nonneg (t - 1 / 3)) hfactor]

theorem midPart_add_mean_le (h0 : 0 ≤ v) (h1 : v ≤ 1 / 4) : 2 * midPart v + mean (2 * v) ≤ 37 / 100 := by
  have hfactor : 0 ≤ 165 / 64 + 37 / 4 * v - 18 * v ^ 2 := by nlinarith
  rw [mean_eq]
  rw [midPart_eq, tilt_eq]
  nlinarith [mul_nonneg (sq_nonneg (2 * v - 3 / 8)) hfactor]

theorem mean_sub_nearPart_le (h0 : 0 ≤ w) (h1 : w ≤ 1 / 4) : mean (2 * w) - 2 * nearPart w ≤ 2 / 5 := by
  have hfactor : 0 ≤ 2 + 61 / 6 * w - 35 / 2 * w ^ 2 := by nlinarith
  rw [mean_eq]
  rw [nearPart_eq, tilt_eq]
  nlinarith [mul_nonneg (sq_nonneg (2 * w - 1 / 3)) hfactor]

theorem mean_sub_nearPart_sub_le (h0 : 0 ≤ w) (h1 : w ≤ 1 / 4) : mean (2 * w) - 2 * nearPart w - 2 * w ≤ 1 / 25 := by
  have hfactor : 0 ≤ 41 / 96 + 157 / 12 * w - 35 / 2 * w ^ 2 := by nlinarith
  rw [mean_eq]
  rw [nearPart_eq, tilt_eq]
  nlinarith [mul_nonneg (sq_nonneg (2 * w - 1 / 6)) hfactor]

/-- Twice the envelope at a place that is this far from the middle of its cell, and the envelope twice as far out. -/
def pairEnvelope (u v w : K) : K :=
  let half : K := Scalar.ofDecimal 5 1
  let two : K := Scalar.nat 2
  two * envelope (half - u) (half - v) (half - w) + envelope (two * u) (two * v) (two * w)

theorem pairEnvelope_eq (u v w : K) : pairEnvelope u v w =
    2 * envelope (1 / 2 - u) (1 / 2 - v) (1 / 2 - w) + envelope (2 * u) (2 * v) (2 * w) := by
  norm_num [pairEnvelope]

theorem pairEnvelope_le_of_descending (u v w : K) (h0 : 0 ≤ w) (hwv : w ≤ v) (hvu : v ≤ u) (h1 : u ≤ 1 / 2) :
    pairEnvelope u v w ≤ 3 := by
  have hv0 : 0 ≤ v := h0.trans hwv
  have hu0 : 0 ≤ u := hv0.trans hvu
  have hv1 : v ≤ 1 / 2 := hvu.trans h1
  have hdouble : ∀ {t : K}, 0 ≤ t → t ≤ 1 / 2 → 2 * t ∈ Set.Icc 0 1 := fun h h' => ⟨by linarith, by linarith⟩
  have hparts := envelope_le_parts h0 hwv hvu h1
  have hfar := farPart_le hu0 h1
  rw [pairEnvelope_eq]
  rcases le_total (1 / 4) v with hv | hv
  · -- two coordinates far from the middle take more away than the next octave has to give
    have hnext := envelope_le (hdouble hu0 h1) (hdouble hv0 hv1) (hdouble h0 (hwv.trans hv1))
    linarith [midPart_le_of_far hv hv1, nearPart_nonneg h0 (hwv.trans hv1)]
  · -- else the envelope of the next octave is bounded by the means, less the least offset of all
    have hw : w ≤ 1 / 4 := hwv.trans hv
    have hmid := midPart_add_mean_le hv0 hv
    have hwle : ∀ {d : K}, d ≤ 2 * w → 2 * w ∈ Set.Icc d (1 - d) := fun h => ⟨h, by linarith⟩
    have hvle : ∀ {d : K}, d ≤ 2 * w → 2 * v ∈ Set.Icc d (1 - d) := fun h => ⟨by linarith, by linarith⟩
    have hedge : ∀ {d : K}, 0 ≤ d → d ≤ 1 / 2 → d ≤ 2 * w → mean d = mean (2 * u) → 2 * u ∈ Set.Icc d (1 - d) →
        2 * envelope (1 / 2 - u) (1 / 2 - v) (1 / 2 - w) + envelope (2 * u) (2 * v) (2 * w) ≤ 3 := by
      intro d hd0 hd1 hdw hmean hu
      have hnext := envelope_le_mean hu (hvle hdw) (hwle hdw) hd0
      linarith [mean_sub_le hd0 hd1, mean_sub_nearPart_le h0 hw]
    rcases le_total (2 * u) (2 * w) with huw | hwu
    · exact hedge (by linarith) (by linarith) huw rfl ⟨le_rfl, by linarith⟩
    rcases le_total (1 - 2 * u) (2 * w) with huw | hwu'
    · exact hedge (by linarith) (by linarith) huw (mean_one_sub _) ⟨by linarith, by linarith⟩
    · have hnext := envelope_le_mean (m := 2 * w) ⟨hwu, by linarith⟩ (hvle le_rfl) (hwle le_rfl) (by linarith)
      linarith [mean_le (hdouble hu0 h1), mean_sub_nearPart_sub_le h0 hw]

theorem pairEnvelope_le (hu : u ∈ Set.Icc 0 (1 / 2)) (hv : v ∈ Set.Icc 0 (1 / 2)) (hw : w ∈ Set.Icc 0 (1 / 2)) :
    pairEnvelope u v w ≤ 3 := by
  refine le_of_descending (fun a b c => ?_) (fun a b c => ?_) pairEnvelope_le_of_descending hu hv hw
  · simp only [pairEnvelope_eq, envelope_swap (1 / 2 - a), envelope_swap (2 * a)]
  · simp only [pairEnvelope_eq, envelope_swap' (1 / 2 - a) (1 / 2 - b), envelope_swap' (2 * a) (2 * b)]

end

/-! ## The values of an octave -/

namespace Point

/-- How far an octave can leave the range from zero to one. -/
def excess : Point K → K
  | .line _ => 0
  | .plane _ _ => 0
  | .space _ _ _ => Scalar.ofDecimal 25 3

theorem excess_space (x y z : K) : (space x y z).excess = 1 / 40 := by norm_num [excess]

@[simp] theorem excess_scale (k : K) (p : Point K) : (p.scale k).excess = p.excess := by
  cases p <;> rfl

theorem scale_mul_two (k : K) (p : Point K) : p.scale (k * 2) = (p.scale k).scale 2 := by
  cases p <;> simp only [scale, mul_comm k 2, mul_assoc]

end Point

section

variable [FloorRing K]

theorem fract_mem (v : K) : Int.fract v ∈ Set.Icc 0 1 := ⟨Int.fract_nonneg v, (Int.fract_lt_one v).le⟩

/-- Twice as far out, the offset is twice the distance from the middle of the cell, from one end or the other. -/
theorem mirrored_double (v : K) : Mirrored (Int.fract (2 * v)) (2 * |Int.fract v - 1 / 2|) := by
  have hv : v = ⌊v⌋ + Int.fract v := (Int.floor_add_fract v).symm
  have hnonneg := Int.fract_nonneg v
  have hlt := Int.fract_lt_one v
  rcases abs_cases (Int.fract v - 1 / 2) with ⟨habs, hle⟩ | ⟨habs, hle⟩ <;> rw [habs]
  · refine .inl (Int.fract_eq_iff.2 ⟨by linarith, by linarith, 2 * ⌊v⌋ + 1, ?_⟩)
    push_cast
    linarith
  · refine .inr (Int.fract_eq_iff.2 ⟨by linarith, by linarith, 2 * ⌊v⌋, ?_⟩)
    push_cast
    linarith

variable [Gridded K] (l : Lattice)

theorem cell_snd (v : K) : (cell v).2 = Int.fract v := by
  simp only [cell, Gridded.floor_def, Int.fract]

theorem Lattice.abs_noise3_le (x y z : K) :
    |l.noise3 x y z| ≤ envelope (Int.fract x) (Int.fract y) (Int.fract z) := by
  simp only [Lattice.noise3, cell_snd]
  exact l.abs_value3_le _ _ _ (fract_mem x) (fract_mem y) (fract_mem z)

theorem Lattice.abs_at_le (q : Point K) : |l.at q| ≤ 1 + 2 * q.excess := by
  cases q with
  | line x =>
    simp only [Lattice.at, Lattice.noise1, cell_snd, Point.excess, mul_zero, add_zero]
    exact l.abs_value1_le _ (fract_mem x)
  | plane x y =>
    simp only [Lattice.at, Lattice.noise2, cell_snd, Point.excess, mul_zero, add_zero]
    exact l.abs_value2_le _ _ (fract_mem x) (fract_mem y)
  | space x y z =>
    calc |l.noise3 x y z| ≤ 21 / 20 := (l.abs_noise3_le x y z).trans (envelope_le (fract_mem x) (fract_mem y) (fract_mem z))
      _ = 1 + 2 * Point.excess (.space x y z) := by norm_num [Point.excess_space]

/-- An octave and the next one, twice as far out, do not both go to their bounds. -/
theorem Lattice.abs_at_add_le (q : Point K) : 2 * |l.at q| + |l.at (q.scale 2)| ≤ 3 := by
  have hfirst := l.abs_at_le q
  have hsecond := l.abs_at_le (q.scale 2)
  rw [Point.excess_scale] at hsecond
  cases q with
  | line | plane =>
    rw [Point.excess] at hfirst hsecond
    linarith
  | space x y z =>
    have hfirst := l.abs_noise3_le x y z
    have hsecond := l.abs_noise3_le (2 * x) (2 * y) (2 * z)
    rw [envelope_mirrored (mirrored_middle _) (mirrored_middle _) (mirrored_middle _)] at hfirst
    rw [envelope_mirrored (mirrored_double x) (mirrored_double y) (mirrored_double z)] at hsecond
    have hpair := pairEnvelope_le (abs_sub_half_mem (fract_mem x)) (abs_sub_half_mem (fract_mem y))
      (abs_sub_half_mem (fract_mem z))
    rw [pairEnvelope_eq] at hpair
    simp only [Lattice.at, Point.scale]
    linarith

/-! ## The sum of the octaves -/

omit [FloorRing K] [Gridded K]

theorem Field.addOctaves_succ (r : K) (p : Point K) (n : Nat) (e k sum : K) :
    addOctaves l r p (n + 1) e k sum =
      addOctaves l r p n (e * r) (k * 2) (sum + e * r * ((1 + l.at (p.scale k)) / 2)) := by
  simp only [addOctaves, Exact.nat_eq, Nat.cast_one, Nat.cast_ofNat, mul_div_assoc]

/-- What `n` octaves weigh together. The first one has the falloff, too. -/
def weight (r : K) (n : Nat) : K := ∑ k ∈ range n, r ^ (k + 1)

theorem weight_succ (r : K) (n : Nat) : weight r (n + 1) = r + r * weight r n := by
  simp only [weight, sum_range_succ', mul_sum, pow_succ' r (_ + 1), zero_add, pow_one]
  exact add_comm _ _

variable [FloorRing K] [Gridded K]

theorem Lattice.octave_mem (q : Point K) : -q.excess ≤ (1 + l.at q) / 2 ∧ (1 + l.at q) / 2 ≤ 1 + q.excess := by
  obtain ⟨hlow, hhigh⟩ := abs_le.1 (l.abs_at_le q)
  constructor <;> linarith

theorem Field.addOctaves_mem {r : K} (hr : 0 ≤ r) (p : Point K) (n : Nat) (e k sum : K) (he : 0 ≤ e) :
    sum - p.excess * (e * weight r n) ≤ addOctaves l r p n e k sum ∧
      addOctaves l r p n e k sum ≤ sum + (1 + p.excess) * (e * weight r n) := by
  induction n generalizing e k sum with
  | zero => simp [addOctaves, weight]
  | succ n ih =>
    have her : 0 ≤ e * r := mul_nonneg he hr
    obtain ⟨hlow, hhigh⟩ := l.octave_mem (p.scale k)
    rw [Point.excess_scale] at hlow hhigh
    have hleast := mul_le_mul_of_nonneg_left hlow her
    have hmost := mul_le_mul_of_nonneg_left hhigh her
    obtain ⟨ihlow, ihhigh⟩ := ih (e * r) (k * 2) (sum + e * r * ((1 + l.at (p.scale k)) / 2)) her
    rw [addOctaves_succ, weight_succ]
    constructor <;> linarith

/-- Two octaves at a time, if each is half as strong as the one before. -/
theorem Field.addOctaves_halving (p : Point K) (n : Nat) (e k sum : K) (he : 0 ≤ e) :
    sum ≤ addOctaves l (1 / 2) p (2 * n) e k sum ∧
      addOctaves l (1 / 2) p (2 * n) e k sum ≤ sum + e * (1 - (1 / 4) ^ n) := by
  induction n generalizing e k sum with
  | zero => simp [addOctaves]
  | succ n ih =>
    have hpair := l.abs_at_add_le (p.scale k)
    rw [← Point.scale_mul_two] at hpair
    obtain ⟨hfirst, hfirst'⟩ := abs_le.1 (le_refl |l.at (p.scale k)|)
    obtain ⟨hsecond, hsecond'⟩ := abs_le.1 (le_refl |l.at (p.scale (k * 2))|)
    have hleast : 0 ≤ e * (3 + 2 * l.at (p.scale k) + l.at (p.scale (k * 2))) := mul_nonneg he (by linarith)
    have hmost : e * (3 + 2 * l.at (p.scale k) + l.at (p.scale (k * 2))) ≤ e * 6 :=
      mul_le_mul_of_nonneg_left (by linarith) he
    rw [show 2 * (n + 1) = 2 * n + 1 + 1 by ring, addOctaves_succ, addOctaves_succ]
    obtain ⟨ihlow, ihhigh⟩ := ih (e * (1 / 2) * (1 / 2)) (k * 2 * 2)
      (sum + e * (1 / 2) * ((1 + l.at (p.scale k)) / 2) +
        e * (1 / 2) * (1 / 2) * ((1 + l.at (p.scale (k * 2))) / 2)) (by positivity)
    rw [pow_succ]
    constructor <;> linarith

end

namespace Field

theorem sample_fst (f : Field K) (p : Point K) (g : Random.Generator) :
    (f.sample p g).1 = addOctaves (f.getLattice g).1 f.falloff p f.octaves 1 1 0 := by
  simp only [sample, Exact.nat_eq, Nat.cast_one, Nat.cast_zero]

/-- **The range of noise.** In exact arithmetic, whatever the table of the lattice is: an octave on a line or in the plane
is between zero and one, and one in space leaves that range by 1/40 at most. The sum is between zero and what the octaves
weigh together, up to that excess of each. With four octaves that are each half as strong as the one before, as they are
by default, it is at least zero and less than one, in space too. -/
theorem sample_in_range [FloorRing K] [Gridded K] (f : Field K) (p : Point K) (g : Random.Generator)
    (hfalloff : 0 ≤ f.falloff) :
    let value := (f.sample p g).1
    (∀ (l : Lattice) (q : Point K), -q.excess ≤ (1 + l.at q) / 2 ∧ (1 + l.at q) / 2 ≤ 1 + q.excess) ∧
      (-(p.excess * weight f.falloff f.octaves) ≤ value ∧ value ≤ (1 + p.excess) * weight f.falloff f.octaves) ∧
      (f.octaves = (standard : Field K).octaves → f.falloff = (standard : Field K).falloff → 0 ≤ value ∧ value < 1) := by
  intro value
  refine ⟨fun l q => l.octave_mem q, ?_, fun hoctaves hhalf => ?_⟩
  · have hmem := addOctaves_mem (f.getLattice g).1 hfalloff p f.octaves 1 1 0 zero_le_one
    simpa only [value, sample_fst, one_mul, zero_sub, zero_add] using hmem
  · have hmem := addOctaves_halving (f.getLattice g).1 p 2 1 1 0 zero_le_one
    have hstandard : f.octaves = 2 * 2 ∧ f.falloff = 1 / 2 := by
      rw [hoctaves, hhalf]
      norm_num [standard]
    simp only [value, sample_fst, hstandard]
    refine ⟨hmem.1, hmem.2.trans_lt ?_⟩
    norm_num

/-- The default octaves at a place in space. -/
theorem sample_in_range_standard :
    let f : Field ℚ := { standard with lattice := some (.ofTable Lattice.ordered) }
    let value := (f.sample (.space (1 / 3) (1 / 5) (1 / 7)) (Random.Generator.ofSeed 0)).1
    0 ≤ f.falloff ∧ -(1 / 40 * weight f.falloff f.octaves) ≤ value ∧ 0 ≤ value ∧ value < 1 := by
  intro f value
  have hfalloff : 0 ≤ f.falloff := by norm_num [f, standard]
  obtain ⟨-, hbounds, hdefault⟩ := sample_in_range f (.space (1 / 3) (1 / 5) (1 / 7)) (Random.Generator.ofSeed 0) hfalloff
  rw [Point.excess_space] at hbounds
  exact ⟨hfalloff, hbounds.1, hdefault rfl rfl⟩

end Field

/-! ## A value above one -/

/-- The powers of three modulo 257, less one: each number below 256 once. -/
def powers : Vector (Fin 256) 256 := Vector.ofFn fun i => ⟨3 ^ i.val % 257 - 1, by omega⟩

namespace powers

theorem val_get (i : Fin 256) : (powers.get i).val = 3 ^ i.val % 257 - 1 := by
  change powers[i.val].val = _
  unfold powers
  rw [Vector.getElem_ofFn]

theorem look_eq (i : Nat) : (Lattice.ofTable powers).look i = 3 ^ (i % 256) % 257 - 1 := by
  rw [Lattice.look_ofTable, val_get]

theorem orderOf_three : orderOf (3 : ZMod 257) = 2 ^ 8 := by
  have : Fact (Nat.Prime 2) := ⟨Nat.prime_two⟩
  have hminus : (3 : ZMod 257) ^ 2 ^ 7 = -1 := by
    calc (3 : ZMod 257) ^ 2 ^ 7 = (((3 ^ 16) ^ 2) ^ 2) ^ 2 := by simp only [← pow_mul]; norm_num
      _ = -1 := by decide
  refine orderOf_eq_prime_pow ?_ ?_
  · rw [hminus]
    decide
  · rw [pow_succ, pow_mul, hminus, neg_one_sq]

theorem mod_pos (i : Nat) : 0 < 3 ^ i % 257 := by
  refine Nat.pos_of_ne_zero fun hzero => ?_
  have hcoprime : Nat.Coprime 257 (3 ^ i) := Nat.Coprime.pow_right i (by decide)
  exact absurd (hcoprime.eq_one_of_dvd (Nat.dvd_of_mod_eq_zero hzero)) (by decide)

theorem get_injective : Function.Injective powers.get := by
  intro i j hij
  have hval : 3 ^ i.val % 257 - 1 = 3 ^ j.val % 257 - 1 := by
    rw [← val_get, ← val_get, hij]
  have hmod : 3 ^ i.val ≡ 3 ^ j.val [MOD 257] := by
    have hi := mod_pos i.val
    have hj := mod_pos j.val
    unfold Nat.ModEq
    omega
  have hpow : (3 : ZMod 257) ^ i.val = 3 ^ j.val := by exact_mod_cast (ZMod.natCast_eq_natCast_iff _ _ _).2 hmod
  exact Fin.ext (pow_injOn_Iio_orderOf (by simp [orderOf_three]) (by simp [orderOf_three]) hpow)

theorem value3_eq : (Lattice.ofTable powers).value3 8 253 219 (1 / 2 : ℚ) (1 / 2) (1 / 3) = 169 / 162 := by
  simp only [Lattice.value3, look_eq, Exact.nat_eq]
  norm_num [slope3, lerp, fade_eq]

theorem noise3_eq : (Lattice.ofTable powers).noise3 (17 / 2 : ℚ) (507 / 2) (658 / 3) = 169 / 162 := by
  have hx : cell (17 / 2 : ℚ) = (8, 1 / 2) := by decide +kernel
  have hy : cell (507 / 2 : ℚ) = (253, 1 / 2) := by decide +kernel
  have hz : cell (658 / 3 : ℚ) = (219, 1 / 3) := by decide +kernel
  rw [Lattice.noise3, hx, hy, hz]
  exact value3_eq

end powers

/-- With a table of the numbers 0 to 255, each of them once, a single octave in space whose weight is one is greater than
one. -/
theorem Field.sample_above_one :
    Function.Injective powers.get ∧
      let f : Field ℚ := { lattice := some (.ofTable powers), seed := none, octaves := 1, falloff := 1 }
      weight f.falloff f.octaves = 1 ∧
        (f.sample (.space (17 / 2) (507 / 2) (658 / 3)) (Random.Generator.ofSeed 0)).1 = 331 / 324 := by
  refine ⟨powers.get_injective, by norm_num [weight], ?_⟩
  rw [sample_fst, addOctaves_succ]
  norm_num [addOctaves, Point.scale, Lattice.at, getLattice, powers.noise3_eq]

end LiveSketch.Noise

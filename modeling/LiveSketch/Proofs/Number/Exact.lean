import Mathlib.Algebra.Order.Field.Basic
import Mathlib.Algebra.Order.Floor.Ring
import Mathlib.Data.Rat.Floor
import LiveSketch.Number.Scalar

/-!
# Exact arithmetic

What holds of the geometry itself is stated over numbers whose sums and products are exact and that can all be compared:
an ordered field (`Exact`). The sine, the cosine and the roundings are whatever they are. No double arithmetic is of this
kind. Where places in the cells of a grid matter, the floor is the greatest integer not above, and the cells that 64-bit
integers number are numbered modulo 256 (`Gridded`).
-/
namespace LiveSketch

/-- An ordered field whose own operations are the ones that scenes are computed with. -/
class Exact (K : Type) extends Field K, LinearOrder K, IsStrictOrderedRing K, Scalar K where
  ofDecimal_def : ∀ m places : Nat, ofDecimal m places = (m : K) / 10 ^ places
  less_def : ∀ x y : K, less x y = decide (x < y)
  isUnordered_def : ∀ x : K, isUnordered x = false

namespace Exact

variable {K : Type} [Exact K]

@[simp] theorem ofDecimal_eq (m places : Nat) : (Scalar.ofDecimal m places : K) = m / 10 ^ places := ofDecimal_def m places

@[simp] theorem less_eq (x y : K) : Scalar.less x y = decide (x < y) := less_def x y

@[simp] theorem nat_eq (n : Nat) : (Scalar.nat n : K) = n := by
  rw [Scalar.nat, ofDecimal_eq, pow_zero, div_one]

@[simp] theorem abs_eq (x : K) : Scalar.abs x = |x| := by
  by_cases h : x < 0
  · simp [Scalar.abs, h, abs_of_neg h]
  · simp [Scalar.abs, h, abs_of_nonneg (not_lt.1 h)]

end Exact

/-- Numbers from `-2 ^ 63` up to `2 ^ 63`: their floors are 64-bit integers. -/
def Numbered {K : Type} [Exact K] (v : K) : Prop := ((-2 ^ 63 : ℤ) : K) ≤ v ∧ v < ((2 ^ 63 : ℤ) : K)

/-- Exact numbers with their floors. Nothing is said of the index of a cell that no 64-bit integer numbers. -/
class Gridded (K : Type) [Exact K] [FloorRing K] : Prop where
  floor_def : ∀ v : K, Scalar.floor v = (⌊v⌋ : K)
  cellIndex_def : ∀ v : K, Numbered v → Scalar.cellIndex (⌊v⌋ : K) = (⌊v⌋ % 256).toNat

/-- The rational numbers. Nothing that is stated about them asks for a sine. An integer that is too large is the greatest or
the least 64-bit one before it wraps. -/
instance : Exact ℚ where
  ofDecimal m places := m / 10 ^ places
  less x y := decide (x < y)
  isUnordered _ := false
  sine _ := 0
  cosine _ := 1
  floor v := ⌊v⌋
  roundNat v := ⌊v + 1 / 2⌋₊
  cellIndex v := (max (-2 ^ 63) (min ⌊v⌋ (2 ^ 63 - 1)) % 256).toNat
  ofDecimal_def _ _ := rfl
  less_def _ _ := rfl
  isUnordered_def _ := rfl

instance : Gridded ℚ where
  floor_def _ := rfl
  cellIndex_def v h := by
    have hlow : -2 ^ 63 ≤ ⌊v⌋ := Int.le_floor.2 (by exact_mod_cast h.1)
    have hhigh : ⌊v⌋ < 2 ^ 63 := Int.floor_lt.2 (by exact_mod_cast h.2)
    change (max (-2 ^ 63) (min ⌊(⌊v⌋ : ℚ)⌋ (2 ^ 63 - 1)) % 256).toNat = _
    rw [Int.floor_intCast, min_eq_left (by omega), max_eq_right hlow]

end LiveSketch

import Mathlib.Tactic.Ring
import LiveSketch.Proofs.Number.Exact
import LiveSketch.Transform

/-!
# Transforms as maps of points

`Transform.apply` does not look at the last row of a matrix. So a product is the one map after the other only where the
last row of what is applied first is that of the identity (`Transform.apply_mul`); such transforms are affine, and all
that a sketch builds are. The maps of the elementary transforms are written out beside them.
-/
namespace LiveSketch

variable {K : Type} [Exact K]

namespace Vec3

/-- Moves a point by a vector. -/
def shift (v p : Vec3 K) : Vec3 K := ⟨p.x + v.x, p.y + v.y, p.z + v.z⟩

/-- Scales every component of a point by its factor. -/
def stretch (v p : Vec3 K) : Vec3 K := ⟨v.x * p.x, v.y * p.y, v.z * p.z⟩

/-- Turns a point about the x axis, from the y axis towards the z axis. -/
def turnX (angle : K) (p : Vec3 K) : Vec3 K :=
  ⟨p.x, Scalar.cosine angle * p.y - Scalar.sine angle * p.z, Scalar.sine angle * p.y + Scalar.cosine angle * p.z⟩

/-- Turns a point about the y axis, from the z axis towards the x axis. -/
def turnY (angle : K) (p : Vec3 K) : Vec3 K :=
  ⟨Scalar.sine angle * p.z + Scalar.cosine angle * p.x, p.y, Scalar.cosine angle * p.z - Scalar.sine angle * p.x⟩

/-- Turns a point about the z axis, from the x axis towards the y axis. -/
def turnZ (angle : K) (p : Vec3 K) : Vec3 K :=
  ⟨Scalar.cosine angle * p.x - Scalar.sine angle * p.y, Scalar.sine angle * p.x + Scalar.cosine angle * p.y, p.z⟩

/-- Turns a point about the x axis, then about the y axis, then about the z axis. -/
def turn (angles p : Vec3 K) : Vec3 K := turnZ angles.z (turnY angles.y (turnX angles.x p))

end Vec3

namespace Transform

/-- The last row is that of the identity. -/
structure IsAffine (m : Transform K) : Prop where
  x : m.entry 3 0 = 0
  y : m.entry 3 1 = 0
  z : m.entry 3 2 = 0
  one : m.entry 3 3 = 1

omit [Exact K] in
theorem entry_ofEntries (f : Fin 4 → Fin 4 → K) (row column : Fin 4) :
    (ofEntries f).entry row column = f row column := by
  simp only [entry, ofEntries, Vector.getElem_ofFn]
  congr 1
  · ext
    simp only
    omega
  · ext
    simp only
    omega

/-! ## Products -/

theorem entry_mul (a b : Transform K) (row column : Fin 4) :
    (a * b).entry row column = a.entry row 0 * b.entry 0 column + a.entry row 1 * b.entry 1 column
      + a.entry row 2 * b.entry 2 column + a.entry row 3 * b.entry 3 column := by
  change (mul a b).entry row column = _
  rw [mul, entry_ofEntries, Exact.nat_eq, Nat.cast_zero, zero_add]

theorem IsAffine.mul {a b : Transform K} (ha : a.IsAffine) (hb : b.IsAffine) : (a * b).IsAffine := by
  constructor <;> simp [entry_mul, ha.x, ha.y, ha.z, ha.one, hb.x, hb.y, hb.z, hb.one]

/-- A product applies its second factor first. -/
theorem apply_mul {b : Transform K} (hb : b.IsAffine) (a : Transform K) (p : Vec3 K) :
    (a * b).apply p = a.apply (b.apply p) := by
  simp only [apply, applyRow, entry_mul, hb.x, hb.y, hb.z, hb.one, Vec3.mk.injEq]
  refine ⟨?_, ?_, ?_⟩ <;> ring

/-! ## Elementary transforms -/

theorem affine_identity : (identity : Transform K).IsAffine := by
  constructor <;> simp [identity, entry_ofEntries]

theorem apply_identity (p : Vec3 K) : (identity : Transform K).apply p = p := by
  simp [identity, apply, applyRow, entry_ofEntries]

theorem affine_ofRows (x y z : Vector K 4) :
    (ofRows #v[x, y, z, #v[Scalar.nat 0, Scalar.nat 0, Scalar.nat 0, Scalar.nat 1]]).IsAffine where
  x := (entry_ofEntries _ 3 0).trans ((Exact.nat_eq 0).trans Nat.cast_zero)
  y := (entry_ofEntries _ 3 1).trans ((Exact.nat_eq 0).trans Nat.cast_zero)
  z := (entry_ofEntries _ 3 2).trans ((Exact.nat_eq 0).trans Nat.cast_zero)
  one := (entry_ofEntries _ 3 3).trans ((Exact.nat_eq 1).trans Nat.cast_one)

theorem apply_ofRows (x y z last : Vector K 4) (p : Vec3 K) :
    (ofRows #v[x, y, z, last]).apply p =
      ⟨x[0] * p.x + x[1] * p.y + x[2] * p.z + x[3], y[0] * p.x + y[1] * p.y + y[2] * p.z + y[3],
        z[0] * p.x + z[1] * p.y + z[2] * p.z + z[3]⟩ := by
  simp only [apply, applyRow, ofRows, entry_ofEntries]
  rfl

theorem affine_displacement (v : Vec3 K) : (displacement v).IsAffine := affine_ofRows _ _ _

theorem apply_displacement (v p : Vec3 K) : (displacement v).apply p = v.shift p := by
  simp [displacement, apply_ofRows, Vec3.shift]

theorem affine_scaling (v : Vec3 K) : (scaling v).IsAffine := affine_ofRows _ _ _

theorem apply_scaling (v p : Vec3 K) : (scaling v).apply p = v.stretch p := by
  simp [scaling, apply_ofRows, Vec3.stretch]

theorem affine_rotationX (angle : K) : (rotationX angle).IsAffine := affine_ofRows _ _ _

theorem affine_rotationY (angle : K) : (rotationY angle).IsAffine := affine_ofRows _ _ _

theorem affine_rotationZ (angle : K) : (rotationZ angle).IsAffine := affine_ofRows _ _ _

theorem apply_rotationX (angle : K) (p : Vec3 K) : (rotationX angle).apply p = Vec3.turnX angle p := by
  simp only [rotationX, apply_ofRows, Vec3.turnX]
  simp [sub_eq_add_neg]

theorem apply_rotationY (angle : K) (p : Vec3 K) : (rotationY angle).apply p = Vec3.turnY angle p := by
  simp only [rotationY, apply_ofRows, Vec3.turnY]
  simp [sub_eq_add_neg, add_comm]

theorem apply_rotationZ (angle : K) (p : Vec3 K) : (rotationZ angle).apply p = Vec3.turnZ angle p := by
  simp only [rotationZ, apply_ofRows, Vec3.turnZ]
  simp [sub_eq_add_neg]

theorem affine_rotation (angles : Vec3 K) : (rotation angles).IsAffine :=
  ((affine_rotationZ angles.z).mul (affine_rotationY angles.y)).mul (affine_rotationX angles.x)

theorem apply_rotation (angles p : Vec3 K) : (rotation angles).apply p = angles.turn p := by
  rw [rotation, apply_mul (affine_rotationX angles.x), apply_mul (affine_rotationY angles.y), apply_rotationX,
    apply_rotationY, apply_rotationZ, Vec3.turn]

end Transform

end LiveSketch

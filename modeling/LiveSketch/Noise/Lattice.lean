import LiveSketch.Number.Scalar
import LiveSketch.Random.Draw

/-!
# Gradient noise on a lattice

The lattice is a shuffled table of the numbers 0 to 255, written twice, which gives every corner of
the unit grid a gradient. The value at a point is interpolated between the gradients at the corners of
its cell, in one, two or three dimensions. Cells repeat after 256 in each direction.

Look-ups use indices below 512, the size of the table: a cell index is below 256, one table entry is
below 256, and a corner adds one.
-/
namespace LiveSketch.Noise

/-- The table that gradients are looked up in. -/
structure Lattice where
  table : Vector (Fin 256) 512
  deriving DecidableEq, Repr

namespace Lattice

/-- The numbers 0 to 255 in order. -/
def ordered : Vector (Fin 256) 256 := Vector.ofFn id

/-- Exchanges place `i` with a drawn one. -/
def shuffleStep (s : Vector (Fin 256) 256 × Random.Generator) (i : Fin 256) :
    Vector (Fin 256) 256 × Random.Generator :=
  let (j, g) := s.2.below256
  (s.1.swap i j, g)

/-- Exchanges each place in turn with a drawn one. -/
def shuffle (v : Vector (Fin 256) 256) (g : Random.Generator) :
    Vector (Fin 256) 256 × Random.Generator :=
  (List.finRange 256).foldl shuffleStep (v, g)

/-- The lattice of a table of 256 entries: the table twice. -/
def ofTable (half : Vector (Fin 256) 256) : Lattice := ⟨half ++ half⟩

/-- A lattice drawn from a generator. -/
def draw (g : Random.Generator) : Lattice × Random.Generator :=
  let (half, g) := shuffle ordered g
  (ofTable half, g)

/-- The table entry at an index, which wraps around at the size of the table. -/
def look (l : Lattice) (i : Nat) : Nat := l.table.get ⟨i % 512, Nat.mod_lt _ (by decide)⟩

end Lattice

section

variable {α : Type} [Scalar α]

/-- The lattice cell of a coordinate, and the place inside the cell. -/
def cell (v : α) : Nat × α :=
  let floor := Scalar.floor v
  (Scalar.cellIndex floor, v - floor)

/-- The weight of the upper corner at a place inside a cell. -/
def fade (t : α) : α := (Scalar.nat 3 - Scalar.nat 2 * t) * t * t

/-- From `a` to `b` as `t` goes from zero to one. -/
def lerp (t a b : α) : α := a + t * (b - a)

/-- The gradient numbered `h` along a line. -/
def slope1 (h : Nat) (x : α) : α := if h % 2 = 0 then -x else x

/-- The gradient numbered `h` in the plane. -/
def slope2 (h : Nat) (x y : α) : α :=
  let v := if h % 2 = 0 then x else y
  if h / 2 % 2 = 0 then -v else v

/-- The gradient numbered `h` in space. -/
def slope3 (h : Nat) (x y z : α) : α :=
  let h := h % 16
  let u := if h < 8 then x else y
  let v := if h < 4 then y else if h = 12 ∨ h = 14 then x else z
  (if h % 2 = 0 then u else -u) + (if h / 2 % 2 = 0 then v else -v)

namespace Lattice

/-- The value inside the cell `xi` of a line. -/
def value1 (l : Lattice) (xi : Nat) (x : α) : α :=
  let one : α := Scalar.nat 1
  lerp (fade x) (slope1 (l.look xi) x) (slope1 (l.look (xi + 1)) (x - one))

/-- The value inside the cell `(xi, yi)` of the plane. -/
def value2 (l : Lattice) (xi yi : Nat) (x y : α) : α :=
  let one : α := Scalar.nat 1
  let p0 := l.look xi + yi
  let p1 := l.look (xi + 1) + yi
  lerp (fade y)
    (lerp (fade x) (slope2 (l.look p0) x y) (slope2 (l.look p1) (x - one) y))
    (lerp (fade x) (slope2 (l.look (p0 + 1)) x (y - one)) (slope2 (l.look (p1 + 1)) (x - one) (y - one)))

/-- The value inside the cell `(xi, yi, zi)` of space. -/
def value3 (l : Lattice) (xi yi zi : Nat) (x y z : α) : α :=
  let o : α := Scalar.nat 0
  let one : α := Scalar.nat 1
  let p0 := l.look xi + yi
  let p00 := l.look p0 + zi
  let p01 := l.look (p0 + 1) + zi
  let p1 := l.look (xi + 1) + yi
  let p10 := l.look p1 + zi
  let p11 := l.look (p1 + 1) + zi
  let corner (i : Nat) (dx dy dz : α) : α := slope3 (l.look i) (x - dx) (y - dy) (z - dz)
  lerp (fade z)
    (lerp (fade y)
      (lerp (fade x) (corner p00 o o o) (corner p10 one o o))
      (lerp (fade x) (corner p01 o one o) (corner p11 one one o)))
    (lerp (fade y)
      (lerp (fade x) (corner (p00 + 1) o o one) (corner (p10 + 1) one o one))
      (lerp (fade x) (corner (p01 + 1) o one one) (corner (p11 + 1) one one one)))

/-- The value at a point of the line. -/
def noise1 (l : Lattice) (x : α) : α :=
  let (xi, x) := cell x
  l.value1 xi x

/-- The value at a point of the plane. -/
def noise2 (l : Lattice) (x y : α) : α :=
  let (xi, x) := cell x
  let (yi, y) := cell y
  l.value2 xi yi x y

/-- The value at a point of space. -/
def noise3 (l : Lattice) (x y z : α) : α :=
  let (xi, x) := cell x
  let (yi, y) := cell y
  let (zi, z) := cell z
  l.value3 xi yi zi x y z

end Lattice

end

end LiveSketch.Noise

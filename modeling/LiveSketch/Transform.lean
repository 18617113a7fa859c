import LiveSketch.Number.Scalar

/-!
# Transforms

A transform is a 4 by 4 matrix in column-major order. `a * b` applies `b` first. `Transform.apply`
maps a point, which is a vector with fourth component one.
-/
namespace LiveSketch

/-- A point or an extent in space. -/
structure Vec3 (α : Type) where
  x : α
  y : α
  z : α
  deriving DecidableEq, Repr

/-- The same value in every component. -/
def Vec3.spread {α : Type} (v : α) : Vec3 α := ⟨v, v, v⟩

/-- A 4 by 4 matrix, column after column. -/
structure Transform (α : Type) where
  entries : Vector α 16
  deriving DecidableEq, Repr

namespace Transform

variable {α : Type} [Scalar α]

/-- The entry of a row and a column. -/
def entry (m : Transform α) (row column : Fin 4) : α :=
  m.entries[column.val * 4 + row.val]

/-- The matrix with these entries. -/
def ofEntries (f : (row column : Fin 4) → α) : Transform α :=
  ⟨Vector.ofFn fun i : Fin 16 => f ⟨i.val % 4, Nat.mod_lt _ (by decide)⟩ ⟨i.val / 4, by omega⟩⟩

/-- The transform that leaves every point in place. -/
def identity : Transform α :=
  ofEntries fun row column => Scalar.nat (if row = column then 1 else 0)

/-- Row times column, summed from the left. -/
def mul (a b : Transform α) : Transform α :=
  ofEntries fun row column =>
    Scalar.nat 0 + a.entry row 0 * b.entry 0 column + a.entry row 1 * b.entry 1 column
      + a.entry row 2 * b.entry 2 column + a.entry row 3 * b.entry 3 column

instance : Mul (Transform α) := ⟨mul⟩

/-- The matrix given row by row. -/
def ofRows (rows : Vector (Vector α 4) 4) : Transform α :=
  ofEntries fun row column => rows[row][column]

/-- Moves every point by a vector. -/
def displacement (v : Vec3 α) : Transform α :=
  let o : α := Scalar.nat 0
  let l : α := Scalar.nat 1
  ofRows #v[#v[l, o, o, v.x], #v[o, l, o, v.y], #v[o, o, l, v.z], #v[o, o, o, l]]

/-- Scales every component by its factor. -/
def scaling (v : Vec3 α) : Transform α :=
  let o : α := Scalar.nat 0
  let l : α := Scalar.nat 1
  ofRows #v[#v[v.x, o, o, o], #v[o, v.y, o, o], #v[o, o, v.z, o], #v[o, o, o, l]]

/-- Turns about the x axis by an angle in radians. -/
def rotationX (angle : α) : Transform α :=
  let o : α := Scalar.nat 0
  let l : α := Scalar.nat 1
  let s := Scalar.sine angle
  let c := Scalar.cosine angle
  ofRows #v[#v[l, o, o, o], #v[o, c, -s, o], #v[o, s, c, o], #v[o, o, o, l]]

/-- Turns about the y axis by an angle in radians. -/
def rotationY (angle : α) : Transform α :=
  let o : α := Scalar.nat 0
  let l : α := Scalar.nat 1
  let s := Scalar.sine angle
  let c := Scalar.cosine angle
  ofRows #v[#v[c, o, s, o], #v[o, l, o, o], #v[-s, o, c, o], #v[o, o, o, l]]

/-- Turns about the z axis by an angle in radians. -/
def rotationZ (angle : α) : Transform α :=
  let o : α := Scalar.nat 0
  let l : α := Scalar.nat 1
  let s := Scalar.sine angle
  let c := Scalar.cosine angle
  ofRows #v[#v[c, -s, o, o], #v[s, c, o, o], #v[o, o, l, o], #v[o, o, o, l]]

/-- Turns about the x axis, then the y axis, then the z axis. -/
def rotation (angles : Vec3 α) : Transform α :=
  rotationZ angles.z * rotationY angles.y * rotationX angles.x

/-- One component of the image of a point. -/
def applyRow (m : Transform α) (p : Vec3 α) (row : Fin 4) : α :=
  m.entry row 0 * p.x + m.entry row 1 * p.y + m.entry row 2 * p.z + m.entry row 3

/-- The image of a point. -/
def apply (m : Transform α) (p : Vec3 α) : Vec3 α :=
  ⟨m.applyRow p 0, m.applyRow p 1, m.applyRow p 2⟩

end Transform

end LiveSketch

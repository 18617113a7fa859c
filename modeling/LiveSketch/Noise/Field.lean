import LiveSketch.Noise.Lattice

/-!
# The noise of a sketch

A noise field is a lattice and how many octaves of it are summed. The lattice is drawn when the first
value is asked for: from the seed of the field if it has one, else from the generator of the sketch,
so that a seeded sketch sees the same noise on every run.
-/
namespace LiveSketch.Noise

/-- The greatest number of octaves. -/
def maxOctaves : Nat := 32

/-- The state behind the noise of a sketch. -/
structure Field (α : Type) where
  lattice : Option Lattice
  seed : Option UInt64
  octaves : Nat
  /-- How much weaker each octave is than the one before. -/
  falloff : α
  deriving DecidableEq, Repr

/-- The coordinates of a sample. -/
inductive Point (α : Type) where
  | line (x : α)
  | plane (x y : α)
  | space (x y z : α)
  deriving DecidableEq, Repr

namespace Point

/-- The point with these one to three coordinates. -/
def ofList? {α : Type} : List α → Option (Point α)
  | [x] => some (line x)
  | [x, y] => some (plane x y)
  | [x, y, z] => some (space x y z)
  | _ => none

/-- The point `k` times as far out. -/
def scale {α : Type} [Scalar α] (k : α) : Point α → Point α
  | line x => line (k * x)
  | plane x y => plane (k * x) (k * y)
  | space x y z => space (k * x) (k * y) (k * z)

end Point

/-- The value of one octave at a point. -/
def Lattice.at {α : Type} [Scalar α] (l : Lattice) : Point α → α
  | .line x => l.noise1 x
  | .plane x y => l.noise2 x y
  | .space x y z => l.noise3 x y z

namespace Field

variable {α : Type} [Scalar α]

/-- Four octaves, each half as strong as the one before. -/
def standard : Field α :=
  { lattice := none, seed := none, octaves := 4, falloff := Scalar.ofDecimal 5 1 }

/-- Sets the number of octaves, and the falloff if one is given. -/
def setDetail (f : Field α) (octaves : Nat) (falloff : Option α) : Field α :=
  { f with octaves := min octaves maxOctaves, falloff := falloff.getD f.falloff }

/-- Makes the next sample draw a lattice from this seed. -/
def reseed (f : Field α) (seed : UInt64) : Field α :=
  { f with seed := some seed, lattice := none }

/-- The lattice of the field, drawn if there is none yet. -/
def getLattice (f : Field α) (g : Random.Generator) : Lattice × Random.Generator :=
  match f.lattice, f.seed with
  | some l, _ => (l, g)
  | none, some seed => ((Lattice.draw (Random.Generator.ofSeed seed)).1, g)
  | none, none => Lattice.draw g

/-- Adds `n` octaves to `sum`. The frequency `k` doubles and the strength falls with each. -/
def addOctaves (l : Lattice) (falloff : α) (p : Point α) : Nat → (effect k sum : α) → α
  | 0, _, _, sum => sum
  | n + 1, effect, k, sum =>
    let effect := effect * falloff
    let value := l.at (p.scale k)
    addOctaves l falloff p n effect (k * Scalar.nat 2)
      (sum + effect * (Scalar.nat 1 + value) / Scalar.nat 2)

/-- The noise at a point: the sum of the octaves, each mapped from `[-1, 1]` to `[0, 1]` and weighted
with its strength. -/
def sample (f : Field α) (p : Point α) (g : Random.Generator) :
    α × Field α × Random.Generator :=
  let (l, g) := f.getLattice g
  (addOctaves l f.falloff p f.octaves (Scalar.nat 1) (Scalar.nat 1) (Scalar.nat 0),
    { f with lattice := some l }, g)

end Field

end LiveSketch.Noise

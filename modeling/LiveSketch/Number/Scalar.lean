import LiveSketch.Number.Arithmetic

/-!
# The arithmetic that geometry needs

Colours, transforms, the scene recorder and the noise field are written over any number type with
the operations of `Scalar`. The program runs them on doubles; a statement about the geometry itself
reads them over an ordered field, where sums are exact and nothing is a NaN.
-/
namespace LiveSketch

/-- Numbers that a scene can be computed with. -/
class Scalar (α : Type) extends Add α, Sub α, Mul α, Div α, Neg α where
  /-- The number `m / 10 ^ places`. -/
  ofDecimal (m places : Nat) : α
  less : α → α → Bool
  /-- Whether this is a value that no number compares with. -/
  isUnordered : α → Bool
  sine : α → α
  cosine : α → α
  /-- The greatest integer not above. -/
  floor : α → α
  /-- The nearest natural number, halves going up; zero for what is no number. -/
  roundNat : α → Nat
  /-- An integer modulo 256: the lattice cell that it falls into. -/
  cellIndex : α → Nat

namespace Scalar

variable {α : Type} [Scalar α]

/-- A natural number. -/
def nat (n : Nat) : α := ofDecimal n 0

/-- The magnitude. -/
def abs (x : α) : α := if less x (nat 0) then -x else x

/-- The larger operand, and the second of equal ones; what is no number is ignored. -/
def maximum (x y : α) : α :=
  if less y x || isUnordered y then x else y

/-- The nearest value in the range; what is no number stays. -/
def clamp (low high x : α) : α :=
  if less x low then low else if less high x then high else x

end Scalar

/-- Doubles. A cell index saturates with the 64-bit integers before it wraps. -/
instance : Scalar Float where
  ofDecimal m places := Float.ofScientific m true places
  less x y := x < y
  isUnordered := Float.isNaN
  sine := Float.sin
  cosine := Float.cos
  floor := Float.floor
  roundNat := Number.toNearest
  cellIndex x := if x.isFinite then (x.toInt64.toInt % 256).toNat else 0

end LiveSketch

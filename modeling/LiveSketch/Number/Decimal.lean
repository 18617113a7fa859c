import LiveSketch.Number.Binary

/-!
# The fewest digits that identify a double

The reals that round to a double form an interval around it: from halfway to the neighbour below to
halfway to the neighbour above, ends included exactly when the mantissa is even. `shortest` gives
the decimal with the fewest digits inside that interval, and of two such decimals the closer one.

All candidates are compared on one grid, the one on which the double has seventeen digits. A
coarser grid is a step of a power of ten on it.
-/
namespace LiveSketch.Number

/-- The non-negative decimal number `digits * 10 ^ exponent`. -/
structure Decimal where
  digits : Nat
  exponent : Int
  deriving DecidableEq, Repr

/-- Which of two equally close decimals is taken. -/
inductive Tie where
  /-- The one whose last digit is even. -/
  | toEven
  /-- The larger one. -/
  | up
  deriving DecidableEq, Repr

namespace Decimal

/-- `m * 2 ^ e / 10 ^ g` as a fraction of naturals. -/
def ratio (m : Nat) (e g : Int) : Nat × Nat :=
  ((m * Nat.pow 10 (-g).toNat) <<< e.toNat, Nat.pow 10 g.toNat <<< (-e).toNat)

/-- Whether `m * 2 ^ e < 10 ^ k`. -/
def below (m : Nat) (e k : Int) : Bool :=
  let (num, den) := ratio m e k
  num < den

/-- The number of digits before the point of `m * 2 ^ e`: the least `k` with `m * 2 ^ e < 10 ^ k`.
The binary logarithm fixes it up to two steps. -/
def magnitude (m : Nat) (e : Int) : Int :=
  let guess := ((m.log2 : Int) + e) * 30103 / 100000 - 1
  if below m e guess then guess
  else if below m e (guess + 1) then guess + 1
  else if below m e (guess + 2) then guess + 2
  else guess + 3

/-- Moves trailing zeros of the digits into the exponent; `fuel` bounds their number. -/
def stripZeros : Nat → Decimal → Decimal
  | 0, d => d
  | fuel + 1, d =>
    if d.digits % 10 == 0 && d.digits != 0 then stripZeros fuel ⟨d.digits / 10, d.exponent + 1⟩ else d

/-- A double on the grid on which it has seventeen digits: `floor + remainder / unit` steps, and
the whole steps `low` to `high` that read back as this double. -/
structure Grid where
  exponent : Int
  floor : Nat
  remainder : Nat
  unit : Nat
  low : Nat
  high : Nat

/-- The grid of a non-zero double. -/
def grid (b : Binary) : Grid :=
  let g := magnitude b.mantissa b.exponent - 17
  let (num, den) := ratio (4 * b.mantissa) (b.exponent - 2) g
  let (numLow, _) := ratio (if b.narrowBelow then 4 * b.mantissa - 1 else 4 * b.mantissa - 2) (b.exponent - 2) g
  let (numHigh, _) := ratio (4 * b.mantissa + 2) (b.exponent - 2) g
  let closed := b.mantissa % 2 == 0
  { exponent := g
    floor := num / den
    remainder := num % den
    unit := den
    low := if closed && numLow % den == 0 then numLow / den else numLow / den + 1
    high := if !closed && numHigh % den == 0 then numHigh / den - 1 else numHigh / den }

/-- The decimal of `n` digits that reads back, the closer one if there are two. -/
def Grid.pick? (tie : Tie) (g : Grid) (n : Nat) : Option Decimal :=
  let step := Nat.pow 10 (17 - n)
  let below := g.floor / step * step
  let above := below + step
  let fits (c : Nat) : Bool := g.low ≤ c && c ≤ g.high
  let take (c : Nat) : Option Decimal := some ⟨c / step, g.exponent + (17 - n)⟩
  if fits below && fits above then
    let twice := 2 * (g.floor * g.unit + g.remainder)
    let middle := (below + above) * g.unit
    if twice < middle then take below
    else if middle < twice then take above
    else match tie with
      | .up => take above
      | .toEven => if below / step % 2 == 0 then take below else take above
  else if fits below then take below
  else if fits above then take above
  else none

/-- The fewest digits that read back as the magnitude of `b`. -/
def shortest (tie : Tie) (b : Binary) : Decimal :=
  if b.mantissa == 0 then ⟨0, 0⟩
  else
    let g := grid b
    match (List.range 17).findSome? fun n => g.pick? tie (n + 1) with
    | some d => stripZeros 17 d
    | none => stripZeros 17 ⟨g.floor, g.exponent⟩

end Decimal

end LiveSketch.Number

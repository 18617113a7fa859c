import LiveSketch.Number.Binary

/-!
# Arithmetic on doubles

The operations on doubles that sketches use and that are more than one machine operation:

* `remainder`: the exact remainder of a division that rounds towards zero;
* `hypotenuse`: the length of a vector in the plane, correctly rounded, without overflow on the way;
* `minimum`, `maximum`: a NaN operand is ignored, and of zeros with both signs the second counts;
* `clamp`: into a range, a NaN stays;
* `truncate`, `toCount`, `toNearest`, `toSeed`: integers, saturating at the ends of their range.
-/
namespace LiveSketch.Number

/-- `x - y * trunc (x / y)`, exactly; the sign is that of `x`. -/
def remainder (x y : Float) : Float :=
  match Binary.ofFloat? x, Binary.ofFloat? y with
  | some a, some b =>
    if b.mantissa == 0 then 0.0 / 0.0
    else
      let e := min a.exponent b.exponent
      let m := (a.mantissa <<< (a.exponent - e).toNat) % (b.mantissa <<< (b.exponent - e).toNat)
      nearest a.negative m e
  | some _, none => if y.isNaN then y else x
  | none, _ => 0.0 / 0.0

/-- The length of the vector `(x, y)`. An infinite component makes it infinite, whatever the other.
The root is taken to over a hundred bits and its last bit tells whether it is exact, so that one
rounding gives the nearest double. -/
def hypotenuse (x y : Float) : Float :=
  match Binary.ofFloat? x, Binary.ofFloat? y with
  | some a, some b =>
    let e := min a.exponent b.exponent
    let x := a.mantissa <<< (a.exponent - e).toNat
    let y := b.mantissa <<< (b.exponent - e).toNat
    let n := (x * x + y * y) <<< 240
    let root := n.sqrt
    nearest false (2 * root + (if root * root == n then 0 else 1)) (e - 121)
  | _, _ => if x.isInf || y.isInf then 1.0 / 0.0 else 0.0 / 0.0

/-- The smaller operand, and the second of equal ones; a NaN is ignored. -/
def minimum (x y : Float) : Float :=
  if x.isNaN || y ≤ x then y else x

/-- The larger operand, and the second of equal ones; a NaN is ignored. -/
def maximum (x y : Float) : Float :=
  if x.isNaN || x ≤ y then y else x

/-- The nearest value in the range; a NaN stays. -/
def clamp (low high x : Float) : Float :=
  if x < low then low else if high < x then high else x

/-- The integer part. -/
def truncate (x : Float) : Float :=
  if x < 0 then x.ceil else x.floor

/-- The greatest unsigned 64-bit integer, at which counts saturate. -/
def wordMax : Nat := UInt64.size - 1

/-- How often a repetition with this count runs: the integer part, or not at all for a negative
count and one that is not finite. -/
def toCount (x : Float) : Nat :=
  if x.isFinite && 0 < x then x.toUInt64.toNat else 0

/-- The natural number nearest to `m * 2 ^ e`, a half going up. -/
def roundHalfUp (m : Nat) (e : Int) : Nat :=
  if 0 ≤ e then m <<< e.toNat
  else
    let places := (-e).toNat
    (2 * m + Nat.pow 2 places) / Nat.pow 2 (places + 1)

/-- The natural number nearest to a double, a half going up: zero for a negative one and for a NaN. -/
def toNearest (x : Float) : Nat :=
  match Binary.ofFloat? x with
  | some b => if b.negative then 0 else Nat.min (roundHalfUp b.mantissa b.exponent) wordMax
  | none => if 0 < x then wordMax else 0

/-- The seed that a number stands for: its integer part, negative ones wrapping around, and zero
for a number that is not finite. -/
def toSeed (x : Float) : UInt64 :=
  if x.isFinite then (truncate x).toInt64.toUInt64 else 0

end LiveSketch.Number

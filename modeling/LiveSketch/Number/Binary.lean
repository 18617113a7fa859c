/-!
# Finite doubles as exact numbers

A finite double is `± mantissa * 2 ^ exponent`, an exact number. Everything that must be exact on
doubles (their shortest text, their remainder, the length of a vector) is computed on this form and
rounded back once.

* `Binary.ofFloat?` reads the bits; a NaN or an infinity has no such form.
* `nearest` rounds any `± m * 2 ^ e` to the nearest double, ties to the even mantissa.
-/
namespace LiveSketch.Number

/-- A finite double, `± mantissa * 2 ^ exponent`. -/
structure Binary where
  negative : Bool
  mantissa : Nat
  exponent : Int
  /-- The gap to the next double towards zero is half the gap away from zero. -/
  narrowBelow : Bool
  deriving DecidableEq, Repr

namespace Binary

/-- The exact number behind a finite double. -/
def ofFloat? (x : Float) : Option Binary :=
  let bits := x.toBits
  let biased := ((bits >>> 52) &&& 0x7FF).toNat
  let fraction := (bits &&& 0xFFFFFFFFFFFFF).toNat
  let negative := bits >>> 63 == 1
  if biased == 0x7FF then none
  else if biased == 0 then some ⟨negative, fraction, -1074, false⟩
  else some ⟨negative, 0x10000000000000 + fraction, (biased : Int) - 1075, fraction == 0 && biased > 1⟩

end Binary

/-- The double nearest to `± m * 2 ^ e`, ties to the even mantissa. -/
def nearest (negative : Bool) (m : Nat) (e : Int) : Float :=
  let magnitude :=
    if 0 ≤ e then Float.ofScientific (m <<< e.toNat) false 0
    else Float.ofScientific (m * Nat.pow 5 (-e).toNat) true (-e).toNat
  if negative then -magnitude else magnitude

end LiveSketch.Number

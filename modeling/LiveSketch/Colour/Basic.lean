import LiveSketch.Number.Scalar

/-!
# Colours

A colour has four channels of eight bits, the last one its opacity. Numbers become channels by
rounding and clamping into `0` to `255`; what is no number becomes `0`.
-/
namespace LiveSketch

/-- A colour with straight opacity. -/
structure Colour where
  red : UInt8
  green : UInt8
  blue : UInt8
  alpha : UInt8
  deriving DecidableEq, Repr, Inhabited

namespace Colour

/-- A colour that nothing shines through. -/
def solid (red green blue : UInt8) : Colour := ⟨red, green, blue, 255⟩

def black : Colour := solid 0 0 0

def white : Colour := solid 255 255 255

variable {α : Type} [Scalar α]

/-- The channel nearest to a number. -/
def channel (x : α) : UInt8 :=
  UInt8.ofNat (Scalar.roundNat (Scalar.clamp (Scalar.nat 0) (Scalar.nat 255) x))

/-- The colour with these channels. -/
def ofChannels (red green blue alpha : α) : Colour :=
  ⟨channel red, channel green, channel blue, channel alpha⟩

/-- A level of grey that nothing shines through. -/
def grey (level : α) : Colour := ofChannels level level level (Scalar.nat 255)

end Colour

end LiveSketch

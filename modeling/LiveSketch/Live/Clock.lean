import LiveSketch.Number.Arithmetic
import LiveSketch.Number.Decimal
import LiveSketch.Number.Notation

/-!
# The pace of the loop

A frame rate says how long a frame lasts. The frame clock holds at most one tick that is armed; waiting
takes it.
-/
namespace LiveSketch.Live

open Number (Binary Decimal)

/-- How often a frame is due. -/
inductive FrameRate where
  | asFastAsPossible
  /-- So many frames a second; zero counts as one. -/
  | fixed (perSecond : Nat)
  deriving DecidableEq, Repr

namespace FrameRate

/-- The number of frames a second. Without a fixed rate this is the rate of a common display. -/
def perSecond : FrameRate → Nat
  | asFastAsPossible => 60
  | fixed n => max n 1

/-- The time between two frames, in nanoseconds. The time in seconds is a double first; it is rounded,
a half going to the even neighbour. -/
def nanoseconds (rate : FrameRate) : Nat :=
  match Binary.ofFloat? (1.0 / Float.ofNat rate.perSecond) with
  | none => 0
  | some b =>
    let (num, den) := Decimal.ratio b.mantissa b.exponent (-9)
    Number.roundHalfEven num den

/-- The time between two frames, in milliseconds. -/
def milliseconds (rate : FrameRate) : Float :=
  let second := 1000000000
  let n := rate.nanoseconds
  (Float.ofNat (n / second) + Float.ofNat (n % second) / Float.ofNat second) * 1000.0

end FrameRate

/-- The clock that paces the loop. -/
structure FrameClock where
  /-- The rate of the armed tick. -/
  armed : Option FrameRate := none
  /-- How often a tick was armed. -/
  scheduled : Nat := 0
  /-- How often the armed tick was given up. -/
  cancelled : Nat := 0
  deriving DecidableEq, Repr

namespace FrameClock

/-- Arms a tick in place of the armed one. -/
def schedule (c : FrameClock) (rate : FrameRate) : FrameClock :=
  { c with armed := some rate, scheduled := c.scheduled + 1 }

/-- Gives up the armed tick, if there is one. -/
def cancel (c : FrameClock) : FrameClock :=
  { c with armed := none, cancelled := c.cancelled + 1 }

/-- Takes the armed tick and says whether there was one. -/
def wait (c : FrameClock) : Bool × FrameClock := (c.armed.isSome, { c with armed := none })

end FrameClock

/-- The frame after this one; frames are 64-bit numbers, and the last one is its own successor. -/
def nextFrame (n : Nat) : Nat := min (n + 1) Number.wordMax

end LiveSketch.Live

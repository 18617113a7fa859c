import LiveSketch.Json.Basic
import LiveSketch.Json.Reading
import LiveSketch.Live.Clock

/-!
# Options of a session

Options are written as a JSON object with the fields `frame_rate` and `seed`, or as an array of the two
values. What is missing keeps its default, and other fields do not matter; a field must not come twice.
-/
namespace LiveSketch.Live

open Json (skipBlank text? natural? skipValue?)
open Text (after?)

/-- The options of a session. -/
structure Options where
  rate : FrameRate := .asFastAsPossible
  /-- Where the random numbers start; without a seed they start anywhere. -/
  seed : Option UInt64 := none
  deriving DecidableEq, Repr

namespace FrameRate

/-- The written form of a frame rate. -/
def toJson : FrameRate → Json
  | asFastAsPossible => .string "as_fast_as_possible"
  | fixed n => .object [("fixed", .number (toString n))]

/-- Reads what follows the name of a rate in an object. -/
def readPayload? (name : List Char) (cs : List Char) : Option (FrameRate × List Char) :=
  if name = "as_fast_as_possible".toList then
    (after? "null".toList cs).map fun cs => (asFastAsPossible, cs)
  else if name = "fixed".toList then
    match natural? cs with
    | some (n, cs) => if n < UInt32.size then some (fixed n, cs) else none
    | none => none
  else none

/-- Reads a frame rate: the bare name of the one that needs no number, or an object with a name and what
belongs to it. -/
def read? (cs : List Char) : Option (FrameRate × List Char) :=
  match skipBlank cs with
  | '{' :: cs => do
    let (name, cs) ← text? (skipBlank cs)
    let cs ← after? [':'] (skipBlank cs)
    let (rate, cs) ← readPayload? name (skipBlank cs)
    let cs ← after? ['}'] (skipBlank cs)
    some (rate, cs)
  | cs => do
    let (name, cs) ← text? cs
    if name = "as_fast_as_possible".toList then some (asFastAsPossible, cs) else none

end FrameRate

namespace Options

/-- The written form of options. -/
def toJson (o : Options) : Json :=
  .object [("frame_rate", o.rate.toJson),
    ("seed", match o.seed with
      | some n => .number (toString n.toNat)
      | none => .null)]

/-- Reads a seed or `null`. -/
def readSeed? (cs : List Char) : Option (Option UInt64 × List Char) :=
  let cs := skipBlank cs
  match after? "null".toList cs with
  | some cs => some (none, cs)
  | none => match natural? cs with
    | some (n, cs) => if n < UInt64.size then some (some (UInt64.ofNat n), cs) else none
    | none => none

/-- The options with the fields that were given so far. -/
structure Given where
  rate : Option FrameRate := none
  seed : Option (Option UInt64) := none

/-- The options, with defaults for what is not given. -/
def Given.complete (g : Given) : Options :=
  let standard : Options := {}
  { rate := g.rate.getD standard.rate, seed := g.seed.getD standard.seed }

/-- Reads the value of a field. -/
def readField? (fuel : Nat) (name : List Char) (g : Given) (cs : List Char) :
    Option (Given × List Char) :=
  if name = "frame_rate".toList then do
    if g.rate.isSome then none
    else
      let (rate, cs) ← FrameRate.read? cs
      some ({ g with rate := some rate }, cs)
  else if name = "seed".toList then do
    if g.seed.isSome then none
    else
      let (seed, cs) ← readSeed? cs
      some ({ g with seed := some seed }, cs)
  else (skipValue? fuel cs).map fun cs => (g, cs)

/-- Reads one or more fields and the brace after them. -/
def readFields? : (fuel : Nat) → Given → List Char → Option (Given × List Char)
  | 0, _, _ => none
  | fuel + 1, g, cs => do
    let (name, cs) ← text? (skipBlank cs)
    let cs ← after? [':'] (skipBlank cs)
    let (g, cs) ← readField? fuel name g cs
    match skipBlank cs with
    | ',' :: cs => readFields? fuel g cs
    | '}' :: cs => some (g, cs)
    | _ => none

/-- Reads the items of an array after its opening bracket: a rate, and then a seed. -/
def readItems? (cs : List Char) : Option (Given × List Char) :=
  match skipBlank cs with
  | ']' :: cs => some ({}, cs)
  | cs => do
    let (rate, cs) ← FrameRate.read? cs
    match skipBlank cs with
    | ']' :: cs => some ({ rate := some rate }, cs)
    | ',' :: cs => do
      let (seed, cs) ← readSeed? cs
      let cs ← after? [']'] (skipBlank cs)
      some ({ rate := some rate, seed := some seed }, cs)
    | _ => none

/-- Reads a whole text as options. -/
def read? (cs : List Char) : Option Options := do
  let (g, rest) ← match skipBlank cs with
    | '[' :: cs => readItems? cs
    | '{' :: cs => match skipBlank cs with
      | '}' :: cs => some (({} : Given), cs)
      | cs => readFields? (cs.length + 1) {} cs
    | _ => none
  if (skipBlank rest).isEmpty then some g.complete else none

end Options

end LiveSketch.Live

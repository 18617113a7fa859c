import LiveSketch.Autocoder.Rules

/-!
# The autocoder

The autocoder varies a sketch by changing one of its tokens at random. While it is switched on it does so
once per interval.
-/
namespace LiveSketch

/-- The least time between two variations, in milliseconds. -/
def Autocoder.interval : Float := 1000

/-- The state of the autocoder. -/
structure Autocoder where
  generator : Random.Generator
  active : Bool
  /-- When the current interval started. -/
  last : Option Float

namespace Autocoder

/-- A switched-off autocoder. -/
def ofSeed (seed : UInt64) : Autocoder := ⟨.ofSeed seed, false, none⟩

/-- Switches the autocoder to a state, or to the other one, and forgets the current interval. -/
def toggle (a : Autocoder) (forced : Option Bool) : Autocoder :=
  { a with active := forced.getD (!a.active), last := none }

/-- Whether a variation is due. The first question after switching on only starts an interval. -/
def due (a : Autocoder) (now : Float) : Bool × Autocoder :=
  if !a.active then (false, a)
  else match a.last with
    | none => (false, { a with last := some now })
    | some last =>
      if now - last < interval then (false, a) else (true, { a with last := some now })

/-- The places of the tokens that can be varied. -/
def mutablePlaces (ts : List Token) : List Nat :=
  (List.range ts.length).filter fun i => (ts[i]?).any (·.isMutable)

/-- The sketch with one of its tokens varied. There is none if the sketch cannot be split into tokens or
none of them can be varied. -/
def mutate (a : Autocoder) (sketch : List Char) : Option (List Char) × Autocoder :=
  match tokenize sketch with
  | .error _ => (none, a)
  | .ok ts =>
    let (place, g) := a.generator.choose? (mutablePlaces ts)
    match place, place.bind (ts[·]?) with
    | some i, some t =>
      let (t, g) := t.mutate g
      (some (emit (ts.set i t)), { a with generator := g })
    | _, _ => (none, { a with generator := g })

end Autocoder

end LiveSketch

import LiveSketch.Colour.Basic
import LiveSketch.Number.Notation
import LiveSketch.Value.Fault

/-!
# Values

A value of a running sketch is a number, a truth value, a text or a colour. Truth values count as
numbers, and every value has a truth. `Colour.ofValues` reads the arguments of a call as a colour.
-/
namespace LiveSketch

/-- A value over a number type. -/
inductive Value (α : Type) where
  | number (x : α)
  | bool (b : Bool)
  | string (s : String)
  | colour (c : Colour)
  deriving DecidableEq, Repr

namespace Value

/-- The kind of a value. -/
def type {α : Type} : Value α → ValueType
  | number _ => .number
  | bool _ => .bool
  | string _ => .string
  | colour _ => .colour

section

variable {α : Type} [Scalar α]

/-- The number that a value stands for; truth values are one and zero. -/
def toNumber : Value α → Except RuntimeFault α
  | number x => .ok x
  | bool b => .ok (Scalar.nat (if b then 1 else 0))
  | v => .error (.expectedNumber v.type)

/-- The numbers that values stand for; the first that stands for none decides the fault. -/
def toNumbers (vs : List (Value α)) : Except RuntimeFault (List α) :=
  vs.mapM toNumber

/-- Whether a value counts as true: a number other than zero, a text with a character, any colour. -/
def truthy : Value α → Bool
  | number x => Scalar.less x (Scalar.nat 0) || Scalar.less (Scalar.nat 0) x
  | bool b => b
  | string s => !s.isEmpty
  | colour _ => true

end

/-- A value as it appears in a text. -/
def display : Value Float → String
  | number x => Number.plain x
  | bool b => if b then "true" else "false"
  | string s => s
  | colour c => s!"rgba({c.red}, {c.green}, {c.blue}, {c.alpha})"

end Value

namespace Colour

variable {α : Type} [Scalar α]

/-- Reads arguments as a colour: a colour with an optional opacity, a level of grey with an optional
opacity, or red, green and blue with an optional opacity. -/
def ofValues : List (Value α) → Except RuntimeFault Colour
  | [.colour c] => .ok c
  | [.colour c, alpha] => do return { c with alpha := channel (← alpha.toNumber) }
  | vs => do
    match ← Value.toNumbers vs with
    | [g] => return grey g
    | [g, a] => return ofChannels g g g a
    | [r, g, b] => return ofChannels r g b (Scalar.nat 255)
    | [r, g, b, a] => return ofChannels r g b a
    | xs => throw (.colourArity xs.length)

end Colour

end LiveSketch

import LiveSketch.Colour.Palette
import LiveSketch.Number.Notation
import LiveSketch.Number.Reading
import LiveSketch.Random.Draw

/-!
# Tokens that can be varied

The autocoder sees a sketch as tokens of a few kinds. Numbers, repetition counts, colours and some shapes
can be varied: `Token.mutate` gives a token of the same kind with another text.
-/
namespace LiveSketch.Autocoder

/-- The kinds of tokens. -/
inductive TokenKind where
  | comment
  | tab
  | num
  | op
  | argDelim
  | newline
  | motion
  | colour
  | colourOp
  | mesh
  | stateFun
  | iteration
  | variableName
  | doOnce
  | space
  | unknown
  deriving DecidableEq, Repr

namespace TokenKind

/-- The name of a kind. -/
def name : TokenKind → String
  | comment => "COMMENT"
  | tab => "TAB"
  | num => "NUM"
  | op => "OP"
  | argDelim => "ARGDLIM"
  | newline => "NEWLINE"
  | motion => "TRANSLATION"
  | colour => "COLOUR"
  | colourOp => "COLOUROP"
  | mesh => "MESH"
  | stateFun => "STATEFUN"
  | iteration => "ITERATION"
  | variableName => "VARIABLE"
  | doOnce => "DOONCE"
  | space => "SPACE"
  | unknown => "UNKNOWN"

/-- All kinds. -/
def all : List TokenKind :=
  [comment, tab, num, op, argDelim, newline, motion, colour, colourOp, mesh, stateFun, iteration,
    variableName, doOnce, space, unknown]

/-- The kind of this name. -/
def ofName? (name : String) : Option TokenKind := all.find? (·.name == name)

end TokenKind

/-- A piece of a sketch and its kind. -/
structure Token where
  kind : TokenKind
  text : List Char
  deriving DecidableEq, Repr

/-- The shapes that change into each other. -/
def meshSwaps : List (String × String) := [("box", "ball"), ("line", "rect")]

/-- The shape that a shape changes into. -/
def meshAlternate? (text : String) : Option String :=
  meshSwaps.findSome? fun (a, b) =>
    if text == a then some b else if text == b then some a else none

/-- The count at the front of a repetition, and the text after its digits. A count is an unsigned 64-bit
integer. -/
def leadingCount? (text : List Char) : Option (Nat × List Char) :=
  let digits := text.takeWhile Char.isDigit
  let n := Number.ofDigits digits
  if digits.isEmpty || UInt64.size ≤ n then none else some (n, text.dropWhile Char.isDigit)

namespace Token

/-- Whether the token can be varied. -/
def isMutable (t : Token) : Bool :=
  match t.kind with
  | .num => (Number.read? t.text).isSome
  | .iteration => (leadingCount? t.text).isSome
  | .colour => Palette.contains (String.ofList t.text)
  | .mesh => (meshAlternate? (String.ofList t.text)).isSome
  | _ => false

/-- A number between nothing and twice as much, with two places. Zero counts as a tenth. -/
def mutateNumber (text : List Char) (g : Random.Generator) : Option (List Char) × Random.Generator :=
  match Number.read? text with
  | none => (none, g)
  | some n =>
    let n := if n == 0.0 then 0.1 else n
    let (x, g) := g.jitter
    (some (Number.twoPlaces (n + n * x)).toList, g)

/-- One repetition more or less. None becomes one. -/
def mutateIteration (text : List Char) (g : Random.Generator) :
    Option (List Char) × Random.Generator :=
  match leadingCount? text with
  | none => (none, g)
  | some (n, rest) =>
    let written (n : Nat) : Option (List Char) := some (Number.digitsOf n ++ rest)
    let more := min (n + 1) (UInt64.size - 1)
    if n == 0 then (written more, g)
    else
      let (up, g) := g.coin
      (written (if up then more else n - 1), g)

/-- Another colour of the palette. -/
def mutateColour (text : List Char) (g : Random.Generator) : Option (List Char) × Random.Generator :=
  let (name, g) := g.chooseLast? (Palette.names.filter (· != String.ofList text))
  (name.map String.toList, g)

/-- The text that a token changes into, if its kind can be varied. -/
def mutateText (t : Token) (g : Random.Generator) : Option (List Char) × Random.Generator :=
  match t.kind with
  | .num => mutateNumber t.text g
  | .iteration => mutateIteration t.text g
  | .colour => mutateColour t.text g
  | .mesh => ((meshAlternate? (String.ofList t.text)).map String.toList, g)
  | _ => (none, g)

/-- The token that a token changes into. -/
def mutate (t : Token) (g : Random.Generator) : Token × Random.Generator :=
  let (text, g) := t.mutateText g
  (⟨t.kind, text.getD t.text⟩, g)

end Token

/-- The texts of tokens one after the other. -/
def emit (ts : List Token) : List Char := ts.flatMap (·.text)

end LiveSketch.Autocoder

import LiveSketch.Number.Binary

/-!
# Reading numbers

`read?` reads a whole text as a double, correctly rounded. Accepted are an optional sign followed by
one of the words `inf`, `infinity` and `nan` in any case, or by decimal digits with an optional point
(at least one digit on either side of it) and an optional exponent.

`ofDecimal` is the rounding step: it decides overflow and underflow from the number of digits, so
that no huge power of ten is ever formed.
-/
namespace LiveSketch.Number

/-- An infinity. -/
def infinity : Float := 1.0 / 0.0

/-- The value that is no number. -/
def notANumber : Float := 0.0 / 0.0

/-- The number that a run of decimal digits denotes. -/
def ofDigits (digits : List Char) : Nat :=
  digits.foldl (fun n c => n * 10 + (c.toNat - '0'.toNat)) 0

/-- `mantissa * 10 ^ exponent`, correctly rounded. Above `10 ^ 310` every number overflows, and below
`10 ^ -330` every number vanishes. -/
def ofDecimal (mantissa : Nat) (exponent : Int) : Float :=
  let size : Int := (Nat.toDigits 10 mantissa).length + exponent
  if mantissa == 0 || size < -330 then 0.0
  else if 311 < size then infinity
  else Float.ofScientific mantissa (exponent < 0) exponent.natAbs

/-- The parts of an unsigned decimal numeral. -/
structure Numeral where
  whole : List Char
  fraction : List Char
  exponent : Int
  deriving DecidableEq, Repr

namespace Numeral

/-- The value of the numeral. -/
def toFloat (n : Numeral) : Float :=
  ofDecimal (ofDigits (n.whole ++ n.fraction)) (n.exponent - n.fraction.length)

/-- The exponent part of a numeral: nothing, or a mark, an optional sign and at least one digit up to
the end of the text. -/
def exponent? : List Char → Option Int
  | [] => some 0
  | mark :: rest =>
    if mark == 'e' || mark == 'E' then
      let (negative, digits) := match rest with
        | '-' :: ds => (true, ds)
        | '+' :: ds => (false, ds)
        | ds => (false, ds)
      if digits.isEmpty || !digits.all Char.isDigit then none
      else
        let n : Int := ofDigits digits
        some (if negative then -n else n)
    else none

/-- Reads a whole text as an unsigned numeral. -/
def read? (text : List Char) : Option Numeral :=
  let whole := text.takeWhile Char.isDigit
  let rest := text.dropWhile Char.isDigit
  let (fraction, rest) := match rest with
    | '.' :: rest => (rest.takeWhile Char.isDigit, rest.dropWhile Char.isDigit)
    | rest => ([], rest)
  if whole.isEmpty && fraction.isEmpty then none
  else (exponent? rest).map (⟨whole, fraction, ·⟩)

end Numeral

/-- Reads a whole text as a double without a sign. -/
def readUnsigned? (text : List Char) : Option Float :=
  match String.ofList (text.map Char.toLower) with
  | "inf" => some infinity
  | "infinity" => some infinity
  | "nan" => some notANumber
  | _ => (Numeral.read? text).map Numeral.toFloat

/-- Reads a whole text as a double. -/
def read? : List Char → Option Float
  | '-' :: text => (readUnsigned? text).map (- ·)
  | '+' :: text => readUnsigned? text
  | text => readUnsigned? text

end LiveSketch.Number

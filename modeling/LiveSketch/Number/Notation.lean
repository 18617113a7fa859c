import LiveSketch.Number.Decimal

/-!
# How numbers are written

Three written forms of a double:

* `plain`: the fewest digits, always positional, an integer without a point. This is how numbers
  appear in messages and in script text.
* `data`: the fewest digits with at least one decimal place, positional from `1e-5` up to below
  `1e16` and with a signed exponent elsewhere. This is how numbers appear in scene lines.
* `twoPlaces`: the exact value rounded to two places, a half going to the even neighbour. This is
  how a mutated number is written.
-/
namespace LiveSketch.Number

/-- The decimal digits of a natural number. -/
def digitsOf (n : Nat) : List Char := Nat.toDigits 10 n

/-- `n` zeros. -/
def zeros (n : Nat) : List Char := List.replicate n '0'

/-- Digits with the point after the first `point` of them, padded with zeros as needed. -/
def positional (digits : List Char) (point : Int) : List Char :=
  if point ≤ 0 then '0' :: '.' :: (zeros (-point).toNat ++ digits)
  else if digits.length ≤ point.toNat then digits ++ zeros (point.toNat - digits.length)
  else digits.take point.toNat ++ '.' :: digits.drop point.toNat

/-- Puts the minus sign in front. -/
def signed (negative : Bool) (text : List Char) : String :=
  String.ofList (if negative then '-' :: text else text)

/-- The text of a double that is no number. -/
def special (x : Float) : String :=
  if x.isNaN then "NaN" else if x < 0 then "-inf" else "inf"

/-- The fewest digits, positional; of two equally close decimals the larger. -/
def plain (x : Float) : String :=
  match Binary.ofFloat? x with
  | none => special x
  | some b =>
    if b.mantissa == 0 then signed b.negative ['0']
    else
      let d := Decimal.shortest .up b
      let digits := digitsOf d.digits
      signed b.negative (positional digits (digits.length + d.exponent))

/-- The fewest digits with at least one decimal place, or with a signed exponent where the leading
digit stands outside `1e-5` to `1e15`. There is no such text for a NaN or an infinity. -/
def data? (x : Float) : Option String :=
  (Binary.ofFloat? x).map fun b =>
    if b.mantissa == 0 then signed b.negative ['0', '.', '0']
    else
      let d := Decimal.shortest .toEven b
      let digits := digitsOf d.digits
      let point : Int := digits.length + d.exponent
      if -5 < point && point ≤ 16 then
        let text := positional digits point
        signed b.negative (if digits.length ≤ point.toNat then text ++ ['.', '0'] else text)
      else
        let lead := match digits with
          | [] => ['0']
          | [c] => [c]
          | c :: rest => c :: '.' :: rest
        let e := point - 1
        signed b.negative (lead ++ 'e' :: (if 0 ≤ e then '+' else '-') :: digitsOf e.natAbs)

/-- `num / den` rounded to a natural number, a half going to the even neighbour. -/
def roundHalfEven (num den : Nat) : Nat :=
  let q := num / den
  let twice := 2 * (num % den)
  if twice < den then q
  else if den < twice then q + 1
  else if q % 2 == 0 then q else q + 1

/-- The exact value rounded to two places; the sign stays on a zero. -/
def twoPlaces (x : Float) : String :=
  match Binary.ofFloat? x with
  | none => special x
  | some b =>
    let (num, den) := Decimal.ratio b.mantissa b.exponent (-2)
    let hundredths := roundHalfEven num den
    let digits := digitsOf hundredths
    let padded := zeros (3 - digits.length) ++ digits
    signed b.negative (positional padded (padded.length - 2))

end LiveSketch.Number

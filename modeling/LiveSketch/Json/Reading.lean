import LiveSketch.Number.Reading
import LiveSketch.Text.Match

/-!
# Reading JSON

Readers for the front of a JSON text. Each gives what it has read and the rest of the text, or nothing if
the text does not start as it must.

A reader that looks for a certain type reads no more than that type; what nobody asks for is skipped.
Skipping checks the grammar, but neither the size of numbers nor whether escaped surrogates come in pairs.
-/
namespace LiveSketch.Json

open Text (after?)

/-- The white space between the parts of a JSON text. -/
def isBlank (c : Char) : Bool := c == ' ' || c == '\n' || c == '\t' || c == '\r'

/-- The text without the white space at its front. -/
def skipBlank (cs : List Char) : List Char := cs.dropWhile isBlank

/-- The value of a hexadecimal digit. -/
def hexValue? (c : Char) : Option Nat :=
  if c.isDigit then some (c.toNat - '0'.toNat)
  else if 'a' ≤ c && c ≤ 'f' then some (c.toNat - 'a'.toNat + 10)
  else if 'A' ≤ c && c ≤ 'F' then some (c.toNat - 'A'.toNat + 10)
  else none

/-- A 16-bit unit in four hexadecimal digits. -/
def unit? : List Char → Option (Nat × List Char)
  | a :: b :: c :: d :: cs => do
    let n := 4096 * (← hexValue? a) + 256 * (← hexValue? b) + 16 * (← hexValue? c) + (← hexValue? d)
    some (n, cs)
  | _ => none

/-- The character that a backslash with this letter stands for. -/
def escaped? : Char → Option Char
  | '"' => some '"'
  | '\\' => some '\\'
  | '/' => some '/'
  | 'b' => some '\x08'
  | 'f' => some '\x0c'
  | 'n' => some '\n'
  | 'r' => some '\r'
  | 't' => some '\t'
  | _ => none

/-- A character by its number: one unit, or two surrogates of which the second is escaped as well. -/
def codePoint? (cs : List Char) : Option (Char × List Char) := do
  let (high, cs) ← unit? cs
  if 0xDC00 ≤ high && high < 0xE000 then none
  else if 0xD800 ≤ high && high < 0xDC00 then
    let (low, cs) ← unit? (← after? ['\\', 'u'] cs)
    if 0xDC00 ≤ low && low < 0xE000 then
      some (Char.ofNat (0x10000 + (high - 0xD800) * 0x400 + (low - 0xDC00)), cs)
    else none
  else some (Char.ofNat high, cs)

/-- The rest of a text after its opening quote; each step takes a character off. -/
def closeTextWithin? : (fuel : Nat) → List Char → Option (List Char × List Char)
  | 0, _ => none
  | _ + 1, [] => none
  | fuel + 1, c :: cs =>
    match c, cs with
    | '"', cs => some ([], cs)
    | '\\', 'u' :: cs => do
      let (c, cs) ← codePoint? cs
      let (inside, cs) ← closeTextWithin? fuel cs
      some (c :: inside, cs)
    | '\\', e :: cs => do
      let c ← escaped? e
      let (inside, cs) ← closeTextWithin? fuel cs
      some (c :: inside, cs)
    | '\\', [] => none
    | c, cs =>
      if c.toNat < 0x20 then none
      else (closeTextWithin? fuel cs).map fun (inside, cs) => (c :: inside, cs)

/-- A text in quotes. -/
def text? (cs : List Char) : Option (List Char × List Char) := do
  let cs ← after? ['"'] cs
  closeTextWithin? cs.length cs

/-- A natural number without leading zeros. What follows it is the matter of the caller. -/
def natural? : List Char → Option (Nat × List Char)
  | '0' :: cs => some (0, cs)
  | cs =>
    let digits := cs.takeWhile Char.isDigit
    if digits.isEmpty then none else some (Number.ofDigits digits, cs.dropWhile Char.isDigit)

/-- Skips the rest of a text after its opening quote. -/
def skipText? : List Char → Option (List Char)
  | [] => none
  | '"' :: cs => some cs
  | '\\' :: 'u' :: a :: b :: c :: d :: cs =>
    if (unit? [a, b, c, d]).isSome then skipText? cs else none
  | '\\' :: e :: cs => if (escaped? e).isSome then skipText? cs else none
  | c :: cs => if c == '\\' || c.toNat < 0x20 then none else skipText? cs

/-- Skips one or more digits. -/
def skipDigits? : List Char → Option (List Char)
  | [] => none
  | c :: cs => if c.isDigit then some (cs.dropWhile Char.isDigit) else none

/-- Skips the places after the point, if there is a point. -/
def skipFraction? : List Char → Option (List Char)
  | '.' :: cs => skipDigits? cs
  | cs => some cs

/-- Skips the exponent, if there is one. -/
def skipExponent? : List Char → Option (List Char)
  | [] => some []
  | c :: cs =>
    if c == 'e' || c == 'E' then
      match cs with
      | '+' :: cs => skipDigits? cs
      | '-' :: cs => skipDigits? cs
      | cs => skipDigits? cs
    else some (c :: cs)

/-- Skips a number. -/
def skipNumber? (cs : List Char) : Option (List Char) := do
  let cs := (after? ['-'] cs).getD cs
  let cs ← match cs with
    | '0' :: cs => some cs
    | cs => skipDigits? cs
  skipExponent? (← skipFraction? cs)

/-- Skips a value that is written as a single word or number. -/
def skipWord? (cs : List Char) : Option (List Char) :=
  (after? "null".toList cs).or <| (after? "true".toList cs).or <|
    (after? "false".toList cs).or (skipNumber? cs)

mutual

/-- Skips a value. -/
def skipValue? : (fuel : Nat) → List Char → Option (List Char)
  | 0, _ => none
  | fuel + 1, cs =>
    match skipBlank cs with
    | '"' :: cs => skipText? cs
    | '[' :: cs => match skipBlank cs with
      | ']' :: cs => some cs
      | cs => skipItems? fuel cs
    | '{' :: cs => match skipBlank cs with
      | '}' :: cs => some cs
      | cs => skipFields? fuel cs
    | cs => skipWord? cs

/-- Skips one or more items and the bracket after them. -/
def skipItems? : (fuel : Nat) → List Char → Option (List Char)
  | 0, _ => none
  | fuel + 1, cs => do
    match skipBlank (← skipValue? fuel cs) with
    | ',' :: cs => skipItems? fuel cs
    | ']' :: cs => some cs
    | _ => none

/-- Skips one or more fields and the brace after them. -/
def skipFields? : (fuel : Nat) → List Char → Option (List Char)
  | 0, _ => none
  | fuel + 1, cs => do
    let cs ← skipText? (← after? ['"'] (skipBlank cs))
    let cs ← after? [':'] (skipBlank cs)
    match skipBlank (← skipValue? fuel cs) with
    | ',' :: cs => skipFields? fuel cs
    | '}' :: cs => some cs
    | _ => none

end

end LiveSketch.Json

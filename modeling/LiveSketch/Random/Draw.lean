import LiveSketch.Random.Generator

/-!
# Drawing values

How a value of a range is made from the words of a generator.

* `unit` draws from `[0, 1)`, `jitter` from `[-1, 1]`, `coin` one of two.
* `below` and `below256` draw an index by multiplying a word with the size of the range and taking
  the high half of the product. A word whose low half falls outside the accepted zone is rejected and
  the next one tried. Each try succeeds with probability one half or more; after `attempts` rejections
  in a row the last word is taken as it is.
* `choose?` draws an element of a list with one index; `chooseLast?` goes through a list and keeps the
  element at place `k` with probability `1 / k`.
-/
namespace LiveSketch.Random

namespace Generator

/-- The greatest number of words tried for one index. -/
def attempts : Nat := 1024

/-- A number from `[0, 1)`, with 52 random bits. -/
def unit (g : Generator) : Float × Generator :=
  let (w, g) := g.doubleWord
  (Float.ofBits ((w >>> 12) ||| 0x3FF0000000000000) - 1.0, g)

/-- A number from `[-1, 1]`. -/
def jitter (g : Generator) : Float × Generator :=
  let (x, g) := g.unit
  (x * Float.ofBits 0x4000000000000001 + -1.0, g)

/-- A fair coin. -/
def coin (g : Generator) : Bool × Generator :=
  let (w, g) := g.doubleWord
  (w < 0x8000000000000000, g)

/-- The tries of `below256`. -/
def below256Within : Nat → Generator → Fin 256 × Generator
  | 0, g => (0, g)
  | tries + 1, g =>
    let (w, g) := g.doubleWord
    let product := w.toNat * 256
    if tries == 0 || product % UInt64.size < UInt64.size / 2 then
      (Fin.ofNat 256 (product / UInt64.size), g)
    else below256Within tries g

/-- An index below 256. -/
def below256 (g : Generator) : Fin 256 × Generator := below256Within attempts g

/-- The greatest accepted low half for an index below `n`: the multiple of `n` by the greatest power
of two that keeps it a word, less one. -/
def zone (n : Nat) : Nat := n <<< (31 - n.log2) - 1

/-- The tries of `below`. -/
def belowWithin : Nat → Nat → Generator → Nat × Generator
  | 0, _, g => (0, g)
  | tries + 1, n, g =>
    let (w, g) := g.word
    let product := w.toNat * n
    if tries == 0 || product % UInt32.size ≤ zone n then (product / UInt32.size, g)
    else belowWithin tries n g

/-- An index below `n`, for `0 < n < 2 ^ 32`. A word is drawn for `n = 1` too. -/
def below (n : Nat) (g : Generator) : Nat × Generator := belowWithin attempts n g

/-- An element of the list, each with the same chance. Nothing is drawn from an empty list. -/
def choose? {α : Type} (xs : List α) (g : Generator) : Option α × Generator :=
  match xs with
  | [] => (none, g)
  | xs =>
    let (i, g) := g.below xs.length
    (xs[i]?, g)

/-- `chooseLast?` from place `k` on, with the choice so far. -/
def chooseLastFrom {α : Type} : Nat → Option α → List α → Generator → Option α × Generator
  | _, chosen, [], g => (chosen, g)
  | k, chosen, x :: xs, g =>
    let (i, g) := g.below k
    chooseLastFrom (k + 1) (if i == 0 then some x else chosen) xs g

/-- An element of the list, each with the same chance, drawn in one pass: the element at place `k`
replaces the choice so far when an index below `k` comes out as zero. -/
def chooseLast? {α : Type} (xs : List α) (g : Generator) : Option α × Generator :=
  chooseLastFrom 1 none xs g

end Generator

end LiveSketch.Random

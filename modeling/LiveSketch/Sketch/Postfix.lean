import LiveSketch.Text.Digit
import LiveSketch.Text.Match

/-!
# Operands in front of their word

`60 bpm` means `bpm 60`, `red fill` means `fill red`, and `3 times ->` means `repeat 3 ->`. All of these
are a run of operand characters with a certain word after it, and `swapRuns` puts the word in front.
-/
namespace LiveSketch.Sketch

open Text

/-- Builds anew every run of operand characters after which `follow?` finds its word. `follow?` gives
what to keep of that and the rest; each step takes a character off the text. -/
def swapRunsWithin (isOperand : Char → Bool) (follow? : List Char → Option (List Char × List Char))
    (build : (run kept : List Char) → List Char) : (fuel : Nat) → List Char → List Char
  | 0, _ => []
  | _ + 1, [] => []
  | fuel + 1, c :: cs =>
    if isOperand c then
      let run := (c :: cs).takeWhile isOperand
      let rest := (c :: cs).dropWhile isOperand
      match follow? rest with
      | some (kept, rest) =>
        build run kept ++ swapRunsWithin isOperand follow? build fuel rest
      | none => run ++ swapRunsWithin isOperand follow? build fuel rest
    else c :: swapRunsWithin isOperand follow? build fuel cs

/-- Builds anew every run in a text that its word follows. -/
def swapRuns (isOperand : Char → Bool) (follow? : List Char → Option (List Char × List Char))
    (build : (run kept : List Char) → List Char) (cs : List Char) : List Char :=
  swapRunsWithin isOperand follow? build cs.length cs

/-- A word after one or more spaces, with white space or the end of the text after it. The white space
is kept. -/
def spacedWord? (word : List Char) (cs : List Char) : Option (List Char × List Char) := do
  let cs ← after? [' '] cs
  let cs ← after? word (skipSpaces cs)
  match cs with
  | [] => some ([], [])
  | c :: rest => if isBlank c then some ([c], rest) else none

/-- The word in front of its operand. -/
def wordFirst (word run kept : List Char) : List Char := word ++ ' ' :: run ++ kept

/-- Puts a word in front of the operand before it. -/
def swapWord (isOperand : Char → Bool) (word : List Char) (cs : List Char) : List Char :=
  swapRuns isOperand (spacedWord? word) (wordFirst word) cs

/-- The commands that may follow the name of a colour. -/
def colourWords : List (List Char) := ["fill".toList, "stroke".toList, "background".toList]

/-- Puts `bpm` in front of the number before it, and `fill`, `stroke` and `background` in front of the
name before them. -/
def swapPostfix (cs : List Char) : List Char :=
  colourWords.foldl (fun cs word => swapWord Char.isAlpha word cs) (swapWord isDigit "bpm".toList cs)

/-- The word `times` after one or more spaces and tabs, with an arrow after it. -/
def timesArrow? (cs : List Char) : Option (List Char × List Char) :=
  match cs with
  | [] => none
  | c :: rest =>
    if c == ' ' || c == '\t' then do
      let rest ← after? "times".toList (rest.dropWhile fun c => c == ' ' || c == '\t')
      let rest ← after? "->".toList (skipSpaces rest)
      some ([], rest)
    else none

/-- A counted repetition as a statement of its own. -/
def repeatFirst (run _kept : List Char) : List Char := ";repeat ".toList ++ run ++ " ->".toList

/-- Writes `n times ->` as `;repeat n ->`. -/
def desugarTimes (cs : List Char) : List Char := swapRuns isDigit timesArrow? repeatFirst cs

end LiveSketch.Sketch

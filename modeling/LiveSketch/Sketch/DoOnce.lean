import LiveSketch.Sketch.Ticks
import LiveSketch.Script.Vocabulary

/-!
# Reporting executed `doOnce` blocks

A `doOnce` becomes a loop that runs once and, before its body, reports the number of its line. On a line
with its body the report stands in front of the loop; in front of a block it stands at the start of the
next line.
-/
namespace LiveSketch.Sketch

open Text

/-- The report of line `i`. -/
def report (i : Nat) : List Char := s!";{Script.doOnceMarker}({i});".toList

/-- The indentation of a `doOnce` with its arrow at the start of a line, and what follows after
spaces. -/
def header? (line : List Char) : Option (List Char × List Char) := do
  let rest ← after? doOnceWord (line.dropWhile isBlank)
  let rest ← afterSpaced? arrowWord rest
  some (line.takeWhile isBlank, rest)

/-- Puts a report in front of the first statement of a line. An empty line stays empty; of a line of
white space the last character counts as its statement. -/
def reportFirst (mark : List Char) (line : List Char) : List Char :=
  match line.dropWhile isBlank with
  | [] =>
    match line.getLast? with
    | none => line
    | some c => line.dropLast ++ mark ++ [' ', c]
  | rest => line.takeWhile isBlank ++ mark ++ ' ' :: rest

/-- Instruments the lines from number `i` on; `pending` is the report of a block that the line before has
opened. -/
def instrumentLines : (i : Nat) → (pending : Option (List Char)) → List (List Char) → List (List Char)
  | _, _, [] => []
  | i, pending, line :: lines =>
    let line := match pending with
      | some mark => reportFirst mark line
      | none => line
    match header? line with
    | some (indent, []) => (indent ++ "repeat 1 ->".toList) :: instrumentLines (i + 1) (some (report i)) lines
    | some (indent, c :: body) =>
      if isBlank c then line :: instrumentLines (i + 1) none lines
      else (indent ++ report i ++ " repeat 1 -> ".toList ++ c :: body) ::
        instrumentLines (i + 1) none lines
    | none => line :: instrumentLines (i + 1) none lines

/-- Makes every `doOnce` a loop that runs once and reports its line. -/
def instrument (cs : List Char) : List Char :=
  if occurs doOnceWord cs then joinLines (instrumentLines 0 none (splitLines cs)) else cs

end LiveSketch.Sketch

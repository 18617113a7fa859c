import LiveSketch.Script.Lexer
import LiveSketch.Text.Match

/-!
# Ticks on `doOnce`

A `doOnce` that has run carries a tick in front of its word. `removeTicked` takes the ticked ones out of
a sketch before it is compiled; `markLines` puts ticks where there are none.
-/
namespace LiveSketch.Sketch

open Text

/-- The mark of a `doOnce` that has run. -/
def tick : Char := '✓'

def doOnceWord : List Char := "doOnce".toList

def arrowWord : List Char := "->".toList

/-- The indentation of a line that holds nothing but a ticked `doOnce` with its arrow. -/
def tickedHeader? (line : List Char) : Option (List Char) := do
  let indent := line.takeWhile Script.Lexer.isIndent
  let rest ← after? [tick] (line.dropWhile Script.Lexer.isIndent)
  let rest ← after? doOnceWord (skipSpaces rest)
  let rest ← afterSpaced? arrowWord rest
  if rest.isEmpty then some indent else none

/-- A ticked header opens a block that never runs. -/
def disableHeader (line : List Char) : List Char :=
  match tickedHeader? line with
  | some indent => indent ++ "if false ->".toList
  | none => line

/-- A tick turns the rest of its line into a comment. -/
def commentTicks (cs : List Char) : List Char :=
  cs.flatMap fun c => if c == tick then ['/', '/'] else [c]

/-- Takes out what has run: a ticked block header becomes a condition that never holds, and any other
tick turns the rest of its line into a comment. -/
def removeTicked (cs : List Char) : List Char := commentTicks (mapLines disableHeader cs)

/-- A line that starts with a `doOnce` and its arrow, with a tick in front of the word. -/
def tickLine? (line : List Char) : Option (List Char) := do
  let indent := line.takeWhile isBlank
  let rest ← after? doOnceWord (line.dropWhile isBlank)
  let _ ← after? arrowWord (skipSpaces rest)
  some (indent ++ tick :: doOnceWord ++ rest)

/-- Puts a tick on a line, if it has a `doOnce` without one. -/
def tickLine (line : List Char) : List Char := (tickLine? line).getD line

/-- Puts ticks on the lines with these numbers, counting from zero. -/
def markLines (numbers : List Nat) (cs : List Char) : List Char :=
  joinLines (numbers.foldl (fun lines i => lines.modify i tickLine) (splitLines cs))

end LiveSketch.Sketch

import LiveSketch.Sketch.Fault
import LiveSketch.Text.Match

/-!
# Comments and delimiters

`stripComments` removes line comments and block comments; a block comment leaves its newlines behind, so
that no line moves. Comment marks inside text literals stay. `checkDelimiters` then looks outside the
text literals for a delimiter that occurs an odd number of times.
-/
namespace LiveSketch.Sketch

open Text

/-- The newlines of a block comment after its opening mark, and what follows its closing mark. -/
def closeComment? : List Char → Option (List Char × List Char)
  | [] => none
  | '*' :: '/' :: cs => some ([], cs)
  | c :: cs =>
    (closeComment? cs).map fun (newlines, rest) => (if c == '\n' then c :: newlines else newlines, rest)

/-- What stands at the front of a text with regard to comments: the characters that stay, and the rest
that is still to be looked at. -/
def commentStep (c : Char) (cs : List Char) : List Char × List Char :=
  match literal? (c :: cs) with
  | some (literal, rest) => (literal, rest)
  | none =>
    match c, cs with
    | '/', '/' :: cs => ([], cs.dropWhile (· != '\n'))
    | '/', '*' :: rest => (closeComment? rest).getD ([c], cs)
    | _, _ => ([c], cs)

/-- Removes the comments; each step takes a character off the text. -/
def stripCommentsWithin : (fuel : Nat) → List Char → List Char
  | 0, _ => []
  | _ + 1, [] => []
  | fuel + 1, c :: cs =>
    let (kept, rest) := commentStep c cs
    kept ++ stripCommentsWithin fuel rest

/-- The text without its comments. -/
def stripComments (cs : List Char) : List Char := stripCommentsWithin cs.length cs

/-- Removes the complete text literals; each step takes a character off the text. -/
def dropLiteralsWithin : (fuel : Nat) → List Char → List Char
  | 0, _ => []
  | _ + 1, [] => []
  | fuel + 1, c :: cs =>
    match literal? (c :: cs) with
    | some (_, rest) => dropLiteralsWithin fuel rest
    | none => c :: dropLiteralsWithin fuel cs

/-- The text without its complete text literals. -/
def dropLiterals (cs : List Char) : List Char := dropLiteralsWithin cs.length cs

namespace Delimiter

/-- All delimiters, in the order in which they are checked. -/
def all : List Delimiter := [singleQuote, doubleQuote, paren, brace, bracket]

/-- The characters of a delimiter. -/
def chars : Delimiter → List Char
  | singleQuote => ['\x27']
  | doubleQuote => ['"']
  | paren => ['(', ')']
  | brace => ['{', '}']
  | bracket => ['[', ']']

/-- Whether the delimiter occurs an odd number of times. -/
def isUnpaired (cs : List Char) (d : Delimiter) : Bool :=
  cs.countP (fun c => d.chars.contains c) % 2 == 1

end Delimiter

/-- Removes the comments, unless a delimiter is unpaired. -/
def checkDelimiters (cs : List Char) : Except Fault (List Char) :=
  let stripped := stripComments cs
  match Delimiter.all.find? (·.isUnpaired (dropLiterals stripped)) with
  | some d => .error (.unpaired d)
  | none => .ok stripped

end LiveSketch.Sketch

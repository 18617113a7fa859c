import LiveSketch.Sketch.Fault
import LiveSketch.Script.Lexer
import LiveSketch.Script.Vocabulary
import LiveSketch.Text.Match

/-!
# Statements

A statement that is a single word becomes a call (`callBarewords`), and a word that starts a statement
is separated from what stands before it (`separateCommands`). Text literals are left alone by both. A
sketch must not call itself (`rejectDraw`).
-/
namespace LiveSketch.Sketch

open Text

/-- Whether a call of `draw` stands at the front. -/
def startsDraw (cs : List Char) : Bool :=
  match after? "draw".toList cs with
  | some rest => (after? ['('] (rest.dropWhile isBlank)).isSome
  | none => false

/-- Whether a call of `draw` stands anywhere after white space, a plus sign or a semicolon, or at the
front if `boundary` holds. -/
def hasDraw (boundary : Bool) : List Char → Bool
  | [] => false
  | c :: cs =>
    (boundary && startsDraw (c :: cs)) || hasDraw (isBlank c || c == '+' || c == ';') cs

/-- `draw` is the name of the sketch itself and cannot be called from it. -/
def rejectDraw (cs : List Char) : Except Fault (List Char) :=
  if hasDraw true cs then .error .drawCall else .ok cs

/-- A statement and the separator after it, which is empty at the end of a line. -/
abbrev Piece := List Char × List Char

/-- Puts a character in front of the first statement. -/
def consPiece (c : Char) : List Piece → List Piece
  | [] => [([c], [])]
  | (statement, separator) :: pieces => (c :: statement, separator) :: pieces

/-- The statements of a line, which end at semicolons and arrows outside text literals. `quote` is the
quote of the text literal that is open. -/
def pieces : (quote : Option Char) → List Char → List Piece
  | _, [] => [([], [])]
  | some q, '\\' :: d :: cs => consPiece '\\' (consPiece d (pieces (some q) cs))
  | some q, c :: cs => consPiece c (pieces (if c == q then none else some q) cs)
  | none, '-' :: '>' :: cs => ([], ['-', '>']) :: pieces none cs
  | none, c :: cs =>
    if c == ';' then ([], [c]) :: pieces none cs
    else consPiece c (pieces (if isQuote c then some c else none) cs)

/-- Whether this is a single word that starts with a lower-case letter and is no keyword. -/
def isBareword (word : List Char) : Bool :=
  (word.head?.any Char.isLower) && word.all Char.isAlphanum
    && !Script.isKeyword (String.ofList word)

/-- A statement that is a single word becomes a call. -/
def callBareword (statement : List Char) : List Char :=
  if isBareword (trim statement) then trimEnd statement ++ ['(', ')'] ++ blankEnd statement
  else statement

/-- Makes calls of the single words on a line. -/
def callBarewordsOfLine (line : List Char) : List Char :=
  (pieces none line).flatMap fun (statement, separator) => callBareword statement ++ separator

/-- Makes calls of the statements that are single words. -/
def callBarewords (cs : List Char) : List Char := mapLines callBarewordsOfLine cs

/-- The white space of ASCII: space, tab, line feed, form feed and carriage return. -/
def isAsciiSpace (c : Char) : Bool :=
  c == ' ' || c == '\t' || c == '\n' || c == '\x0c' || c == '\r'

/-- Separates commands in the rest of a text. `quote` is the quote of the open text literal, and
`before` the character before the rest; each step takes a character off the text. -/
def separateWithin : (fuel : Nat) → (quote before : Option Char) → List Char → List Char
  | 0, _, _, _ => []
  | _ + 1, _, _, [] => []
  | fuel + 1, some q, _, c :: cs =>
    if c == '\\' then
      match cs with
      | [] => [c]
      | d :: cs => c :: d :: separateWithin fuel (some q) (some d) cs
    else c :: separateWithin fuel (if c == q then none else some q) (some c) cs
  | fuel + 1, none, before, c :: cs =>
    if isQuote c then c :: separateWithin fuel (some c) (some c) cs
    else if c.isAlpha then
      let word := (c :: cs).takeWhile Script.Lexer.isNamePart
      let rest := (c :: cs).dropWhile Script.Lexer.isNamePart
      let apart := before.any fun b => !Script.Lexer.isNamePart b
      let followed := rest.head?.any isAsciiSpace
      let front := if apart && followed && Script.startsStatement (String.ofList word) then [';'] else []
      front ++ word ++ separateWithin fuel none word.getLast? rest
    else c :: separateWithin fuel none (some c) cs

/-- Puts a semicolon in front of every word that starts a statement and has white space after it, unless
it stands at the very start. -/
def separateCommands (cs : List Char) : List Char := separateWithin cs.length none none cs

end LiveSketch.Sketch

import LiveSketch.Text.Blank

/-!
# Reading the front of a text
-/
namespace LiveSketch.Text

/-- The text after a word at its front. -/
def after? : (word : List Char) → List Char → Option (List Char)
  | [], cs => some cs
  | _ :: _, [] => none
  | w :: word, c :: cs => if w == c then after? word cs else none

/-- Whether the word occurs anywhere in the text. -/
def occurs (word : List Char) : List Char → Bool
  | [] => word.isEmpty
  | c :: cs => (after? word (c :: cs)).isSome || occurs word cs

/-- The text without the spaces at its front. -/
def skipSpaces (cs : List Char) : List Char := cs.dropWhile (· == ' ')

/-- The text after a word and spaces around it, the first ones included. -/
def afterSpaced? (word : List Char) (cs : List Char) : Option (List Char) :=
  (after? word (skipSpaces cs)).map skipSpaces

/-- The rest of a complete text literal after its opening quote, up to the closing one and after it. A
literal ends on the line where it starts, and a backslash takes the next character with it. -/
def closeLiteral? (quote : Char) : List Char → Option (List Char × List Char)
  | [] => none
  | ['\\'] => none
  | '\\' :: d :: cs =>
    if d == '\n' then none
    else (closeLiteral? quote cs).map fun (inside, rest) => ('\\' :: d :: inside, rest)
  | c :: cs =>
    if c == quote then some ([c], cs)
    else if c == '\n' then none
    else (closeLiteral? quote cs).map fun (inside, rest) => (c :: inside, rest)

/-- Whether the character opens a text literal. -/
def isQuote (c : Char) : Bool := c == '"' || c == '\x27'

/-- The complete text literal at the front of a text, and what follows it. -/
def literal? : List Char → Option (List Char × List Char)
  | [] => none
  | c :: cs =>
    if isQuote c then (closeLiteral? c cs).map fun (inside, rest) => (c :: inside, rest) else none

end LiveSketch.Text

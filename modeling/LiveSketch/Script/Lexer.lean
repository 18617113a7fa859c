import LiveSketch.Number.Reading
import LiveSketch.Script.Token
import LiveSketch.Text.Lines

/-!
# From text to tokens

`lex` reads a script line by line. The leading spaces and tabs of a line are its depth, and the depths
of the open blocks form a stack, innermost first. A line that holds nothing but white space or a
comment does not count. Each scanner takes a lexeme off the front of a line and gives it back together
with what it denotes and the rest of the line, so lexemes and rest make up the line.
-/
namespace LiveSketch.Script

namespace Lexer

/-- A space or a tab. -/
def isIndent (c : Char) : Bool := c == ' ' || c == '\t'

/-- A letter or an underscore. Only ASCII letters begin a name. -/
def isNameStart (c : Char) : Bool := c.isAlpha || c == '_'

/-- A letter, a digit or an underscore. Only ASCII letters and digits continue a name. -/
def isNamePart (c : Char) : Bool := c.isAlphanum || c == '_'

/-- Whether the rest of the line is a comment. -/
def startsComment : List Char → Bool
  | '#' :: _ => true
  | '/' :: '/' :: _ => true
  | _ => false

/-- Whether the line goes on with a number: a digit, or a point followed by one. -/
def startsNumber : List Char → Bool
  | '.' :: c :: _ => c.isDigit
  | c :: _ => c.isDigit
  | [] => false

/-- The value of an escaped character. -/
def unescape : Char → Char
  | 'n' => '\n'
  | 't' => '\t'
  | c => c

/-- What a scanner found: what the lexeme denotes, the lexeme and the rest of the line. -/
structure Scanned (α : Type) where
  value : α
  lexeme : List Char
  rest : List Char

/-- The text up to the closing quote. There is none if the line ends before the quote. -/
def scanString (quote : Char) : List Char → Option (Scanned (List Char))
  | [] => none
  | ['\\'] => none
  | '\\' :: e :: cs =>
    (scanString quote cs).map fun s => ⟨unescape e :: s.value, '\\' :: e :: s.lexeme, s.rest⟩
  | c :: cs =>
    if c == quote then some ⟨[], [c], cs⟩
    else (scanString quote cs).map fun s => ⟨c :: s.value, c :: s.lexeme, s.rest⟩

/-- The exponent of a number, if there is one. The error is an exponent without digits. -/
def scanExponent : List Char → Except Unit (Scanned Int)
  | [] => .ok ⟨0, [], []⟩
  | mark :: cs =>
    if mark == 'e' || mark == 'E' then
      let (negative, sign, cs) := match cs with
        | '-' :: cs => (true, ['-'], cs)
        | '+' :: cs => (false, ['+'], cs)
        | cs => (false, [], cs)
      let digits := cs.takeWhile Char.isDigit
      let n : Int := Number.ofDigits digits
      if digits.isEmpty then .error ()
      else .ok ⟨if negative then -n else n, mark :: sign ++ digits, cs.dropWhile Char.isDigit⟩
    else .ok ⟨0, [], mark :: cs⟩

/-- A number. The error is the place of an exponent without digits. -/
def scanNumber (cs : List Char) : Except Nat (Scanned Float) :=
  let whole := cs.takeWhile Char.isDigit
  let rest := cs.dropWhile Char.isDigit
  let (point, fraction, rest) := match rest with
    | '.' :: rest => (['.'], rest.takeWhile Char.isDigit, rest.dropWhile Char.isDigit)
    | rest => ([], [], rest)
  let lexeme := whole ++ point ++ fraction
  match scanExponent rest with
  | .error () => .error lexeme.length
  | .ok e =>
    let numeral : Number.Numeral := ⟨whole, fraction, e.value⟩
    .ok ⟨numeral.toFloat, lexeme ++ e.lexeme, e.rest⟩

/-- The operators of two characters. -/
def pairOperator? : Char → Char → Option TokenKind
  | '-', '>' => some .arrow
  | '+', '=' => some .plusAssign
  | '-', '=' => some .minusAssign
  | '*', '=' => some .starAssign
  | '/', '=' => some .slashAssign
  | '=', '=' => some .equal
  | '!', '=' => some .notEqual
  | '<', '=' => some .lessEqual
  | '>', '=' => some .greaterEqual
  | '&', '&' => some .and
  | '|', '|' => some .or
  | _, _ => none

/-- The steps that may follow a name at once. -/
def stepOperator? : Char → Char → Option TokenKind
  | '+', '+' => some .increment
  | '-', '-' => some .decrement
  | _, _ => none

/-- The operators and delimiters of one character. -/
def operator? : Char → Option TokenKind
  | '(' => some .leftParen
  | ')' => some .rightParen
  | ',' => some .comma
  | ';' => some .semicolon
  | '+' => some .plus
  | '-' => some .minus
  | '*' => some .star
  | '/' => some .slash
  | '%' => some .percent
  | '!' => some .bang
  | '=' => some .assign
  | '<' => some .less
  | '>' => some .greater
  | _ => none

/-- The operator at the front of a line, the longer one first. Steps count only right after a name. -/
def scanOperator (afterName : Bool) : List Char → Option (Scanned TokenKind)
  | [] => none
  | [c] => (operator? c).map (⟨·, [c], []⟩)
  | c :: d :: cs =>
    match (if afterName then stepOperator? c d else none).or (pairOperator? c d) with
    | some k => some ⟨k, [c, d], cs⟩
    | none => (operator? c).map (⟨·, [c], d :: cs⟩)

/-- The token at the front of a line that starts with neither a blank nor a comment. -/
def scanToken (pos : Nat) (afterName : Bool) (c : Char) (cs : List Char) :
    Except Rejection (Scanned TokenKind) :=
  if startsNumber (c :: cs) then
    match scanNumber (c :: cs) with
    | .ok s => .ok ⟨.number s.value, s.lexeme, s.rest⟩
    | .error n => .error ⟨pos + n, .exponentDigits⟩
  else if isNameStart c then
    let name := (c :: cs).takeWhile isNamePart
    .ok ⟨.ident (String.ofList name), name, (c :: cs).dropWhile isNamePart⟩
  else if c == '"' || c == '\x27' then
    match scanString c cs with
    | some s => .ok ⟨.string (String.ofList s.value), c :: s.lexeme, s.rest⟩
    | none => .error ⟨pos, .unterminatedString⟩
  else
    match scanOperator afterName (c :: cs) with
    | some s => .ok s
    | none => .error ⟨pos, .unexpectedCharacter c⟩

/-- Whether a token is a name. -/
def isName : TokenKind → Bool
  | .ident _ => true
  | _ => false

/-- The tokens of a line from the byte `pos` on. `afterName` tells whether a name ends there. Each
step takes a character off the line, so `fuel` need not exceed their number. -/
def scanLine : (fuel : Nat) → (pos : Nat) → (afterName : Bool) → List Char →
    Except Rejection (List Token)
  | 0, _, _, _ => .ok []
  | _ + 1, _, _, [] => .ok []
  | fuel + 1, pos, afterName, c :: cs =>
    if isIndent c then scanLine fuel (pos + c.utf8Size) false cs
    else if startsComment (c :: cs) then .ok []
    else do
      let s ← scanToken pos afterName c cs
      let stop := pos + Text.byteLength s.lexeme
      return ⟨s.value, pos, stop⟩ :: (← scanLine fuel stop (isName s.value) s.rest)

/-- The line without the carriage return at its end. -/
def dropReturn (line : List Char) : List Char :=
  if line.getLast? == some '\r' then line.dropLast else line

/-- Adjusts the stack of depths to a line of this depth: the new stack and how many levels it closes,
or `none` if the depth is none of the open ones. -/
def closeLevels (width : Nat) : List Nat → Option (List Nat × Nat)
  | [] => if width == 0 then some ([], 0) else none
  | level :: levels =>
    if width < level then (closeLevels width levels).map fun (ls, n) => (ls, n + 1)
    else if level == width then some (level :: levels, 0)
    else none

/-- The indentation tokens in front of a line of this depth and the stack after it. -/
def indentation (width pos : Nat) (levels : List Nat) : Except Rejection (List Token × List Nat) :=
  if levels.headD 0 < width then .ok ([⟨.indent, pos, pos⟩], width :: levels)
  else match closeLevels width levels with
    | some (levels, n) => .ok (List.replicate n ⟨.dedent, pos, pos⟩, levels)
    | none => .error ⟨pos, .inconsistentIndentation⟩

/-- The tokens of the lines from the byte `pos` on, with the depths of the open blocks, innermost
first. At the end of the text all blocks are closed. -/
def lexLines : (pos : Nat) → (levels : List Nat) → List (List Char) → Except Rejection (List Token)
  | pos, levels, [] =>
    let stop := pos - 1
    .ok (List.replicate levels.length ⟨.dedent, stop, stop⟩ ++ [⟨.eof, stop, stop⟩])
  | pos, levels, raw :: lines => do
    let lineEnd := pos + Text.byteLength raw
    let line := dropReturn raw
    let width := (line.takeWhile isIndent).length
    let body := line.dropWhile isIndent
    if body.isEmpty || startsComment body then lexLines (lineEnd + 1) levels lines
    else
      let start := pos + width
      let (front, levels) ← indentation width start levels
      let tokens ← scanLine body.length start false body
      let back : Token := ⟨.newline, start + Text.byteLength body, lineEnd⟩
      return front ++ tokens ++ back :: (← lexLines (lineEnd + 1) levels lines)

end Lexer

/-- The tokens of a script. -/
def lex (text : List Char) : Except Rejection (List Token) :=
  Lexer.lexLines 0 [] (Text.splitLines text)

end LiveSketch.Script

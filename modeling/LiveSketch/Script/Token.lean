import LiveSketch.Number.Notation
import LiveSketch.Script.Error

/-!
# Tokens of a script

A token is a kind with the bytes that it covers. Indentation is part of the token sequence: a deeper
line is preceded by an `indent`, a shallower one by a `dedent` for every level that it closes.
-/
namespace LiveSketch.Script

/-- The kinds of tokens. -/
inductive TokenKind where
  | ident (name : String)
  | number (value : Float)
  | string (text : String)
  | leftParen | rightParen | comma | semicolon | arrow
  | plus | minus | star | slash | percent | bang
  | assign | plusAssign | minusAssign | starAssign | slashAssign
  | equal | notEqual | less | lessEqual | greater | greaterEqual | and | or
  /-- Two plus signs right after a name. -/
  | increment
  /-- Two minus signs right after a name. -/
  | decrement
  | newline | indent | dedent | eof
  deriving DecidableEq, Repr

/-- A token and the bytes that it covers. -/
structure Token where
  kind : TokenKind
  start : Nat
  stop : Nat
  deriving DecidableEq, Repr

/-- How an error message names a token. -/
def TokenKind.describe : TokenKind → String
  | ident name => s!"'{name}'"
  | number value => s!"number {Number.plain value}"
  | string _ => "string"
  | leftParen => "LParen"
  | rightParen => "RParen"
  | comma => "Comma"
  | semicolon => "Semi"
  | arrow => "Arrow"
  | plus => "Plus"
  | minus => "Minus"
  | star => "Star"
  | slash => "Slash"
  | percent => "Percent"
  | bang => "Bang"
  | assign => "Assign"
  | plusAssign => "PlusAssign"
  | minusAssign => "MinusAssign"
  | starAssign => "StarAssign"
  | slashAssign => "SlashAssign"
  | equal => "EqEq"
  | notEqual => "Ne"
  | less => "Lt"
  | lessEqual => "Le"
  | greater => "Gt"
  | greaterEqual => "Ge"
  | and => "AndAnd"
  | or => "OrOr"
  | increment => "PlusPlus"
  | decrement => "MinusMinus"
  | newline => "end of line"
  | indent => "indentation"
  | dedent => "end of block"
  | eof => "end of program"

end LiveSketch.Script

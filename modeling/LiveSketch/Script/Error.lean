import LiveSketch.Text.Utf8

/-!
# Why a script is rejected

A rejected script has a cause and a place. `Cause.message` gives the text for each cause, and
`CompileError.display` puts the number of the line in front of it.
-/
namespace LiveSketch.Script

/-- Why a script is rejected. -/
inductive Cause where
  | inconsistentIndentation
  | exponentDigits
  | unterminatedString
  | unexpectedCharacter (c : Char)
  /-- Something else stands where `what` is needed. -/
  | expected (what found : String)
  | unexpectedIndentation
  | keywordTarget (word : String)
  | unexpectedKeyword (word : String)
  | lonelyElse
  | timeTarget
  | tooManyArguments (function : String)
  /-- The script nests deeper than the parser follows. -/
  | tooDeep
  deriving DecidableEq, Repr

/-- The text of a cause. -/
def Cause.message : Cause → String
  | inconsistentIndentation => "inconsistent indentation"
  | exponentDigits => "invalid number exponent (expected digits)"
  | unterminatedString => "unterminated string"
  | unexpectedCharacter c => s!"unexpected character '{c}'"
  | expected what found => s!"expected {what}, found {found}"
  | unexpectedIndentation => "unexpected indentation"
  | keywordTarget word => s!"cannot assign to keyword '{word}'"
  | unexpectedKeyword word => s!"unexpected keyword '{word}'"
  | lonelyElse => "else without a matching if"
  | timeTarget => "cannot assign to 'time'"
  | tooManyArguments function => s!"too many arguments to '{function}'"
  | tooDeep => "nesting too deep"

/-- A cause and the byte that it concerns. -/
structure Rejection where
  offset : Nat
  cause : Cause
  deriving DecidableEq, Repr

/-- A rejected script. Lines count from one. -/
structure CompileError where
  line : Nat
  offset : Nat
  cause : Cause
  deriving DecidableEq, Repr

/-- The error of a rejection in this text. -/
def Rejection.inText (text : List Char) (r : Rejection) : CompileError :=
  let offset := min r.offset (Text.byteLength text)
  ⟨Text.lineAt offset text, offset, r.cause⟩

/-- A message with the line that it is about in front. -/
def atLine (line : Nat) (message : String) : String := s!"line {line}: {message}"

/-- The line and the text of an error. -/
def CompileError.display (e : CompileError) : String := atLine e.line e.cause.message

end LiveSketch.Script

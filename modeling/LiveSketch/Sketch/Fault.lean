/-!
# Why a sketch has no script
-/
namespace LiveSketch.Sketch

/-- Delimiters that come in pairs. -/
inductive Delimiter where
  | singleQuote
  | doubleQuote
  | paren
  | brace
  | bracket
  deriving DecidableEq, Repr

/-- Why a sketch has no script. -/
inductive Fault where
  /-- A delimiter occurs an odd number of times. -/
  | unpaired (delimiter : Delimiter)
  /-- The sketch calls itself. -/
  | drawCall
  deriving DecidableEq, Repr

/-- The text of a fault. -/
def Fault.message : Fault → String
  | unpaired .singleQuote => "Missing '"
  | unpaired .doubleQuote => "Missing \""
  | unpaired .paren => "Unbalanced ()"
  | unpaired .brace => "Unbalanced \x7b\x7d"
  | unpaired .bracket => "Unbalanced []"
  | drawCall => "You can't call draw()"

end LiveSketch.Sketch

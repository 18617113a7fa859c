/-!
# What can go wrong while a sketch runs

`RuntimeFault` lists the causes for which a running routine stops, and `RuntimeFault.message` gives
the text that the user sees for each. The last group of causes cannot arise from compiled scripts;
they are what the stack machine answers to code that no compiler has made.
-/
namespace LiveSketch

/-- The kinds of values. -/
inductive ValueType where
  | number
  | bool
  | string
  | colour
  deriving DecidableEq, Repr

/-- The name of a kind of values. -/
def ValueType.name : ValueType → String
  | number => "number"
  | bool => "bool"
  | string => "string"
  | colour => "colour"

/-- Why a running routine stopped. -/
inductive RuntimeFault where
  /-- A value that is no number stands where a number is needed. -/
  | expectedNumber (found : ValueType)
  /-- A command got a value that is no number. -/
  | commandExpectedNumber (command : String) (found : ValueType)
  /-- A command got a value that is no text. -/
  | commandExpectedString (command : String) (found : ValueType)
  /-- A command lacks the argument with this number, counting from one. -/
  | missingArgument (command : String) (number : Nat)
  | unknownStyle (name : String)
  | notDefined (name : String)
  | notFunction (name : String)
  | wrongArity (function : String) (count : Nat)
  | colourArity (count : Nat)
  /-- The report of an executed `doOnce` names no line. -/
  | noLineNumber
  | stackUnderflow
  | stackUnderflowInCall
  /-- An expression left more or less than its one value. -/
  | stackHeight (count : Nat)
  | constantRange
  | slotRange
  deriving DecidableEq, Repr

/-- The text of a fault. -/
def RuntimeFault.message : RuntimeFault → String
  | expectedNumber found => s!"expected number, got {found.name}"
  | commandExpectedNumber command found => s!"{command}: expected number, got {found.name}"
  | commandExpectedString command found => s!"{command}: expected string, got {found.name}"
  | missingArgument command number => s!"{command}: missing argument {number}"
  | unknownStyle name => s!"unknown animation style '{name}'"
  | notDefined name => s!"{name} is not defined"
  | notFunction name => s!"{name} is not a function"
  | wrongArity function count => s!"wrong number of arguments to {function}: {count}"
  | colourArity count => s!"a colour takes 1 to 4 values, got {count}"
  | noLineNumber => "addDoOnce expects a line number"
  | stackUnderflow => "stack underflow"
  | stackUnderflowInCall => "stack underflow in call"
  | stackHeight count => s!"stack has {count} values at end of expression"
  | constantRange => "const idx out of range"
  | slotRange => "local slot out of range"

end LiveSketch

import LiveSketch.Sketch.Fault
import LiveSketch.Script.Error
import LiveSketch.Value.Fault

/-!
# Failures

Every way in which working with a sketch can fail falls into one of five kinds. A failure of the first
two kinds rejects a new text of the sketch, one of the third makes a running sketch fall back, and one
of the fourth only keeps a sketch from being varied.
-/
namespace LiveSketch

/-- The kinds of failures. -/
inductive FailureKind where
  /-- The text of a sketch cannot be made into a script. -/
  | text
  /-- A script is rejected by the compiler. -/
  | script
  /-- A routine stops while it runs. -/
  | running
  /-- A text cannot be split into the tokens that the autocoder knows. -/
  | tokens
  /-- Something outside the sketch, such as its options. -/
  | outside
  deriving DecidableEq, Repr

/-- A failure and its text. -/
structure Failure where
  kind : FailureKind
  message : String
  deriving DecidableEq, Repr

namespace Failure

/-- The text of a failure with its kind in front. -/
def display (f : Failure) : String :=
  match f.kind with
  | .text => "syntax error: " ++ f.message
  | .script => "compile error: " ++ f.message
  | .running => "runtime error: " ++ f.message
  | .tokens => "lex error: " ++ f.message
  | .outside => f.message

/-- A sketch that no script can be made of. -/
def ofSketch (fault : Sketch.Fault) : Failure := ⟨.text, fault.message⟩

/-- A rejected script. -/
def ofCompile (e : Script.CompileError) : Failure := ⟨.script, e.display⟩

/-- A stopped routine. -/
def ofRuntime (fault : RuntimeFault) : Failure := ⟨.running, fault.message⟩

end Failure

end LiveSketch

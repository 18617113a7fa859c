import LiveSketch.Failure
import LiveSketch.Sketch.Passes
import LiveSketch.Script.Lowering
import LiveSketch.Script.Machine

/-!
# Routines

A routine is what runs once a frame: a compiled script, or nothing at all. `Routine.ofSketch` makes one
from the text of a sketch, which is made into a script and compiled; the empty sketch has no routine.
-/
namespace LiveSketch

open Script

/-- What runs once a frame. -/
structure Routine where
  /-- Nothing runs without a program. -/
  program : Option Program
  deriving Repr

namespace Routine

/-- The routine that does nothing. -/
def idle : Routine := ⟨none⟩

/-- Whether the routine has no statements. -/
def isIdle (r : Routine) : Bool := r.program.all (·.body.isEmpty)

/-- The routine of a script. -/
def ofScript (text : List Char) : Except CompileError Routine :=
  (compile text).map fun p => ⟨some p⟩

/-- The script of a sketch. The empty sketch is its own script. -/
def scriptOf (sketch : List Char) : Except Failure (List Char) :=
  if sketch.isEmpty then .ok [] else (Sketch.toScript sketch).mapError .ofSketch

/-- The routine of a sketch, or none for the empty sketch. -/
def ofSketch (sketch : List Char) : Except Failure (Option Routine) := do
  if sketch.isEmpty then return none
  else
    let script ← scriptOf sketch
    let routine ← (ofScript script).mapError .ofCompile
    return some routine

/-- Runs a routine once. -/
def invoke {σ : Type} (device : Device σ) (r : Routine) : Run σ Unit :=
  match r.program with
  | some p => p.run device
  | none => pure ()

end Routine

end LiveSketch

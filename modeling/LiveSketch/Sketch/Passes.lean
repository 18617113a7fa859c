import LiveSketch.Sketch.Comments
import LiveSketch.Sketch.DoOnce
import LiveSketch.Sketch.Postfix
import LiveSketch.Sketch.Statements

/-!
# From a sketch to a script

A sketch becomes a script in eight passes, each of which keeps the number of lines, so that a line of the
script is the line of the sketch with the same number.
-/
namespace LiveSketch.Sketch

/-- A pass over the text of a sketch. -/
abbrev Pass := List Char → Except Fault (List Char)

/-- The passes by name, in the order in which they run. -/
def passes : List (String × Pass) :=
  [("remove_ticked_do_once", fun cs => .ok (removeTicked cs)),
    ("check_syntax", checkDelimiters),
    ("adjust_postfix_notation", fun cs => .ok (swapPostfix cs)),
    ("desugar_times", fun cs => .ok (desugarTimes cs)),
    ("instrument_do_once", fun cs => .ok (instrument cs)),
    ("reject_draw_calls", rejectDraw),
    ("normalize_barewords", fun cs => .ok (callBarewords cs)),
    ("separate_commands", fun cs => .ok (separateCommands cs))]

/-- The script of a sketch. -/
def toScript (cs : List Char) : Except Fault (List Char) :=
  passes.foldlM (fun cs (_, pass) => pass cs) cs

/-- Runs passes one after the other and keeps what each of them gave, up to the first that fails. -/
def trace : List (String × Pass) → List Char → List (String × Except Fault (List Char))
  | [], _ => []
  | (name, pass) :: rest, cs =>
    match pass cs with
    | .ok cs => (name, .ok cs) :: trace rest cs
    | .error fault => [(name, .error fault)]

end LiveSketch.Sketch

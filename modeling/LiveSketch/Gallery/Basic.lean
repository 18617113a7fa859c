/-!
# Sketches that come with the program

A sketch of the gallery is known by its name. On a menu it appears by its title, in a group.
-/
namespace LiveSketch.Gallery

/-- A sketch of the gallery. -/
structure Sketch where
  name : String
  group : String
  title : String
  lines : List String
  deriving DecidableEq, Repr

/-- The text of a sketch. -/
def Sketch.text (s : Sketch) : String := String.intercalate "\n" s.lines

/-- The lines of the sketch that the autocoder starts from when there is nothing else to vary. -/
def cubesAndSpikes : List String := [
  "simpleGradient fuchsia,color(100,200,200),yellow",
  "scale 2.1",
  "5 times ->",
  "\trotate 0,1,time/5000",
  "\tbox 0.1,0.1,0.1",
  "\tmove 0,0.1,0.1",
  "\t3 times ->",
  "\t\trotate 0,1,1",
  "\t\tbox 0.01,0.01,1"]

/-- The text that the autocoder starts from. -/
def seedText : String := String.intercalate "\n" cubesAndSpikes

end LiveSketch.Gallery

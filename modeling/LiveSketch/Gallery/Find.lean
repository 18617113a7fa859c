import LiveSketch.Gallery.Demos
import LiveSketch.Gallery.Tutorials

/-!
# Looking up a sketch
-/
namespace LiveSketch.Gallery

/-- All sketches, the demos first. -/
def all : List Sketch := demos ++ tutorials

/-- The sketch of this name. If a demo and a tutorial share it, this is the demo. -/
def find? (name : String) : Option Sketch := all.find? (·.name == name)

end LiveSketch.Gallery

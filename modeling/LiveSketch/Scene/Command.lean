/-!
# The commands of a sketch

A command is what a sketch asks of the graphics. `Command.all` lists them in the order in which they
are numbered.
-/
namespace LiveSketch

/-- The solids and figures that can be drawn. -/
inductive Shape where
  | box
  | ball
  | peg
  | rect
  | line
  deriving DecidableEq, Repr

/-- A command. -/
inductive Command where
  | draw (shape : Shape)
  | rotate
  | move
  | scale
  | pushMatrix
  | popMatrix
  | resetMatrix
  | fill
  | noFill
  | stroke
  | noStroke
  | strokeSize
  | background
  | simpleGradient
  | animationStyle
  | colorMode
  | ballDetail
  | lights
  | noLights
  | ambientLight
  | pointLight
  | bpm
  | play
  deriving DecidableEq, Repr

namespace Shape

/-- The word for a shape. -/
def name : Shape → String
  | box => "box"
  | ball => "ball"
  | peg => "peg"
  | rect => "rect"
  | line => "line"

/-- All shapes. -/
def all : List Shape := [box, ball, peg, rect, line]

/-- The shape of this word. -/
def ofName? (word : String) : Option Shape := all.find? (·.name == word)

end Shape

namespace Command

/-- The word for a command. -/
def name : Command → String
  | draw shape => shape.name
  | rotate => "rotate"
  | move => "move"
  | scale => "scale"
  | pushMatrix => "pushMatrix"
  | popMatrix => "popMatrix"
  | resetMatrix => "resetMatrix"
  | fill => "fill"
  | noFill => "noFill"
  | stroke => "stroke"
  | noStroke => "noStroke"
  | strokeSize => "strokeSize"
  | background => "background"
  | simpleGradient => "simpleGradient"
  | animationStyle => "animationStyle"
  | colorMode => "colorMode"
  | ballDetail => "ballDetail"
  | lights => "lights"
  | noLights => "noLights"
  | ambientLight => "ambientLight"
  | pointLight => "pointLight"
  | bpm => "bpm"
  | play => "play"

/-- All commands, in the order of their numbers. -/
def all : List Command :=
  [draw .box, draw .ball, draw .peg, draw .rect, draw .line,
    rotate, move, scale, pushMatrix, popMatrix, resetMatrix,
    fill, noFill, stroke, noStroke, strokeSize, background, simpleGradient, animationStyle,
    colorMode, ballDetail, lights, noLights, ambientLight, pointLight, bpm, play]

/-- The words of all commands. -/
def names : List String := all.map name

/-- The command of this word. -/
def ofName? (word : String) : Option Command := all.find? (·.name == word)

/-- The number of a command. -/
def index (c : Command) : Nat := all.idxOf c

end Command

end LiveSketch

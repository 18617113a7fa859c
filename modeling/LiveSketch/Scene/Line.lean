import LiveSketch.Json.Basic
import LiveSketch.Scene.Basic
import LiveSketch.Number.Notation

/-!
# Scenes as lines of text

A rendered frame is written as one JSON object on a line: the number of the frame and then the scene.
A number that is not finite is written as `null`. A line reads back as a scene exactly if that happened
to no number that a scene must have (`Scene.readsBack`); the tempo is one that it need not have.
-/
namespace LiveSketch

namespace Colour

/-- The four channels by name. -/
def toJson (c : Colour) : Json :=
  .object [("r", .number (toString c.red.toNat)), ("g", .number (toString c.green.toNat)),
    ("b", .number (toString c.blue.toNat)), ("a", .number (toString c.alpha.toNat))]

end Colour

namespace Scene

/-- A number, or `null` if it is not finite. -/
def numberJson (x : Float) : Json :=
  match Number.data? x with
  | some text => .number text
  | none => .null

/-- The value, or `null`. -/
def optionJson {α : Type} (f : α → Json) : Option α → Json
  | some x => f x
  | none => .null

/-- The components in order. -/
def vecJson (v : Vec3 Float) : Json := .array ([v.x, v.y, v.z].map numberJson)

/-- A drawn shape. -/
def drawJson (d : DrawCall Float) : Json :=
  .object ([("shape", .string d.shape.name),
    ("size", vecJson d.size),
    ("transform", .array (d.transform.entries.toList.map numberJson)),
    ("fill", optionJson Colour.toJson d.fill),
    ("stroke", optionJson Colour.toJson d.stroke),
    ("stroke_size", numberJson d.strokeSize)]
    ++ (d.detail.map fun n => ("detail", Json.number (toString n))).toList)

/-- A backdrop. -/
def backdropJson : Backdrop → Json
  | .plain c => .object [("kind", .string "solid"), ("colour", c.toJson)]
  | .gradient a b c =>
    .object [("kind", .string "gradient"), ("colours", .array [a.toJson, b.toJson, c.toJson])]

/-- A light. -/
def lightJson : Light Float → Json
  | .ambient c => .object [("kind", .string "ambient"), ("colour", c.toJson)]
  | .point c p => .object [("kind", .string "point"), ("colour", c.toJson), ("position", vecJson p)]

/-- The written word for a style. -/
def styleWord : AnimationStyle → String
  | .normal => "normal"
  | .paintOver => "paint_over"
  | .motionBlur => "motion_blur"

/-- A sound. -/
def cueJson (c : SoundCue) : Json :=
  .object [("sound", .string c.sound), ("pattern", .string c.pattern)]

/-- A rendered frame. -/
def toJson (frame : Nat) (s : Scene Float) : Json :=
  .object [("frame", .number (toString frame)),
    ("backdrops", .array (s.backdrops.toList.map backdropJson)),
    ("draws", .array (s.draws.toList.map drawJson)),
    ("lights_enabled", .bool s.lightsEnabled),
    ("lights", .array (s.lights.toList.map lightJson)),
    ("animation_style", .string (styleWord s.style)),
    ("ball_detail", .number (toString s.ballDetail)),
    ("bpm", optionJson numberJson s.bpm),
    ("sound_cues", .array (s.cues.toList.map cueJson))]

/-- The line of a rendered frame, without its newline. -/
def line (frame : Nat) (s : Scene Float) : String := (s.toJson frame).render

/-- Whether all components are finite. -/
def finiteVec (v : Vec3 Float) : Bool := v.x.isFinite && v.y.isFinite && v.z.isFinite

/-- Whether the line of this scene reads back as a scene. -/
def readsBack (s : Scene Float) : Bool :=
  s.draws.toList.all (fun d => finiteVec d.size && d.transform.entries.all Float.isFinite
    && d.strokeSize.isFinite)
  && s.lights.toList.all fun
    | .ambient _ => true
    | .point _ p => finiteVec p

end Scene

end LiveSketch

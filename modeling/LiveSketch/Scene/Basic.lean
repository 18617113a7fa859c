import LiveSketch.Colour.Basic
import LiveSketch.Log
import LiveSketch.Scene.Command
import LiveSketch.Transform

/-!
# Scenes

A scene is everything that a sketch asked for during one frame.
-/
namespace LiveSketch

/-- One drawn shape with the state it was drawn in. -/
structure DrawCall (α : Type) where
  shape : Shape
  size : Vec3 α
  transform : Transform α
  fill : Option Colour
  stroke : Option Colour
  strokeSize : α
  /-- How finely a ball is divided; other shapes have none. -/
  detail : Option Nat
  deriving DecidableEq, Repr

/-- What is painted behind everything else. -/
inductive Backdrop where
  | plain (colour : Colour)
  | gradient (first second third : Colour)
  deriving DecidableEq, Repr

/-- A source of light. -/
inductive Light (α : Type) where
  | ambient (colour : Colour)
  | point (colour : Colour) (position : Vec3 α)
  deriving DecidableEq, Repr

/-- How frames follow each other on the screen. -/
inductive AnimationStyle where
  | normal
  | paintOver
  | motionBlur
  deriving DecidableEq, Repr

namespace AnimationStyle

/-- The word for a style. -/
def name : AnimationStyle → String
  | normal => "normal"
  | paintOver => "paintOver"
  | motionBlur => "motionBlur"

/-- All styles. -/
def all : List AnimationStyle := [normal, paintOver, motionBlur]

/-- The words for all styles. -/
def names : List String := all.map name

/-- The style of this word. -/
def ofName? (word : String) : Option AnimationStyle := all.find? (·.name == word)

end AnimationStyle

/-- A sound and the beats that it is played on. -/
structure SoundCue where
  sound : String
  /-- The beats, without white space, such as `x-x-`. -/
  pattern : String
  deriving DecidableEq, Repr

/-- Everything that a sketch asked for during one frame. -/
structure Scene (α : Type) where
  backdrops : Log Backdrop := .empty
  draws : Log (DrawCall α) := .empty
  lightsEnabled : Bool := false
  lights : Log (Light α) := .empty
  style : AnimationStyle := .normal
  ballDetail : Nat := 8
  bpm : Option α := none
  cues : Log SoundCue := .empty
  deriving DecidableEq, Repr

end LiveSketch

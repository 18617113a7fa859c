import LiveSketch.Scene.Basic
import LiveSketch.Text.Blank
import LiveSketch.Value.Basic

/-!
# The scene recorder

The recorder turns the commands of one frame into a scene. Beside the scene it keeps the current
transform, a stack of saved transforms and the current style. `Recorder.command` carries out a command
step by step: it gives the outcome and the recorder as the last step left it.
-/
namespace LiveSketch

/-- A command with its arguments, at a time of the animation in milliseconds. -/
structure CommandCall (α : Type) where
  command : Command
  args : List (Value α)
  time : α
  deriving DecidableEq, Repr

/-- How shapes are coloured. -/
structure DrawStyle (α : Type) where
  fill : Option Colour
  stroke : Option Colour
  strokeSize : α
  deriving DecidableEq, Repr

/-- The state of a recording. -/
structure Recorder (α : Type) where
  scene : Scene α
  world : Transform α
  stack : List (Transform α)
  style : DrawStyle α
  deriving DecidableEq, Repr

namespace CommandCall

variable {α : Type} [Scalar α]

/-- All arguments as numbers. -/
def numbers (call : CommandCall α) : Except RuntimeFault (List α) :=
  call.args.mapM fun v =>
    match v.toNumber with
    | .ok x => .ok x
    | .error _ => .error (.commandExpectedNumber call.command.name v.type)

/-- The argument at place `i`, counting from zero, as a text. -/
def string (call : CommandCall α) (i : Nat) : Except RuntimeFault String :=
  match call.args[i]? with
  | some (.string s) => .ok s
  | some v => .error (.commandExpectedString call.command.name v.type)
  | none => .error (.missingArgument call.command.name (i + 1))

/-- The style that the first argument names. -/
def style (call : CommandCall α) : Except RuntimeFault AnimationStyle := do
  let name ← call.string 0
  match AnimationStyle.ofName? name with
  | some style => return style
  | none => throw (.unknownStyle name)

/-- A sound and its beats, without the white space between them. -/
def cue (call : CommandCall α) : Except RuntimeFault SoundCue := do
  let sound ← call.string 0
  let pattern ← call.string 1
  return ⟨sound, String.ofList (pattern.toList.filter (!Text.isBlank ·))⟩

end CommandCall

namespace DrawStyle

/-- White without outlines. -/
def standard {α : Type} [Scalar α] : DrawStyle α :=
  ⟨some Colour.white, none, Scalar.nat 1⟩

end DrawStyle

namespace Recorder

variable {α : Type} [Scalar α]

/-- The start of a frame. -/
def empty : Recorder α :=
  { scene := {}, world := Transform.identity, stack := [], style := DrawStyle.standard }

/-- Three components from up to three numbers: none gives `fallback`, one is spread, and `third`
completes two. -/
def triple (fallback : Vec3 α) (third : α) : List α → Vec3 α
  | [] => fallback
  | [a] => Vec3.spread a
  | [a, b] => ⟨a, b, third⟩
  | a :: b :: c :: _ => ⟨a, b, c⟩

/-- Draws a shape, which is nothing if neither its faces nor its edges are coloured. -/
def draw (r : Recorder α) (shape : Shape) (numbers : List α) : Recorder α :=
  if r.style.fill.isNone && r.style.stroke.isNone then r
  else
    let one : α := Scalar.nat 1
    let call : DrawCall α :=
      { shape := shape
        size := triple (Vec3.spread one) one numbers
        transform := r.world
        fill := r.style.fill
        stroke := r.style.stroke
        strokeSize := r.style.strokeSize
        detail := if shape = .ball then some r.scene.ballDetail else none }
    { r with scene := { r.scene with draws := r.scene.draws.push call } }

/-- Puts a transform in front of what was applied so far. -/
def apply (r : Recorder α) (m : Transform α) : Recorder α := { r with world := r.world * m }

/-- Saves the current transform. -/
def push (r : Recorder α) : Recorder α := { r with stack := r.world :: r.stack }

/-- Goes back to the transform that was saved last, or to none if no transform is saved. -/
def pop (r : Recorder α) : Recorder α :=
  match r.stack with
  | [] => { r with world := Transform.identity }
  | m :: rest => { r with world := m, stack := rest }

/-- The angles of a rotation: without arguments the time in seconds about every axis. -/
def angles (time : α) (numbers : List α) : Vec3 α :=
  triple (Vec3.spread (time / Scalar.nat 1000)) (Scalar.nat 0) numbers

/-- The way of a move: without arguments a circle that is run through in about three seconds. -/
def way (time : α) (numbers : List α) : Vec3 α :=
  let phase := time / Scalar.nat 500
  let wobble := Scalar.sine phase
  triple ⟨wobble, Scalar.cosine phase, wobble⟩ (Scalar.nat 0) numbers

/-- A factor of a scaling; one near zero is replaced by the least that keeps shapes visible. -/
def guardFactor (v : α) : α :=
  let least : α := Scalar.ofDecimal 1 9
  if Scalar.less (Scalar.abs v) least then least else v

/-- The factors of a scaling: without arguments a pulse. -/
def factors (time : α) (numbers : List α) : Vec3 α :=
  let pulse := Scalar.nat 1 + Scalar.sine (time / Scalar.nat 500) / Scalar.nat 4
  let v := triple (Vec3.spread pulse) (Scalar.nat 1) numbers
  ⟨guardFactor v.x, guardFactor v.y, guardFactor v.z⟩

/-- Paints a backdrop. -/
def addBackdrop (r : Recorder α) (b : Backdrop) : Recorder α :=
  { r with scene := { r.scene with backdrops := r.scene.backdrops.push b } }

/-- Sets up a light and switches the lights on. -/
def addLight (r : Recorder α) (l : Light α) : Recorder α :=
  { r with scene := { r.scene with lightsEnabled := true, lights := r.scene.lights.push l } }

/-- The three colours of a gradient: an argument a colour, black where there is none. -/
def gradientColours (args : List (Value α)) : Except RuntimeFault Backdrop := do
  match ← (args.take 3).mapM fun v => Colour.ofValues [v] with
  | [] => return .gradient .black .black .black
  | [a] => return .gradient a .black .black
  | [a, b] => return .gradient a b .black
  | a :: b :: c :: _ => return .gradient a b c

/-- The colour and the place of a point light. -/
def pointLight : List α → Light α
  | r :: g :: b :: x :: y :: z :: _ => .point (Colour.ofChannels r g b (Scalar.nat 255)) ⟨x, y, z⟩
  | r :: g :: b :: _ => .point (Colour.ofChannels r g b (Scalar.nat 255)) (Vec3.spread (Scalar.nat 0))
  | _ => .point .white (Vec3.spread (Scalar.nat 0))

/-- A step of a recording. It may fail, and what it has done to the recorder until then stays. -/
abbrev Recording (α β : Type) := ExceptT RuntimeFault (StateM (Recorder α)) β

/-- Reads the arguments of a command and does what it asks for. -/
def carryOut (call : CommandCall α) : Recording α Unit := do
  match call.command with
  | .draw shape =>
    let numbers ← call.numbers
    modify (·.draw shape numbers)
  | .rotate =>
    let numbers ← call.numbers
    modify (·.apply (Transform.rotation (angles call.time numbers)))
  | .move =>
    let numbers ← call.numbers
    modify (·.apply (Transform.displacement (way call.time numbers)))
  | .scale =>
    let numbers ← call.numbers
    modify (·.apply (Transform.scaling (factors call.time numbers)))
  | .pushMatrix => modify (·.push)
  | .popMatrix => modify (·.pop)
  | .resetMatrix => modify ({ · with world := Transform.identity })
  | .fill =>
    let c ← Colour.ofValues call.args
    modify fun r => { r with style := { r.style with fill := some c } }
  | .noFill => modify fun r => { r with style := { r.style with fill := none } }
  | .stroke =>
    let c ← Colour.ofValues call.args
    modify fun r => { r with style := { r.style with stroke := some c } }
  | .noStroke => modify fun r => { r with style := { r.style with stroke := none } }
  | .strokeSize =>
    let numbers ← call.numbers
    let size : α := match numbers with
      | [] => Scalar.nat 1
      | x :: _ => Scalar.maximum x (Scalar.nat 0)
    modify fun r => { r with style := { r.style with strokeSize := size } }
  | .background =>
    let c ← Colour.ofValues call.args
    modify (·.addBackdrop (.plain c))
  | .simpleGradient =>
    let gradient ← gradientColours call.args
    modify (·.addBackdrop gradient)
  | .animationStyle =>
    let style ← call.style
    modify fun r => { r with scene := { r.scene with style := style } }
  | .colorMode => pure ()
  | .ballDetail =>
    match ← call.numbers with
    | [] => pure ()
    | x :: _ =>
      let detail := Scalar.roundNat (Scalar.clamp (Scalar.nat 2) (Scalar.nat 30) x)
      modify fun r => { r with scene := { r.scene with ballDetail := detail } }
  | .lights => modify fun r => { r with scene := { r.scene with lightsEnabled := true } }
  | .noLights => modify fun r => { r with scene := { r.scene with lightsEnabled := false } }
  | .ambientLight =>
    let c ← if call.args.isEmpty then pure Colour.white else Colour.ofValues call.args
    modify (·.addLight (.ambient c))
  | .pointLight =>
    let numbers ← call.numbers
    modify (·.addLight (pointLight numbers))
  | .bpm =>
    match ← call.numbers with
    | [] => pure ()
    | x :: _ =>
      let bpm := Scalar.clamp (Scalar.nat 0) (Scalar.nat 125) x
      modify fun r => { r with scene := { r.scene with bpm := some bpm } }
  | .play =>
    let cue ← call.cue
    modify fun r => { r with scene := { r.scene with cues := r.scene.cues.push cue } }

/-- Carries out a command. -/
def command (call : CommandCall α) (r : Recorder α) : Except RuntimeFault Unit × Recorder α :=
  (carryOut call).run r

/-- Carries out the command of a word; other words name no command. -/
def commandNamed (word : String) (args : List (Value α)) (time : α) (r : Recorder α) :
    Except RuntimeFault Unit × Recorder α :=
  match Command.ofName? word with
  | some c => r.command ⟨c, args, time⟩
  | none => (.error (.notFunction word), r)

end Recorder

end LiveSketch

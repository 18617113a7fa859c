import LiveSketch.Proofs.Outcome
import LiveSketch.Scene.Recorder

/-!
# What commands do to a recorder

The arguments of a call decide on their own whether it is carried out and what it does then (`CommandCall.effect`): no
call fails once it has begun to change the recorder, and none fails on one recorder and not on another
(`Recorder.command_eq`). So what fails leaves the recorder as it was (`Recorder.commandNamed_failed`). What else holds of
recorders is shown for one effect at a time and then for calls one after another (`Recorder.record`).
-/
namespace LiveSketch

/-- What a call does, once its arguments are read. The settings take the first number, if there is one. -/
inductive Effect (α : Type) where
  | draw (shape : Shape) (numbers : List α)
  | transform (m : Transform α)
  | push
  | pop
  | reset
  | fill (c : Option Colour)
  | stroke (c : Option Colour)
  | strokeSize (given : Option α)
  | backdrop (b : Backdrop)
  | animation (s : AnimationStyle)
  | ballDetail (given : Option α)
  | switch (on : Bool)
  | light (l : Light α)
  | bpm (given : Option α)
  | cue (c : SoundCue)
  | nothing
  deriving DecidableEq, Repr

variable {α : Type} [Scalar α]

namespace Effect

/-- The size of strokes: one if none is given, and none below zero. -/
def strokeSizeOf (given : Option α) : α := given.elim (Scalar.nat 1) (Scalar.maximum · (Scalar.nat 0))

/-- The detail of balls, from two to thirty. -/
def detailOf (x : α) : Nat := Scalar.roundNat (Scalar.clamp (Scalar.nat 2) (Scalar.nat 30) x)

/-- The tempo, up to 125 beats per minute. -/
def bpmOf (x : α) : α := Scalar.clamp (Scalar.nat 0) (Scalar.nat 125) x

/-- The recorder after an effect. -/
def apply (r : Recorder α) : Effect α → Recorder α
  | draw shape xs => r.draw shape xs
  | transform m => r.apply m
  | push => r.push
  | pop => r.pop
  | reset => { r with world := Transform.identity }
  | fill c => { r with style := { r.style with fill := c } }
  | stroke c => { r with style := { r.style with stroke := c } }
  | strokeSize given => { r with style := { r.style with strokeSize := strokeSizeOf given } }
  | backdrop b => r.addBackdrop b
  | animation s => { r with scene := { r.scene with style := s } }
  | ballDetail given => { r with scene := { r.scene with ballDetail := given.elim r.scene.ballDetail detailOf } }
  | switch on => { r with scene := { r.scene with lightsEnabled := on } }
  | light l => r.addLight l
  | bpm given => { r with scene := { r.scene with bpm := given.elim r.scene.bpm (some ∘ bpmOf) } }
  | cue c => { r with scene := { r.scene with cues := r.scene.cues.push c } }
  | nothing => r

end Effect

namespace CommandCall

/-- What the arguments of a call ask for, or the fault of arguments that cannot be read. -/
def effect (call : CommandCall α) : Except RuntimeFault (Effect α) :=
  match call.command with
  | .draw shape => Effect.draw shape <$> call.numbers
  | .rotate => (.transform ∘ .rotation ∘ Recorder.angles call.time) <$> call.numbers
  | .move => (.transform ∘ .displacement ∘ Recorder.way call.time) <$> call.numbers
  | .scale => (.transform ∘ .scaling ∘ Recorder.factors call.time) <$> call.numbers
  | .pushMatrix => .ok .push
  | .popMatrix => .ok .pop
  | .resetMatrix => .ok .reset
  | .fill => (.fill ∘ some) <$> Colour.ofValues call.args
  | .noFill => .ok (.fill none)
  | .stroke => (.stroke ∘ some) <$> Colour.ofValues call.args
  | .noStroke => .ok (.stroke none)
  | .strokeSize => (.strokeSize ∘ List.head?) <$> call.numbers
  | .background => (.backdrop ∘ .plain) <$> Colour.ofValues call.args
  | .simpleGradient => .backdrop <$> Recorder.gradientColours call.args
  | .animationStyle => .animation <$> call.style
  | .colorMode => .ok .nothing
  | .ballDetail => (.ballDetail ∘ List.head?) <$> call.numbers
  | .lights => .ok (.switch true)
  | .noLights => .ok (.switch false)
  | .ambientLight =>
    (.light ∘ .ambient) <$> if call.args.isEmpty then .ok Colour.white else Colour.ofValues call.args
  | .pointLight => (.light ∘ Recorder.pointLight) <$> call.numbers
  | .bpm => (.bpm ∘ List.head?) <$> call.numbers
  | .play => .cue <$> call.cue

end CommandCall

namespace Recorder

/-- The outcome of what was read from arguments, and the recorder after it. -/
def settle (r : Recorder α) : Except RuntimeFault (Effect α) → Except RuntimeFault Unit × Recorder α
  | .ok e => (.ok (), e.apply r)
  | .error fault => (.error fault, r)

/-- **A call is its effect.** It reads its arguments before it changes anything, and nothing else decides whether it
fails. -/
theorem command_eq (call : CommandCall α) (r : Recorder α) : r.command call = r.settle call.effect := by
  cases h : call.command <;> simp only [Recorder.command, carryOut, CommandCall.effect, h]
  case pushMatrix | popMatrix | resetMatrix | noFill | noStroke | colorMode | lights | noLights => rfl
  case draw | rotate | move | scale | pointLight => cases call.numbers <;> rfl
  case fill | stroke | background => cases Colour.ofValues call.args <;> rfl
  case strokeSize | ballDetail | bpm =>
    cases call.numbers with
    | error fault => rfl
    | ok xs => cases xs <;> rfl
  case simpleGradient => cases gradientColours call.args <;> rfl
  case ambientLight =>
    cases call.args.isEmpty with
    | true => rfl
    | false => cases Colour.ofValues call.args <;> rfl
  case animationStyle => cases call.style <;> rfl
  case play => cases call.cue <;> rfl

theorem command_of_ok {call : CommandCall α} {e : Effect α} (h : call.effect = .ok e) (r : Recorder α) :
    r.command call = (.ok (), e.apply r) := by
  rw [command_eq, h]
  rfl

theorem command_of_error {call : CommandCall α} {fault : RuntimeFault} (h : call.effect = .error fault) (r : Recorder α) :
    r.command call = (.error fault, r) := by
  rw [command_eq, h]
  rfl

/-! ## What drawing and going back leave alone -/

theorem draw_frame (r : Recorder α) (shape : Shape) (numbers : List α) :
    ∃ draws, r.draw shape numbers = { r with scene := { r.scene with draws := draws } } := by
  unfold draw
  split
  · exact ⟨r.scene.draws, rfl⟩
  · exact ⟨_, rfl⟩

theorem pop_frame (r : Recorder α) : ∃ world stack, r.pop = { r with world := world, stack := stack } := by
  unfold pop
  split
  · exact ⟨Transform.identity, r.stack, rfl⟩
  · exact ⟨_, _, rfl⟩

/-! ## Calls by word -/

/-- What a call by word asks for. -/
def effectNamed (word : String) (args : List (Value α)) (time : α) : Except RuntimeFault (Effect α) :=
  match Command.ofName? word with
  | some c => CommandCall.effect ⟨c, args, time⟩
  | none => .error (.notFunction word)

theorem commandNamed_eq (word : String) (args : List (Value α)) (time : α) (r : Recorder α) :
    r.commandNamed word args time = r.settle (effectNamed word args time) := by
  unfold commandNamed effectNamed
  cases Command.ofName? word with
  | none => rfl
  | some c => exact command_eq _ r

/-- **A command that fails changes nothing.** Whatever the recorder, the word, the arguments and the time are: if the
call fails, then the scene, the transform, the saved transforms and the style are what they were, and the call fails in
the same way on every recorder. -/
theorem commandNamed_failed {r r' : Recorder α} {word : String} {args : List (Value α)} {time : α}
    {fault : RuntimeFault} (h : r.commandNamed word args time = (.error fault, r')) :
    r' = r ∧ ∀ s : Recorder α, s.commandNamed word args time = (.error fault, s) := by
  rw [commandNamed_eq] at h
  cases he : effectNamed word args time with
  | ok e =>
    rw [he] at h
    cases h
  | error fault' =>
    rw [he] at h
    cases h
    refine ⟨rfl, fun s => ?_⟩
    rw [commandNamed_eq, he]
    rfl

/-- A recorder with something in each of its parts. -/
def furnished : Recorder Float where
  scene :=
    { draws := Log.empty.push ⟨.ball, ⟨1, 2, 1⟩, Transform.identity, some .white, none, 1, some 30⟩
      ballDetail := 30 }
  world := Transform.displacement ⟨1, 2, 3⟩
  stack := [Transform.scaling ⟨2, 2, 2⟩]
  style := ⟨none, some .black, 4⟩

/-- The last colour of the gradient is none, after two that could be read. -/
theorem commandNamed_failed_gradient :
    let args : List (Value Float) := [.colour .white, .number 10, .string "night"]
    furnished.commandNamed "simpleGradient" args 0 = (.error (.expectedNumber .string), furnished) ∧
      ∀ s : Recorder Float, s.commandNamed "simpleGradient" args 0 = (.error (.expectedNumber .string), s) :=
  have h : furnished.commandNamed "simpleGradient" [.colour .white, .number 10, .string "night"] 0 =
      (.error (.expectedNumber .string), furnished) := rfl
  ⟨h, (commandNamed_failed h).2⟩

/-! ## Calls one after another -/

/-- The recorder after calls one after another, whether or not some of them fail. -/
def record (r : Recorder α) (calls : List (CommandCall α)) : Recorder α :=
  calls.foldl (fun r call => (r.command call).2) r

@[simp] theorem record_nil (r : Recorder α) : r.record [] = r := rfl

@[simp] theorem record_cons (r : Recorder α) (call : CommandCall α) (calls : List (CommandCall α)) :
    r.record (call :: calls) = (r.command call).2.record calls := rfl

theorem record_append (r : Recorder α) (calls more : List (CommandCall α)) :
    r.record (calls ++ more) = (r.record calls).record more := List.foldl_append

/-- The outcomes of calls one after another. -/
def outcomes (r : Recorder α) : List (CommandCall α) → List (Except RuntimeFault Unit)
  | [] => []
  | call :: calls => (r.command call).1 :: (r.command call).2.outcomes calls

/-- The recorder has no say in the outcomes. -/
theorem outcomes_eq (r : Recorder α) (calls : List (CommandCall α)) :
    r.outcomes calls = calls.map fun call => (fun _ => ()) <$> call.effect := by
  induction calls generalizing r with
  | nil => rfl
  | cons call calls ih =>
    rw [outcomes, ih, List.map_cons, command_eq]
    cases call.effect <;> rfl

/-- What every effect keeps, every sequence of calls keeps. -/
theorem record_invariant {P : Recorder α → Prop} {calls : List (CommandCall α)}
    (hstep : ∀ call ∈ calls, ∀ e, call.effect = .ok e → ∀ r, P r → P (e.apply r)) {r : Recorder α} (h : P r) :
    P (r.record calls) := by
  induction calls generalizing r with
  | nil => exact h
  | cons call calls ih =>
    rw [record_cons]
    refine ih (fun c hc => hstep c (List.mem_cons_of_mem _ hc)) ?_
    cases he : call.effect with
    | ok e =>
      rw [command_of_ok he]
      exact hstep call List.mem_cons_self e he r h
    | error fault =>
      rw [command_of_error he]
      exact h

end Recorder

end LiveSketch

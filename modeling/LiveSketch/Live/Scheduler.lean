import LiveSketch.Live.Bus
import LiveSketch.Live.Clock
import LiveSketch.Live.Runner
import LiveSketch.Noise.Field

/-!
# The loop

A tick of the loop arms the next one, clears everything that the last frame left behind, runs the active
routine and shows its scene. Three things can come of it (`Report`): the routine ran and its scene is
rendered; it failed, nothing is rendered and the runner falls back; or there was no routine and the loop
goes idle.

The time that a routine sees is counted from the origin, the clock reading at which frame zero was
started last.

Beside the scheduler itself a tick works on a workbench: the runner, the bus, and a desk that only the
bookkeeping after executed `doOnce` blocks knows about.
-/
namespace LiveSketch.Live

open Script (Chance Context FrameGlobals)

/-- Whether the loop has anything to run. -/
inductive LoopState where
  | idle
  | running
  deriving DecidableEq, Repr

/-- The frame that is due, and the times that `time` is measured by. -/
structure FrameState where
  frame : Nat := 0
  origin : Float := 0
  elapsed : Float := 0
  deriving DecidableEq, Repr

/-- What was shown. -/
structure Screen where
  /-- The rendered frames with their scenes. -/
  frames : Log (Nat × Scene Float) := .empty
  /-- How often a new frame was begun. -/
  resets : Nat := 0
  /-- How often the loop went idle. -/
  dozes : Nat := 0
  deriving DecidableEq, Repr

/-- What the sound system is told. -/
inductive SoundCall where
  /-- A new frame begins. -/
  | reset
  | schedule (bpm : Option Float) (cues : List SoundCue)
  | doze
  deriving DecidableEq, Repr

/-- What came of a tick. -/
inductive Report where
  /-- There was no routine, and the loop is idle. -/
  | dozed
  | rendered (frame : Nat)
  | failed (fault : RuntimeFault)
  deriving DecidableEq, Repr

/-- What a tick works on beside the scheduler. -/
structure Workbench (δ : Type) where
  runner : Runner
  bus : Bus
  desk : δ

/-- Publishes an event. -/
def Workbench.publish {δ : Type} (w : Workbench δ) (e : Event) : Workbench δ :=
  { w with bus := w.bus.publish e }

/-- What is done with the lines of executed `doOnce` blocks after a run. -/
abbrev Bookkeeping (δ : Type) := (lines : List Nat) → Workbench δ → Workbench δ

/-- The bookkeeping that lets every line be. -/
def Bookkeeping.none {δ : Type} : Bookkeeping δ := fun _ w => w

/-- The state of the loop with all that it drives. -/
structure Scheduler where
  state : LoopState := .idle
  frame : FrameState := {}
  rate : FrameRate
  chance : Chance
  /-- The `doOnce` lines reported in the current run. -/
  doOnce : Log Nat := .empty
  /-- The reading of the clock, in milliseconds. -/
  now : Float := 0
  clock : FrameClock := {}
  recorder : Recorder Float := Recorder.empty
  screen : Screen := {}
  sound : Log SoundCall := .empty

namespace Scheduler

/-- An idle loop. -/
def ofSeed (rate : FrameRate) (seed : UInt64) (now : Float) : Scheduler :=
  { rate := rate, chance := ⟨.ofSeed seed, Noise.Field.standard⟩, now := now }

/-- The scene that was recorded last. -/
def scene (s : Scheduler) : Scene Float := s.recorder.scene

/-- Arms the next tick. -/
def arm (s : Scheduler) : Scheduler := { s with clock := s.clock.schedule s.rate }

/-- Starts the loop from frame zero. -/
def start (s : Scheduler) : Scheduler := { s with state := .running, frame := {} }.arm

/-- Gives up the armed tick. The loop does not become idle by that. -/
def stop (s : Scheduler) : Scheduler := { s with clock := s.clock.cancel }

/-- Starts an idle loop, and says whether it was idle. -/
def wake (s : Scheduler) : Bool × Scheduler :=
  match s.state with
  | .idle => (true, s.start)
  | .running => (false, s)

/-- Takes the armed tick, and says whether there was one. -/
def wait (s : Scheduler) : Bool × Scheduler :=
  let (due, clock) := s.clock.wait
  (due, { s with clock := clock })

/-- Lets the clock go on. -/
def advance (s : Scheduler) (ms : Float) : Scheduler := { s with now := s.now + ms }

/-- Goes idle. -/
def doze (s : Scheduler) : Scheduler :=
  { s with
    state := .idle
    frame := {}
    screen := { s.screen with dozes := s.screen.dozes + 1 }
    sound := s.sound.push .doze }

/-- Clears what the last frame left behind. -/
def beginFrame (s : Scheduler) : Scheduler :=
  { s with
    recorder := Recorder.empty
    screen := { s.screen with resets := s.screen.resets + 1 }
    sound := s.sound.push .reset }

/-- Makes the current time the origin if frame zero is due. -/
def setOrigin (s : Scheduler) : Scheduler :=
  if s.frame.frame = 0 then { s with frame := { s.frame with origin := s.now } } else s

/-- Reads the clock. -/
def measure (s : Scheduler) : Scheduler :=
  let s := s.setOrigin
  { s with frame := { s.frame with elapsed := s.now - s.frame.origin } }

/-- What a routine runs in. -/
def context (s : Scheduler) : Context (Recorder Float) :=
  { graphics := s.recorder
    globals := ⟨s.frame.frame, s.frame.elapsed, none⟩
    chance := s.chance
    doOnce := s.doOnce }

/-- Takes over what a run has changed. -/
def takeBack (s : Scheduler) (c : Context (Recorder Float)) : Scheduler :=
  { s with recorder := c.graphics, chance := c.chance, doOnce := c.doOnce }

/-- Hands the recorded scene to the sound system and shows it as this frame. -/
def present (s : Scheduler) (frame : Nat) : Scheduler :=
  { s with
    sound := s.sound.push (.schedule s.scene.bpm s.scene.cues.toList)
    screen := { s.screen with frames := s.screen.frames.push (frame, s.scene) } }

/-- Goes to the frame that the routine has assigned, if it has assigned one. -/
def jump (s : Scheduler) (assigned : Option Nat) : Scheduler :=
  ({ s with frame := { s.frame with frame := assigned.getD s.frame.frame } } : Scheduler).setOrigin

/-- Makes the next frame due. -/
def nextFrame (s : Scheduler) : Scheduler :=
  { s with frame := { s.frame with frame := Live.nextFrame s.frame.frame } }

/-- Everything before the routine is run. -/
def prepare (s : Scheduler) (r : Runner) : Scheduler :=
  (if r.active.isSome then s.arm else s).beginFrame.measure

variable {δ : Type}

/-- Everything after a run: events, fallback or bookkeeping, and the picture. -/
def finish (keep : Bookkeeping δ) (assigned : Option Nat) (s : Scheduler) (w : Workbench δ) :
    Tick → Report × Scheduler × Workbench δ
  | .failed fault =>
    let w := w.publish (.failed fault.message)
    (.failed fault, s, { w with runner := w.runner.revert })
  | .ran promoted doOnce =>
    let w := if promoted then w.publish .stable else w
    let w := if doOnce.isEmpty then w else keep doOnce w
    let s := s.jump assigned
    let shown := s.frame.frame
    (.rendered shown, s.nextFrame.present shown, w)
  | .idle => (.dozed, s.doze.present 0, w)

/-- Runs one tick, without waiting for it. -/
def tick (keep : Bookkeeping δ) (s : Scheduler) (w : Workbench δ) :
    Report × Scheduler × Workbench δ :=
  let s := s.prepare w.runner
  let (outcome, runner, c) := w.runner.tick Recorder.command s.context
  finish keep c.globals.assigned (s.takeBack c) { w with runner := runner } outcome

end Scheduler

end LiveSketch.Live

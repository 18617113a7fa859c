import LiveSketch.Autocoder.Basic
import LiveSketch.Gallery.Find
import LiveSketch.Live.Scheduler
import LiveSketch.Sketch.Ticks

/-!
# Sessions

A session is an editor with a sketch in it and the loop that runs the sketch. New text comes in through
`Session.update`: it is installed if it can be compiled, and otherwise rejected while the last routine
keeps running. After a frame in which `doOnce` blocks ran, their headers are ticked in the text, so that
they do not run again.
-/
namespace LiveSketch.Live

/-- What came of a new text. -/
inductive Update where
  /-- The text is empty, and nothing runs any more. -/
  | cleared
  | installed
  /-- The text cannot be compiled, and the last routine keeps running. -/
  | rejected (failure : Failure)
  deriving DecidableEq, Repr

/-- The text in the editor and the text that was put into effect last. -/
structure Document where
  editor : List Char := []
  source : List Char := []
  deriving DecidableEq, Repr

/-- Compiles a text and puts it into effect. -/
def install {δ : Type} (text : List Char) (w : Workbench δ) : Update × Workbench δ :=
  match Routine.ofSketch text with
  | .ok none => (.cleared, { w with runner := w.runner.clear }.publish .cleared)
  | .ok (some routine) =>
    (.installed, { w with runner := w.runner.install routine }.publish .cleared)
  | .error failure => (.rejected failure, w.publish (.rejected failure.message))

/-- Ticks the headers of executed `doOnce` blocks in the text and puts the result into effect. -/
def tickHeaders : Bookkeeping Document := fun lines w =>
  let ticked := Sketch.markLines lines w.desk.source
  if ticked = w.desk.source then w
  else
    let w := { w with desk := { w.desk with editor := ticked } }
    let (_, w) := install ticked (w.publish (.ticked (String.ofList ticked)))
    { w with desk := { w.desk with source := ticked } }

/-- The state of a session. -/
structure Session where
  scheduler : Scheduler
  bench : Workbench Document
  autocoder : Autocoder

namespace Session

/-- A session with an idle loop. The autocoder has random numbers of its own, so that varying a sketch
does not change what it draws. -/
def ofSeed (rate : FrameRate) (seed : UInt64) (now : Float) (editor : List Char) : Session :=
  { scheduler := .ofSeed rate seed now
    bench := ⟨{}, {}, { editor := editor }⟩
    autocoder := .ofSeed (seed + 1) }

/-- The text in the editor. -/
def editor (s : Session) : List Char := s.bench.desk.editor

/-- The text that was put into effect last. -/
def source (s : Session) : List Char := s.bench.desk.source

def runner (s : Session) : Runner := s.bench.runner

def bus (s : Session) : Bus := s.bench.bus

/-- Publishes an event. -/
def publish (s : Session) (e : Event) : Session := { s with bench := s.bench.publish e }

/-- Adds a subscriber and gives its number. -/
def subscribe (s : Session) : Nat × Session :=
  let (id, bus) := s.bus.subscribe
  (id, { s with bench := { s.bench with bus := bus } })

/-- Removes a subscriber and says whether there was one of this number. -/
def unsubscribe (s : Session) (id : Nat) : Bool × Session :=
  let (found, bus) := s.bus.unsubscribe id
  (found, { s with bench := { s.bench with bus := bus } })

/-- Changes the text in the editor without putting it into effect. -/
def setEditor (s : Session) (text : List Char) : Session :=
  { s with bench := { s.bench with desk := { s.bench.desk with editor := text } } }

/-- Remembers a text as the one in effect. -/
def setSource (s : Session) (text : List Char) : Session :=
  { s with bench := { s.bench with desk := { s.bench.desk with source := text } } }

/-- Wakes an idle loop. -/
def wake (s : Session) : Session :=
  match s.scheduler.wake with
  | (true, scheduler) => { s with scheduler := scheduler }.publish .waking
  | (false, _) => s

/-- Puts a text into effect. A text that is not empty wakes the loop, even if it is rejected. -/
def update (s : Session) (text : List Char) : Update × Session :=
  let s := s.setSource text
  let s := if text.isEmpty then s else s.wake
  let (result, bench) := install text s.bench
  (result, { s with bench := bench })

/-- Puts a text into the editor and into effect. -/
def load (s : Session) (text : List Char) : Update × Session := (s.setEditor text).update text

/-- Loads a sketch of the gallery, if there is one of this name. -/
def loadSketch (s : Session) (name : String) : Option Update × Session :=
  match Gallery.find? name with
  | none => (none, s)
  | some sketch =>
    let (result, s) := s.load sketch.text.toList
    (some result, s)

/-- Starts the loop from frame zero. -/
def start (s : Session) : Session := { s with scheduler := s.scheduler.start }

/-- Gives up the armed tick. -/
def stop (s : Session) : Session := { s with scheduler := s.scheduler.stop }

/-- Waits for the armed tick and runs it. There is no report if none is armed. -/
def runFrame (s : Session) : Option Report × Session :=
  match s.scheduler.wait with
  | (false, _) => (none, s)
  | (true, scheduler) =>
    let (report, scheduler, bench) := scheduler.tick tickHeaders s.bench
    (some report, { s with scheduler := scheduler, bench := bench })

/-- Switches the autocoder to a state, or to the other one, and gives the new state. If it is switched on
over an empty editor, a first sketch is loaded. -/
def toggleAutocoder (s : Session) (forced : Option Bool) : Bool × Session :=
  let autocoder := s.autocoder.toggle forced
  let s := { s with autocoder := autocoder }
  let s := if autocoder.active && s.editor.isEmpty then (s.load Gallery.seedText.toList).2 else s
  (autocoder.active, s.publish (.switched autocoder.active))

/-- Varies the sketch in the editor and puts it into effect, and says whether there was anything to
vary. -/
def autocode (s : Session) : Bool × Session :=
  match s.autocoder.mutate s.editor with
  | (none, autocoder) => (false, { s with autocoder := autocoder })
  | (some text, autocoder) => (true, ({ s with autocoder := autocoder }.load text).2)

/-- Varies the sketch if the interval of the autocoder has passed, and says whether it did. -/
def pollAutocoder (s : Session) : Bool × Session :=
  match s.autocoder.due s.scheduler.now with
  | (false, autocoder) => (false, { s with autocoder := autocoder })
  | (true, autocoder) => ({ s with autocoder := autocoder }.publish .flash).autocode

/-- Lets the clock go on. -/
def advance (s : Session) (ms : Float) : Session :=
  { s with scheduler := s.scheduler.advance ms }

/-- Sets the clock. -/
def setTime (s : Session) (ms : Float) : Session :=
  { s with scheduler := { s.scheduler with now := ms } }

/-- Forgets what was shown, played and published so far. -/
def forget (s : Session) : Session :=
  { s with
    scheduler := { s.scheduler with screen := { s.scheduler.screen with frames := .empty }, sound := .empty }
    bench := { s.bench with bus := { s.bench.bus with journal := .empty } } }

end Session

end LiveSketch.Live

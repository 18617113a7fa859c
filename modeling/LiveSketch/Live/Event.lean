import LiveSketch.Json.Basic

/-!
# Events

What a host can learn while a sketch is edited and runs. Every event has a name; some carry a text or a
state.
-/
namespace LiveSketch.Live

/-- An event. -/
inductive Event where
  /-- A new text was rejected. -/
  | rejected (message : String)
  /-- The running routine stopped. -/
  | failed (message : String)
  /-- The running routine has become the one to fall back on. -/
  | stable
  /-- The executed `doOnce` blocks were ticked in this new text. -/
  | ticked (text : String)
  /-- The loop leaves its doze. -/
  | waking
  /-- No error is left to show. -/
  | cleared
  /-- The autocoder was switched on or off. -/
  | switched (active : Bool)
  /-- The autocoder is about to vary the sketch. -/
  | flash
  deriving DecidableEq, Repr

namespace Event

/-- The name of an event. -/
def name : Event → String
  | rejected _ => "compile-time-error-thrown"
  | failed _ => "runtime-error-thrown"
  | stable => "livecodelab-running-stably"
  | ticked _ => "code-updated-by-livecodelab"
  | waking => "livecodelab-waking-up"
  | cleared => "clear-error"
  | switched _ => "autocoder-button-pressed"
  | flash => "autocoderbutton-flash"

/-- An event as a line of a log. The new text of a sketch is left out. -/
def display (e : Event) : String :=
  match e with
  | rejected message => e.name ++ ": " ++ message
  | failed message => e.name ++ ": " ++ message
  | switched true => e.name ++ ": true"
  | switched false => e.name ++ ": false"
  | e => e.name

/-- What an event carries. -/
def payload? : Event → Option Json
  | rejected message => some (.string message)
  | failed message => some (.string message)
  | ticked text => some (.string text)
  | switched active => some (.bool active)
  | _ => none

/-- An event by its name and with what it carries. -/
def toJson (e : Event) : Json :=
  .object (("event", .string e.name) :: (e.payload?.map fun p => ("payload", p)).toList)

end Event

end LiveSketch.Live

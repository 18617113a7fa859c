import LiveSketch.Live.Event
import LiveSketch.Log

/-!
# Who hears what

Subscribers are numbered in the order in which they come. An event goes to all who are subscribed when it
is published, in that order; the journal keeps the events together with their receivers.
-/
namespace LiveSketch.Live

/-- The subscribers and what they have heard. -/
structure Bus where
  /-- The number of the next subscriber. -/
  next : Nat := 0
  subscribers : List Nat := []
  /-- The published events, each with its receivers. -/
  journal : Log (Event × List Nat) := .empty
  deriving DecidableEq, Repr

namespace Bus

/-- Adds a subscriber and gives its number. -/
def subscribe (b : Bus) : Nat × Bus :=
  (b.next, { b with next := b.next + 1, subscribers := b.subscribers ++ [b.next] })

/-- Removes a subscriber and says whether there was one of this number. -/
def unsubscribe (b : Bus) (id : Nat) : Bool × Bus :=
  (b.subscribers.contains id, { b with subscribers := b.subscribers.filter (· != id) })

/-- Tells all subscribers of an event. -/
def publish (b : Bus) (e : Event) : Bus := { b with journal := b.journal.push (e, b.subscribers) }

/-- The published events. -/
def events (b : Bus) : List Event := b.journal.toList.map (·.1)

end Bus

end LiveSketch.Live

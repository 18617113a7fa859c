import LiveSketch.Pattern.Basic

/-!
# Running patterns

A pattern is run as an automaton. Its states take a character, lead on to other states in an order of
preference, or are the end. Between two characters a run is in several states at once, the preferred
first, and in none of them twice: of two ways that come to a state at the same character only the
preferred one counts. So a text is read once, whatever the pattern, and a round of a repetition that
takes nothing leads nowhere.

* `Pattern.states` lays out a pattern, which begins with the first of its states; `length_states` counts
  them.
* `Automaton.step` and `Automaton.run` read a character and a text.
* `Automaton.match?` is the length of the match at the front of a text.
-/
namespace LiveSketch

/-- A state of an automaton. -/
inductive Automaton.State where
  /-- Takes a character of the class and goes on to another state. -/
  | take (k : CharClass) (next : Nat)
  /-- Goes on to each of these states, the preferred first. -/
  | fork (targets : List Nat)
  /-- The end of the pattern. -/
  | finish
  deriving DecidableEq, Repr

namespace Pattern

open Automaton (State)

/-- The number of states of a pattern. -/
def size : Pattern → Nat
  | text cs => cs.length + 1
  | char _ => 1
  | seq p q => p.size + q.size
  | either p q => p.size + q.size + 1
  | rounds _ p => p.size + 1
  | group p => p.size

/-- The states of characters, of which the first is number `base`, before state `next`. -/
def textStates : List Char → (base next : Nat) → List State
  | [], _, next => [.fork [next]]
  | c :: cs, base, next => .take (.of [c]) (base + 1) :: textStates cs (base + 1) next

/-- The states of a pattern, of which the first is number `base`, before state `next`. -/
def states : Pattern → (base next : Nat) → List State
  | text cs, base, next => textStates cs base next
  | char k, _, next => [.take k next]
  | seq p q, base, next =>
    let middle := base + p.size
    p.states base middle ++ q.states middle next
  | either p q, base, next =>
    let second := base + 1 + p.size
    .fork [base + 1, second] :: (p.states (base + 1) next ++ q.states second next)
  | rounds greedy p, base, next =>
    let last := base + p.size
    p.states base last ++ [.fork (if greedy then [base, next] else [next, base])]
  | group p, base, next => p.states base next

theorem length_textStates (cs : List Char) (base next : Nat) :
    (textStates cs base next).length = cs.length + 1 := by
  induction cs generalizing base with
  | nil => rfl
  | cons c cs ih => simp [textStates, ih]

/-- A pattern has as many states as its size says. -/
theorem length_states (p : Pattern) (base next : Nat) : (p.states base next).length = p.size := by
  induction p generalizing base next with
  | text cs => exact length_textStates cs base next
  | char k => rfl
  | seq p q ihp ihq => simp [states, size, ihp, ihq]
  | either p q ihp ihq => simp [states, size, ihp, ihq]
  | rounds greedy p ih => simp [states, size, ih]
  | group p ih => exact ih base next

end Pattern

/-- The states of a pattern, and where a run can be that has come to each of them. -/
structure Automaton where
  states : Array Automaton.State
  /-- For each state the ones behind its forks that take a character or are the end, in their order. -/
  ways : Array (List Nat)
  /-- The number of the state that is the end. -/
  last : Nat
  deriving DecidableEq, Repr

namespace Automaton

/-- Follows the forks from pending states on. Each state is visited once, and none behind the end. -/
def followForks (states : Array State) : (fuel : Nat) → (pending seen : List Nat) → List Nat
  | 0, _, _ => []
  | _ + 1, [], _ => []
  | fuel + 1, i :: pending, seen =>
    if seen.contains i then followForks states fuel pending seen
    else match states[i]? with
      | some (.fork targets) => followForks states fuel (targets ++ pending) (i :: seen)
      | some (.take _ _) => i :: followForks states fuel pending (i :: seen)
      | _ => [i]

/-- Where a run can be that has come to each of the states. A state is followed once, and a fork has two
targets at most. -/
def waysOf (states : Array State) : Array (List Nat) :=
  (Array.range states.size).map fun i => followForks states (2 * states.size + 2) [i] []

/-- The automaton of a pattern, which begins with state zero and has the end behind its own states. -/
def ofPattern (p : Pattern) : Automaton :=
  let states := (p.states 0 p.size ++ [State.finish]).toArray
  ⟨states, waysOf states, p.size⟩

/-- Where a run can be that has come to a state. -/
def waysFrom (a : Automaton) (i : Nat) : List Nat := (a.ways[i]?).getD []

/-- Whether the state is the end. -/
def isEnd (a : Automaton) (i : Nat) : Bool := i == a.last

/-- Where a character leads from a state. -/
def after (a : Automaton) (c : Char) (i : Nat) : List Nat :=
  match a.states[i]? with
  | some (.take k next) => if k.contains c then a.waysFrom next else []
  | _ => []

/-- The states of the first list and those that only the second has. -/
def merge : List Nat → List Nat → List Nat
  | xs, [] => xs
  | [], ys => ys
  | xs, ys => xs ++ ys.filter (!xs.contains ·)

/-- Where a character leads from several states. Coming to the end gives up the ones that are less
preferred. -/
def step (a : Automaton) (c : Char) : List Nat → List Nat
  | [] => []
  | i :: here =>
    let next := a.after c i
    if next.any a.isEnd then next else merge next (a.step c here)

/-- Reads a text after `taken` characters; `best` is the length of the match so far. -/
def run (a : Automaton) :
    (here : List Nat) → (taken : Nat) → (best : Option Nat) → List Char → Option Nat
  | here, taken, best, cs =>
    let best := if here.any a.isEnd then some taken else best
    match here, cs with
    | [], _ => best
    | _, [] => best
    | here, c :: cs => a.run (a.step c here) (taken + 1) best cs

/-- The length of the match at the front of a text. -/
def match? (a : Automaton) (cs : List Char) : Option Nat := a.run (a.waysFrom 0) 0 none cs

end Automaton

end LiveSketch

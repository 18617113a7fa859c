import LiveSketch.Script.Routine

/-!
# Running a sketch with a fallback

The runner keeps the routine that is active and the one that is stable. An installed routine becomes
stable after `threshold` runs in a row without a failure. `Runner.revert` makes the stable routine active
again.

Every installation has a number of its own, so two routines are the same only if they come from the same
installation.
-/
namespace LiveSketch.Live

open Script (Device Context)

/-- A routine with the number of its installation. -/
structure Installed where
  serial : Nat
  routine : Routine
  deriving Repr

/-- The routines that are run and fallen back on. -/
structure Runner where
  active : Option Installed := none
  stable : Option Installed := none
  /-- How many runs in a row have succeeded since the active routine became active. -/
  streak : Nat := 0
  /-- The number of installations so far. -/
  installs : Nat := 0
  deriving Repr

/-- What came of one run. -/
inductive Tick where
  /-- There is no active routine. -/
  | idle
  /-- The routine ran; `promoted` tells whether it became stable by this run. -/
  | ran (promoted : Bool) (doOnce : List Nat)
  | failed (fault : RuntimeFault)
  deriving DecidableEq, Repr

namespace Runner

/-- The number of runs in a row after which a routine is stable. -/
def threshold : Nat := 5

/-- The greatest streak that is counted. -/
def maxStreak : Nat := UInt32.size - 1

/-- Makes a routine active. -/
def install (r : Runner) (routine : Routine) : Runner :=
  { r with active := some ⟨r.installs, routine⟩, streak := 0, installs := r.installs + 1 }

/-- Forgets both routines. -/
def clear (r : Runner) : Runner := { r with active := none, stable := none, streak := 0 }

/-- Makes the stable routine active, or none if there is no stable one. -/
def revert (r : Runner) : Runner := { r with active := r.stable, streak := 0 }

/-- Whether the active and the stable routine are the same. -/
def isStable (r : Runner) : Bool := r.active.map (·.serial) == r.stable.map (·.serial)

/-- The runner after a run without a failure. -/
def succeed (r : Runner) : Runner :=
  let streak := min (r.streak + 1) maxStreak
  { r with streak := streak, stable := if streak = threshold then r.active else r.stable }

/-- Runs the active routine once. The list of executed `doOnce` lines is empty before and after. -/
def tick {σ : Type} (device : Device σ) (r : Runner) (c : Context σ) : Tick × Runner × Context σ :=
  match r.active with
  | none => (.idle, r, c)
  | some installed =>
    match (installed.routine.invoke device).run { c with doOnce := .empty } with
    | (.error fault, c) => (.failed fault, r, { c with doOnce := .empty })
    | (.ok (), c) =>
      let r := r.succeed
      (.ran (r.streak == threshold) c.doOnce.toList, r, { c with doOnce := .empty })

end Runner

end LiveSketch.Live

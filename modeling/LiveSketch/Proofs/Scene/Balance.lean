import Mathlib.Data.List.Infix
import LiveSketch.Proofs.Scene.Effects

/-!
# Saved transforms

Between a call that saves the transform and the one that goes back to it, calls that are balanced among themselves do
not look at what was saved before (`Recorder.record_above`). So the transform and the saved ones are afterwards what they
were, and what is recorded is what the calls record on their own (`Recorder.record_balanced`).
-/
namespace LiveSketch

variable {α : Type}

namespace CommandCall

/-- How many of the calls save the transform. -/
def saves (calls : List (CommandCall α)) : Nat := calls.countP (·.command = .pushMatrix)

/-- How many of the calls go back to a saved transform. -/
def returns (calls : List (CommandCall α)) : Nat := calls.countP (·.command = .popMatrix)

/-- The calls go back to all transforms that they save, and never to one that they have not saved. -/
structure Balanced (calls : List (CommandCall α)) : Prop where
  front : ∀ front, front <+: calls → returns front ≤ saves front
  whole : returns calls = saves calls

instance (calls : List (CommandCall α)) : Decidable (Balanced calls) :=
  decidable_of_iff ((∀ front ∈ calls.inits, returns front ≤ saves front) ∧ returns calls = saves calls)
    ⟨fun h => ⟨fun front hf => h.1 front ((List.mem_inits _ _).2 hf), h.2⟩,
      fun h => ⟨fun front hf => h.front front ((List.mem_inits _ _).1 hf), h.whole⟩⟩

theorem saves_cons (call : CommandCall α) (calls : List (CommandCall α)) :
    saves (call :: calls) = saves [call] + saves calls := @List.countP_append _ _ [call] calls

theorem returns_cons (call : CommandCall α) (calls : List (CommandCall α)) :
    returns (call :: calls) = returns [call] + returns calls := @List.countP_append _ _ [call] calls

variable [Scalar α] {call : CommandCall α}

theorem effect_eq_push : call.effect = .ok .push ↔ call.command = .pushMatrix := by
  constructor
  · intro h
    cases hc : call.command <;> simp [effect, hc, map_eq_ok] at h ⊢
  · intro h
    simp only [effect, h]

theorem effect_eq_pop : call.effect = .ok .pop ↔ call.command = .popMatrix := by
  constructor
  · intro h
    cases hc : call.command <;> simp [effect, hc, map_eq_ok] at h ⊢
  · intro h
    simp only [effect, h]

end CommandCall

namespace Recorder

open CommandCall

/-- The same recorder with these transforms saved below its own. -/
def above (r : Recorder α) (base : List (Transform α)) : Recorder α := { r with stack := r.stack ++ base }

variable [Scalar α]

/-- An effect does not look below the transforms that a recorder has saved, unless it goes back to one and there is
none. -/
theorem apply_above {e : Effect α} {r : Recorder α} (base : List (Transform α)) (h : e = .pop → r.stack ≠ []) :
    e.apply (r.above base) = (e.apply r).above base := by
  cases e with
  | draw shape xs =>
    cases hc : (r.style.fill.isNone && r.style.stroke.isNone) <;> simp [Effect.apply, draw, above, hc]
  | pop =>
    obtain ⟨m, rest, hs⟩ := List.exists_cons_of_ne_nil (h rfl)
    simp only [Effect.apply, pop, above, hs, List.cons_append]
  | _ => rfl

theorem stack_apply {e : Effect α} (r : Recorder α) (hpush : e ≠ .push) (hpop : e ≠ .pop) :
    (e.apply r).stack = r.stack := by
  cases e with
  | draw shape xs =>
    obtain ⟨draws, h⟩ := draw_frame r shape xs
    rw [Effect.apply, h]
  | push => exact absurd rfl hpush
  | pop => exact absurd rfl hpop
  | _ => rfl

variable {r : Recorder α} {call : CommandCall α} {calls : List (CommandCall α)}

theorem command_above (base : List (Transform α)) (h : call.command = .popMatrix → r.stack ≠ []) :
    (r.above base).command call = ((r.command call).1, (r.command call).2.above base) := by
  cases he : call.effect with
  | ok e =>
    have hpop : e = .pop → r.stack ≠ [] := by
      rintro rfl
      exact h (effect_eq_pop.1 he)
    rw [command_of_ok he, command_of_ok he, apply_above base hpop]
  | error fault => rw [command_of_error he, command_of_error he]

/-- Only saving and going back change the number of saved transforms. -/
theorem length_command (h : call.command = .popMatrix → r.stack ≠ []) :
    (r.command call).2.stack.length + returns [call] = r.stack.length + saves [call] := by
  by_cases hpush : call.command = .pushMatrix
  · rw [command_of_ok (effect_eq_push.2 hpush)]
    simp [Effect.apply, push, returns, saves, hpush]
  · by_cases hpop : call.command = .popMatrix
    · obtain ⟨m, rest, hs⟩ := List.exists_cons_of_ne_nil (h hpop)
      rw [command_of_ok (effect_eq_pop.2 hpop)]
      simp [Effect.apply, pop, returns, saves, hs, hpop]
    · have hstack : (r.command call).2.stack = r.stack := by
        cases he : call.effect with
        | ok e =>
          rw [command_of_ok he]
          refine stack_apply r ?_ ?_
          · rintro rfl
            exact hpush (effect_eq_push.1 he)
          · rintro rfl
            exact hpop (effect_eq_pop.1 he)
        | error fault => rw [command_of_error he]
      simp [hstack, returns, saves, hpush, hpop]

/-- Calls that go back to no more than what is saved above the base, and what they save themselves, do not look at the
base. -/
theorem record_above (base : List (Transform α))
    (h : ∀ front, front <+: calls → returns front ≤ r.stack.length + saves front) :
    (r.above base).record calls = (r.record calls).above base ∧ (r.above base).outcomes calls = r.outcomes calls ∧
      (r.record calls).stack.length + returns calls = r.stack.length + saves calls := by
  induction calls generalizing r with
  | nil => exact ⟨rfl, rfl, rfl⟩
  | cons call calls ih =>
    have hpop : call.command = .popMatrix → r.stack ≠ [] := by
      intro hpop hs
      have h1 := h [call] ⟨calls, rfl⟩
      simp [returns, saves, hpop, hs] at h1
    have hlength := length_command hpop
    have hfront : ∀ front, front <+: calls → returns front ≤ (r.command call).2.stack.length + saves front := by
      intro front hf
      have hcall := h (call :: front) ((List.prefix_cons_inj call).2 hf)
      rw [returns_cons, saves_cons] at hcall
      omega
    obtain ⟨hrecord, houtcomes, hcount⟩ := ih hfront
    rw [record_cons, record_cons, outcomes, outcomes, command_above base hpop]
    refine ⟨hrecord, congrArg _ houtcomes, ?_⟩
    rw [returns_cons, saves_cons]
    omega

theorem outcomes_append (r : Recorder α) (calls more : List (CommandCall α)) :
    r.outcomes (calls ++ more) = r.outcomes calls ++ (r.record calls).outcomes more := by
  simp only [outcomes_eq, List.map_append]

/-- **Saving and going back encloses.** Take any recorder, a call that saves the transform, calls that are balanced, and
a call that goes back. Afterwards the transform and the saved transforms are what they were before, the scene and the
style are what the calls between record on their own, and the calls between have the outcomes that they have on their
own; the other two succeed. This holds whether or not some of the calls fail. -/
theorem record_balanced {save back : CommandCall α} (hsave : save.command = .pushMatrix)
    (hback : back.command = .popMatrix) (hb : Balanced calls) (r : Recorder α) :
    r.record (save :: (calls ++ [back])) = { r.record calls with world := r.world, stack := r.stack } ∧
      r.outcomes (save :: (calls ++ [back])) = .ok () :: (r.outcomes calls ++ [.ok ()]) := by
  -- the recorder before and the recorder that has saved differ in the base alone
  obtain ⟨bare, hbare⟩ : ∃ bare : Recorder α, bare = { r with stack := [] } := ⟨_, rfl⟩
  have hr : r = bare.above r.stack := by rw [hbare]; rfl
  have hpushed : r.push = bare.above (r.world :: r.stack) := by rw [hbare]; rfl
  have hfront : ∀ front, front <+: calls → returns front ≤ bare.stack.length + saves front := by
    rw [hbare]
    simpa using hb.front
  obtain ⟨hinner, hinnerOutcomes, hcount⟩ := record_above (r.world :: r.stack) hfront
  obtain ⟨halone, haloneOutcomes, -⟩ := record_above r.stack hfront
  rw [← hr] at halone haloneOutcomes
  have hempty : (bare.record calls).stack = [] := by
    have hwhole := hb.whole
    rw [hbare] at hcount ⊢
    exact List.eq_nil_of_length_eq_zero (by simpa [hwhole] using hcount)
  have hsaved : r.command save = (.ok (), r.push) := command_of_ok (effect_eq_push.2 hsave) r
  have hwent : ∀ s : Recorder α, s.command back = (.ok (), s.pop) := command_of_ok (effect_eq_pop.2 hback)
  constructor
  · rw [record_cons, record_append, hsaved, hpushed, hinner, halone]
    simp [hwent, above, pop, hempty]
  · rw [outcomes, outcomes_append, hsaved, hpushed, hinnerOutcomes, ← haloneOutcomes]
    simp [outcomes, hwent]

/-- Calls that save the transform once more, start anew in there and draw inside and outside of that. -/
def nested : List (CommandCall Float) :=
  [⟨.move, [.number 1, .number 2, .number 3], 0⟩, ⟨.pushMatrix, [], 0⟩, ⟨.resetMatrix, [], 0⟩,
    ⟨.scale, [.number 2], 0⟩, ⟨.draw .ball, [], 0⟩, ⟨.popMatrix, [], 0⟩, ⟨.noStroke, [], 0⟩,
    ⟨.fill, [.bool true], 0⟩, ⟨.draw .box, [], 0⟩, ⟨.play, [.string "kick", .string "x - x"], 0⟩]

/-- All of these calls succeed, and two shapes more are recorded than before: of the ball only the edges have a colour, of
the box only the faces. -/
theorem record_balanced_nested :
    let save : CommandCall Float := ⟨.pushMatrix, [], 0⟩
    let back : CommandCall Float := ⟨.popMatrix, [], 0⟩
    Balanced nested ∧
      furnished.record (save :: (nested ++ [back])) =
        { furnished.record nested with world := furnished.world, stack := furnished.stack } ∧
      furnished.outcomes (save :: (nested ++ [back])) = List.replicate 12 (.ok ()) ∧
      (furnished.record nested).scene.draws.size = furnished.scene.draws.size + 2 := by
  have hb : Balanced nested := by decide
  obtain ⟨hrecord, houtcomes⟩ :=
    @record_balanced Float _ nested ⟨.pushMatrix, [], 0⟩ ⟨.popMatrix, [], 0⟩ rfl rfl hb furnished
  exact ⟨hb, hrecord, houtcomes.trans rfl, rfl⟩

end Recorder

end LiveSketch

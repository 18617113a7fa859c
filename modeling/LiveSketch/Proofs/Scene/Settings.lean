import LiveSketch.Proofs.Number.Nearest
import LiveSketch.Proofs.Scene.Effects

/-!
# The ranges of settings

The detail of balls and the tempo of a scene are what the number given last makes of them (`Recorder.settings_record`),
and a shape is drawn with the settings of its moment (`Recorder.draws_record`). So both are in their ranges unless that
number is a NaN, which neither is kept from; the size of strokes is never negative, also for a NaN
(`Recorder.settings_in_range`).
-/
namespace LiveSketch

variable {α : Type} [Scalar α]

namespace Effect

/-- The number given for the detail of balls. -/
def detail : Effect α → Option α
  | ballDetail given => given
  | _ => none

/-- The number given for the tempo. -/
def tempo : Effect α → Option α
  | bpm given => given
  | _ => none

end Effect

namespace CommandCall

/-- The number that a call gives to a setting: the first, if the call is for the setting and its arguments can be read. -/
def given (setting : Command) (call : CommandCall α) : Option α :=
  if call.command = setting then call.numbers.toOption.bind List.head? else none

/-- The number that calls have given last to a setting. -/
def latest (setting : Command) (calls : List (CommandCall α)) : Option α := calls.reverse.findSome? (given setting)

theorem latest_cons (setting : Command) (call : CommandCall α) (calls : List (CommandCall α)) :
    latest setting (call :: calls) = (latest setting calls).or (given setting call) := by
  simp [latest, List.findSome?_append]

theorem given_of_ok {call : CommandCall α} {e : Effect α} (h : call.effect = .ok e) :
    given .ballDetail call = e.detail ∧ given .bpm call = e.tempo := by
  cases hc : call.command <;> simp only [effect, hc, map_eq_ok, Except.ok.injEq] at h
  case ballDetail | bpm =>
    obtain ⟨xs, hxs, rfl⟩ := h
    simp [given, hc, hxs, Except.toOption, Effect.detail, Effect.tempo]
  case pushMatrix | popMatrix | resetMatrix | noFill | noStroke | colorMode | lights | noLights =>
    subst h
    simp [given, hc, Effect.detail, Effect.tempo]
  all_goals
    obtain ⟨x, -, rfl⟩ := h
    simp [given, hc, Effect.detail, Effect.tempo]

theorem given_of_error {call : CommandCall α} {fault : RuntimeFault} (h : call.effect = .error fault) :
    given .ballDetail call = none ∧ given .bpm call = none := by
  have hsetting : ∀ setting, setting = .ballDetail ∨ setting = .bpm → given setting call = none := by
    intro setting hs
    unfold given
    split_ifs with hc
    · cases hn : call.numbers with
      | error fault => rfl
      | ok xs => rcases hs with rfl | rfl <;> simp only [effect, hc, hn] at h <;> cases h
    · rfl
  exact ⟨hsetting _ (.inl rfl), hsetting _ (.inr rfl)⟩

theorem effect_eq_draw {call : CommandCall α} {shape : Shape} {xs : List α} (h : call.effect = .ok (.draw shape xs)) :
    call.command = .draw shape := by
  cases hc : call.command <;> simp [effect, hc, map_eq_ok] at h ⊢
  exact h.2

end CommandCall

namespace Recorder

open CommandCall

/-! ## What is set last counts -/

theorem settings_apply (r : Recorder α) (e : Effect α) :
    (e.apply r).scene.ballDetail = e.detail.elim r.scene.ballDetail Effect.detailOf ∧
      (e.apply r).scene.bpm = e.tempo.elim r.scene.bpm (some ∘ Effect.bpmOf) := by
  cases e with
  | draw shape xs =>
    obtain ⟨draws, h⟩ := draw_frame r shape xs
    rw [Effect.apply, h]
    exact ⟨rfl, rfl⟩
  | pop =>
    obtain ⟨world, stack, h⟩ := pop_frame r
    rw [Effect.apply, h]
    exact ⟨rfl, rfl⟩
  | _ => exact ⟨rfl, rfl⟩

theorem settings_command (r : Recorder α) (call : CommandCall α) :
    (r.command call).2.scene.ballDetail = (given .ballDetail call).elim r.scene.ballDetail Effect.detailOf ∧
      (r.command call).2.scene.bpm = (given .bpm call).elim r.scene.bpm (some ∘ Effect.bpmOf) := by
  cases h : call.effect with
  | ok e =>
    rw [command_of_ok h, (given_of_ok h).1, (given_of_ok h).2]
    exact settings_apply r e
  | error fault =>
    rw [command_of_error h, (given_of_error h).1, (given_of_error h).2]
    exact ⟨rfl, rfl⟩

/-- The settings of a scene are what the numbers given last make of them. -/
theorem settings_record (r : Recorder α) (calls : List (CommandCall α)) :
    (r.record calls).scene.ballDetail = (latest .ballDetail calls).elim r.scene.ballDetail Effect.detailOf ∧
      (r.record calls).scene.bpm = (latest .bpm calls).elim r.scene.bpm (some ∘ Effect.bpmOf) := by
  induction calls generalizing r with
  | nil => exact ⟨rfl, rfl⟩
  | cons call calls ih =>
    obtain ⟨hdetail, hbpm⟩ := ih (r.command call).2
    obtain ⟨hdetail', hbpm'⟩ := settings_command r call
    rw [record_cons, hdetail, hbpm, hdetail', hbpm', latest_cons, latest_cons]
    constructor
    · cases latest .ballDetail calls <;> rfl
    · cases latest .bpm calls <;> rfl

/-! ## Shapes have the settings of their moment -/

/-- A shape is drawn by a call to a recorder. -/
structure Draws (r : Recorder α) (call : CommandCall α) (d : DrawCall α) : Prop where
  command : call.command = .draw d.shape
  strokeSize : d.strokeSize = r.style.strokeSize
  detail : d.detail = if d.shape = .ball then some r.scene.ballDetail else none

theorem mem_draws_draw {r : Recorder α} {shape : Shape} {xs : List α} {d : DrawCall α}
    (h : d ∈ (r.draw shape xs).scene.draws.toList) :
    d ∈ r.scene.draws.toList ∨ d.shape = shape ∧ d.strokeSize = r.style.strokeSize ∧
      d.detail = if shape = .ball then some r.scene.ballDetail else none := by
  unfold draw at h
  by_cases hnone : (r.style.fill.isNone && r.style.stroke.isNone) = true
  · rw [if_pos hnone] at h
    exact .inl h
  · rw [if_neg hnone, Log.toList_push, List.mem_append, List.mem_singleton] at h
    refine h.imp_right fun hd => ?_
    subst hd
    exact ⟨rfl, rfl, rfl⟩

theorem draws_command {r : Recorder α} {call : CommandCall α} {d : DrawCall α}
    (h : d ∈ (r.command call).2.scene.draws.toList) : d ∈ r.scene.draws.toList ∨ r.Draws call d := by
  cases he : call.effect with
  | error fault =>
    rw [command_of_error he] at h
    exact .inl h
  | ok e =>
    rw [command_of_ok he] at h
    cases e with
    | draw shape xs =>
      refine (mem_draws_draw h).imp_right fun ⟨hshape, hsize, hdetail⟩ => ?_
      subst hshape
      exact ⟨effect_eq_draw he, hsize, hdetail⟩
    | pop =>
      obtain ⟨world, stack, hpop⟩ := pop_frame r
      rw [Effect.apply, hpop] at h
      exact .inl h
    | _ => exact .inl h

/-- Every shape was drawn by a call to the recorder after the calls before. -/
theorem draws_record {r : Recorder α} {calls : List (CommandCall α)} {d : DrawCall α}
    (h : d ∈ (r.record calls).scene.draws.toList) :
    d ∈ r.scene.draws.toList ∨ ∃ front call, front ++ [call] <+: calls ∧ (r.record front).Draws call d := by
  induction calls generalizing r with
  | nil => exact .inl h
  | cons call calls ih =>
    rcases ih h with hd | ⟨front, later, hfront, hd⟩
    · exact (draws_command hd).imp_right fun hd => ⟨[], call, by simp, hd⟩
    · exact .inr ⟨call :: front, later, (List.prefix_cons_inj call).2 hfront, hd⟩

/-! ## Doubles -/

end Recorder

namespace Effect

open Number

theorem ordered_nat : Ordered (Scalar.nat 0 : Float).toModel.unpack ∧ Ordered (Scalar.nat 2 : Float).toModel.unpack ∧
    Ordered (Scalar.nat 30 : Float).toModel.unpack ∧ Ordered (Scalar.nat 125 : Float).toModel.unpack :=
  ⟨ordered_of_not_isNaN rfl, ordered_of_not_isNaN rfl, ordered_of_not_isNaN rfl, ordered_of_not_isNaN rfl⟩

theorem units_two : units (Scalar.nat 2 : Float).toModel.unpack = magnitude 2 0 := by decide +kernel

theorem units_thirty : units (Scalar.nat 30 : Float).toModel.unpack = magnitude 30 0 := by decide +kernel

theorem detailOf_mem (x : Float) : (2 ≤ detailOf x ∧ detailOf x ≤ 30) ↔ x.isNaN = false := by
  unfold detailOf
  cases hx : x.isNaN with
  | true =>
    rw [clamp_of_isNaN _ _ hx]
    simp [Scalar.roundNat, toNearest_of_isNaN hx]
  | false =>
    obtain ⟨-, hl, hh⟩ := clamp_mem ordered_nat.2.1 ordered_nat.2.2.1 (by rw [units_two, units_thirty]; decide +kernel) hx
    rw [units_two] at hl
    rw [units_thirty] at hh
    exact iff_of_true (toNearest_mem (by decide) hl hh) rfl

theorem bpmOf_mem (x : Float) : (0 ≤ bpmOf x ∧ bpmOf x ≤ 125) ↔ x.isNaN = false := by
  unfold bpmOf
  cases hx : x.isNaN with
  | true =>
    rw [clamp_of_isNaN _ _ hx]
    simp [not_le_of_isNaN_right _ hx]
  | false =>
    obtain ⟨ho, hl, hh⟩ := clamp_mem ordered_nat.1 ordered_nat.2.2.2 (by decide +kernel) hx
    exact iff_of_true ⟨(le_iff ordered_nat.1 ho).2 hl, (le_iff ho ordered_nat.2.2.2).2 hh⟩ rfl

theorem strokeSizeOf_nonneg (given : Option Float) : 0 ≤ strokeSizeOf given := by
  cases given with
  | none => decide
  | some x =>
    change 0 ≤ Scalar.maximum x (Scalar.nat 0)
    unfold Scalar.maximum
    split_ifs with h
    · rcases Bool.or_eq_true_iff.1 h with hlt | hnan
      · exact le_of_lt_of_ordered ordered_nat.1 (of_decide_eq_true hlt)
      · exact absurd hnan (by decide)
    · decide

end Effect

namespace Recorder

open CommandCall

/-- The scene that calls record from the start of a frame. -/
def recorded (calls : List (CommandCall Float)) : Scene Float := ((empty : Recorder Float).record calls).scene

theorem ballDetail_mem (calls : List (CommandCall Float)) :
    (2 ≤ (recorded calls).ballDetail ∧ (recorded calls).ballDetail ≤ 30) ↔
      ∀ x ∈ latest .ballDetail calls, x.isNaN = false := by
  rw [recorded, (settings_record empty calls).1]
  cases latest .ballDetail calls with
  | none => exact iff_of_true (by decide) nofun
  | some x => simpa using Effect.detailOf_mem x

theorem bpm_mem (calls : List (CommandCall Float)) :
    (∀ bpm ∈ (recorded calls).bpm, 0 ≤ bpm ∧ bpm ≤ 125) ↔ ∀ x ∈ latest .bpm calls, x.isNaN = false := by
  rw [recorded, (settings_record empty calls).2]
  cases latest .bpm calls with
  | none => exact iff_of_true nofun nofun
  | some x => simpa using Effect.bpmOf_mem x

theorem strokeSize_nonneg (calls : List (CommandCall Float)) :
    0 ≤ ((empty : Recorder Float).record calls).style.strokeSize := by
  refine record_invariant (P := fun r => 0 ≤ r.style.strokeSize) (fun _ _ e _ r hr => ?_) (by decide)
  cases e with
  | draw shape xs =>
    obtain ⟨draws, h⟩ := draw_frame r shape xs
    rwa [Effect.apply, h]
  | pop =>
    obtain ⟨world, stack, h⟩ := pop_frame r
    rwa [Effect.apply, h]
  | strokeSize given => exact Effect.strokeSizeOf_nonneg given
  | _ => exact hr

/-- **The settings of a scene are in their ranges, unless a NaN is given to them.** After any calls from the start of a
frame, with any arguments and whether or not some fail: the detail of balls is from 2 to 30 and the tempo is absent or
from 0 to 125, each if and only if the number given last to it is no NaN; the stroke size of every shape is not negative;
and every ball has a detail, which is from 2 to 30 if and only if the number given last before the call that drew it is
no NaN. -/
theorem settings_in_range (calls : List (CommandCall Float)) :
    ((2 ≤ (recorded calls).ballDetail ∧ (recorded calls).ballDetail ≤ 30) ↔
        ∀ x ∈ latest .ballDetail calls, x.isNaN = false) ∧
      ((∀ bpm ∈ (recorded calls).bpm, 0 ≤ bpm ∧ bpm ≤ 125) ↔ ∀ x ∈ latest .bpm calls, x.isNaN = false) ∧
      (∀ d ∈ (recorded calls).draws.toList, 0 ≤ d.strokeSize) ∧
      ∀ d ∈ (recorded calls).draws.toList, d.shape = .ball → ∃ front call, front ++ [call] <+: calls ∧
        call.command = .draw .ball ∧
        ∃ n, d.detail = some n ∧ ((2 ≤ n ∧ n ≤ 30) ↔ ∀ x ∈ latest .ballDetail front, x.isNaN = false) := by
  have hdrawn : ∀ d ∈ (recorded calls).draws.toList, ∃ front call,
      front ++ [call] <+: calls ∧ (empty.record front).Draws call d :=
    fun d hd => (draws_record hd).resolve_left List.not_mem_nil
  refine ⟨ballDetail_mem calls, bpm_mem calls, fun d hd => ?_, fun d hd hball => ?_⟩
  · obtain ⟨front, call, -, h⟩ := hdrawn d hd
    rw [h.strokeSize]
    exact strokeSize_nonneg front
  · obtain ⟨front, call, hfront, h⟩ := hdrawn d hd
    refine ⟨front, call, hfront, by rw [h.command, hball], _, ?_, ballDetail_mem front⟩
    rw [h.detail, if_pos hball]
    rfl

/-- A NaN is given to both settings. -/
def undefinedSettings : List (CommandCall Float) :=
  [⟨.ballDetail, [.number (0 / 0)], 0⟩, ⟨.bpm, [.number (0 / 0)], 0⟩, ⟨.draw .ball, [], 0⟩]

/-- The detail is then zero, also that of the ball, and the tempo is no number. -/
theorem settings_undefined :
    (recorded undefinedSettings).ballDetail = 0 ∧
      (recorded undefinedSettings).draws.toList.map (·.detail) = [some 0] ∧
      ∃ bpm, (recorded undefinedSettings).bpm = some bpm ∧ ¬(0 ≤ bpm ∧ bpm ≤ 125) := by
  decide

end Recorder

end LiveSketch

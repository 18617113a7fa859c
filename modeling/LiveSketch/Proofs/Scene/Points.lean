import Mathlib.Analysis.SpecialFunctions.Trigonometric.Basic
import Mathlib.Data.List.Forall2
import LiveSketch.Proofs.Scene.Affine
import LiveSketch.Proofs.Scene.Effects

/-!
# Where shapes are drawn

A recorder multiplies matrices and saves products. A machine that keeps the maps of points themselves, as lists that grow
at their ends (`Trail`), does the same to points: the transform of every shape that is drawn maps a point to its image
under the first map of the image under the second, and so on, where the last map is applied first
(`Recorder.draws_follow`).
-/
namespace LiveSketch

variable {K : Type} [Exact K]

/-- The commands that draw shapes, change the transform, save it and go back. -/
def Command.isSpatial : Command → Bool
  | draw _ | rotate | move | scale | pushMatrix | popMatrix | resetMatrix => true
  | _ => false

namespace CommandCall

/-- The way of a move. Without arguments it is a circle, and the third component of two is zero. -/
def way (call : CommandCall K) (numbers : List K) : Vec3 K :=
  let phase := call.time / 500
  Recorder.triple ⟨Scalar.sine phase, Scalar.cosine phase, Scalar.sine phase⟩ 0 numbers

/-- The angles of a rotation. Without arguments they are the time in seconds, and the third of two is zero. -/
def angles (call : CommandCall K) (numbers : List K) : Vec3 K :=
  Recorder.triple (Vec3.spread (call.time / 1000)) 0 numbers

/-- A factor that is not too near to zero. -/
def visible (v : K) : K := if |v| < 1 / 10 ^ 9 then 1 / 10 ^ 9 else v

/-- The factors of a scaling. Without arguments they are a pulse, and the third of two is one. -/
def factors (call : CommandCall K) (numbers : List K) : Vec3 K :=
  let v := Recorder.triple (Vec3.spread (1 + Scalar.sine (call.time / 500) / 4)) 1 numbers
  ⟨visible v.x, visible v.y, visible v.z⟩

end CommandCall

/-- Maps of points, the last applied first. -/
abbrev Maps (K : Type) := List (Vec3 K → Vec3 K)

/-- The image of a point under maps. -/
def Maps.image (maps : Maps K) (p : Vec3 K) : Vec3 K := maps.foldr (fun m q => m q) p

/-- A recorder that keeps maps in place of matrices: the current maps, the saved ones, and those that the shapes so far
were drawn with. -/
structure Trail (K : Type) where
  maps : Maps K := []
  saved : List (Maps K) := []
  drawn : List (Maps K) := []

namespace Trail

/-- Puts a map behind the others, if its arguments could be read. -/
def add (t : Trail K) : Except RuntimeFault (Vec3 K → Vec3 K) → Trail K
  | .ok m => { t with maps := t.maps ++ [m] }
  | .error _ => t

/-- What a call does to maps. -/
def step (t : Trail K) (call : CommandCall K) : Trail K :=
  match call.command with
  | .move => t.add ((Vec3.shift ∘ call.way) <$> call.numbers)
  | .scale => t.add ((Vec3.stretch ∘ call.factors) <$> call.numbers)
  | .rotate => t.add ((Vec3.turn ∘ call.angles) <$> call.numbers)
  | .pushMatrix => { t with saved := t.maps :: t.saved }
  | .popMatrix => { t with maps := t.saved.headD [], saved := t.saved.tail }
  | .resetMatrix => { t with maps := [] }
  | .draw _ => if call.numbers.isOk then { t with drawn := t.drawn ++ [t.maps] } else t
  | _ => t

/-- The maps after calls one after another. -/
def run (calls : List (CommandCall K)) : Trail K := calls.foldl step {}

end Trail

/-- A transform is affine and has the image of maps. -/
structure Transform.Follows (m : Transform K) (maps : Maps K) : Prop where
  affine : m.IsAffine
  image : ∀ p, m.apply p = maps.image p

namespace Recorder

theorem way_eq (call : CommandCall K) : way call.time = call.way := by
  funext numbers
  simp [way, CommandCall.way]

theorem angles_eq (call : CommandCall K) : angles call.time = call.angles := by
  funext numbers
  simp [angles, CommandCall.angles]

theorem factors_eq (call : CommandCall K) : factors call.time = call.factors := by
  funext numbers
  simp [factors, CommandCall.factors, guardFactor, CommandCall.visible]

/-- Each transform of a recorder follows the maps that stand in its place, and nothing is drawn without being
recorded. -/
structure Tracks (r : Recorder K) (t : Trail K) : Prop where
  world : r.world.Follows t.maps
  saved : List.Forall₂ Transform.Follows r.stack t.saved
  drawn : List.Forall₂ (fun d maps => d.transform.Follows maps) r.scene.draws.toList t.drawn
  filled : r.style.fill.isSome

end Recorder

namespace Transform

theorem Follows.identity : (identity : Transform K).Follows [] where
  affine := affine_identity
  image := apply_identity

theorem Follows.mul {m n : Transform K} {maps : Maps K} {f : Vec3 K → Vec3 K} (h : m.Follows maps) (hn : n.IsAffine)
    (hf : ∀ p, n.apply p = f p) : (m * n).Follows (maps ++ [f]) where
  affine := h.affine.mul hn
  image p := by rw [apply_mul hn, hf, h.image, Maps.image, Maps.image, List.foldr_append, List.foldr_cons, List.foldr_nil]

end Transform

namespace Recorder

variable {r : Recorder K} {t : Trail K}

theorem Tracks.apply (h : Tracks r t) {m : Transform K} {f : Vec3 K → Vec3 K} (hm : m.IsAffine)
    (hf : ∀ p, m.apply p = f p) : Tracks (r.apply m) { t with maps := t.maps ++ [f] } :=
  ⟨h.world.mul hm hf, h.saved, h.drawn, h.filled⟩

theorem Tracks.pop (h : Tracks r t) : Tracks r.pop { t with maps := t.saved.headD [], saved := t.saved.tail } := by
  obtain ⟨hworld, hsaved, hdrawn, hfilled⟩ := h
  unfold Recorder.pop
  generalize r.stack = stack, t.saved = saved at hsaved
  cases hsaved with
  | nil => exact ⟨Transform.Follows.identity, .nil, hdrawn, hfilled⟩
  | cons hm hrest => exact ⟨hm, hrest, hdrawn, hfilled⟩

theorem Tracks.draw (h : Tracks r t) (shape : Shape) (numbers : List K) :
    Tracks (r.draw shape numbers) { t with drawn := t.drawn ++ [t.maps] } := by
  obtain ⟨c, hc⟩ := Option.isSome_iff_exists.1 h.filled
  unfold Recorder.draw
  simp only [hc, Option.isNone_some, Bool.false_and, Bool.false_eq_true, if_false]
  refine ⟨h.world, h.saved, ?_, by simp [hc]⟩
  rw [Log.toList_push]
  exact List.rel_append h.drawn (.cons h.world .nil)

/-- One call. -/
theorem Tracks.command (h : Tracks r t) {call : CommandCall K} (hs : call.command.isSpatial) :
    Tracks (r.command call).2 (t.step call) := by
  rw [command_eq]
  unfold CommandCall.effect Trail.step
  cases hc : call.command <;> rw [hc] at hs <;> simp only
  case pushMatrix => exact ⟨h.world, .cons h.world h.saved, h.drawn, h.filled⟩
  case popMatrix => exact h.pop
  case resetMatrix => exact ⟨Transform.Follows.identity, h.saved, h.drawn, h.filled⟩
  case draw shape =>
    cases call.numbers with
    | error fault => exact h
    | ok xs => exact h.draw shape xs
  case move =>
    rw [way_eq]
    cases call.numbers with
    | error fault => exact h
    | ok xs => exact h.apply (Transform.affine_displacement _) (Transform.apply_displacement _)
  case scale =>
    rw [factors_eq]
    cases call.numbers with
    | error fault => exact h
    | ok xs => exact h.apply (Transform.affine_scaling _) (Transform.apply_scaling _)
  case rotate =>
    rw [angles_eq]
    cases call.numbers with
    | error fault => exact h
    | ok xs => exact h.apply (Transform.affine_rotation _) (Transform.apply_rotation _)
  all_goals cases hs

theorem Tracks.record {calls : List (CommandCall K)} (hs : ∀ call ∈ calls, call.command.isSpatial) (h : Tracks r t) :
    Tracks (r.record calls) (calls.foldl Trail.step t) := by
  induction calls generalizing r t with
  | nil => exact h
  | cons call calls ih =>
    exact ih (fun c hc => hs c (List.mem_cons_of_mem _ hc)) (h.command (hs call List.mem_cons_self))

/-- **Shapes are drawn where the maps put them.** Let calls from an empty recorder draw shapes, move, rotate, scale, save
transforms, go back and start anew, in any order and with any arguments, and let the same calls go through lists of
maps. Then as many shapes are recorded as are drawn there, and for each the transform is affine and maps every point as
its list does: the map of the call that came last is applied first. -/
theorem draws_follow {calls : List (CommandCall K)} (hs : ∀ call ∈ calls, call.command.isSpatial) :
    List.Forall₂ (fun d maps => d.transform.Follows maps) (empty.record calls).scene.draws.toList (Trail.run calls).drawn :=
  (Tracks.record hs ⟨.identity, .nil, .nil, rfl⟩).drawn

end Recorder

/-- The real numbers, with their own sine and cosine. -/
noncomputable instance : Exact ℝ where
  ofDecimal m places := m / 10 ^ places
  less x y := decide (x < y)
  isUnordered _ := false
  sine := Real.sin
  cosine := Real.cos
  floor x := ⌊x⌋
  roundNat x := ⌊x + 1 / 2⌋₊
  cellIndex x := (⌊x⌋ % 256).toNat
  ofDecimal_def _ _ := rfl
  less_def _ _ := rfl
  isUnordered_def _ := rfl

theorem sine_real (x : ℝ) : Scalar.sine x = Real.sin x := rfl

theorem cosine_real (x : ℝ) : Scalar.cosine x = Real.cos x := rfl

namespace Recorder

/-- A box and a ball are drawn behind a quarter of a turn and a move, and the box behind a scaling that is almost to zero,
which is left before the ball. The second way back finds nothing saved. -/
noncomputable def quarter : List (CommandCall ℝ) :=
  [⟨.rotate, [.number 0, .number 0, .number (Real.pi / 2)], 0⟩, ⟨.move, [.number 1, .bool false], 0⟩,
    ⟨.pushMatrix, [], 0⟩, ⟨.scale, [.number 0], 0⟩, ⟨.draw .box, [], 0⟩, ⟨.popMatrix, [], 0⟩, ⟨.draw .ball, [], 0⟩,
    ⟨.popMatrix, [], 0⟩, ⟨.draw .peg, [], 0⟩]

/-- The box and the ball are moved along the x axis and then turned onto the y axis; the peg stays at the origin. -/
theorem draws_follow_quarter :
    (∀ call ∈ quarter, call.command.isSpatial) ∧
      List.Forall₂ (fun d maps => d.transform.Follows maps) (empty.record quarter).scene.draws.toList
        (Trail.run quarter).drawn ∧
      (Trail.run quarter).drawn.map (·.image ⟨0, 0, 0⟩) = [⟨0, 1, 0⟩, ⟨0, 1, 0⟩, ⟨0, 0, 0⟩] := by
  have hs : ∀ call ∈ quarter, call.command.isSpatial := by simp [quarter, Command.isSpatial]
  have hrun : (Trail.run quarter).drawn =
      [[Vec3.turn ⟨0, 0, Real.pi / 2⟩, Vec3.shift ⟨1, Scalar.nat 0, 0⟩,
          Vec3.stretch ⟨CommandCall.visible 0, CommandCall.visible 0, CommandCall.visible 0⟩],
        [Vec3.turn ⟨0, 0, Real.pi / 2⟩, Vec3.shift ⟨1, Scalar.nat 0, 0⟩], []] := rfl
  refine ⟨hs, draws_follow hs, ?_⟩
  rw [hrun]
  simp [Maps.image, Vec3.turn, Vec3.turnX, Vec3.turnY, Vec3.turnZ, Vec3.shift, Vec3.stretch, sine_real, cosine_real]

end Recorder

end LiveSketch

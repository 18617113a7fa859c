import LiveSketch.Proofs.Live.Pacing

/-!
# Frames that fail

A routine may fail anywhere, with commands given, lines reported and a frame assigned before. None of that is
kept: `Session.runFrame_failed` lists all that a failing frame leaves behind, which is one event, the fallback
and the time that was measured. What the routine has recorded is cleared before anything looks at it.
-/
namespace LiveSketch.Live

open Script (Context)

namespace Scheduler

/-- A frame begins with an empty recorder, whatever was recorded before. -/
theorem tick_recorder {δ : Type} (keep : Bookkeeping δ) (s : Scheduler) (w : Workbench δ)
    (recorder : Recorder Float) : ({ s with recorder := recorder } : Scheduler).tick keep w = s.tick keep w := by
  have hp : ({ s with recorder := recorder } : Scheduler).prepare w.runner = s.prepare w.runner := by
    unfold prepare
    split <;> rfl
  simp only [tick, hp]

/-- Before the run the frame that is due stays the same, and nothing is shown or played. -/
theorem prepare_output (s : Scheduler) (r : Runner) :
    (s.prepare r).frame.frame = s.frame.frame ∧
      (s.prepare r).screen.frames = s.screen.frames ∧ (s.prepare r).screen.dozes = s.screen.dozes ∧
      (s.prepare r).sound = s.sound.push .reset := by
  have hm : ∀ s : Scheduler, s.measure.frame.frame = s.frame.frame ∧
      s.measure.screen.frames = s.screen.frames ∧ s.measure.screen.dozes = s.screen.dozes ∧
      s.measure.sound = s.sound := by
    intro s
    unfold measure setOrigin
    split <;> exact ⟨rfl, rfl, rfl, rfl⟩
  unfold prepare
  split
  · exact hm s.arm.beginFrame
  · exact hm s.beginFrame

end Scheduler

namespace Session

theorem runFrame_recorder (s : Session) (recorder : Recorder Float)
    (h : s.scheduler.clock.armed.isSome) :
    ({ s with scheduler := { s.scheduler with recorder := recorder } } : Session).runFrame = s.runFrame := by
  have ht := s.scheduler.wait.2.tick_recorder tickHeaders s.bench recorder
  rw [runFrame_of_armed h, runFrame_of_armed (by exact h)]
  exact congrArg (fun r => (some r.1, { s with scheduler := r.2.1, bench := r.2.2 })) ht

/-- **A failing frame leaves no trace.** Whatever the routine did before it failed, the frame is reported as
failed with its fault, one event tells of it, and nothing is rendered and no sound is scheduled. The frame that
is due, both texts and the stable routine stay as they are, and the stable routine, if there is one, becomes the
active one with a new streak. No reported line is left, the next tick is armed, and it does not matter what was
recorded. -/
theorem runFrame_failed {s : Session} {x : Installed} {fault : RuntimeFault}
    {c : Context (Recorder Float)} (harmed : s.scheduler.clock.armed.isSome)
    (hx : s.runner.active = some x)
    (hfails : x.routine.invoke Recorder.command s.frameContext = (.error fault, c)) :
    ∃ s', s.runFrame = (some (.failed fault), s') ∧
      s'.bus.journal.toList = s.bus.journal.toList ++ [(.failed fault.message, s.bus.subscribers)] ∧
      s'.scheduler.screen.frames = s.scheduler.screen.frames ∧
      s'.scheduler.screen.dozes = s.scheduler.screen.dozes ∧
      s'.scheduler.sound.toList = s.scheduler.sound.toList ++ [.reset] ∧
      s'.scheduler.frame.frame = s.scheduler.frame.frame ∧
      s'.source = s.source ∧ s'.editor = s.editor ∧ s'.autocoder = s.autocoder ∧
      s'.runner.stable = s.runner.stable ∧ s'.runner.active = s.runner.stable ∧ s'.runner.streak = 0 ∧
      s'.scheduler.doOnce = .empty ∧
      s'.scheduler.state = s.scheduler.state ∧ s'.scheduler.clock.armed = some s.scheduler.rate ∧
      ∀ recorder, ({ s' with scheduler := { s'.scheduler with recorder := recorder } } : Session).runFrame =
        s'.runFrame := by
  have hrun : s.bench.runner.tick Recorder.command (s.scheduler.wait.2.prepare s.bench.runner).context =
      (.failed fault, s.bench.runner, { c with doOnce := .empty }) := by
    have hr : (x.routine.invoke Recorder.command).run s.frameContext = (.error fault, c) := hfails
    have ha : s.bench.runner.active = some x := hx
    simp only [Runner.tick, ha]
    exact hr ▸ rfl
  obtain ⟨hclock, -⟩ := s.scheduler.wait.2.prepare_pace s.bench.runner
  obtain ⟨hframe, hframes, hdozes, hsound⟩ := s.scheduler.wait.2.prepare_output s.bench.runner
  have hnext : (s.scheduler.wait.2.prepare s.bench.runner).clock.armed = some s.scheduler.rate := by
    have ha : s.bench.runner.active.isSome := by simp [show s.bench.runner.active = some x from hx]
    rw [hclock, if_pos ha]
    rfl
  rw [runFrame_of_armed harmed]
  simp only [Scheduler.tick, hrun, Scheduler.finish]
  refine ⟨_, rfl, Bus.toList_journal_publish _ _, hframes, hdozes, ?_, hframe, rfl, rfl, rfl, rfl, rfl,
    rfl, rfl, Scheduler.prepare_state _ _, hnext, fun recorder => runFrame_recorder _ recorder ?_⟩
  · exact (congrArg Log.toList hsound).trans (Log.toList_push _ _)
  · exact Option.isSome_iff_exists.2 ⟨_, hnext⟩

/-- A stable sketch, and a text that fails in the second turn of a loop, after it has drawn, reported a line
and assigned the frame. -/
def halfway : Session :=
  (ofSeed .asFastAsPossible 0 0 []).run (.load "box".toList :: List.replicate 5 .frame ++
    [.update "late = 0\ndoOnce -> ball\nframe = 9\n2 times ->\n\tpeg\n\tif late -> wobble()\n\tlate = 1".toList])

/-- The frame fails after three shapes, and nothing of it stays. -/
theorem runFrame_failed_halfway :
    ∃ x c, halfway.scheduler.clock.armed.isSome ∧ halfway.runner.active = some x ∧
      x.routine.invoke Recorder.command halfway.frameContext = (.error (.notFunction "wobble"), c) ∧
      c.globals.assigned = some 9 ∧ c.doOnce.toList = [1] ∧ c.graphics.scene.draws.toList.length = 3 ∧
      ∃ s', halfway.runFrame = (some (.failed (.notFunction "wobble")), s') ∧
        s'.scheduler.screen.frames = halfway.scheduler.screen.frames ∧ s'.scheduler.frame.frame = 5 ∧
        s'.source = halfway.source ∧ s'.runner.active = halfway.runner.stable := by
  have hstate : halfway.runner.active.isSome ∧ halfway.scheduler.clock.armed.isSome ∧
      halfway.scheduler.frame.frame = 5 ∧ ∀ y ∈ halfway.runner.active,
        let run := y.routine.invoke Recorder.command halfway.frameContext
        run.1 = .error (.notFunction "wobble") ∧ run.2.globals.assigned = some 9 ∧
          run.2.doOnce.toList = [1] ∧ run.2.graphics.scene.draws.toList.length = 3 := by
    decide +kernel
  obtain ⟨hactive, harmed, hframe, hrun⟩ := hstate
  obtain ⟨x, hx⟩ := Option.isSome_iff_exists.1 hactive
  obtain ⟨hfault, hassigned, hlines, hdraws⟩ := hrun x hx
  have hfails : x.routine.invoke Recorder.command halfway.frameContext =
      (.error (.notFunction "wobble"), (x.routine.invoke Recorder.command halfway.frameContext).2) :=
    Prod.ext hfault rfl
  obtain ⟨s', hs', -, hframes, -, -, hf, hsource, -, -, -, hstable, -⟩ := runFrame_failed harmed hx hfails
  exact ⟨x, _, harmed, hx, hfails, hassigned, hlines, hdraws, s', hs', hframes, hf.trans hframe, hsource, hstable⟩

end Session

end LiveSketch.Live

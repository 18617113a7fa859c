import LiveSketch.Proofs.Live.Failing
import LiveSketch.Proofs.Live.Promotion

/-!
# Frames that are independent

What the recorder and the list of reported lines hold when a tick begins is cleared before the routine can see
it, whether the last routine came to its end or not. Two loops that differ in nothing else (`Scheduler.Alike`)
therefore go through the same tick (`Scheduler.observe_alike`) and are alike after it, so they can never be told
apart (`Scheduler.isolation`).
-/
namespace LiveSketch.Live

open Script (Context)

variable {δ : Type}

/-- What can be seen of a tick. -/
structure Observation (δ : Type) where
  report : Report
  /-- How the routine ran, with the lines that it has reported. -/
  run : Tick
  /-- Runner, events and desk after the tick. -/
  bench : Workbench δ
  /-- The frames that the tick has shown, with their scenes. -/
  shown : List (Nat × Scene Float)
  /-- What the sound system was told. -/
  played : List SoundCall

namespace Scheduler

/-- What can be seen of the next tick. -/
def observe (keep : Bookkeeping δ) (s : Scheduler) (w : Workbench δ) : Observation δ :=
  let (report, s', w') := s.tick keep w
  { report := report
    run := (w.runner.tick Recorder.command (s.prepare w.runner).context).1
    bench := w'
    shown := s'.screen.frames.since s.screen.frames.size
    played := s'.sound.since s.sound.size }

/-- The loops agree in everything that a routine may see of earlier frames. What is recorded, reported, shown,
played and armed is left open. -/
structure Alike (s t : Scheduler) : Prop where
  state : s.state = t.state
  frame : s.frame = t.frame
  rate : s.rate = t.rate
  now : s.now = t.now
  chance : s.chance = t.chance

namespace Alike

variable {s t : Scheduler}

theorem arm (h : s.Alike t) : s.arm.Alike t.arm := ⟨h.state, h.frame, h.rate, h.now, h.chance⟩

theorem start (h : s.Alike t) : s.start.Alike t.start := ⟨rfl, rfl, h.rate, h.now, h.chance⟩

theorem wake (h : s.Alike t) : s.wake.2.Alike t.wake.2 := by
  rcases s.wake_cases with ⟨hs, hw⟩ | ⟨hs, hw⟩ <;> rcases t.wake_cases with ⟨ht, hw'⟩ | ⟨ht, hw'⟩ <;>
    rw [hw, hw']
  · exact h.start
  · cases hs.symm.trans (h.state.trans ht)
  · cases hs.symm.trans (h.state.trans ht)
  · exact h

theorem beginFrame (h : s.Alike t) : s.beginFrame.Alike t.beginFrame :=
  ⟨h.state, h.frame, h.rate, h.now, h.chance⟩

theorem setOrigin (h : s.Alike t) : s.setOrigin.Alike t.setOrigin := by
  unfold Scheduler.setOrigin
  rw [← h.frame]
  split
  · exact ⟨h.state, by rw [h.now], h.rate, h.now, h.chance⟩
  · exact h

theorem measure (h : s.Alike t) : s.measure.Alike t.measure :=
  have ho := h.setOrigin
  ⟨ho.state, by simp only [Scheduler.measure, ho.frame, ho.now], ho.rate, ho.now, ho.chance⟩

theorem jump (h : s.Alike t) (assigned : Option Nat) : (s.jump assigned).Alike (t.jump assigned) := by
  refine setOrigin ⟨h.state, ?_, h.rate, h.now, h.chance⟩
  simp only [h.frame]

theorem nextFrame (h : s.Alike t) : s.nextFrame.Alike t.nextFrame :=
  ⟨h.state, by simp only [Scheduler.nextFrame, h.frame], h.rate, h.now, h.chance⟩

theorem prepare (h : s.Alike t) (r : Runner) : (s.prepare r).Alike (t.prepare r) := by
  unfold Scheduler.prepare
  split
  · exact h.arm.beginFrame.measure
  · exact h.beginFrame.measure

end Alike

theorem prepare_recorder (s : Scheduler) (r : Runner) : (s.prepare r).recorder = Recorder.empty := by
  have hm : ∀ s : Scheduler, s.measure.recorder = s.recorder := by
    intro s
    unfold measure setOrigin
    split <;> rfl
  unfold prepare
  rw [hm]
  rfl

/-- A routine is given the same by loops that are alike, but for the lines that were reported before. -/
theorem Alike.context {s t : Scheduler} (h : s.Alike t) (r : Runner) (lines : Log Nat) :
    { (s.prepare r).context with doOnce := lines } = { (t.prepare r).context with doOnce := lines } := by
  simp only [Scheduler.context, prepare_recorder, (h.prepare r).frame, (h.prepare r).chance]

/-- From one loop to the other these frames were shown and these calls made. -/
structure Adds (s s' : Scheduler) (shown : List (Nat × Scene Float)) (played : List SoundCall) : Prop where
  frames : s'.screen.frames.toList = s.screen.frames.toList ++ shown
  sound : s'.sound.toList = s.sound.toList ++ played

theorem Adds.trans {s s' s'' : Scheduler} {shown shown' : List (Nat × Scene Float)}
    {played played' : List SoundCall} (h : s.Adds s' shown played) (h' : s'.Adds s'' shown' played') :
    s.Adds s'' (shown ++ shown') (played ++ played') :=
  ⟨by rw [h'.frames, h.frames, List.append_assoc], by rw [h'.sound, h.sound, List.append_assoc]⟩

theorem Adds.since {s s' : Scheduler} {shown : List (Nat × Scene Float)} {played : List SoundCall}
    (h : s.Adds s' shown played) :
    s'.screen.frames.since s.screen.frames.size = shown ∧ s'.sound.since s.sound.size = played := by
  constructor
  · rw [← Log.drop_toList, h.frames, ← Log.length_toList, List.drop_left]
  · rw [← Log.drop_toList, h.sound, ← Log.length_toList, List.drop_left]

theorem prepare_adds (s : Scheduler) (r : Runner) : s.Adds (s.prepare r) [] [.reset] where
  frames := by rw [(s.prepare_output r).2.1, List.append_nil]
  sound := by rw [(s.prepare_output r).2.2.2, Log.toList_push]

theorem present_adds (s : Scheduler) (n : Nat) :
    s.Adds (s.present n) [(n, s.scene)] [.schedule s.scene.bpm s.scene.cues.toList] :=
  ⟨Log.toList_push _ _, Log.toList_push _ _⟩

theorem jump_adds (s : Scheduler) (assigned : Option Nat) :
    s.Adds (s.jump assigned).nextFrame [] [] ∧ (s.jump assigned).recorder = s.recorder ∧
      (s.jump assigned).doOnce = s.doOnce := by
  unfold jump setOrigin
  split <;> exact ⟨⟨by simp [nextFrame], by simp [nextFrame]⟩, rfl, rfl⟩

theorem doze_adds (s : Scheduler) : s.Adds s.doze [] [.doze] :=
  ⟨(List.append_nil _).symm, Log.toList_push _ _⟩

/-- After the run loops that are alike and have recorded the same go on in the same way. -/
theorem Alike.finish {s t : Scheduler} (h : s.Alike t) (hr : s.recorder = t.recorder) (keep : Bookkeeping δ)
    (assigned : Option Nat) (w : Workbench δ) (run : Tick) :
    ∃ report s' t' w' shown played,
      Scheduler.finish keep assigned s w run = (report, s', w') ∧
      Scheduler.finish keep assigned t w run = (report, t', w') ∧
      s.Adds s' shown played ∧ t.Adds t' shown played ∧ s'.Alike t' ∧ s'.recorder = t'.recorder ∧
      s'.doOnce = s.doOnce ∧ t'.doOnce = t.doOnce := by
  cases run with
  | idle =>
    have hscene : t.doze.scene = s.doze.scene := congrArg Recorder.scene hr.symm
    refine ⟨_, _, _, _, _, _, rfl, rfl, s.doze_adds.trans (s.doze.present_adds 0), ?_,
      ⟨rfl, rfl, h.rate, h.now, h.chance⟩, hr, rfl, rfl⟩
    rw [← hscene]
    exact t.doze_adds.trans (t.doze.present_adds 0)
  | failed fault =>
    exact ⟨_, s, t, _, [], [], rfl, rfl, ⟨(List.append_nil _).symm, (List.append_nil _).symm⟩,
      ⟨(List.append_nil _).symm, (List.append_nil _).symm⟩, h, hr, rfl, rfl⟩
  | ran promoted lines =>
    obtain ⟨hs, hsr, hsd⟩ := s.jump_adds assigned
    obtain ⟨ht, htr, htd⟩ := t.jump_adds assigned
    have hj := h.jump assigned
    have hrec : (t.jump assigned).recorder = (s.jump assigned).recorder := by rw [hsr, htr, hr]
    have hscene : (t.jump assigned).nextFrame.scene = (s.jump assigned).nextFrame.scene :=
      congrArg Recorder.scene hrec
    have hn := hj.nextFrame
    refine ⟨_, _, (t.jump assigned).nextFrame.present (s.jump assigned).frame.frame, _, _, _, rfl, ?_,
      hs.trans (present_adds _ _), ?_, ⟨hn.state, hn.frame, hn.rate, hn.now, hn.chance⟩, hrec.symm, hsd, htd⟩
    · simp only [Scheduler.finish, hj.frame]
    · rw [← hscene]
      exact ht.trans (present_adds _ _)

end Scheduler

namespace Runner

variable {σ : Type} (device : Script.Device σ) (r : Runner) (c : Context σ)

/-- The lines that were reported before a run do not matter to it, and none of them stays. -/
theorem tick_doOnce (lines : Log Nat) (h : r.active.isSome) :
    r.tick device { c with doOnce := lines } = r.tick device c := by
  obtain ⟨x, hx⟩ := Option.isSome_iff_exists.1 h
  simp only [tick, hx]

end Runner

namespace Scheduler

/-- The runs of loops that are alike go the same way and leave the same behind, but for the list of reported
lines, which is left as it was if there is no routine. -/
theorem Alike.run {s t : Scheduler} (h : s.Alike t) (r : Runner) :
    ∃ (run : Tick) (r' : Runner) (c : Context (Recorder Float)) (lines lines' : Log Nat),
      r.tick Recorder.command (s.prepare r).context = (run, r', { c with doOnce := lines }) ∧
      r.tick Recorder.command (t.prepare r).context = (run, r', { c with doOnce := lines' }) ∧
      (r.active.isSome → lines = lines') := by
  by_cases ha : r.active.isSome
  · have hs := r.tick_doOnce Recorder.command (s.prepare r).context .empty ha
    have ht := r.tick_doOnce Recorder.command (t.prepare r).context .empty ha
    rw [← h.context] at ht
    exact ⟨_, _, _, _, _, hs.symm, ht.symm, fun _ => rfl⟩
  · have hn : r.active = none := by simpa using ha
    have hidle : ∀ c, r.tick Recorder.command c = (.idle, r, c) := fun c => by simp only [Runner.tick, hn]
    have hc := h.context r (t.prepare r).doOnce
    refine ⟨.idle, r, (s.prepare r).context, _, (t.prepare r).doOnce, hidle _, ?_, fun hr => absurd hr ha⟩
    rw [hidle, hc]
    rfl

theorem tick_eq (keep : Bookkeeping δ) {s : Scheduler} {w : Workbench δ} {run : Tick} {r : Runner}
    {c : Context (Recorder Float)} (h : w.runner.tick Recorder.command (s.prepare w.runner).context = (run, r, c)) :
    s.tick keep w =
      finish keep c.globals.assigned ((s.prepare w.runner).takeBack c) { w with runner := r } run := by
  simp only [tick, h]

/-- A tick of loops that are alike looks the same and leaves them alike. It leaves the same recorded, and the same
reported if a routine was active. -/
theorem tick_alike (keep : Bookkeeping δ) {s t : Scheduler} (h : s.Alike t) (w : Workbench δ) :
    s.observe keep w = t.observe keep w ∧
      (s.tick keep w).2.1.Alike (t.tick keep w).2.1 ∧
      (s.tick keep w).2.1.recorder = (t.tick keep w).2.1.recorder ∧
      (w.runner.active.isSome → (s.tick keep w).2.1.doOnce = (t.tick keep w).2.1.doOnce) := by
  obtain ⟨run, r, c, lines, lines', hs, ht, hlines⟩ := h.run w.runner
  have hp := h.prepare w.runner
  have hback : ((s.prepare w.runner).takeBack { c with doOnce := lines }).Alike
      ((t.prepare w.runner).takeBack { c with doOnce := lines' }) := ⟨hp.state, hp.frame, hp.rate, hp.now, rfl⟩
  obtain ⟨report, s', t', w', shown, played, hfs, hft, hadds, haddt, halike, hrec, hds, hdt⟩ :=
    hback.finish rfl keep c.globals.assigned { w with runner := r } run
  have hts := (tick_eq keep hs).trans hfs
  have htt := (tick_eq keep ht).trans hft
  have hadds : s.Adds s' shown (.reset :: played) :=
    (s.prepare_adds w.runner).trans ⟨hadds.frames, hadds.sound⟩
  have haddt : t.Adds t' shown (.reset :: played) :=
    (t.prepare_adds w.runner).trans ⟨haddt.frames, haddt.sound⟩
  refine ⟨?_, ?_⟩
  · simp only [observe, hts, htt, hs, ht, hadds.since, haddt.since]
  · rw [hts, htt]
    exact ⟨halike, hrec, fun ha => by rw [hds, hdt]; exact hlines ha⟩

end Scheduler

namespace Engine

/-- What can be seen of an order, if it is a tick. -/
def observe (e : Engine δ) : Order δ → Option (Observation δ)
  | .tick clerk => some (e.scheduler.observe clerk.keep e.bench)
  | _ => none

/-- What can be seen of one order after another. -/
def observations (e : Engine δ) : List (Order δ) → List (Option (Observation δ))
  | [] => []
  | o :: orders => e.observe o :: (e.step o).observations orders

theorem step_alike {e f : Engine δ} (h : e.scheduler.Alike f.scheduler) (hb : e.bench = f.bench) (o : Order δ) :
    e.observe o = f.observe o ∧ (e.step o).scheduler.Alike (f.step o).scheduler ∧
      (e.step o).bench = (f.step o).bench := by
  cases o with
  | tick clerk =>
    obtain ⟨hobserve, halike, -⟩ := Scheduler.tick_alike clerk.keep h e.bench
    have hbench := congrArg Observation.bench hobserve
    simp only [observe, step, ← hb]
    exact ⟨congrArg some hobserve, halike, hbench⟩
  | change c => exact ⟨rfl, h, by simp only [step, runner, hb]⟩
  | start => exact ⟨rfl, h.start, hb⟩
  | stop => exact ⟨rfl, ⟨h.state, h.frame, h.rate, h.now, h.chance⟩, hb⟩
  | wake => exact ⟨rfl, h.wake, hb⟩
  | wait => exact ⟨rfl, ⟨h.state, h.frame, h.rate, h.now, h.chance⟩, hb⟩
  | setTime ms => exact ⟨rfl, ⟨h.state, h.frame, h.rate, rfl, h.chance⟩, hb⟩

theorem observations_alike {e f : Engine δ} (h : e.scheduler.Alike f.scheduler) (hb : e.bench = f.bench)
    (orders : List (Order δ)) : e.observations orders = f.observations orders := by
  induction orders generalizing e f with
  | nil => rfl
  | cons o orders ih =>
    obtain ⟨hobserve, halike, hbench⟩ := step_alike h hb o
    rw [observations, observations, hobserve, ih halike hbench]

end Engine

/-- **Frames are isolated from one another.** Take two loops that agree in their state, the frame that is due, the
rate, the clock and the source of chance, with one workbench, whatever each of them holds as recorded, reported,
shown, played and armed. Whatever the bookkeeping does, the next tick gives the same report, run, reported lines,
runner, events and desk, and shows and plays the same. It leaves the same recorded, and the same reported if a
routine was active. And whatever orders the loops are given from then on, no tick tells them apart. -/
theorem Scheduler.isolation {s t : Scheduler} (h : s.Alike t) (w : Workbench δ) :
    (∀ keep : Bookkeeping δ,
      s.observe keep w = t.observe keep w ∧
      (s.tick keep w).2.1.Alike (t.tick keep w).2.1 ∧
      (s.tick keep w).2.1.recorder = (t.tick keep w).2.1.recorder ∧
      (w.runner.active.isSome → (s.tick keep w).2.1.doOnce = (t.tick keep w).2.1.doOnce)) ∧
    ∀ orders, (Engine.mk s w).observations orders = (Engine.mk t w).observations orders :=
  ⟨fun keep => tick_alike keep h w, Engine.observations_alike (e := ⟨s, w⟩) (f := ⟨t, w⟩) h rfl⟩

/-- A sketch that uses the stack of transforms without having pushed anything. -/
def popping : Session :=
  (Session.ofSeed .asFastAsPossible 0 0 []).run [.load "doOnce -> ball\npopMatrix\nbox".toList]

/-- The same loop with what a frame has left behind that was broken off: shapes have no colour, transforms are
saved, and a line is reported. -/
def Scheduler.littered (s : Scheduler) : Scheduler :=
  let moved := Transform.displacement ⟨1, 2, 3⟩
  { s with
    recorder := { Recorder.empty with world := moved, stack := [moved], style := ⟨none, none, 4⟩ }
    doOnce := Log.empty.push 9 }

theorem Scheduler.alike_littered (s : Scheduler) : s.Alike s.littered := ⟨rfl, rfl, rfl, rfl, rfl⟩

/-- What can be seen of the first frame of that sketch on the littered loop. -/
def poppedOnLitter : Observation Document := popping.scheduler.littered.observe tickHeaders popping.bench

/-- The frame shows both shapes, and reports its own line only. -/
theorem Scheduler.isolation_littered :
    popping.scheduler.Alike popping.scheduler.littered ∧
      popping.scheduler.observe tickHeaders popping.bench = poppedOnLitter ∧
      poppedOnLitter.run = .ran false [0] ∧
      poppedOnLitter.shown.map (fun frame => (frame.1, frame.2.draws.toList.map fun d => (d.shape, d.transform))) =
        [(0, [(.ball, Transform.identity), (.box, Transform.identity)])] ∧
      (popping.scheduler.tick tickHeaders popping.bench).2.1.doOnce =
        (popping.scheduler.littered.tick tickHeaders popping.bench).2.1.doOnce := by
  have hseen : popping.bench.runner.active.isSome ∧ poppedOnLitter.run = .ran false [0] ∧
      poppedOnLitter.shown.map (fun frame => (frame.1, frame.2.draws.toList.map fun d => (d.shape, d.transform))) =
        [(0, [(.ball, Transform.identity), (.box, Transform.identity)])] := by
    decide +kernel
  obtain ⟨hsame, -, -, hlines⟩ :=
    (Scheduler.isolation popping.scheduler.alike_littered popping.bench).1 tickHeaders
  exact ⟨popping.scheduler.alike_littered, hsame, hseen.2.1, hseen.2.2, hlines hseen.1⟩

end LiveSketch.Live

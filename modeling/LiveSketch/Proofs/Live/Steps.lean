import LiveSketch.Proofs.Live.Actions
import LiveSketch.Proofs.Outcome
import LiveSketch.Proofs.Sketch.Ticks

/-!
# What a step can do

One lemma for each step lists all that can come of it: `Runner.tick_cases` for a run of the active
routine, `Scheduler.tick_cases` for a frame, `install_cases` for a new text, `tickHeaders_of_ne` for
the bookkeeping after executed `doOnce` blocks, `Session.runFrame_cases` for a frame of a session and
`Session.act_cases` for everything else. What concerns whole sessions is derived from these lemmas.
-/
namespace LiveSketch

/-- Only the empty sketch has no routine. -/
theorem Routine.ofSketch_eq_none_iff {text : List Char} :
    Routine.ofSketch text = .ok none ↔ text = [] := by
  constructor
  · intro h
    refine Decidable.byContradiction fun hne => ?_
    simp [Routine.ofSketch, hne, bind_eq_ok, map_eq_ok] at h
  · rintro rfl
    rfl

namespace Live

open Script (Context Device)

/-! ## Runs of a routine -/

namespace Runner

/-- The active routine, if there is one, runs with an empty list of reported lines and either fails or
succeeds. -/
theorem tick_cases {σ : Type} (device : Device σ) (r : Runner) (c : Context σ) :
    (r.active = none ∧ r.tick device c = (.idle, r, c)) ∨
    ∃ installed c', r.active = some installed ∧
      ((∃ fault, installed.routine.invoke device { c with doOnce := .empty } = (.error fault, c') ∧
          r.tick device c = (.failed fault, r, { c' with doOnce := .empty })) ∨
        (installed.routine.invoke device { c with doOnce := .empty } = (.ok (), c') ∧
          r.tick device c = (.ran (r.succeed.streak == threshold) c'.doOnce.toList, r.succeed,
            { c' with doOnce := .empty }))) := by
  cases ha : r.active with
  | none => exact .inl ⟨rfl, by simp [tick, ha]⟩
  | some installed =>
    right
    rcases hr : installed.routine.invoke device { c with doOnce := .empty } with ⟨fault | u, c'⟩
    · have ht : (installed.routine.invoke device).run { c with doOnce := .empty } = _ := hr
      exact ⟨installed, c', rfl, .inl ⟨fault, hr, by simp [tick, ha, ht]⟩⟩
    · have ht : (installed.routine.invoke device).run { c with doOnce := .empty } = _ := hr
      exact ⟨installed, c', rfl, .inr ⟨hr, by simp [tick, ha, ht]⟩⟩

@[simp] theorem succeed_active (r : Runner) : r.succeed.active = r.active := rfl

theorem succeed_stable (r : Runner) :
    r.succeed.stable = if r.succeed.streak = threshold then r.active else r.stable := rfl

end Runner

/-! ## The loop -/

@[simp] theorem Bus.toList_journal_publish (b : Bus) (e : Event) :
    (b.publish e).journal.toList = b.journal.toList ++ [(e, b.subscribers)] := Log.toList_push _ _

/-- The workbench after a run without a failure, before the bookkeeping. -/
def Workbench.succeed {δ : Type} (w : Workbench δ) : Workbench δ :=
  if w.runner.succeed.streak = Runner.threshold then
    ({ w with runner := w.runner.succeed } : Workbench δ).publish .stable
  else { w with runner := w.runner.succeed }

@[simp] theorem Workbench.succeed_runner {δ : Type} (w : Workbench δ) :
    w.succeed.runner = w.runner.succeed := by
  unfold succeed
  split <;> rfl

@[simp] theorem Workbench.succeed_desk {δ : Type} (w : Workbench δ) : w.succeed.desk = w.desk := by
  unfold succeed
  split <;> rfl

namespace Scheduler

/-- After waking the loop runs, and it goes on where it was if it ran. -/
theorem wake_cases (s : Scheduler) :
    (s.state = .idle ∧ s.wake = (true, s.start)) ∨ (s.state = .running ∧ s.wake = (false, s)) := by
  cases h : s.state <;> simp [wake, h]

@[simp] theorem wake_state (s : Scheduler) : s.wake.2.state = .running := by
  rcases s.wake_cases with ⟨-, h⟩ | ⟨hs, h⟩
  · rw [h]
    rfl
  · rw [h]
    exact hs

@[simp] theorem setOrigin_state (s : Scheduler) : s.setOrigin.state = s.state := by
  unfold setOrigin
  split <;> rfl

@[simp] theorem prepare_state (s : Scheduler) (r : Runner) : (s.prepare r).state = s.state := by
  have hm : ∀ s : Scheduler, s.measure.state = s.state := fun s => setOrigin_state s
  unfold prepare
  rw [hm]
  split <;> rfl

@[simp] theorem takeBack_state (s : Scheduler) (c : Context (Recorder Float)) :
    (s.takeBack c).state = s.state := rfl

@[simp] theorem jump_state (s : Scheduler) (assigned : Option Nat) :
    (s.jump assigned).state = s.state := setOrigin_state _

@[simp] theorem nextFrame_state (s : Scheduler) : s.nextFrame.state = s.state := rfl

@[simp] theorem present_state (s : Scheduler) (n : Nat) : (s.present n).state = s.state := rfl

variable {δ : Type}

/-- The three ways in which a frame ends, the last two with the run of the routine that led to it. -/
theorem tick_cases (keep : Bookkeeping δ) (hk : ∀ w, keep [] w = w) (s : Scheduler) (w : Workbench δ) :
    ∃ report s' w', s.tick keep w = (report, s', w') ∧
      ((w.runner.active = none ∧ report = .dozed ∧ s'.state = .idle ∧ w' = w) ∨
      ∃ installed c', w.runner.active = some installed ∧ s'.state = s.state ∧
        ((∃ fault, installed.routine.invoke Recorder.command
              { (s.prepare w.runner).context with doOnce := .empty } = (.error fault, c') ∧
            report = .failed fault ∧
            w' = { w.publish (.failed fault.message) with runner := w.runner.revert }) ∨
          (installed.routine.invoke Recorder.command
              { (s.prepare w.runner).context with doOnce := .empty } = (.ok (), c') ∧
            (∃ n, report = .rendered n) ∧ w' = keep c'.doOnce.toList w.succeed))) := by
  rcases w.runner.tick_cases Recorder.command (s.prepare w.runner).context with
    ⟨ha, ht⟩ | ⟨installed, c', ha, ⟨fault, hr, ht⟩ | ⟨hr, ht⟩⟩
  · refine ⟨_, _, _, by simp only [tick, ht, finish]; rfl, ?_⟩
    exact .inl ⟨ha, rfl, rfl, rfl⟩
  · refine ⟨_, _, _, by simp only [tick, ht, finish]; rfl, ?_⟩
    exact .inr ⟨installed, c', ha, by simp, .inl ⟨fault, hr, rfl, rfl⟩⟩
  · refine ⟨_, _, _, by simp only [tick, ht, finish]; rfl, ?_⟩
    refine .inr ⟨installed, c', ha, by simp, .inr ⟨hr, ⟨_, rfl⟩, ?_⟩⟩
    by_cases hl : c'.doOnce.toList = []
    · simp [hl, hk, Workbench.succeed]
    · simp [hl, Workbench.succeed]

end Scheduler

/-! ## New texts -/

theorem install_cases {δ : Type} (text : List Char) (w : Workbench δ) :
    (text = [] ∧
      install text w = (.cleared, { w with runner := w.runner.clear }.publish .cleared)) ∨
    (∃ routine, text ≠ [] ∧ Routine.ofSketch text = .ok (some routine) ∧
      install text w = (.installed, { w with runner := w.runner.install routine }.publish .cleared)) ∨
    (∃ failure, text ≠ [] ∧ Routine.ofSketch text = .error failure ∧
      install text w = (.rejected failure, w.publish (.rejected failure.message))) := by
  rcases h : Routine.ofSketch text with failure | _ | routine
  · refine .inr (.inr ⟨failure, ?_, rfl, by simp [install, h]⟩)
    rintro rfl
    cases h
  · exact .inl ⟨Routine.ofSketch_eq_none_iff.1 h, by simp [install, h]⟩
  · refine .inr (.inl ⟨routine, ?_, rfl, by simp [install, h]⟩)
    rintro rfl
    cases h

@[simp] theorem install_desk {δ : Type} (text : List Char) (w : Workbench δ) :
    (install text w).2.desk = w.desk := by
  rcases install_cases text w with ⟨-, h⟩ | ⟨_, -, -, h⟩ | ⟨_, -, -, h⟩ <;> rw [h] <;> rfl

theorem tickHeaders_of_eq {lines : List Nat} {w : Workbench Document}
    (h : Sketch.markLines lines w.desk.source = w.desk.source) : tickHeaders lines w = w := by
  simp [tickHeaders, h]

@[simp] theorem tickHeaders_nil (w : Workbench Document) : tickHeaders [] w = w :=
  tickHeaders_of_eq (by simp [Sketch.markLines, Text.joinLines_splitLines])

/-- A text with new ticks is put into effect, whether it is rejected or not. -/
theorem tickHeaders_of_ne {lines : List Nat} {w : Workbench Document}
    (h : Sketch.markLines lines w.desk.source ≠ w.desk.source) :
    ∃ w' : Workbench Document, w'.runner = w.runner ∧
      w'.bus = w.bus.publish (.ticked (String.ofList (Sketch.markLines lines w.desk.source))) ∧
      tickHeaders lines w =
        { (install (Sketch.markLines lines w.desk.source) w').2 with
          desk := ⟨Sketch.markLines lines w.desk.source, Sketch.markLines lines w.desk.source⟩ } := by
  let ticked := Sketch.markLines lines w.desk.source
  refine ⟨({ w with desk := { w.desk with editor := ticked } } : Workbench Document).publish
    (.ticked (String.ofList ticked)), rfl, rfl, ?_⟩
  simp [tickHeaders, h, ticked, Workbench.publish]

/-! ## Frames of a session -/

namespace Session

/-- What the routine of the next frame runs in. -/
def frameContext (s : Session) : Context (Recorder Float) :=
  { (s.scheduler.wait.2.prepare s.runner).context with doOnce := .empty }

/-- Without an armed tick there is no frame; otherwise the armed tick is taken and run. -/
theorem runFrame_cases (s : Session) :
    (s.scheduler.clock.armed = none ∧ s.runFrame = (none, s)) ∨
    ∃ report s', s.scheduler.clock.armed.isSome ∧ s.runFrame = (some report, s') ∧
      ((s.runner.active = none ∧ report = .dozed ∧ s'.scheduler.state = .idle ∧ s'.bench = s.bench) ∨
      ∃ installed c', s.runner.active = some installed ∧
        s'.scheduler.state = s.scheduler.state ∧
        ((∃ fault, installed.routine.invoke Recorder.command s.frameContext = (.error fault, c') ∧
            report = .failed fault ∧
            s'.bench =
              { s.bench.publish (.failed fault.message) with runner := s.runner.revert }) ∨
          (installed.routine.invoke Recorder.command s.frameContext = (.ok (), c') ∧
            (∃ n, report = .rendered n) ∧
            s'.bench = tickHeaders c'.doOnce.toList s.bench.succeed))) := by
  cases h : s.scheduler.clock.armed with
  | none => exact .inl ⟨rfl, by simp [runFrame, Scheduler.wait, FrameClock.wait, h]⟩
  | some rate =>
    obtain ⟨report, s', w', ht, hcase⟩ :=
      s.scheduler.wait.2.tick_cases tickHeaders tickHeaders_nil s.bench
    have hw : s.scheduler.wait = (true, s.scheduler.wait.2) := by
      simp [Scheduler.wait, FrameClock.wait, h]
    refine .inr ⟨report, { s with scheduler := s', bench := w' }, rfl, ?_, hcase⟩
    rw [runFrame, hw]
    simp only [ht]

/-! ## Actions -/

/-- From `s` to `s'` no text was put into effect and no routine was run. -/
structure Untouched (s s' : Session) : Prop where
  runner : s'.runner = s.runner
  source : s'.source = s.source
  running : s.scheduler.state = .running → s'.scheduler.state = .running

theorem Untouched.refl (s : Session) : s.Untouched s := ⟨rfl, rfl, id⟩

theorem Untouched.trans {s s' s'' : Session} (h : s.Untouched s') (h' : s'.Untouched s'') :
    s.Untouched s'' :=
  ⟨h'.runner.trans h.runner, h'.source.trans h.source, h'.running ∘ h.running⟩

theorem Untouched.publish (s : Session) (e : Event) : s.Untouched (s.publish e) := ⟨rfl, rfl, id⟩

@[simp] theorem wake_bench_runner (s : Session) : s.wake.bench.runner = s.bench.runner := by
  unfold wake
  split <;> rfl

@[simp] theorem wake_bench_desk (s : Session) : s.wake.bench.desk = s.bench.desk := by
  unfold wake
  split <;> rfl

@[simp] theorem wake_scheduler (s : Session) : s.wake.scheduler = s.scheduler.wake.2 := by
  rcases s.scheduler.wake_cases with ⟨-, h⟩ | ⟨-, h⟩ <;> simp [wake, h, publish]

/-- An update installs the text, wakes the loop unless the text is empty, and keeps the text. -/
theorem update_cases (s : Session) (text : List Char) :
    (s.update text).2.source = text ∧
      (∃ w : Workbench Document, w.runner = s.runner ∧
        (s.update text).2.runner = (install text w).2.runner) ∧
      (s.update text).2.scheduler = if text = [] then s.scheduler else s.scheduler.wake.2 := by
  cases text with
  | nil => exact ⟨by simp [update, setSource, source], ⟨s.bench, rfl, rfl⟩, rfl⟩
  | cons c cs =>
    refine ⟨by simp [update, setSource, source], ⟨(s.setSource (c :: cs)).wake.bench, ?_, rfl⟩, ?_⟩
    · simp [setSource, runner]
    · simp [update, setSource]

/-- Whatever is done beside running a frame, either a text is put into effect or everything that runs
is left alone. -/
theorem act_cases (s : Session) (a : Action) :
    a = .frame ∨ s.Untouched (s.act a) ∨
      ∃ s' text, s.Untouched s' ∧ (s'.update text).2.Untouched (s.act a) := by
  have loaded : ∀ s₀ text, s.Untouched s₀ →
      ∃ s' text', s.Untouched s' ∧ (s'.update text').2.Untouched (s₀.load text).2 :=
    fun s₀ text h => ⟨s₀.setEditor text, text, ⟨h.runner, h.source, h.running⟩, .refl _⟩
  have varied : ∀ s₀, s.Untouched s₀ → s.Untouched s₀.autocode.2 ∨
      ∃ s' text, s.Untouched s' ∧ (s'.update text).2.Untouched s₀.autocode.2 := by
    intro s₀ h
    unfold autocode
    split
    · exact .inl ⟨h.runner, h.source, h.running⟩
    · exact .inr (loaded { s₀ with autocoder := _ } _ ⟨h.runner, h.source, h.running⟩)
  cases a with
  | update text => exact .inr (.inr ⟨s, text, .refl s, .refl _⟩)
  | load text => exact .inr (.inr (loaded s text (.refl s)))
  | loadSketch name =>
    simp only [act, loadSketch]
    split
    · exact .inr (.inl (.refl s))
    · exact .inr (.inr (loaded s _ (.refl s)))
  | start => exact .inr (.inl ⟨rfl, rfl, fun _ => rfl⟩)
  | stop => exact .inr (.inl ⟨rfl, rfl, id⟩)
  | frame => exact .inl rfl
  | toggle forced =>
    simp only [act, toggleAutocoder]
    split
    · obtain ⟨s', text, h, h'⟩ := loaded { s with autocoder := s.autocoder.toggle forced } _ ⟨rfl, rfl, id⟩
      exact .inr (.inr ⟨s', text, h, h'.trans (.publish _ _)⟩)
    · exact .inr (.inl ⟨rfl, rfl, id⟩)
  | poll =>
    simp only [act, pollAutocoder]
    split
    · exact .inr (.inl ⟨rfl, rfl, id⟩)
    · exact .inr (varied _ ⟨rfl, rfl, id⟩)
  | autocode => exact .inr (varied s (.refl s))
  | edit text => exact .inr (.inl ⟨rfl, rfl, id⟩)
  | subscribe => exact .inr (.inl ⟨rfl, rfl, id⟩)
  | unsubscribe id => exact .inr (.inl ⟨rfl, rfl, fun h => h⟩)
  | advance ms => exact .inr (.inl ⟨rfl, rfl, id⟩)
  | setTime ms => exact .inr (.inl ⟨rfl, rfl, id⟩)

end Session

end Live

end LiveSketch

import LiveSketch.Proofs.Live.Stability

/-!
# When a tick is armed

The loop is idle only if there is nothing to run, and then no tick is armed and the frames begin anew. While
it runs a tick is armed, unless the loop was stopped (`Session.Halted`) and neither started nor woken since
(`Session.armed_iff`).

`Session.Paced` is what every step keeps. The pieces of a step are looked at first: only `arm` and `wait`
touch the clock within a frame, and only `wake` does so when a text is put into effect.
-/
namespace LiveSketch.Live

open Script (Context)

/-! ## The clock within a tick -/

namespace Scheduler

variable {δ : Type}

theorem setOrigin_pace (s : Scheduler) : s.setOrigin.clock = s.clock ∧ s.setOrigin.rate = s.rate := by
  unfold setOrigin
  split <;> exact ⟨rfl, rfl⟩

/-- A tick is armed before the run if there is anything to run. -/
theorem prepare_pace (s : Scheduler) (r : Runner) :
    (s.prepare r).clock = (if r.active.isSome then s.clock.schedule s.rate else s.clock) ∧
      (s.prepare r).rate = s.rate := by
  have hm : ∀ s : Scheduler, s.beginFrame.measure.clock = s.clock ∧ s.beginFrame.measure.rate = s.rate :=
    fun s => setOrigin_pace s.beginFrame
  unfold prepare
  split
  · exact hm s.arm
  · exact hm s

/-- Nothing is armed or taken after the run. -/
theorem finish_pace (keep : Bookkeeping δ) (assigned : Option Nat) (s : Scheduler) (w : Workbench δ)
    (t : Tick) : (finish keep assigned s w t).2.1.clock = s.clock ∧
      (finish keep assigned s w t).2.1.rate = s.rate := by
  cases t with
  | idle => exact ⟨rfl, rfl⟩
  | failed fault => exact ⟨rfl, rfl⟩
  | ran promoted doOnce =>
    exact setOrigin_pace { s with frame := { s.frame with frame := assigned.getD s.frame.frame } }

theorem tick_pace (keep : Bookkeeping δ) (s : Scheduler) (w : Workbench δ) :
    (s.tick keep w).2.1.clock =
        (if w.runner.active.isSome then s.clock.schedule s.rate else s.clock) ∧
      (s.tick keep w).2.1.rate = s.rate := by
  obtain ⟨hc, hr⟩ := s.prepare_pace w.runner
  rcases ht : w.runner.tick Recorder.command (s.prepare w.runner).context with ⟨outcome, runner, c⟩
  obtain ⟨hc', hr'⟩ := finish_pace keep c.globals.assigned ((s.prepare w.runner).takeBack c)
    { w with runner := runner } outcome
  simp only [tick, ht]
  exact ⟨hc'.trans hc, hr'.trans hr⟩

/-- Without a routine the frames begin anew. -/
theorem tick_frame (keep : Bookkeeping δ) (s : Scheduler) {w : Workbench δ}
    (h : w.runner.active = none) : (s.tick keep w).2.1.frame = {} := by
  simp [tick, Runner.tick, h, finish, present, doze]

end Scheduler

namespace Session

/-! ## The clock within an action -/

theorem runFrame_of_armed {s : Session} (h : s.scheduler.clock.armed.isSome) :
    s.runFrame = (some (s.scheduler.wait.2.tick tickHeaders s.bench).1,
      { s with
        scheduler := (s.scheduler.wait.2.tick tickHeaders s.bench).2.1
        bench := (s.scheduler.wait.2.tick tickHeaders s.bench).2.2 }) := by
  have hw : s.scheduler.wait = (true, s.scheduler.wait.2) := by
    simp [Scheduler.wait, FrameClock.wait, h]
  unfold runFrame
  rw [hw]

theorem runFrame_of_unarmed {s : Session} (h : s.scheduler.clock.armed = none) :
    s.runFrame = (none, s) := by
  simp [runFrame, Scheduler.wait, FrameClock.wait, h]

/-- There is a report of a frame if a tick was armed for it. -/
theorem runFrame_eq_none_iff (s : Session) :
    s.runFrame.1 = none ↔ s.scheduler.clock.armed = none := by
  by_cases h : s.scheduler.clock.armed = none
  · simp [runFrame_of_unarmed h, h]
  · rw [runFrame_of_armed (Option.isSome_iff_ne_none.2 h)]
    simp [h]

/-- A frame leaves a tick armed if it has taken one and there was a routine to run. -/
theorem runFrame_pace (s : Session) :
    s.runFrame.2.scheduler.rate = s.scheduler.rate ∧
      s.runFrame.2.scheduler.clock.armed =
        if s.scheduler.clock.armed.isSome ∧ s.runner.active.isSome then some s.scheduler.rate
        else none := by
  by_cases h : s.scheduler.clock.armed = none
  · simp [runFrame_of_unarmed h, h]
  · have hsome := Option.isSome_iff_ne_none.2 h
    obtain ⟨hc, hr⟩ := s.scheduler.wait.2.tick_pace tickHeaders s.bench
    rw [runFrame_of_armed hsome]
    refine ⟨hr, ?_⟩
    change (s.scheduler.wait.2.tick tickHeaders s.bench).2.1.clock.armed = _
    rw [hc]
    unfold runner
    by_cases ha : s.bench.runner.active.isSome
    · simp [hsome, ha, FrameClock.schedule, Scheduler.wait]
    · simp [ha, Scheduler.wait, FrameClock.wait]

/-- An action that neither starts nor stops the loop nor runs a frame leaves it as it is or wakes it, the
reading of the clock apart. -/
theorem act_scheduler (s : Session) {a : Action} (hstart : a ≠ .start) (hstop : a ≠ .stop)
    (hframe : a ≠ .frame) : ∃ now,
      (s.act a).scheduler = { s.scheduler with now := now } ∨
        (s.act a).scheduler = s.scheduler.wake.2 := by
  have updated : ∀ (s₀ : Session) text, s₀.scheduler = s.scheduler →
      (s₀.update text).2.scheduler = s.scheduler ∨
        (s₀.update text).2.scheduler = s.scheduler.wake.2 := by
    intro s₀ text h
    rw [(s₀.update_cases text).2.2, h]
    split
    · exact .inl rfl
    · exact .inr rfl
  have loaded : ∀ (s₀ : Session) text, s₀.scheduler = s.scheduler →
      (s₀.load text).2.scheduler = s.scheduler ∨
        (s₀.load text).2.scheduler = s.scheduler.wake.2 :=
    fun s₀ text h => updated (s₀.setEditor text) text h
  have varied : ∀ s₀ : Session, s₀.scheduler = s.scheduler →
      s₀.autocode.2.scheduler = s.scheduler ∨ s₀.autocode.2.scheduler = s.scheduler.wake.2 := by
    intro s₀ h
    unfold autocode
    split
    · exact .inl h
    · exact loaded { s₀ with autocoder := _ } _ h
  refine ⟨match a with | .advance ms => s.scheduler.now + ms | .setTime ms => ms | _ => s.scheduler.now, ?_⟩
  cases a with
  | start => exact absurd rfl hstart
  | stop => exact absurd rfl hstop
  | frame => exact absurd rfl hframe
  | update text => exact updated s text rfl
  | load text => exact loaded s text rfl
  | loadSketch name =>
    simp only [act, loadSketch]
    split
    · exact .inl rfl
    · exact loaded s _ rfl
  | toggle forced =>
    simp only [act, toggleAutocoder]
    split
    · generalize Gallery.seedText.toList = text
      exact loaded { s with autocoder := s.autocoder.toggle forced } text rfl
    · exact .inl rfl
  | poll =>
    simp only [act, pollAutocoder]
    split
    · exact .inl rfl
    · exact varied _ rfl
  | autocode => exact varied s rfl
  | edit text => exact .inl rfl
  | subscribe => exact .inl rfl
  | unsubscribe id => exact .inl rfl
  | advance ms => exact .inl rfl
  | setTime ms => exact .inl rfl

/-! ## Stopping and starting -/

/-- The action starts the loop: the loop is told to start, or it wakes up. -/
def Starts (s : Session) (a : Action) : Prop :=
  a = .start ∨ (s.scheduler.state = .idle ∧ (s.act a).scheduler.state = .running)

/-- Among these actions the loop was stopped, and it was neither started nor woken after that. -/
def Halted (s : Session) (acts : List Action) : Prop :=
  ∃ before after, acts = before ++ .stop :: after ∧
    ∀ front a back, after = front ++ a :: back → ¬(s.run (before ++ .stop :: front)).Starts a

theorem halted_iff (s : Session) (acts : List Action) :
    s.Halted acts ↔ s.Since (fun _ a => a = .stop) Starts acts := by
  constructor
  · rintro ⟨before, after, h, hlater⟩
    exact ⟨before, .stop, after, h, rfl, hlater⟩
  · rintro ⟨before, _, after, h, rfl, hlater⟩
    exact ⟨before, after, h, hlater⟩

theorem not_halted_nil (s : Session) : ¬s.Halted [] :=
  mt (s.halted_iff []).1 s.not_since_nil

/-- Whether the loop is halted is decided by the last action that stops or starts it. -/
theorem halted_concat (s : Session) (acts : List Action) (a : Action) :
    s.Halted (acts ++ [a]) ↔ a = .stop ∨ (s.Halted acts ∧ ¬(s.run acts).Starts a) := by
  rw [halted_iff, halted_iff, since_concat]

/-! ## What every step keeps -/

/-- The loop is paced at this rate: an idle loop begins anew, and a running one has armed a tick unless it
is halted. -/
structure Paced (rate : FrameRate) (halted : Prop) (s : Session) : Prop where
  atRate : s.scheduler.rate = rate
  anew : s.scheduler.state = .idle → s.scheduler.frame = {}
  armed : ∀ r, s.scheduler.clock.armed = some r ↔
    s.scheduler.state = .running ∧ ¬halted ∧ r = rate

theorem ofSeed_paced (rate : FrameRate) (seed : UInt64) (now : Float) (editor : List Char) :
    (ofSeed rate seed now editor).Paced rate False where
  atRate := rfl
  anew _ := rfl
  armed r := by
    constructor
    · intro h
      cases h
    · rintro ⟨h, -⟩
      cases h

namespace Paced

variable {rate : FrameRate} {halted halted' : Prop} {s s' : Session}

theorem congr (h : s.Paced rate halted) (hh : halted ↔ halted') : s.Paced rate halted' := by
  rwa [← propext hh]

theorem armed_isSome (h : s.Paced rate halted) :
    s.scheduler.clock.armed.isSome ↔ s.scheduler.state = .running ∧ ¬halted := by
  rw [Option.isSome_iff_exists]
  constructor
  · rintro ⟨r, hr⟩
    exact ⟨((h.armed r).1 hr).1, ((h.armed r).1 hr).2.1⟩
  · rintro ⟨hs, hh⟩
    exact ⟨rate, (h.armed rate).2 ⟨hs, hh, rfl⟩⟩

/-- Only the loop matters, the reading of its clock apart. -/
theorem of_scheduler {now : Float} (h : s.Paced rate halted)
    (hs : s'.scheduler = { s.scheduler with now := now }) : s'.Paced rate halted where
  atRate := by rw [hs]; exact h.atRate
  anew := by rw [hs]; exact h.anew
  armed := by rw [hs]; exact h.armed

/-- A loop that is started arms a tick, whatever was before. -/
theorem of_start (h : s.Paced rate halted) (hs : s'.scheduler = s.scheduler.start) :
    s'.Paced rate False := by
  have ha : s'.scheduler.clock.armed = some rate := by
    rw [hs]
    exact congrArg some h.atRate
  refine ⟨by rw [hs]; exact h.atRate, fun hi => ?_, fun r => ?_⟩
  · rw [hs] at hi
    cases hi
  · rw [ha, hs]
    constructor
    · rintro ⟨⟩
      exact ⟨rfl, not_false, rfl⟩
    · rintro ⟨-, -, rfl⟩
      rfl

theorem stop (h : s.Paced rate halted) : s.stop.Paced rate True where
  atRate := h.atRate
  anew := h.anew
  armed r := by
    constructor
    · intro h
      cases h
    · rintro ⟨-, hn, -⟩
      exact absurd trivial hn

/-- A frame without a routine makes the loop idle; any other frame arms the next tick. -/
theorem runFrame (h : s.Paced rate halted) : s.runFrame.2.Paced rate halted := by
  rcases s.runFrame_cases with ⟨-, hf⟩ | ⟨report, s', hsome, hf, hcase⟩
  · rwa [hf]
  obtain ⟨hstate, hhalted⟩ := h.armed_isSome.1 hsome
  obtain ⟨hrate, harmed⟩ := s.runFrame_pace
  rw [hf, h.atRate] at hrate harmed
  rw [hf]
  change s'.scheduler.clock.armed = _ at harmed
  rcases hcase with ⟨ha, -, hs', -⟩ | ⟨installed, c', ha, hs', -⟩
  · refine ⟨hrate, fun _ => ?_, fun r => ?_⟩
    · rw [runFrame_of_armed hsome] at hf
      rw [← (Prod.mk.inj hf).2]
      exact s.scheduler.wait.2.tick_frame tickHeaders ha
    · simp [harmed, ha, hs']
  · refine ⟨hrate, fun hi => ?_, fun r => ?_⟩
    · change s'.scheduler.state = .idle at hi
      rw [hs', hstate] at hi
      cases hi
    · simp [harmed, hsome, ha, hs', hstate, hhalted, eq_comm]

/-- An action keeps the pace; it halts the loop if it stops it, and the loop stays halted until an action
starts it. -/
theorem act (h : s.Paced rate halted) (a : Action) :
    (s.act a).Paced rate (a = .stop ∨ (halted ∧ ¬s.Starts a)) := by
  by_cases hstart : a = .start
  · subst hstart
    exact (h.of_start rfl).congr (by simp [Starts])
  by_cases hstop : a = .stop
  · subst hstop
    exact h.stop.congr (by simp)
  by_cases hframe : a = .frame
  · subst hframe
    have hstarts : ¬s.Starts .frame := by
      rintro (hs | ⟨hi, hr⟩)
      · cases hs
      · have hn : s.scheduler.clock.armed = none := by
          rw [← Option.not_isSome_iff_eq_none, h.armed_isSome, hi]
          simp
        rw [Session.act, runFrame_of_unarmed hn, hi] at hr
        cases hr
    exact h.runFrame.congr (by simp [hstarts])
  obtain ⟨now, hs⟩ := s.act_scheduler hstart hstop hframe
  have hleft : s.scheduler.state = .idle → (s.act a).scheduler = s.scheduler.start → s.Starts a :=
    fun hi hw => .inr ⟨hi, by rw [hw]; rfl⟩
  rcases s.scheduler.wake_cases with ⟨hi, hw⟩ | ⟨hr, hw⟩ <;> rw [hw] at hs
  · rcases hs with hs | hs
    · have hstarts : ¬s.Starts a := by
        rintro (hs' | ⟨-, hr⟩)
        · exact hstart hs'
        · rw [hs, hi] at hr
          cases hr
      exact (h.of_scheduler hs).congr (by simp [hstop, hstarts])
    · exact (h.of_start hs).congr (by simp [hstop, hleft hi hs])
  · have hstarts : ¬s.Starts a := by
      rintro (hs' | ⟨hi, -⟩)
      · exact hstart hs'
      · rw [hr] at hi
        cases hi
    have hs' : ∃ now, (s.act a).scheduler = { s.scheduler with now := now } :=
      hs.elim (fun hs => ⟨now, hs⟩) fun hs => ⟨s.scheduler.now, hs⟩
    exact (h.of_scheduler hs'.choose_spec).congr (by simp [hstop, hstarts])

end Paced

theorem run_paced (rate : FrameRate) (seed : UInt64) (now : Float) (editor : List Char)
    (acts : List Action) : ((ofSeed rate seed now editor).run acts).Paced rate
      ((ofSeed rate seed now editor).Halted acts) := by
  induction acts using List.reverseRecOn with
  | nil => exact (ofSeed_paced rate seed now editor).congr (by simp [not_halted_nil])
  | append_singleton acts a ih =>
    rw [run_append]
    exact (ih.act a).congr (halted_concat _ acts a).symm

/-- **Ticks are armed while the loop runs.** Whatever is done with a new session, an idle loop has no tick
armed and no routine to run, and its frames begin anew. A tick is armed, at the rate of the session, exactly
when the loop runs and was not stopped since it was started or woken last. So there is no report of a frame
exactly when the loop is idle or was stopped. -/
theorem armed_iff (rate : FrameRate) (seed : UInt64) (now : Float) (editor : List Char)
    (acts : List Action) :
    let s₀ := ofSeed rate seed now editor
    let s := s₀.run acts
    (s.scheduler.state = .idle →
        s.scheduler.clock.armed = none ∧ s.runner.active = none ∧ s.scheduler.frame = ⟨0, 0, 0⟩) ∧
      (∀ r, s.scheduler.clock.armed = some r ↔
        s.scheduler.state = .running ∧ ¬s₀.Halted acts ∧ r = rate) ∧
      (s.runFrame.1 = none ↔ s.scheduler.state = .idle ∨ s₀.Halted acts) := by
  intro s₀ s
  have hp : s.Paced rate (s₀.Halted acts) := run_paced rate seed now editor acts
  have hawake : s.Awake := ((Reachable.ofSeed rate seed now editor).run acts).awake
  have hnone : s.scheduler.clock.armed = none ↔ s.scheduler.state = .idle ∨ s₀.Halted acts := by
    rw [← Option.not_isSome_iff_eq_none, hp.armed_isSome]
    cases s.scheduler.state <;> simp
  refine ⟨fun hi => ⟨hnone.2 (.inl hi), ?_, hp.anew hi⟩, hp.armed, ?_⟩
  · rw [← Option.not_isSome_iff_eq_none]
    intro ha
    have hr := hawake.running ha
    rw [hi] at hr
    cases hr
  · rw [runFrame_eq_none_iff, hnone]

/-- A sketch that fails in its first frame, and a second frame for which there is nothing to fall back on. -/
def failedSketch : List Action := [.load "wobble()".toList, .frame, .frame]

/-- The failed frame has armed the second one, and after that the loop is idle. -/
theorem armed_iff_failedSketch :
    let s := (ofSeed .asFastAsPossible 0 0 []).run failedSketch
    s.scheduler.state = .idle ∧
      (s.scheduler.clock.armed = none ∧ s.runner.active = none ∧ s.scheduler.frame = ⟨0, 0, 0⟩) ∧
      s.runFrame.1 = none := by
  have hi : ((ofSeed .asFastAsPossible 0 0 []).run failedSketch).scheduler.state = .idle := by
    decide +kernel
  obtain ⟨hidle, -, hnone⟩ := armed_iff .asFastAsPossible 0 0 [] failedSketch
  exact ⟨hi, hidle hi, hnone.2 (.inl hi)⟩

end Session

end LiveSketch.Live

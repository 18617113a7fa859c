import LiveSketch.Proofs.Live.Steps
import LiveSketch.Proofs.Sketch.Failures

/-!
# What becomes of texts

At whatever stage a text is rejected, the session goes on as before (`Session.update_rejected`): all that is
new is the text itself and the event that tells of the failure.

A session has two copies of its sketch, the text in the editor and the text in effect. Whatever the session writes
of its own accord, it writes to both (`Session.act_desk`), also if the text is rejected; so copies that are the
same stay the same until the host changes one of them (`Session.run_inStep`).
-/
namespace LiveSketch.Live

namespace Session

/-- Waking an idle loop is told to the subscribers. -/
theorem wake_cases (s : Session) :
    (s.scheduler.state = .idle ∧ s.wake = { s with scheduler := s.scheduler.start }.publish .waking) ∨
      (s.scheduler.state = .running ∧ s.wake = s) := by
  rcases s.scheduler.wake_cases with ⟨hs, hw⟩ | ⟨hs, hw⟩
  · exact .inl ⟨hs, by simp [wake, hw]⟩
  · exact .inr ⟨hs, by simp [wake, hw]⟩

/-- A text is put into effect by waking the loop and installing it. -/
theorem update_eq {text : List Char} (hne : text ≠ []) (s : Session) :
    s.update text = ((install text (s.setSource text).wake.bench).1,
      { (s.setSource text).wake with bench := (install text (s.setSource text).wake.bench).2 }) := by
  simp [update, hne]

/-- **A rejected text does no harm.** At whatever stage a text is rejected, nothing changes but the text in
effect: the runner, the editor and the autocoder stay as they are, a running loop goes on with the tick that
is armed, and the subscribers hear of the failure and of nothing else, unless the loop was idle and wakes up
before. -/
theorem update_rejected {text : List Char} {failure : Failure}
    (h : Routine.ofSketch text = .error failure) (s : Session) :
    Rejects text failure ∧ ∃ s', s.update text = (.rejected failure, s') ∧
      s'.runner = s.runner ∧ s'.editor = s.editor ∧ s'.autocoder = s.autocoder ∧ s'.source = text ∧
      s'.bus.subscribers = s.bus.subscribers ∧ s'.bus.next = s.bus.next ∧
      s'.bus.journal.toList = s.bus.journal.toList ++
        ((if s.scheduler.state = LoopState.idle then [Event.waking] else []) ++
          [Event.rejected failure.message]).map (·, s.bus.subscribers) ∧
      (s.scheduler.state = .running → s'.scheduler = s.scheduler) ∧
      (s.scheduler.state = .idle → s'.scheduler = s.scheduler.start) := by
  obtain ⟨hne, hstage⟩ := ofSketch_eq_error_iff.1 h
  have hinstall : ∀ w : Workbench Document,
      install text w = (.rejected failure, w.publish (.rejected failure.message)) := by
    intro w
    simp [install, h]
  refine ⟨hstage, _, by rw [update_eq hne, hinstall], ?_⟩
  rcases (s.setSource text).wake_cases with ⟨hs, hw⟩ | ⟨hs, hw⟩ <;> rw [hw]
  · have hidle : s.scheduler.state = .idle := hs
    refine ⟨rfl, rfl, rfl, rfl, rfl, rfl, ?_, ?_, fun _ => rfl⟩
    · simp [hidle, bus, publish, setSource, Workbench.publish, Bus.publish]
    · intro hrunning
      rw [hidle] at hrunning
      cases hrunning
  · have hrunning : s.scheduler.state = .running := hs
    refine ⟨rfl, rfl, rfl, rfl, rfl, rfl, ?_, fun _ => rfl, ?_⟩
    · simp [hrunning, bus, setSource, Workbench.publish]
    · intro hidle
      rw [hrunning] at hidle
      cases hidle

/-- A sketch that has run twice. -/
def running : Session := (ofSeed .asFastAsPossible 0 0 []).run [.load "box".toList, .frame, .frame]

/-- The third frame of a sketch, at a text for which there is no code. -/
theorem update_rejected_time :
    Routine.ofSketch "time = 1".toList = .error ⟨.script, "line 1: cannot assign to 'time'"⟩ ∧
      ∃ s', (running.update "time = 1".toList) =
          (.rejected ⟨.script, "line 1: cannot assign to 'time'"⟩, s') ∧
        s'.scheduler = running.scheduler := by
  have h : Routine.ofSketch "time = 1".toList =
      .error ⟨.script, "line 1: cannot assign to 'time'"⟩ := by
    decide +kernel
  have hr : running.scheduler.state = .running := by decide +kernel
  obtain ⟨-, s', hs', -, -, -, -, -, -, -, hgo, -⟩ := update_rejected h running
  exact ⟨h, s', hs', hgo hr⟩

end Session

/-! ## Two copies of a sketch -/

/-- The host changes one copy alone: the text in the editor, or the text in effect. -/
def Action.changesOneCopy : Action → Bool
  | .edit _ | .update _ => true
  | _ => false

/-- Nothing is written, or one text to both copies. -/
def Document.Rewrites (d d' : Document) : Prop := d' = d ∨ ∃ text, d' = ⟨text, text⟩

theorem Document.Rewrites.inStep {d d' : Document} (h : d.Rewrites d') (hd : d.editor = d.source) :
    d'.editor = d'.source := by
  rcases h with rfl | ⟨text, rfl⟩
  · exact hd
  · rfl

/-- Ticked headers are put into the editor as they are put into effect. -/
theorem tickHeaders_desk (lines : List Nat) (w : Workbench Document) :
    w.desk.Rewrites (tickHeaders lines w).desk := by
  by_cases h : Sketch.markLines lines w.desk.source = w.desk.source
  · rw [tickHeaders_of_eq h]
    exact .inl rfl
  · obtain ⟨w', -, -, ht⟩ := tickHeaders_of_ne h
    rw [ht]
    exact .inr ⟨_, rfl⟩

namespace Session

@[simp] theorem publish_desk (s : Session) (e : Event) : (s.publish e).bench.desk = s.bench.desk := rfl

theorem update_desk (s : Session) (text : List Char) : (s.update text).2.bench.desk = ⟨s.editor, text⟩ := by
  cases text <;> simp [update, setSource, editor]

theorem load_desk (s : Session) (text : List Char) : (s.load text).2.bench.desk = ⟨text, text⟩ :=
  update_desk (s.setEditor text) text

theorem runFrame_desk (s : Session) : s.bench.desk.Rewrites s.runFrame.2.bench.desk := by
  rcases s.runFrame_cases with ⟨-, hf⟩ | ⟨report, s', -, hf, hcase⟩ <;> rw [hf]
  · exact .inl rfl
  rcases hcase with ⟨-, -, -, hw⟩ | ⟨x, c, -, -, ⟨fault, -, -, hw⟩ | ⟨-, -, hw⟩⟩
  · exact .inl (congrArg Workbench.desk hw)
  · refine .inl ?_
    change s'.bench.desk = _
    rw [hw]
    rfl
  · have h := tickHeaders_desk c.doOnce.toList s.bench.succeed
    rwa [Workbench.succeed_desk, ← hw] at h

theorem autocode_desk (s : Session) : s.bench.desk.Rewrites s.autocode.2.bench.desk := by
  unfold autocode
  split
  · exact .inl rfl
  · exact .inr ⟨_, load_desk _ _⟩

/-- Whatever else is done with a session writes one text to both copies, or none. -/
theorem act_desk (s : Session) {a : Action} (ha : a.changesOneCopy = false) :
    s.bench.desk.Rewrites (s.act a).bench.desk := by
  cases a with
  | update text => cases ha
  | edit text => cases ha
  | load text => exact .inr ⟨text, s.load_desk text⟩
  | loadSketch name =>
    simp only [act, loadSketch]
    split
    · exact .inl rfl
    · exact .inr ⟨_, load_desk _ _⟩
  | frame => exact s.runFrame_desk
  | toggle forced =>
    simp only [act, toggleAutocoder, publish_desk]
    split
    · exact .inr ⟨_, load_desk _ _⟩
    · exact .inl rfl
  | poll =>
    simp only [act, pollAutocoder]
    split
    · exact .inl rfl
    · exact autocode_desk _
  | autocode => exact s.autocode_desk
  | start | stop | subscribe | unsubscribe | advance | setTime => exact .inl rfl

/-- **The editor and the text in effect stay in step.** In a session with the same text in both, load texts and
sketches, switch, poll and run the autocoder, run frames, start and stop the loop, let the clock go on, in any order:
whatever is accepted, is rejected, fails or is ticked on the way, the text is the same in both again. -/
theorem run_inStep {s : Session} {acts : List Action} (hs : s.editor = s.source)
    (hacts : ∀ a ∈ acts, a.changesOneCopy = false) : (s.run acts).editor = (s.run acts).source := by
  induction acts generalizing s with
  | nil => exact hs
  | cons a acts ih =>
    exact ih ((s.act_desk (hacts a List.mem_cons_self)).inStep hs) fun b hb => hacts b (List.mem_cons_of_mem a hb)

/-- A block runs and is ticked, a number is varied, a bracket is left open, and a number behind it is varied. -/
def writers : List Action :=
  [.load "doOnce -> ball\nbox 2".toList, .frame, .autocode, .load "box(1".toList, .toggle (some true), .autocode, .frame,
    .poll]

/-- The ticked text is in the editor, and in the end the varied text that is rejected. -/
theorem run_inStep_writers :
    let s := ofSeed .asFastAsPossible 0 0 []
    (s.editor = s.source ∧ ∀ a ∈ writers, a.changesOneCopy = false) ∧
      (s.run writers).editor = (s.run writers).source ∧ (s.run writers).editor = "box(0.86".toList ∧
      (s.run (writers.take 2)).editor = (s.run (writers.take 2)).source ∧
      (s.run (writers.take 2)).editor = "✓doOnce -> ball\nbox 2".toList := by
  intro s
  have hs : s.editor = s.source := rfl
  have hacts : ∀ a ∈ writers, a.changesOneCopy = false := by simp [writers, Action.changesOneCopy]
  have htexts : (s.run writers).editor = "box(0.86".toList ∧
      (s.run (writers.take 2)).editor = "✓doOnce -> ball\nbox 2".toList := by
    decide +kernel
  exact ⟨⟨hs, hacts⟩, run_inStep hs hacts, htexts.1,
    run_inStep hs fun a ha => hacts a (List.mem_of_mem_take ha), htexts.2⟩

end Session

end LiveSketch.Live

import LiveSketch.Proofs.Live.Pacing

/-!
# Whose blocks are ticked

A frame ticks headers of the text in effect by the line numbers that its routine reports. The routine comes
from exactly that text, unless the text is one that was rejected or a frame has failed since a text was
installed last (`Session.ticked_of_source`). In both of these cases an older routine runs, and its numbers tick
headers that were never run: `Session.ticked_unread` is a text that was not even read.

Putting a text into effect settles where the active routine comes from, whatever was before
(`install_origin`); after that only a fallback can change it.
-/
namespace LiveSketch.Live

open Script (Context)

/-- The active routine comes from the text in effect, or that text is rejected. -/
def Workbench.Current (w : Workbench Document) : Prop :=
  ∀ x, w.runner.active = some x →
    Routine.ofSketch w.desk.source = .ok (some x.routine) ∨
      ∃ failure, Routine.ofSketch w.desk.source = .error failure

/-- Whatever ran before, a text that is put into effect is the one that the active routine comes from, or is
rejected. -/
theorem install_current (text editor : List Char) (w : Workbench Document) :
    Workbench.Current { (install text w).2 with desk := ⟨editor, text⟩ } := by
  intro x hx
  rcases install_cases text w with ⟨-, hi⟩ | ⟨routine, -, hr, hi⟩ | ⟨failure, -, hf, hi⟩ <;> rw [hi] at hx
  · cases hx
  · left
    rw [← Option.some.inj hx]
    exact hr
  · exact .inr ⟨failure, hf⟩

namespace Session

/-- The action is a frame, and the frame fails. -/
def Fails (s : Session) (a : Action) : Prop := a = .frame ∧ ∃ fault, s.runFrame.1 = some (.failed fault)

/-- The action installs a routine. -/
def Installs (s : Session) (a : Action) : Prop := s.runner.installs < (s.act a).runner.installs

/-- Among these actions a frame has failed, and no routine was installed since. -/
def FellBack (s : Session) (acts : List Action) : Prop := s.Since Fails Installs acts

/-- The active routine comes from the text in effect, unless that text is rejected or the runner has fallen
back. -/
def Origin (fell : Prop) (s : Session) : Prop :=
  ∀ x, s.runner.active = some x →
    Routine.ofSketch s.source = .ok (some x.routine) ∨
      (∃ failure, Routine.ofSketch s.source = .error failure) ∨ fell

namespace Origin

variable {fell : Prop} {s s' : Session}

theorem of_current (h : s.bench.Current) : s.Origin fell :=
  fun x hx => (h x hx).imp_right .inl

theorem mono {fell' : Prop} (h : s.Origin fell) (hf : fell → fell') : s.Origin fell' :=
  fun x hx => (h x hx).imp_right (Or.imp_right hf)

theorem untouched (h : s.Origin fell) (hu : s.Untouched s') : s'.Origin fell := by
  intro x hx
  rw [hu.source]
  exact h x (by rw [← hu.runner, hx])

theorem update (s : Session) (text : List Char) : (s.update text).2.Origin fell := by
  obtain ⟨hsource, ⟨w, -, hrunner⟩, -⟩ := s.update_cases text
  intro x hx
  rw [hsource]
  rw [hrunner] at hx
  exact of_current (s := { s with bench := { (install text w).2 with desk := ⟨[], text⟩ } })
    (install_current text [] w) x hx

/-- Without a new installation what was before remains. -/
theorem kept (h : s.Origin fell) {a : Action} (ha : (s.act a).runner.active = s.runner.active)
    (hs : (s.act a).source = s.source) (hi : (s.act a).runner.installs = s.runner.installs) :
    (s.act a).Origin (s.Fails a ∨ (fell ∧ ¬s.Installs a)) := by
  have hn : ¬s.Installs a := by
    rw [Installs, hi]
    exact Nat.lt_irrefl _
  intro x hx
  rw [hs]
  exact (h x (by rw [← ha, hx])).imp_right (Or.imp_right fun hf => .inr ⟨hf, hn⟩)

/-- Only a frame that fails brings back an older routine. -/
theorem runFrame (h : s.Origin fell) :
    (s.act .frame).Origin (s.Fails .frame ∨ (fell ∧ ¬s.Installs .frame)) := by
  rcases s.runFrame_cases with ⟨-, hf⟩ | ⟨report, s', -, hf, hcase⟩
  · have hact : s.act .frame = s := congrArg Prod.snd hf
    exact h.kept (by rw [hact]) (by rw [hact]) (by rw [hact])
  have hact : s.act .frame = s' := congrArg Prod.snd hf
  rcases hcase with ⟨-, -, -, hw⟩ | ⟨x, c, -, -, ⟨fault, -, rfl, -⟩ | ⟨-, -, hw⟩⟩
  · exact h.kept (by rw [hact, runner, hw, runner]) (by rw [hact, source, hw, source])
      (by rw [hact, runner, hw, runner])
  · exact fun x _ => .inr (.inr (.inl ⟨rfl, fault, congrArg Prod.fst hf⟩))
  by_cases hticked : Sketch.markLines c.doOnce.toList s.bench.succeed.desk.source = s.bench.succeed.desk.source
  · rw [tickHeaders_of_eq hticked] at hw
    refine h.kept ?_ ?_ ?_ <;> rw [hact]
    · rw [runner, hw, Workbench.succeed_runner, Runner.succeed_active, runner]
    · rw [source, hw, Workbench.succeed_desk, source]
    · rw [runner, hw, Workbench.succeed_runner]
      rfl
  · obtain ⟨w, -, -, ht⟩ := tickHeaders_of_ne hticked
    rw [hact]
    refine of_current ?_
    rw [hw, ht]
    exact install_current _ _ w

theorem act (h : s.Origin fell) (a : Action) : (s.act a).Origin (s.Fails a ∨ (fell ∧ ¬s.Installs a)) := by
  rcases s.act_cases a with rfl | hu | ⟨s₀, text, -, hu⟩
  · exact h.runFrame
  · exact h.kept (congrArg Runner.active hu.runner) hu.source (congrArg Runner.installs hu.runner)
  · exact (update s₀ text).untouched hu

end Origin

theorem run_origin (rate : FrameRate) (seed : UInt64) (now : Float) (editor : List Char)
    (acts : List Action) : ((ofSeed rate seed now editor).run acts).Origin
      ((ofSeed rate seed now editor).FellBack acts) := by
  induction acts using List.reverseRecOn with
  | nil => exact fun x hx => nomatch hx
  | append_singleton acts a ih =>
    rw [run_append]
    exact (ih.act a).mono (since_concat _ acts a).2

/-- A text that a frame has ticked. The lines are the ones that its routine has reported. -/
theorem runFrame_ticked {s : Session} (h : s.runFrame.2.source ≠ s.source) :
    ∃ x c, s.runner.active = some x ∧
      x.routine.invoke Recorder.command s.frameContext = (.ok (), c) ∧
      s.runFrame.2.source = Sketch.markLines c.doOnce.toList s.source ∧
      s.runFrame.2.editor = s.runFrame.2.source := by
  rcases s.runFrame_cases with ⟨-, hf⟩ | ⟨report, s', -, hf, hcase⟩ <;> rw [hf] at h ⊢
  · exact absurd rfl h
  rcases hcase with ⟨-, -, -, hw⟩ | ⟨x, c, hx, -, ⟨fault, -, -, hw⟩ | ⟨hrun, -, hw⟩⟩
  · exact absurd (by rw [source, hw, source]) h
  · exact absurd (by rw [source, hw, source]; rfl) h
  refine ⟨x, c, hx, hrun, ?_⟩
  have hdesk : s.bench.succeed.desk.source = s.source := by
    rw [Workbench.succeed_desk]
    rfl
  have hticked : Sketch.markLines c.doOnce.toList s.bench.succeed.desk.source ≠
      s.bench.succeed.desk.source := by
    intro he
    rw [tickHeaders_of_eq he] at hw
    exact h (by rw [source, hw, hdesk])
  obtain ⟨w, -, -, ht⟩ := tickHeaders_of_ne hticked
  rw [hdesk] at ht
  rw [source, editor, hw, ht]
  exact ⟨rfl, rfl⟩

/-- **A frame ticks what it has run.** Whatever is done with a new session, a frame that ticks headers ticks
the lines that its routine has reported, in the text in effect and in the editor. The routine comes from exactly
that text, unless the text was rejected or the runner has fallen back. -/
theorem ticked_of_source (rate : FrameRate) (seed : UInt64) (now : Float) (editor : List Char)
    (acts : List Action) :
    let s₀ := ofSeed rate seed now editor
    let s := s₀.run acts
    s.runFrame.2.source ≠ s.source →
      ∃ x c, s.runner.active = some x ∧
        x.routine.invoke Recorder.command s.frameContext = (.ok (), c) ∧
        s.runFrame.2.source = Sketch.markLines c.doOnce.toList s.source ∧
        s.runFrame.2.editor = s.runFrame.2.source ∧
        (Routine.ofSketch s.source = .ok (some x.routine) ∨
          (∃ failure, Routine.ofSketch s.source = .error failure) ∨ s₀.FellBack acts) := by
  intro s₀ s h
  obtain ⟨x, c, hx, hrun, hsource, heditor⟩ := runFrame_ticked h
  exact ⟨x, c, hx, hrun, hsource, heditor, run_origin rate seed now editor acts x hx⟩

/-- A sketch whose block has not run yet. -/
def freshBlock : List Action := [.load "peg\ndoOnce -> ball".toList]

theorem ticked_of_source_freshBlock :
    let s := (ofSeed .asFastAsPossible 0 0 []).run freshBlock
    s.runFrame.2.source ≠ s.source ∧
      ∃ (x : Installed) (c : Context (Recorder Float)), s.runner.active = some x ∧
        s.runFrame.2.source = Sketch.markLines c.doOnce.toList s.source ∧
        (Routine.ofSketch s.source = .ok (some x.routine) ∨
          (∃ failure, Routine.ofSketch s.source = .error failure) ∨
            (ofSeed .asFastAsPossible 0 0 []).FellBack freshBlock) := by
  intro s
  have h : s.runFrame.2.source ≠ s.source := by decide +kernel
  obtain ⟨x, c, hx, -, hsource, -, horigin⟩ := ticked_of_source .asFastAsPossible 0 0 [] freshBlock h
  exact ⟨h, x, c, hx, hsource, horigin⟩

/-- Before the first frame of a sketch a bracket is typed that is not closed yet. -/
def unreadEdit : List Action :=
  [.load "doOnce -> ball".toList, .edit "doOnce -> box(".toList, .update "doOnce -> box(".toList]

/-- The sketch that runs ticks the text that was rejected: the new block will never run. -/
theorem ticked_unread :
    let s := (ofSeed .asFastAsPossible 0 0 []).run unreadEdit
    s.source = "doOnce -> box(".toList ∧ s.runFrame.2.source = "✓doOnce -> box(".toList ∧
      s.runFrame.2.editor = "✓doOnce -> box(".toList ∧
      ∃ x, s.runner.active = some x ∧ Routine.ofSketch s.source ≠ .ok (some x.routine) := by
  intro s
  have hstate : s.source = "doOnce -> box(".toList ∧ s.runFrame.2.source = "✓doOnce -> box(".toList ∧
      s.runFrame.2.editor = "✓doOnce -> box(".toList ∧ s.runner.active.isSome := by
    decide +kernel
  obtain ⟨hsource, hticked, heditor, hactive⟩ := hstate
  obtain ⟨x, hx⟩ := Option.isSome_iff_exists.1 hactive
  have hrejected : Routine.ofSketch "doOnce -> box(".toList = .error ⟨.text, "Unbalanced ()"⟩ := by
    decide +kernel
  refine ⟨hsource, hticked, heditor, x, hx, ?_⟩
  rw [hsource, hrejected]
  nofun

/-- A stable sketch whose block comes late, and a text that fails before it gets to its block. -/
def failedEdit : List Action :=
  .load "if frame > 6\n\tdoOnce -> box".toList :: List.replicate 5 .frame ++
    .update "wobble()\ndoOnce -> ball".toList :: List.replicate 3 .frame

/-- The sketch that was fallen back on ticks the block of the other text, which has never run. -/
example : ((ofSeed .asFastAsPossible 0 0 []).run failedEdit).runFrame.2.source =
    "wobble()\n✓doOnce -> ball".toList := by
  decide +kernel

end Session

end LiveSketch.Live

import LiveSketch.Proofs.Live.Stability
import LiveSketch.Proofs.Script.Compilation
import LiveSketch.Proofs.Script.Reported
import LiveSketch.Proofs.Sketch.Newlines

/-!
# What runs once

A frame that reports a line puts a tick on it, and the ticked text is put into effect. From then on the line
is not reported any more (`Session.reported_once`), for all that is done until another text is put into
effect. This takes three things of the text: the line can be ticked (`tickLine?`), no other `doOnce` stands
behind the end of a block comment on it (`Sketch.Sealed`), and the text is not rejected when it has the tick.
And it takes one of the runner: the routine to fall back on does not report the line either.

The last two are not a matter of course. A header with a comment behind its arrow, and its block on the next
line, is rejected once it has the tick, and its block runs in every frame (`Session.reported_twice`). And
without its block a sketch can fail, and fall back on a routine that runs the block (`Session.lateBlock`).
-/
namespace LiveSketch

open Text

/-! ## Sketches that leave the marker alone -/

namespace Sketch

/-- Ticking twice is ticking all lines at once. -/
theorem markLines_markLines (numbers numbers' : List Nat) (cs : List Char) :
    markLines numbers' (markLines numbers cs) = markLines (numbers ++ numbers') cs := by
  have hlines : splitLines (markLines numbers cs) =
      numbers.foldl (fun lines i => lines.modify i tickLine) (splitLines cs) := by
    rw [splitLines_markLines, foldl_modify_tickLine]
  rw [markLines, hlines, ← List.foldl_append, markLines]

/-- However its headers are ticked, the sketch does not name the marker itself; and its lines can be counted
exactly. -/
structure Honest (cs : List Char) : Prop where
  unnamed : ∀ numbers, occurs markerWord (prepare (markLines numbers cs)) = false
  short : cs.count '\n' < 2 ^ 53

theorem Honest.markLines {cs : List Char} (h : Honest cs) (numbers : List Nat) :
    Honest (markLines numbers cs) where
  unnamed numbers' := by
    rw [markLines_markLines]
    exact h.unnamed _
  short := by
    rw [count_markLines]
    exact h.short

/-- A sketch of one line is looked at with and without its tick. -/
theorem honest_of_line {line : List Char} (hl : '\n' ∉ line)
    (h : occurs markerWord (prepare line) = false)
    (ht : occurs markerWord (prepare (tickLine line)) = false) : Honest line where
  unnamed numbers := by
    have hlines := splitLines_markLines numbers line
    rw [splitLines_line hl] at hlines
    rw [← joinLines_splitLines (Sketch.markLines numbers line), hlines]
    by_cases h0 : 0 ∈ numbers
    · simpa [h0, joinLines] using ht
    · simpa [h0, joinLines] using h
  short := by
    rw [List.count_eq_zero.2 hl]
    exact Nat.two_pow_pos 53

theorem Sealed.of_notMem {line : List Char} (h : '*' ∉ commentTicks line) : Sealed line :=
  fun front back he => absurd (he ▸ by simp) h

theorem count_prepare (cs : List Char) : (prepare cs).count '\n' = cs.count '\n' := by
  rw [prepare, desugarTimes_lineByLine.count, swapPostfix_lineByLine.count, count_stripComments,
    removeTicked_lineByLine.count]

theorem IsHeader.lt {cs : List Char} {i : Nat} (h : IsHeader cs i) : i < cs.count '\n' + 1 := by
  obtain ⟨line, hl, -⟩ := h
  obtain ⟨hi, -⟩ := List.getElem?_eq_some_iff.1 hl
  rwa [length_splitLines, count_prepare] at hi

end Sketch

open Sketch

namespace Routine

/-- A routine comes from a script that is read and turned into code. -/
theorem ofSketch_eq_some {text : List Char} {r : Routine} (h : ofSketch text = .ok (some r)) :
    ∃ script stmts p, toScript text = .ok script ∧ Script.parse script = .ok stmts ∧
      Script.lower stmts = .ok p ∧ r = ⟨some p⟩ := by
  have hne : text ≠ [] := by
    rintro rfl
    cases h
  simp only [ofSketch, List.isEmpty_iff, hne, if_false, bind_eq_ok, mapError_eq_ok, pure_eq_ok] at h
  obtain ⟨script, hs, r', hr, he⟩ := h
  obtain ⟨p, hp, rfl⟩ := map_eq_ok.1 (hr : (fun p => (⟨some p⟩ : Routine)) <$> Script.compile script = _)
  obtain ⟨stmts, hparse, hlower⟩ := bind_eq_ok.1 (mapError_eq_ok.1 hp)
  exact ⟨script, stmts, p, (scriptOf_eq_ok_iff hne).1 hs, hparse, hlower, (Option.some.inj he).symm⟩

/-- **Only headers are reported.** -/
theorem adds_headers {text : List Char} {r : Routine} {σ : Type} (device : Script.Device σ)
    (ht : Honest text) (h : ofSketch text = .ok (some r)) : (r.invoke device).Adds (IsHeader text) := by
  obtain ⟨script, stmts, p, hs, hparse, hlower, rfl⟩ := ofSketch_eq_some h
  have hunnamed : occurs markerWord (prepare text) = false := by
    simpa [Sketch.markLines, joinLines_splitLines] using ht.unnamed []
  have hlines : ∀ i, IsHeader text i → i < 2 ^ 53 := fun i hi => Nat.lt_of_lt_of_le hi.lt ht.short
  have htree := Script.parse_reports hlines (reporting_toScript hunnamed hs) hparse
  have hrun : (⟨some p⟩ : Routine).invoke device = Script.evaluate device stmts :=
    Script.lower_run device hlower
  rw [hrun]
  exact Script.evaluate_adds htree

/-- The routine never reports this line. -/
def Silent (i : Nat) (r : Routine) : Prop := (r.invoke Recorder.command).Adds (· ≠ i)

/-- The routine of a text whose line has a tick. -/
theorem silent_of_silenced {text line : List Char} {r : Routine} {i : Nat} (ht : Honest text)
    (h : ofSketch text = .ok (some r)) (hi : (splitLines text)[i]? = some line) (hl : Silenced line) :
    r.Silent i := by
  refine (adds_headers Recorder.command ht h).mono fun n hn e => ?_
  subst e
  exact hl.not_isHeader hi hn

end Routine

namespace Live

/-! ## After the report -/

/-- The line has a tick, and neither the active nor the stable routine reports it. -/
structure Workbench.Past (i : Nat) (w : Workbench Document) : Prop where
  honest : Honest w.desk.source
  silenced : ∃ line, (splitLines w.desk.source)[i]? = some line ∧ Silenced line
  active : ∀ x, w.runner.active = some x → x.routine.Silent i
  stable : ∀ x, w.runner.stable = some x → x.routine.Silent i

namespace Workbench.Past

variable {i : Nat} {w : Workbench Document}

theorem succeed (h : w.Past i) : w.succeed.Past i where
  honest := by rw [Workbench.succeed_desk]; exact h.honest
  silenced := by rw [Workbench.succeed_desk]; exact h.silenced
  active := by rw [Workbench.succeed_runner]; exact h.active
  stable := by
    rw [Workbench.succeed_runner, Runner.succeed_stable]
    split
    · exact h.active
    · exact h.stable

/-- A text with a tick on the line is put into effect. If it is rejected, the active routine matters. -/
theorem install {text line : List Char} (ht : Honest text) (hi : (splitLines text)[i]? = some line)
    (hl : Silenced line)
    (ha : (∃ failure, Routine.ofSketch text = .error failure) →
      ∀ x, w.runner.active = some x → x.routine.Silent i)
    (hs : ∀ x, w.runner.stable = some x → x.routine.Silent i) :
    Past i { (install text w).2 with desk := ⟨text, text⟩ } := by
  rcases install_cases text w with ⟨-, he⟩ | ⟨routine, -, hr, he⟩ | ⟨failure, -, hf, he⟩ <;>
    rw [he] <;> refine ⟨ht, ⟨line, hi, hl⟩, ?_, ?_⟩
  · exact fun x hx => nomatch hx
  · exact fun x hx => nomatch hx
  · intro x hx
    rw [← Option.some.inj hx]
    exact Routine.silent_of_silenced ht hr hi hl
  · exact hs
  · exact ha ⟨failure, hf⟩
  · exact hs

theorem tickHeaders (h : w.Past i) (lines : List Nat) : (tickHeaders lines w).Past i := by
  by_cases he : Sketch.markLines lines w.desk.source = w.desk.source
  · rwa [tickHeaders_of_eq he]
  · obtain ⟨w', hr, -, ht⟩ := tickHeaders_of_ne he
    obtain ⟨line, hi, hl⟩ := h.silenced
    rw [ht]
    refine install (h.honest.markLines lines) (hl.markLines hi lines) hl (fun _ => ?_) ?_ <;> rw [hr]
    · exact h.active
    · exact h.stable

end Workbench.Past

namespace Session

theorem runFrame_past {s : Session} {i : Nat} (h : s.bench.Past i) : s.runFrame.2.bench.Past i := by
  rcases s.runFrame_cases with ⟨-, hf⟩ | ⟨report, s', -, hf, hcase⟩ <;> rw [hf]
  · exact h
  rcases hcase with ⟨-, -, -, hw⟩ | ⟨x, c', -, -, ⟨fault, -, -, hw⟩ | ⟨-, -, hw⟩⟩ <;> rw [hw]
  · exact h
  · exact ⟨h.honest, h.silenced, h.stable, h.stable⟩
  · exact h.succeed.tickHeaders _

/-- No other text is put into effect. -/
def Leaves (s : Session) : List Action → Prop
  | [] => True
  | a :: acts => (a = .frame ∨ s.Untouched (s.act a)) ∧ (s.act a).Leaves acts

theorem run_past {s : Session} {i : Nat} {acts : List Action} (h : s.bench.Past i)
    (ha : s.Leaves acts) : (s.run acts).bench.Past i := by
  induction acts generalizing s with
  | nil => exact h
  | cons a acts ih =>
    refine ih ?_ ha.2
    rcases ha.1 with rfl | hu
    · exact runFrame_past h
    · have hr : (s.act a).bench.runner = s.bench.runner := hu.runner
      have hs : (s.act a).bench.desk.source = s.bench.desk.source := hu.source
      exact ⟨hs ▸ h.honest, hs ▸ h.silenced, hr ▸ h.active, hr ▸ h.stable⟩

/-- The lines that the next frame reports, if it is rendered. -/
def reported (s : Session) : List Nat :=
  match s.scheduler.clock.armed, s.runner.active with
  | some _, some x =>
    match x.routine.invoke Recorder.command s.frameContext with
    | (.ok (), c) => c.doOnce.toList
    | (.error _, _) => []
  | _, _ => []

theorem mem_reported {s : Session} {i : Nat} :
    i ∈ s.reported ↔ s.scheduler.clock.armed.isSome ∧ ∃ x c', s.runner.active = some x ∧
      x.routine.invoke Recorder.command s.frameContext = (.ok (), c') ∧ i ∈ c'.doOnce.toList := by
  cases hc : s.scheduler.clock.armed with
  | none => simp [reported, hc]
  | some rate =>
    cases ha : s.runner.active with
    | none => simp [reported, hc, ha]
    | some x =>
      rcases hr : x.routine.invoke Recorder.command s.frameContext with ⟨fault | u, c⟩
      · simp only [reported, hc, ha, hr, List.not_mem_nil, false_iff]
        rintro ⟨-, y, c', hy, hr', -⟩
        cases hy
        cases hr.symm.trans hr'
      · simp only [reported, hc, ha, hr]
        refine ⟨fun hi => ⟨rfl, x, c, rfl, hr, hi⟩, ?_⟩
        rintro ⟨-, y, c', hy, hr', hi⟩
        cases hy
        cases hr.symm.trans hr'
        exact hi

/-- A line with a tick is not reported. -/
theorem Past.notMem_reported {s : Session} {i : Nat} (h : s.bench.Past i) : i ∉ s.reported := by
  rw [mem_reported]
  rintro ⟨-, x, c', hx, hr, hi⟩
  rcases h.active x hx _ _ c' hr i hi with hnil | hne
  · cases hnil
  · exact hne rfl

/-- **A `doOnce` runs once.** A frame that reports lines is rendered, and these lines are headers of the
text in effect. After it, until another text is put into effect, such a line is not reported any more. -/
theorem reported_once {s : Session} {x : Installed} {i : Nat} (hx : s.runner.active = some x)
    (hsource : Routine.ofSketch s.source = .ok (some x.routine)) (hhonest : Honest s.source)
    (hi : i ∈ s.reported) :
    (∃ n, s.runFrame.1 = some (.rendered n)) ∧ IsHeader s.source i ∧
      ∀ line, (splitLines s.source)[i]? = some line → (tickLine? line).isSome → Sealed line →
        (∃ r, Routine.ofSketch s.runFrame.2.source = .ok r) →
        (∀ y, s.runFrame.2.runner.stable = some y → y.routine.Silent i) →
        ∀ acts, s.runFrame.2.Leaves acts → i ∉ (s.runFrame.2.run acts).reported := by
  obtain ⟨hc, y, c', hy, hr, hi⟩ := mem_reported.1 hi
  obtain rfl : x = y := Option.some.inj (hx.symm.trans hy)
  have hheader : IsHeader s.source i :=
    (Routine.adds_headers Recorder.command hhonest hsource _ _ c' hr i hi).resolve_left nofun
  rcases s.runFrame_cases with ⟨hnone, -⟩ | ⟨report, s', -, hf, hcase⟩
  · rw [hnone] at hc
    cases hc
  rcases hcase with ⟨hnone, -⟩ | ⟨y, c'', hy, -, ⟨fault, hr', -⟩ | ⟨hr', ⟨n, rfl⟩, hw⟩⟩
  · cases hx.symm.trans hnone
  · obtain rfl : x = y := Option.some.inj (hx.symm.trans hy)
    cases hr.symm.trans hr'
  obtain rfl : x = y := Option.some.inj (hx.symm.trans hy)
  cases hr.symm.trans hr'
  rw [hf]
  refine ⟨⟨n, rfl⟩, hheader, fun line hl ht hsealed haccepted hstable acts hacts => ?_⟩
  refine Past.notMem_reported (run_past ?_ hacts)
  have hdesk : s.bench.succeed.desk.source = s.source := by
    rw [Workbench.succeed_desk]
    rfl
  have hticked : (splitLines (markLines c'.doOnce.toList s.source))[i]? = some (tickLine line) := by
    rw [splitLines_markLines, List.getElem?_mapIdx, hl, Option.map_some, if_pos hi]
  have hsilenced := hsealed.silenced ht
  have hne : markLines c'.doOnce.toList s.bench.succeed.desk.source ≠ s.bench.succeed.desk.source := by
    rw [hdesk]
    intro he
    rw [he] at hticked
    exact hsilenced.not_isHeader hticked hheader
  obtain ⟨w', -, -, htick⟩ := tickHeaders_of_ne hne
  rw [hdesk] at htick
  have hbench : s'.bench = _ := hw.trans htick
  have htext : markLines c'.doOnce.toList s.source ≠ [] := by
    rw [Ne, markLines_eq_nil_iff]
    intro hnil
    rw [hnil] at hsource
    cases hsource
  rw [hbench]
  refine .install (hhonest.markLines _) hticked hsilenced ?_ fun y hy => hstable y ?_
  · rintro ⟨failure, hfailure⟩
    obtain ⟨r, hr⟩ := haccepted
    have hs' : s'.source = markLines c'.doOnce.toList s.source := by
      rw [source, hbench]
    cases (hs' ▸ hr).symm.trans hfailure
  · rw [runner, hbench]
    exact (install_stable htext w').trans hy

/-- A text that was installed is the one that the active routine comes from. -/
theorem active_of_installed {s : Session} {text : List Char} (h : (s.update text).1 = .installed) :
    ∃ x, (s.update text).2.runner.active = some x ∧
      Routine.ofSketch (s.update text).2.source = .ok (some x.routine) := by
  have hsource : (s.update text).2.source = text := (s.update_cases text).1
  rw [hsource]
  obtain ⟨w, hresult, hrunner⟩ : ∃ w : Workbench Document, (s.update text).1 = (install text w).1 ∧
      (s.update text).2.runner = (install text w).2.runner := ⟨_, rfl, rfl⟩
  rw [hresult] at h
  rw [hrunner]
  rcases install_cases text w with ⟨-, hi⟩ | ⟨routine, -, hr, hi⟩ | ⟨failure, -, -, hi⟩ <;> rw [hi] at h ⊢
  · cases h
  · exact ⟨_, rfl, hr⟩
  · cases h

/-- A session in which a sketch was loaded. -/
def loaded (text : List Char) : Session := ((ofSeed .asFastAsPossible 0 0 []).load text).2

theorem loaded_active {text : List Char}
    (h : ((ofSeed .asFastAsPossible 0 0 []).load text).1 = .installed) :
    ∃ x, (loaded text).runner.active = some x ∧
      Routine.ofSketch (loaded text).source = .ok (some x.routine) := active_of_installed h

/-- A block on the line of its header. -/
def inlineHeader : List Char := "doOnce -> ball".toList

theorem inlineHeader_honest : Honest inlineHeader :=
  honest_of_line (by decide) (by decide +kernel) (by decide +kernel)

/-- The first frame reports the line, and no later one does. -/
theorem reported_once_inlineHeader :
    0 ∈ (loaded inlineHeader).reported ∧
      ∀ acts, (loaded inlineHeader).runFrame.2.Leaves acts →
        0 ∉ ((loaded inlineHeader).runFrame.2.run acts).reported := by
  have hi : 0 ∈ (loaded inlineHeader).reported := by decide +kernel
  have hinstalled : ((ofSeed .asFastAsPossible 0 0 []).load inlineHeader).1 = .installed := by
    decide +kernel
  obtain ⟨x, hx, hsource⟩ := loaded_active hinstalled
  have htext : (loaded inlineHeader).source = inlineHeader := by decide +kernel
  have haccepted : (Routine.ofSketch (loaded inlineHeader).runFrame.2.source).isOk := by
    decide +kernel
  have hstable : (loaded inlineHeader).runFrame.2.runner.stable.isSome = false := by decide +kernel
  generalize loaded inlineHeader = s at *
  have hhonest : Honest s.source := by
    rw [htext]
    exact inlineHeader_honest
  obtain ⟨-, -, honce⟩ := reported_once hx hsource hhonest hi
  refine ⟨hi, honce inlineHeader ?_ (by decide) (.of_notMem (by decide)) ?_ fun y hy => ?_⟩
  · rw [htext]
    decide
  · cases hr : Routine.ofSketch s.runFrame.2.source with
    | error failure =>
      rw [hr] at haccepted
      cases haccepted
    | ok r => exact ⟨r, rfl⟩
  · rw [hy] at hstable
    cases hstable

/-- A header with a comment behind its arrow, and its block on the next line. -/
def commentedHeader : List Char := "doOnce -> // note\n\tbox\npeg".toList

/-- The ticked text is rejected: its header has become a comment, and so the block has none. The routine
goes on to run the block, frame after frame. -/
theorem reported_twice :
    0 ∈ (loaded commentedHeader).reported ∧
      (loaded commentedHeader).runFrame.1 = some (.rendered 0) ∧
      0 ∈ (loaded commentedHeader).runFrame.2.reported := by
  decide +kernel

/-- A block that first runs when its routine is stable, and a command that needs it. -/
def lateBlock : List Char := "if frame > 4\n\tdoOnce -> size = 2\n\tbox size".toList

/-- The frame between these two has failed, and the routine to fall back on comes from the text without the
tick. -/
example : 1 ∈ ((loaded lateBlock).run (List.replicate 5 .frame)).reported ∧
    1 ∈ ((loaded lateBlock).run (List.replicate 7 .frame)).reported := by
  decide +kernel

end Session

end Live

end LiveSketch

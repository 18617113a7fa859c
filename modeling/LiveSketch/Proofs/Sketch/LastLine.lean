import LiveSketch.Proofs.Script.SameLines
import LiveSketch.Proofs.Sketch.DrawCalls
import LiveSketch.Proofs.Sketch.Separating
import LiveSketch.Proofs.Sketch.Settled

/-!
# The newline at the end of a sketch

Each pass but the last makes of a text with a newline at its end what it makes of the text alone, with a newline at
the end. The last pass does not if the text ends in a command: in front of the newline that is a statement of its
own, at the end of the text it is not (`ofSketch_newline`).
-/
namespace LiveSketch.Sketch

open Text Script

/-! ## The passes up to the last -/

theorem prepare_newline (cs : List Char) : prepare (cs ++ ['\n']) = prepare cs ++ ['\n'] := by
  have hticks : removeTicked (cs ++ ['\n']) = removeTicked cs ++ ['\n'] := removeTicked_lineByLine.newline cs []
  have hcomments : stripComments (removeTicked cs ++ ['\n']) = stripComments (removeTicked cs) ++ ['\n'] :=
    stripComments_apart (.inr rfl)
  have hpostfix : ∀ cs, swapPostfix (cs ++ ['\n']) = swapPostfix cs ++ ['\n'] := fun cs =>
    swapPostfix_lineByLine.newline cs []
  have htimes : ∀ cs, desugarTimes (cs ++ ['\n']) = desugarTimes cs ++ ['\n'] := fun cs =>
    desugarTimes_lineByLine.newline cs []
  rw [prepare, hticks, hcomments, hpostfix, htimes, prepare]

/-- A newline is no delimiter. -/
theorem find?_isUnpaired_newline (cs : List Char) :
    Delimiter.all.find? (·.isUnpaired (dropLiterals (cs ++ ['\n']))) =
      Delimiter.all.find? (·.isUnpaired (dropLiterals cs)) := by
  have hnil : dropLiterals [] = [] := rfl
  congr 1
  funext d
  have hn : d.chars.contains '\n' = false := by cases d <;> decide
  rw [dropLiterals_newline, hnil, Delimiter.isUnpaired, Delimiter.isUnpaired, List.countP_append,
    List.countP_singleton, hn]
  rfl

theorem instrumentLines_newline (i : Nat) (pending : Option (List Char)) (lines : List (List Char)) :
    instrumentLines i pending (lines ++ [[]]) = instrumentLines i pending lines ++ [[]] := by
  induction lines generalizing i pending with
  | nil => cases pending <;> rfl
  | cons line lines ih =>
    simp only [List.cons_append, instrumentLines, ih]
    split
    · rfl
    · split <;> rfl
    · rfl

theorem splitLines_end (cs : List Char) : splitLines (cs ++ ['\n']) = splitLines cs ++ [[]] :=
  splitLines_append_newline cs []

theorem instrument_newline (cs : List Char) : instrument (cs ++ ['\n']) = instrument cs ++ ['\n'] := by
  have hlines : splitLines (instrument (cs ++ ['\n'])) = splitLines (instrument cs ++ ['\n']) := by
    rw [splitLines_instrument, splitLines_end, splitLines_end, splitLines_instrument]
    exact instrumentLines_newline 0 none _
  rw [← joinLines_splitLines (instrument (cs ++ ['\n'])), hlines, joinLines_splitLines]

theorem paired_newline (cs : List Char) :
    Delimiter.all.find? (·.isUnpaired (dropLiterals (stripComments (removeTicked (cs ++ ['\n']))))) =
      Delimiter.all.find? (·.isUnpaired (dropLiterals (stripComments (removeTicked cs)))) := by
  have hstripped : stripComments (removeTicked (cs ++ ['\n'])) = stripComments (removeTicked cs) ++ ['\n'] := by
    rw [removeTicked_lineByLine.newline cs []]
    exact stripComments_apart (.inr rfl)
  rw [hstripped, find?_isUnpaired_newline]

theorem hasDraw_newline (cs : List Char) : hasDraw true (cs ++ ['\n']) = hasDraw true cs := by
  have hblank : ∀ c ∈ ['\n'], isBlank c := fun c hc => by
    rw [List.mem_singleton.1 hc]
    rfl
  have hnone : ∀ c ∈ ([] : List Char).head?, isBlank c := by simp
  simpa using hasDraw_blanks hblank hnone cs true

/-! ## The last pass -/

theorem separateCommands_newline {cs : List Char} (h : endsInCommand (separateCommands cs) = false) :
    separateCommands (cs ++ ['\n']) = separateCommands cs ++ ['\n'] := by
  obtain ⟨out, hout⟩ := exists_spaced none (by simp : ∀ q ∈ (none : Option Char), isQuote q) cs
  have hsame : separateCommands cs = out := by
    refine hout.atEnd.resolve_right fun hcommand => ?_
    have hlast := hcommand [] rfl
    rw [List.nil_append] at hlast
    exact Bool.noConfusion (hlast.symm.trans h)
  rw [hsame]
  exact hout.space [] rfl

/-- With a newline at its end a sketch has its script with a newline at the end. -/
theorem toScript_newline {cs : List Char} (h : ∀ script, toScript cs = .ok script → endsInCommand script = false)
    {script' : List Char} :
    toScript (cs ++ ['\n']) = .ok script' ↔ ∃ script, toScript cs = .ok script ∧ script ++ ['\n'] = script' := by
  have hcalls : ∀ cs, callBarewords (cs ++ ['\n']) = callBarewords cs ++ ['\n'] := fun cs =>
    callBarewords_lineByLine.newline cs []
  simp only [toScript_eq_ok_iff, paired_newline, prepare_newline, instrument_newline, hasDraw_newline, hcalls] at h ⊢
  constructor
  · rintro ⟨hpaired, hdraw, rfl⟩
    exact ⟨_, ⟨hpaired, hdraw, rfl⟩, (separateCommands_newline (h _ ⟨hpaired, hdraw, rfl⟩)).symm⟩
  · rintro ⟨_, ⟨hpaired, hdraw, rfl⟩, rfl⟩
    exact ⟨hpaired, hdraw, separateCommands_newline (h _ ⟨hpaired, hdraw, rfl⟩)⟩

/-! ## The script -/

theorem sameLines_end (g : Float → Float) (lines : List (List Char)) :
    SameLines g lines (lines ++ [[]]) ∧ SameLines g (lines ++ [[]]) lines := by
  induction lines with
  | nil => exact ⟨.idle_right (by rfl) (.nil g), .idle_left (by rfl) (.nil g)⟩
  | cons line lines ih =>
    have next : ∀ {lines lines' : List (List Char)}, SameLines g lines lines' →
        SameLines g (line :: lines) (line :: lines') := fun h => by
      simpa using SameLines.cons (.inl rfl) line (by simp) h
    exact ⟨next ih.1, next ih.2⟩

/-- An empty line at the end of a script does not matter. -/
theorem compile_newline (script : List Char) (p : Program) :
    Script.compile (script ++ ['\n']) = .ok p ↔ Script.compile script = .ok p := by
  obtain ⟨hto, hfrom⟩ := sameLines_end id (splitLines script)
  rw [← splitLines_end] at hto hfrom
  constructor
  · intro h
    obtain ⟨p', hp', he⟩ := compile_sameLines hfrom h
    rw [Program.renumber_id, Program.renumber_id] at he
    rw [hp', he]
  · intro h
    obtain ⟨p', hp', he⟩ := compile_sameLines hto h
    rw [Program.renumber_id, Program.renumber_id] at he
    rw [hp', he]

/-- **A newline at the end does not matter, unless the script ends in a command.** Then a sketch that is not empty
is accepted with a newline at its end if and only if it is accepted without, and has the same program. -/
theorem ofSketch_newline {cs : List Char} (hne : cs ≠ [])
    (h : ∀ script, toScript cs = .ok script → endsInCommand script = false) (r : Option Routine) :
    Routine.ofSketch (cs ++ ['\n']) = .ok r ↔ Routine.ofSketch cs = .ok r := by
  rw [ofSketch_eq_ok_iff hne, ofSketch_eq_ok_iff (by simp)]
  constructor
  · rintro ⟨_, p, hs', hp, rfl⟩
    obtain ⟨script, hs, rfl⟩ := (toScript_newline h).1 hs'
    exact ⟨script, p, hs, (compile_newline script p).1 hp, rfl⟩
  · rintro ⟨script, p, hs, hp, rfl⟩
    exact ⟨_, p, (toScript_newline h).2 ⟨script, hs, rfl⟩, (compile_newline script p).2 hp, rfl⟩

/-- A loop over two commands, with a comment behind them. -/
def commentedLoop : List Char := "3 times ->\n\trotate 1 red fill\n\tbox 2 // small".toList

/-- The script ends in a blank. -/
theorem ofSketch_newline_commentedLoop : commentedLoop ≠ [] ∧
    (∀ script, toScript commentedLoop = .ok script → endsInCommand script = false) ∧
      (Routine.ofSketch commentedLoop).isOk ∧
        ∀ r, Routine.ofSketch (commentedLoop ++ ['\n']) = .ok r ↔ Routine.ofSketch commentedLoop = .ok r := by
  have hne : commentedLoop ≠ [] := by decide
  have hend : ∀ script, toScript commentedLoop = .ok script → endsInCommand script = false := by
    have hscript : toScript commentedLoop = .ok ";repeat 3 ->\n\t;rotate 1 ;fill red\n\t;box 2 ".toList := by
      decide
    intro script h
    rw [hscript] at h
    cases h
    decide
  exact ⟨hne, hend, by decide +kernel, ofSketch_newline hne hend⟩

/-- With a newline at its end the sketch is accepted, without it is not. With an assignment it is the other way. -/
theorem ofSketch_newline_commands :
    ((Routine.ofSketch "rotate 1 box".toList).isOk = false ∧ (Routine.ofSketch "rotate 1 box\n".toList).isOk) ∧
      (Routine.ofSketch "x = box".toList).isOk ∧ (Routine.ofSketch "x = box\n".toList).isOk = false := by
  decide +kernel

end LiveSketch.Sketch

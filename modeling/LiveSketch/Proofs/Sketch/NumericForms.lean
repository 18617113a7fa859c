import LiveSketch.Proofs.Sketch.CountedLoops
import LiveSketch.Proofs.Sketch.LineStarts

/-!
# Numbers in front of their words

`ofSketch_numeric`: a line `60 bpm` does what `bpm 60` does, and `3 times -> …` does what `repeat 3 -> …` does. The word goes
in front of a run of digits, so behind the point of a numeral that has one: `1.5 bpm` is `1.` and then `bpm 5`.
-/
namespace LiveSketch.Sketch

open Text Script
open Script.Lexer (isIndent)

/-- What may stand in front of the digits that a word takes: nothing, or the point of their numeral with the digits before it. -/
def IsWhole (whole : List Char) : Prop := whole = [] ∨ ∃ digits, (∀ c ∈ digits, c.isDigit) ∧ whole = digits ++ ['.']

/-- The function leaves a text as it is, whatever stands behind it. -/
def Leaves (f : List Char → List Char) (front : List Char) : Prop := ∀ rest, f (front ++ rest) = front ++ f rest

variable {f g : List Char → List Char} {front more : List Char}

theorem Leaves.append (h : Leaves f front) (h' : Leaves f more) : Leaves f (front ++ more) := fun rest => by
  rw [List.append_assoc, h, h', List.append_assoc]

theorem Leaves.comp (hg : Leaves g front) (hf : Leaves f front) : Leaves (g ∘ f) front := fun rest => by
  rw [Function.comp, hf, hg]
  rfl

section

variable {isOperand : Char → Bool} {follow? : List Char → Option (List Char × List Char)}
  {build : (run kept : List Char) → List Char}

theorem leaves_front (h : ∀ c ∈ front, isOperand c = false) : Leaves (swapRuns isOperand follow? build) front :=
  swapRuns_front h

/-- A run that no word follows stays. -/
theorem swapRuns_word (hf : Follow follow? build) {word rest : List Char} (hword : ∀ c ∈ word, isOperand c)
    (hstop : ∀ c ∈ rest.head?, isOperand c = false) (hnone : follow? rest = none) :
    swapRuns isOperand follow? build (word ++ rest) = word ++ swapRuns isOperand follow? build rest := by
  have htake := takeWhile_append hword hstop
  have hdrop := dropWhile_append hword hstop
  cases word with
  | nil => rfl
  | cons c word =>
    rw [List.cons_append] at htake hdrop ⊢
    rw [swapRuns_of_none hf (hword c List.mem_cons_self) (by rwa [hdrop]), htake, hdrop]

/-- A run is built anew where its word follows. -/
theorem swapRuns_found (hf : Follow follow? build) {word rest kept more : List Char} (hne : word ≠ [])
    (hword : ∀ c ∈ word, isOperand c) (hstop : ∀ c ∈ rest.head?, isOperand c = false)
    (hfound : follow? rest = some (kept, more)) :
    swapRuns isOperand follow? build (word ++ rest) = build word kept ++ swapRuns isOperand follow? build more := by
  have htake := takeWhile_append hword hstop
  have hdrop := dropWhile_append hword hstop
  obtain ⟨c, word, rfl⟩ := List.exists_cons_of_ne_nil hne
  rw [List.cons_append] at htake hdrop ⊢
  rw [swapRuns_of_some hf (hword c List.mem_cons_self) (by rwa [hdrop]), htake]

theorem leaves_word (hf : Follow follow? build) {word stop : List Char} (hword : ∀ c ∈ word, isOperand c) (hne : stop ≠ [])
    (hstop : ∀ c ∈ stop, isOperand c = false) (hnone : ∀ rest, follow? (stop ++ rest) = none) :
    Leaves (swapRuns isOperand follow? build) (word ++ stop) := by
  intro rest
  obtain ⟨d, stop, rfl⟩ := List.exists_cons_of_ne_nil hne
  rw [List.append_assoc, swapRuns_word hf hword (by simpa using hstop d List.mem_cons_self) (hnone rest),
    leaves_front hstop, List.append_assoc]

end

/-! ## The passes -/

theorem bpm_follow : Follow (spacedWord? "bpm".toList) (wordFirst "bpm".toList) := spacedWord?_follow (by decide)

theorem colour_follow {word : List Char} (hw : word ∈ colourWords) : Follow (spacedWord? word) (wordFirst word) := by
  have hall : ∀ word ∈ colourWords, '\n' ∉ word := by decide
  exact spacedWord?_follow (hall word hw)

/-- The words of colours do not find themselves behind a space and such a character. -/
theorem spacedWord?_colour {word : List Char} (hw : word ∈ colourWords) {c : Char} (hc : c ∉ " fsb".toList)
    (rest : List Char) : spacedWord? word (' ' :: c :: rest) = none := by
  simp only [show " fsb".toList = [' ', 'f', 's', 'b'] from rfl, List.mem_cons, List.not_mem_nil, or_false, not_or] at hc
  simp only [colourWords, List.mem_cons, List.not_mem_nil, or_false] at hw
  rcases hw with rfl | rfl | rfl <;> simp [spacedWord?, after?, skipSpaces, hc.1, Ne.symm hc.2.1, Ne.symm hc.2.2.1, Ne.symm hc.2.2.2]

/-- Where a letter of the word is missing it is not found. -/
theorem spacedWord?_none {word cs : List Char} {w : Char} (hw : w ∈ word) (h : w ∉ cs) : spacedWord? word cs = none := by
  cases hfound : spacedWord? word cs with
  | none => rfl
  | some found =>
    simp only [spacedWord?, Option.bind_eq_bind, Option.bind_eq_some_iff, after?_eq_some] at hfound
    obtain ⟨cs', rfl, tail, hs, -⟩ := hfound
    obtain ⟨spaces, hspaces⟩ := skipSpaces_append cs'
    rw [hspaces, hs] at h
    exact absurd (by simp [hw]) h

theorem timesArrow?_none {cs : List Char} (h : 't' ∉ cs) : timesArrow? cs = none := by
  cases cs with
  | nil => rfl
  | cons c cs =>
    rw [timesArrow?_cons]
    split
    · cases ha : after? "times".toList (cs.dropWhile isIndent) with
      | none => rfl
      | some rest =>
        have hmem : 't' ∈ cs.dropWhile isIndent := by
          rw [after?_eq_some.1 ha]
          exact List.mem_append_left rest (by decide)
        exact absurd (List.mem_cons_of_mem c ((List.dropWhile_sublist _).subset hmem)) h
    · rfl

theorem leaves_colours (h : ∀ word ∈ colourWords, Leaves (swapWord Char.isAlpha word) front) :
    Leaves (fun cs => colourWords.foldl (fun cs word => swapWord Char.isAlpha word cs) cs) front := by
  simp only [colourWords, List.forall_mem_cons] at h
  obtain ⟨hfill, hstroke, hbackground, -⟩ := h
  exact hbackground.comp (hstroke.comp hfill)

theorem leaves_swapPostfix (hbpm : Leaves (swapWord isDigit "bpm".toList) front)
    (h : ∀ word ∈ colourWords, Leaves (swapWord Char.isAlpha word) front) : Leaves swapPostfix front :=
  (leaves_colours h).comp hbpm

/-! ## Numerals -/

variable {indent whole numeral : List Char}

namespace IsDigits

theorem isDigit (hn : IsDigits numeral) : ∀ c ∈ numeral, Text.isDigit c := fun c hc => isDigit_of_ascii (hn.digit c hc)

/-- A numeral begins with a digit. -/
theorem exists_cons (hn : IsDigits numeral) : ∃ d digits, numeral = d :: digits ∧ d.isDigit := by
  obtain ⟨d, digits, rfl⟩ := List.exists_cons_of_ne_nil hn.ne_nil
  exact ⟨d, digits, rfl, hn.digit d List.mem_cons_self⟩

end IsDigits

theorem isDigit_of_isIndent {c : Char} (h : isIndent c) : isDigit c = false := by
  simp only [isIndent, Bool.or_eq_true, beq_iff_eq] at h
  rcases h with rfl | rfl <;> decide

theorem isAlpha_of_isIndent {c : Char} (h : isIndent c) : c.isAlpha = false := (plain_of_isBlank (isBlank_of_isIndent h)).2.1

/-- A search that does not begin at a point leaves the indentation and the digits in front of the point. -/
theorem leaves_lead (hi : ∀ c ∈ indent, isIndent c) (hw : IsWhole whole)
    {follow? : List Char → Option (List Char × List Char)} {build : (run kept : List Char) → List Char}
    (hf : Follow follow? build) (hpoint : ∀ rest, follow? ('.' :: rest) = none) :
    Leaves (swapRuns isDigit follow? build) (indent ++ whole) := by
  refine (leaves_front fun c hc => isDigit_of_isIndent (hi c hc)).append ?_
  rcases hw with rfl | ⟨digits, hd, rfl⟩
  · exact fun _ => rfl
  · exact leaves_word hf (fun c hc => isDigit_of_ascii (hd c hc)) (List.cons_ne_nil _ _) (by decide) hpoint

theorem leaves_lead_colour (hi : ∀ c ∈ indent, isIndent c) (hw : IsWhole whole) (word : List Char) :
    Leaves (swapWord Char.isAlpha word) (indent ++ whole) := by
  refine leaves_front fun c hc => ?_
  rcases List.mem_append.1 hc with hc | hc
  · exact isAlpha_of_isIndent (hi c hc)
  · rcases hw with rfl | ⟨digits, hd, rfl⟩
    · cases hc
    · rcases List.mem_append.1 hc with hc | hc
      · exact not_isAlpha_of_isDigit (hd c hc)
      · rw [List.mem_singleton.1 hc]
        decide

/-- A word in front of a numeral is no colour. -/
theorem leaves_command (hn : IsDigits numeral) {command : List Char} (hc : ∀ c ∈ command, c.isAlpha) {stop : List Char}
    (hstop : ∀ c ∈ stop, c.isAlpha = false) {word : List Char} (hw : word ∈ colourWords) :
    Leaves (swapWord Char.isAlpha word) (command ++ ' ' :: (numeral ++ stop)) := by
  refine leaves_word (colour_follow hw) hc (List.cons_ne_nil _ _) ?_ fun rest => ?_
  · simp only [List.forall_mem_cons, List.forall_mem_append]
    exact ⟨by decide, hn.not_isAlpha, hstop⟩
  · obtain ⟨d, digits, rfl, hd⟩ := hn.exists_cons
    exact spacedWord?_colour hw (digit_notMem hd (by decide)) _

/-! ## Beats -/

section

variable {blanks : List Char}

theorem not_isDigit_of_isBlank {c : Char} (h : isBlank c) : isDigit c = false := by
  by_contra hd
  have hblank := isBlank_of_isDigit (Bool.eq_true_of_not_eq_false hd)
  rw [h] at hblank
  cases hblank

theorem notMem_blanks (hb : ∀ c ∈ blanks, isBlank c) {d : Char} (hd : isBlank d = false) : d ∉ blanks := fun hm => by
  rw [hb d hm] at hd
  cases hd

/-- No word follows a numeral at the end of a line. -/
theorem swapRuns_bpm (hi : ∀ c ∈ indent, isIndent c) (hw : IsWhole whole) (hn : IsDigits numeral)
    (hb : ∀ c ∈ blanks, isBlank c) {follow? : List Char → Option (List Char × List Char)}
    {build : (run kept : List Char) → List Char} (hf : Follow follow? build) (hpoint : ∀ rest, follow? ('.' :: rest) = none)
    (hnone : follow? blanks = none) :
    swapRuns isDigit follow? build (indent ++ whole ++ ("bpm ".toList ++ (numeral ++ blanks))) =
      indent ++ whole ++ ("bpm ".toList ++ (numeral ++ blanks)) := by
  have hword : ∀ c ∈ "bpm ".toList, isDigit c = false := by decide
  have hdigit : ∀ c ∈ blanks, isDigit c = false := fun c hc => not_isDigit_of_isBlank (hb c hc)
  rw [leaves_lead hi hw hf hpoint, leaves_front hword,
    swapRuns_word hf hn.isDigit (fun c hc => hdigit c (List.mem_of_mem_head? hc)) hnone, swapRuns_blanks hdigit]

theorem spacedWord?_bpm (hb : ∀ c ∈ blanks, isBlank c) : spacedWord? "bpm".toList blanks = none :=
  spacedWord?_none (by decide : 'b' ∈ "bpm".toList) (notMem_blanks hb (by decide))

/-- The passes behind the one for beats leave the line. -/
theorem rewritten_of_bpm (hi : ∀ c ∈ indent, isIndent c) (hw : IsWhole whole) (hn : IsDigits numeral)
    (hb : ∀ c ∈ blanks, isBlank c) {cs : List Char}
    (h : swapWord isDigit "bpm".toList cs = indent ++ whole ++ ("bpm ".toList ++ (numeral ++ blanks))) :
    rewritten cs = indent ++ whole ++ ("bpm ".toList ++ (numeral ++ blanks)) := by
  have hletter : ∀ c ∈ blanks, c.isAlpha = false := fun c hc => (plain_of_isBlank (hb c hc)).2.1
  have hcolours : Leaves (fun cs => colourWords.foldl (fun cs word => swapWord Char.isAlpha word cs) cs)
      (indent ++ whole ++ ("bpm".toList ++ ' ' :: (numeral ++ blanks))) :=
    leaves_colours fun word hword => (leaves_lead_colour hi hw word).append (leaves_command hn (by decide) hletter hword)
  have hline : swapPostfix cs = indent ++ whole ++ ("bpm ".toList ++ (numeral ++ blanks)) := by
    have hline := hcolours []
    rw [List.append_nil] at hline
    rw [swapPostfix, h]
    exact hline.trans (List.append_nil _)
  rw [rewritten, hline]
  exact swapRuns_bpm hi hw hn hb timesArrow?_follow (fun _ => rfl) (timesArrow?_none (notMem_blanks hb (by decide)))

/-- A line of beats has the word in front. -/
theorem rewritten_bpm (hi : ∀ c ∈ indent, isIndent c) (hw : IsWhole whole) (hn : IsDigits numeral)
    (hb : ∀ c ∈ blanks, isBlank c) : rewritten (indent ++ whole ++ (numeral ++ (" bpm".toList ++ blanks))) =
      rewritten (indent ++ whole ++ ("bpm ".toList ++ (numeral ++ blanks))) := by
  rw [rewritten_of_bpm hi hw hn hb (swapRuns_bpm hi hw hn hb bpm_follow (fun _ => rfl) (spacedWord?_bpm hb))]
  refine rewritten_of_bpm hi hw hn hb ?_
  obtain ⟨kept, more, hsplit, hfound⟩ : ∃ kept more, blanks = kept ++ more ∧
      spacedWord? "bpm".toList (" bpm".toList ++ blanks) = some (kept, more) := by
    cases blanks with
    | nil => exact ⟨[], [], rfl, rfl⟩
    | cons c blanks => exact ⟨[c], blanks, rfl, if_pos (hb c List.mem_cons_self)⟩
  have hmore : ∀ c ∈ more, isDigit c = false := fun c hc =>
    not_isDigit_of_isBlank (hb c (hsplit ▸ List.mem_append_right kept hc))
  have hspace : (" bpm".toList ++ blanks).head? = some ' ' := rfl
  rw [swapWord, leaves_lead hi hw bpm_follow fun _ => rfl,
    swapRuns_found bpm_follow hn.ne_nil hn.isDigit (by rw [hspace]; simp; decide) hfound, swapRuns_blanks hmore, hsplit]
  simp only [wordFirst, List.append_assoc, List.cons_append]
  rfl

/-- White space stays at the end of a line of code. -/
theorem strippedBehind_blanks {rest : List Char} (hb : ∀ c ∈ rest.takeWhile (· != '\n'), isBlank c) :
    ∃ tail, BehindLine tail ∧ strippedBehind rest = rest.takeWhile (· != '\n') ++ tail := by
  have hticks := (removeTicked_tail (behindLine_dropWhile rest) []).2
  have hstrip := (stripComments_tail hticks (.inl rfl : settled [] ∨ _)).2
  exact ⟨_, hstrip, by rw [strippedBehind, commentTicks_blanks hb, stripComments_line hb]⟩

end

/-! ## Loops -/

/-- Neither of the two passes that look for the word of beats or of colours finds one. -/
theorem swapPostfix_times (hi : ∀ c ∈ indent, isIndent c) (hw : IsWhole whole) (hn : IsDigits numeral) :
    Leaves swapPostfix (indent ++ whole ++ (numeral ++ " times ->".toList)) := by
  refine leaves_swapPostfix ?_ fun word hword => ?_
  · exact (leaves_lead hi hw bpm_follow fun _ => rfl).append
      (leaves_word bpm_follow hn.isDigit (by decide) (by decide) fun _ => rfl)
  · have hnumeral : ∀ c ∈ numeral ++ [' '], c.isAlpha = false := by
      simp only [List.forall_mem_append, List.forall_mem_singleton]
      exact ⟨hn.not_isAlpha, by decide⟩
    have hsplit : numeral ++ " times ->".toList = numeral ++ [' '] ++ ("times".toList ++ " ->".toList) := by
      rw [List.append_assoc]
      rfl
    rw [hsplit]
    exact (leaves_lead_colour hi hw word).append ((leaves_front hnumeral).append
      (leaves_word (colour_follow hword) (by decide) (by decide) (by decide) fun rest =>
        @spacedWord?_colour _ hword '-' (by decide) ('>' :: rest)))

theorem timesArrow?_times (rest : List Char) : timesArrow? (" times ->".toList ++ rest) = some ([], rest) := rfl

theorem repeatFirst_eq (numeral kept : List Char) : repeatFirst numeral kept = [';'] ++ repeatHead numeral :=
  List.append_assoc _ _ _

theorem desugarTimes_times (hi : ∀ c ∈ indent, isIndent c) (hw : IsWhole whole) (hn : IsDigits numeral) (rest : List Char) :
    desugarTimes (indent ++ whole ++ (numeral ++ " times ->".toList) ++ rest) =
      indent ++ whole ++ ([';'] ++ repeatHead numeral) ++ desugarTimes rest := by
  have hlead : Leaves desugarTimes (indent ++ whole) := leaves_lead hi hw timesArrow?_follow fun _ => rfl
  have hspace : ∀ c ∈ (" times ->".toList ++ rest).head?, isDigit c = false := by
    have hhead : (" times ->".toList ++ rest).head? = some ' ' := rfl
    rw [hhead]
    simp only [Option.mem_def, Option.some.injEq, forall_eq']
    decide
  have hrun : desugarTimes (numeral ++ (" times ->".toList ++ rest)) = repeatFirst numeral [] ++ desugarTimes rest :=
    swapRuns_found timesArrow?_follow hn.ne_nil hn.isDigit hspace (timesArrow?_times rest)
  rw [List.append_assoc, List.append_assoc numeral, hlead, hrun, repeatFirst_eq, List.append_assoc (indent ++ whole)]

theorem repeatHead_eq (numeral : List Char) : repeatHead numeral = "repeat ".toList ++ (numeral ++ " ->".toList) := rfl

/-- A loop with its word in front stays. -/
theorem leaves_repeat (hi : ∀ c ∈ indent, isIndent c) (hw : IsWhole whole) (hn : IsDigits numeral) {semicolon : List Char}
    (hs : semicolon = [] ∨ semicolon = [';']) : Leaves rewritten (indent ++ whole ++ (semicolon ++ repeatHead numeral)) := by
  have hdigit : ∀ c ∈ semicolon ++ "repeat ".toList, isDigit c = false := by
    rcases hs with rfl | rfl <;> decide
  have hletter : ∀ c ∈ semicolon, c.isAlpha = false := by
    rcases hs with rfl | rfl <;> decide
  have hdigits : ∀ {follow? build}, Follow follow? build → (∀ rest, follow? ('.' :: rest) = none) →
      (∀ rest, follow? (" ->".toList ++ rest) = none) →
        Leaves (swapRuns isDigit follow? build) (indent ++ whole ++ (semicolon ++ repeatHead numeral)) := by
    intro follow? build hf hpoint harrow
    rw [repeatHead_eq, ← List.append_assoc semicolon]
    exact (leaves_lead hi hw hf hpoint).append ((leaves_front hdigit).append
      (leaves_word hf hn.isDigit (by decide) (by decide) harrow))
  have hcolours : ∀ word ∈ colourWords,
      Leaves (swapWord Char.isAlpha word) (indent ++ whole ++ (semicolon ++ repeatHead numeral)) := fun word hword =>
    (leaves_lead_colour hi hw word).append ((leaves_front hletter).append
      (leaves_command hn (by decide) (by decide) hword))
  exact (hdigits timesArrow?_follow (fun _ => rfl) fun _ => rfl).comp
    (leaves_swapPostfix (hdigits bpm_follow (fun _ => rfl) fun _ => rfl) hcolours)

/-- A counted loop is rewritten like one with its word in front, behind a semicolon. -/
theorem rewritten_times (hi : ∀ c ∈ indent, isIndent c) (hw : IsWhole whole) (hn : IsDigits numeral) (rest : List Char) :
    rewritten (indent ++ whole ++ (numeral ++ " times ->".toList) ++ rest) =
      rewritten (indent ++ whole ++ ([';'] ++ repeatHead numeral) ++ rest) := by
  rw [leaves_repeat hi hw hn (.inr rfl), rewritten, swapPostfix_times hi hw hn, desugarTimes_times hi hw hn]
  rfl

/-! ## Sketches -/

/-- Words and a numeral on one line are code. -/
theorem plainCode_lead (hi : ∀ c ∈ indent, isIndent c) (hw : IsWhole whole) (hn : IsDigits numeral) {word back : List Char}
    (hword : ∀ c ∈ word, c ∉ '\n' :: '*' :: marks) (hback : ∀ c ∈ back, c ∉ '\n' :: '*' :: marks) :
    PlainCode (indent ++ whole ++ (word ++ (numeral ++ back))) where
  visible := by
    obtain ⟨d, digits, rfl, hd⟩ := hn.exists_cons
    refine ⟨d, by simp, ?_⟩
    by_contra hindent
    have hdigit := isDigit_of_isIndent (Bool.eq_true_of_not_eq_false hindent)
    rw [isDigit_of_ascii hd] at hdigit
    cases hdigit
  plain := by
    have hdigits : ∀ {digits : List Char}, (∀ c ∈ digits, c.isDigit) → ∀ c ∈ digits, c ∉ '\n' :: '*' :: marks :=
      fun hd c hc => digit_notMem (hd c hc) (by decide)
    have hindent : ∀ c ∈ indent, c ∉ '\n' :: '*' :: marks := fun c hc hm => by
      have hnone : ('\n' :: '*' :: marks).all fun d => !isIndent d := by decide
      have hfound := List.all_eq_true.1 hnone c hm
      rw [hi c hc] at hfound
      cases hfound
    have hwhole : ∀ c ∈ whole, c ∉ '\n' :: '*' :: marks := by
      rcases hw with rfl | ⟨digits, hd, rfl⟩
      · simp
      · simp only [List.forall_mem_append, List.forall_mem_singleton]
        exact ⟨hdigits hd, by decide⟩
    simp only [List.forall_mem_append]
    exact ⟨⟨hindent, hwhole⟩, hword, hdigits hn.digit, hback⟩

/-- The lines of a sketch with a semicolon in front of the loop at the start of one of them. -/
theorem semicoloned_repeat {front : List Char} (hb : AtLineStart front) (hi : ∀ c ∈ indent, isIndent c)
    (hn : IsDigits numeral) (body : List Char) :
    Semicoloned (.loops fun _ => 0) 0 numeral (splitLines (front ++ (indent ++ (repeatHead numeral ++ body))))
      (splitLines (front ++ (indent ++ ';' :: (repeatHead numeral ++ body)))) := by
  have hhere : Semicoloned (.loops fun _ => 0) 0 numeral (splitLines (indent ++ (repeatHead numeral ++ body)))
      (splitLines (indent ++ ';' :: (repeatHead numeral ++ body))) := by
    have hindent : '\n' ∉ indent := fun hm => by cases hi _ hm
    have hhead : '\n' ∉ repeatHead numeral := fun hm => (plain_repeatHead hn _ hm).2.2 rfl
    obtain ⟨lines, hlines⟩ := splitLines_eq_cons body
    have hline := @splitLines_prepend (indent ++ repeatHead numeral) _ _ _ (by simp [hindent, hhead]) hlines
    have hline' := @splitLines_prepend (indent ++ ';' :: repeatHead numeral) _ _ _ (by simp [hindent, hhead]) hlines
    simp only [List.append_assoc, List.cons_append] at hline hline'
    rw [hline, hline']
    exact .here hi
  rcases hb with rfl | ⟨above, rfl⟩
  · exact hhere
  · rw [List.append_assoc, List.append_assoc, List.singleton_append, List.singleton_append, splitLines_append_newline,
      splitLines_append_newline]
    induction splitLines above with
    | nil => exact hhere
    | cons line lines ih => exact .line ih

section

variable {before : List Char}

theorem plainCode_repeat (hi : ∀ c ∈ indent, isIndent c) (hw : IsWhole whole) (hn : IsDigits numeral) {semicolon : List Char}
    (hs : semicolon = [] ∨ semicolon = [';']) : PlainCode (indent ++ whole ++ (semicolon ++ repeatHead numeral)) := by
  have hword : ∀ c ∈ semicolon ++ "repeat ".toList, c ∉ '\n' :: '*' :: marks := by
    rcases hs with rfl | rfl <;> decide
  rw [repeatHead_eq, ← List.append_assoc semicolon]
  exact plainCode_lead hi hw hn hword (by decide)

/-- A semicolon in front of a loop at the start of a line does not change what a sketch does. -/
theorem ofSketch_repeat (hb : AtLineStart before) (hi : ∀ c ∈ indent, isIndent c) (hn : IsDigits numeral) (rest : List Char)
    (r : Option Routine) :
    Routine.ofSketch (before ++ (indent ++ [] ++ ([';'] ++ repeatHead numeral) ++ rest)) = .ok r ↔
      Routine.ofSketch (before ++ (indent ++ [] ++ ([] ++ repeatHead numeral) ++ rest)) = .ok r := by
  have hcode := plainCode_repeat hi (.inl rfl) hn (.inl rfl)
  have hcode' := plainCode_repeat hi (.inl rfl) hn (.inr rfl)
  have hpaired := paired_code hb rest hcode hcode'
  rcases prepare_code hb rest with ⟨front, hfront, hprepare⟩ | ⟨text, hprepare⟩
  · have hlines := semicoloned_repeat hfront hi hn (rewritten (strippedBehind rest))
    have hprepared : Semicoloned (.loops fun _ => 0) 0 numeral
        (splitLines (prepare (before ++ (indent ++ [] ++ ([] ++ repeatHead numeral) ++ rest))))
        (splitLines (prepare (before ++ (indent ++ [] ++ ([';'] ++ repeatHead numeral) ++ rest)))) := by
      rw [hprepare _ hcode, hprepare _ hcode', leaves_repeat hi (.inl rfl) hn (.inl rfl),
        leaves_repeat hi (.inl rfl) hn (.inr rfl)]
      simpa only [List.append_nil, List.nil_append, List.append_assoc, List.cons_append] using hlines
    exact (ofSketch_semicoloned hn (hcode.ne_nil before rest) (hcode'.ne_nil before rest) hpaired hprepared r).symm
  · rw [ofSketch_congr (hcode.ne_nil before rest) (hcode'.ne_nil before rest) hpaired
      ((hprepare _ hcode').trans (hprepare _ hcode).symm)]

theorem ofSketch_bpm (hb : AtLineStart before) (hi : ∀ c ∈ indent, isIndent c) (hw : IsWhole whole) (hn : IsDigits numeral)
    {rest : List Char} (hrest : ∀ c ∈ rest.takeWhile (· != '\n'), isBlank c) :
    Routine.ofSketch (before ++ (indent ++ whole ++ ([] ++ (numeral ++ " bpm".toList)) ++ rest)) =
      Routine.ofSketch (before ++ (indent ++ whole ++ ("bpm ".toList ++ (numeral ++ [])) ++ rest)) := by
  obtain ⟨tail, htail, hbehind⟩ := strippedBehind_blanks hrest
  refine ofSketch_code hb (plainCode_lead hi hw hn (by decide) (by simp)) (plainCode_lead hi hw hn (by simp) (by decide)) ?_
  have hsplit : ∀ code, rewritten (code ++ strippedBehind rest) =
      rewritten (code ++ rest.takeWhile (· != '\n')) ++ rewritten tail := fun code => by
    rw [hbehind, ← List.append_assoc, (rewritten_leavesBlanks.tail htail _).1]
  have hline := rewritten_bpm hi hw hn hrest
  rw [hsplit, hsplit]
  simp only [List.append_assoc, List.nil_append] at hline ⊢
  rw [hline]

theorem ofSketch_times (hb : AtLineStart before) (hi : ∀ c ∈ indent, isIndent c) (hw : IsWhole whole) (hn : IsDigits numeral)
    (rest : List Char) :
    Routine.ofSketch (before ++ (indent ++ whole ++ ([] ++ (numeral ++ " times ->".toList)) ++ rest)) =
      Routine.ofSketch (before ++ (indent ++ whole ++ ([';'] ++ repeatHead numeral) ++ rest)) :=
  ofSketch_code hb (plainCode_repeat hi hw hn (.inr rfl)) (plainCode_lead hi hw hn (by simp) (by decide))
    (rewritten_times hi hw hn _)

/-- A line with digits in front of their word does what it does with the word in front. If a point stands in front of the
digits, the word goes between the two. -/
theorem ofSketch_numeric {rest : List Char} (hb : AtLineStart before) (hi : ∀ c ∈ indent, isIndent c)
    (hw : IsWhole whole) (hn : IsDigits numeral) :
    ((∀ c ∈ rest.takeWhile (· != '\n'), isBlank c) →
      Routine.ofSketch (before ++ (indent ++ (whole ++ (numeral ++ (" bpm".toList ++ rest))))) =
        Routine.ofSketch (before ++ (indent ++ (whole ++ ("bpm ".toList ++ (numeral ++ rest)))))) ∧
    Routine.ofSketch (before ++ (indent ++ (whole ++ (numeral ++ (" times ->".toList ++ rest))))) =
      Routine.ofSketch (before ++ (indent ++ (whole ++ (";repeat ".toList ++ (numeral ++ (" ->".toList ++ rest)))))) ∧
    ∀ r, Routine.ofSketch (before ++ (indent ++ (numeral ++ (" times ->".toList ++ rest)))) = .ok r ↔
      Routine.ofSketch (before ++ (indent ++ ("repeat ".toList ++ (numeral ++ (" ->".toList ++ rest))))) = .ok r := by
  have hbpm : (∀ c ∈ rest.takeWhile (· != '\n'), isBlank c) → _ := ofSketch_bpm hb hi hw hn
  have htimes := ofSketch_times hb hi hw hn rest
  have htimes' := ofSketch_times hb hi (.inl rfl) hn rest
  have hrepeat := ofSketch_repeat hb hi hn rest
  rw [← htimes'] at hrepeat
  simp only [repeatHead_eq, List.append_assoc, List.nil_append, List.append_nil] at hbpm htimes hrepeat
  exact ⟨hbpm, htimes, hrepeat⟩

theorem ofSketch_numeric_nested :
    Routine.ofSketch "doOnce ->\n\t60 bpm\nbox".toList = Routine.ofSketch "doOnce ->\n\tbpm 60\nbox".toList ∧
    Routine.ofSketch "ball\n1.5 times -> box".toList = Routine.ofSketch "ball\n1.;repeat 5 -> box".toList ∧
    (∀ r, Routine.ofSketch "peg\n3 times ->\n\tbox 2\nball".toList = .ok r ↔
      Routine.ofSketch "peg\nrepeat 3 ->\n\tbox 2\nball".toList = .ok r) ∧
    (Routine.ofSketch "peg\nrepeat 3 ->\n\tbox 2\nball".toList).isOk := by
  have hsixty : IsDigits "60".toList := ⟨by decide, by decide⟩
  have hfive : IsDigits "5".toList := ⟨by decide, by decide⟩
  have hthree : IsDigits "3".toList := ⟨by decide, by decide⟩
  have hbpm := (@ofSketch_numeric "\t".toList [] "60".toList "doOnce ->\n".toList "\nbox".toList
    (.inr ⟨"doOnce ->".toList, rfl⟩) (by decide) (.inl rfl) hsixty).1 (by decide)
  have hfraction := (@ofSketch_numeric [] "1.".toList "5".toList "ball\n".toList " box".toList
    (.inr ⟨"ball".toList, rfl⟩) (by decide) (.inr ⟨"1".toList, by decide, rfl⟩) hfive).2.1
  have htimes := (@ofSketch_numeric [] [] "3".toList "peg\n".toList "\n\tbox 2\nball".toList
    (.inr ⟨"peg".toList, rfl⟩) (by decide) (.inl rfl) hthree).2.2
  exact ⟨hbpm, hfraction, htimes, by decide +kernel⟩

/-- The constants of the statements of a program, those of the counts of loops included. -/
def constants (p : Program) : List (List (Value Float)) :=
  p.body.map fun
    | .eval code | .loop code _ => code.consts
    | _ => []

/-- In front of a word, the digits before the point of a numeral are cut off. -/
theorem ofSketch_numeric_fraction :
    (lex "1.5".toList).toOption.map (·.map Token.kind) = some [.number 1.5, .newline, .eof] ∧
    ((Routine.ofSketch "1.5 bpm".toList).toOption.map (constants ∘ programOf) = some [[.number 1], [.number 5]] ∧
      (Routine.ofSketch "bpm 1.5".toList).toOption.map (constants ∘ programOf) = some [[.number 1.5]]) ∧
    ((Routine.ofSketch "1.5 times -> box".toList).toOption.map (constants ∘ programOf) = some [[.number 1], [.number 5]] ∧
      (Routine.ofSketch "repeat 1.5 -> box".toList).toOption.map (constants ∘ programOf) = some [[.number 1.5]]) ∧
    (Routine.ofSketch ".5 bpm".toList).isOk = false ∧ (Routine.ofSketch "bpm .5".toList).isOk := by
  refine ⟨?_, ⟨?_, ?_⟩, ⟨?_, ?_⟩, ?_, ?_⟩ <;> decide +kernel

end

end LiveSketch.Sketch

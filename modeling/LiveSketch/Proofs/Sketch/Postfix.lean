import LiveSketch.Proofs.Text.Lines
import LiveSketch.Script.Lexer
import LiveSketch.Sketch.Postfix

/-!
# Words in front of their operands, line by line

Putting words in front of their operands keeps to the lines of a text (`swapPostfix_lineByLine`,
`desugarTimes_lineByLine`) and adds no characters but those of the words (`mem_swapRuns`). Both come from
`Follow`, which is what the two searches for a word have in common.
-/
namespace LiveSketch.Sketch

open Text
open Script.Lexer (isIndent)

/-- A search for what follows a run finds it at the front of the text, and on one line unless the newline
itself is the white space behind the word. -/
structure Follow (follow? : List Char → Option (List Char × List Char))
    (build : (run kept : List Char) → List Char) : Prop where
  found : ∀ {cs kept rest}, follow? cs = some (kept, rest) → ∃ front, cs = front ++ (kept ++ rest)
  newline : ∀ as bs, follow? (as ++ '\n' :: bs) =
      (follow? as).map (fun found => (found.1, found.2 ++ '\n' :: bs)) ∨
    (follow? as = some ([], []) ∧ follow? (as ++ '\n' :: bs) = some (['\n'], bs) ∧
      ∀ run, build run ['\n'] = build run [] ++ ['\n'])
  build_newline : ∀ {run kept}, '\n' ∈ build run kept → '\n' ∈ run ∨ '\n' ∈ kept

section

variable {isOperand : Char → Bool} {follow? : List Char → Option (List Char × List Char)}
  {build : (run kept : List Char) → List Char}

/-! ## One step -/

theorem dropWhile_length {c : Char} (hc : isOperand c) (cs : List Char) :
    ((c :: cs).dropWhile isOperand).length ≤ cs.length := by
  rw [List.dropWhile_cons_of_pos hc]
  exact (List.dropWhile_sublist _).length_le

theorem swapRunsWithin_eq (h : Follow follow? build) {fuel fuel' : Nat} {cs : List Char}
    (hf : cs.length ≤ fuel) (hf' : cs.length ≤ fuel') :
    swapRunsWithin isOperand follow? build fuel cs =
      swapRunsWithin isOperand follow? build fuel' cs := by
  induction fuel generalizing fuel' cs with
  | zero =>
    obtain rfl := List.length_eq_zero_iff.1 (Nat.le_zero.1 hf)
    cases fuel' <;> rfl
  | succ fuel ih =>
    cases cs with
    | nil => cases fuel' <;> rfl
    | cons c cs =>
      rw [List.length_cons] at hf hf'
      obtain ⟨fuel', rfl⟩ : ∃ n, fuel' = n + 1 := ⟨fuel' - 1, by omega⟩
      unfold swapRunsWithin
      split
      · rename_i hc
        have hl := dropWhile_length hc cs
        cases hfound : follow? ((c :: cs).dropWhile isOperand) with
        | none =>
          simp only [hfound]
          rw [@ih fuel' _ (Nat.le_trans hl (by omega)) (Nat.le_trans hl (by omega))]
        | some found =>
          obtain ⟨kept, rest⟩ := found
          obtain ⟨front, he⟩ := h.found hfound
          have hrest : rest.length ≤ cs.length := by
            rw [he] at hl
            simp only [List.length_append] at hl
            omega
          simp only [hfound]
          rw [@ih fuel' rest (by omega) (by omega)]
      · rw [@ih fuel' cs (by omega) (by omega)]

theorem swapRuns_of_not {c : Char} (hc : isOperand c = false) (cs : List Char) :
    swapRuns isOperand follow? build (c :: cs) = c :: swapRuns isOperand follow? build cs := by
  simp [swapRuns, swapRunsWithin, hc]

theorem swapRuns_of_none (h : Follow follow? build) {c : Char} {cs : List Char} (hc : isOperand c)
    (hf : follow? ((c :: cs).dropWhile isOperand) = none) :
    swapRuns isOperand follow? build (c :: cs) = (c :: cs).takeWhile isOperand ++
      swapRuns isOperand follow? build ((c :: cs).dropWhile isOperand) := by
  rw [swapRuns, List.length_cons, swapRunsWithin, if_pos hc]
  simp only [hf]
  rw [swapRunsWithin_eq h (dropWhile_length hc cs) (Nat.le_refl _), swapRuns]

theorem swapRuns_of_some (h : Follow follow? build) {c : Char} {cs kept rest : List Char}
    (hc : isOperand c) (hf : follow? ((c :: cs).dropWhile isOperand) = some (kept, rest)) :
    swapRuns isOperand follow? build (c :: cs) =
      build ((c :: cs).takeWhile isOperand) kept ++ swapRuns isOperand follow? build rest := by
  obtain ⟨front, he⟩ := h.found hf
  have hl := dropWhile_length hc cs
  have hrest : rest.length ≤ cs.length := by
    rw [he] at hl
    simp only [List.length_append] at hl
    omega
  rw [swapRuns, List.length_cons, swapRunsWithin, if_pos hc]
  simp only [hf]
  rw [swapRunsWithin_eq h hrest (Nat.le_refl _), swapRuns]

/-! ## Characters and lines -/

/-- Only building the runs anew can add a character. -/
theorem mem_swapRuns (h : Follow follow? build) {c : Char}
    (hb : ∀ run kept, c ∈ build run kept → c ∈ run ∨ c ∈ kept) {cs : List Char}
    (hc : c ∈ swapRuns isOperand follow? build cs) : c ∈ cs := by
  generalize hn : cs.length = n
  induction n using Nat.strongRecOn generalizing cs with
  | ind n ih =>
    cases cs with
    | nil => exact hc
    | cons d ds =>
      rw [List.length_cons] at hn
      cases hd : isOperand d with
      | false =>
        rw [swapRuns_of_not hd, List.mem_cons] at hc
        exact hc.elim (fun e => e ▸ List.mem_cons_self) fun m =>
          List.mem_cons_of_mem _ (ih _ (by omega) m rfl)
      | true =>
        have hl := dropWhile_length hd ds
        have hsplit := List.takeWhile_append_dropWhile (p := isOperand) (l := d :: ds)
        cases hf : follow? ((d :: ds).dropWhile isOperand) with
        | none =>
          rw [swapRuns_of_none h hd hf] at hc
          rw [← hsplit]
          exact List.mem_append.2 ((List.mem_append.1 hc).imp_right fun m => ih _ (by omega) m rfl)
        | some found =>
          obtain ⟨kept, rest⟩ := found
          obtain ⟨front, he⟩ := h.found hf
          have hrest : rest.length ≤ ds.length := by
            rw [he] at hl
            simp only [List.length_append] at hl
            omega
          rw [swapRuns_of_some h hd hf, List.mem_append] at hc
          rw [← hsplit, he]
          simp only [List.mem_append]
          rcases hc with hc | hc
          · exact (hb _ _ hc).imp_right fun m => .inr (.inl m)
          · exact .inr (.inr (.inr (ih _ (by omega) hc rfl)))

/-- A run does not cross a character that is not in it. -/
theorem takeWhile_stop {c : Char} (hc : isOperand c = false) (as bs : List Char) :
    (as ++ c :: bs).takeWhile isOperand = as.takeWhile isOperand ∧
      (as ++ c :: bs).dropWhile isOperand = as.dropWhile isOperand ++ c :: bs := by
  induction as with
  | nil => simp [hc]
  | cons c cs ih => cases hc : isOperand c <;> simp [hc, ih]

/-- In front of a character, and of `bs` behind it, the search finds what it finds at the end of a text, or the
character is the white space behind the word. -/
def Ends (follow? : List Char → Option (List Char × List Char)) (build : (run kept : List Char) → List Char) (c : Char)
    (bs : List Char) : Prop :=
  ∀ as, follow? (as ++ c :: bs) = (follow? as).map (fun found => (found.1, found.2 ++ c :: bs)) ∨
    (follow? as = some ([], []) ∧ follow? (as ++ c :: bs) = some ([c], bs) ∧
      ∀ run, build run [c] = build run [] ++ [c])

/-- What becomes of a text in front of such a character does not hang on what follows. -/
theorem swapRuns_ends (h : Follow follow? build) {c : Char} (hc : isOperand c = false) {bs : List Char}
    (hend : Ends follow? build c bs) (as : List Char) : swapRuns isOperand follow? build (as ++ c :: bs) =
      swapRuns isOperand follow? build as ++ c :: swapRuns isOperand follow? build bs := by
  generalize hl : as.length = n
  induction n using Nat.strongRecOn generalizing as with
  | ind n ih =>
    cases as with
    | nil => exact swapRuns_of_not hc bs
    | cons d cs =>
      rw [List.length_cons] at hl
      cases hd : isOperand d with
      | false =>
        rw [List.cons_append, swapRuns_of_not hd, swapRuns_of_not hd, ih _ (by omega) cs rfl, List.cons_append]
      | true =>
        obtain ⟨ht, hdrop⟩ := takeWhile_stop hc (d :: cs) bs
        rw [List.cons_append] at ht hdrop ⊢
        have hlength := dropWhile_length hd cs
        have hnext := hend ((d :: cs).dropWhile isOperand)
        rw [← hdrop] at hnext
        cases hf : follow? ((d :: cs).dropWhile isOperand) with
        | none =>
          rw [hf] at hnext
          obtain hf' | ⟨hf', -⟩ := hnext
          · rw [swapRuns_of_none h hd hf, swapRuns_of_none h hd hf', ht, hdrop, ih _ (by omega) _ rfl,
              List.append_assoc]
          · cases hf'
        | some found =>
          obtain ⟨kept, rest⟩ := found
          obtain ⟨front, he⟩ := h.found hf
          have hrest : rest.length ≤ cs.length := by
            rw [he] at hlength
            simp only [List.length_append] at hlength
            omega
          simp only [hf, Option.map_some] at hnext
          rw [swapRuns_of_some h hd hf]
          rcases hnext with hf' | ⟨hnil, hf', hb⟩
          · rw [swapRuns_of_some h hd hf', ht, ih _ (by omega) _ rfl, List.append_assoc]
          · cases hnil
            rw [swapRuns_of_some h hd hf', ht, hb]
            simp [swapRuns, swapRunsWithin]

theorem swapRuns_lineByLine (hn : isOperand '\n' = false) (h : Follow follow? build) :
    LineByLine (swapRuns isOperand follow? build) where
  newline as bs := swapRuns_ends h hn (fun as => h.newline as bs) as
  notMem _ hline := mt (mem_swapRuns h fun _ _ => h.build_newline) hline

end

/-! ## The words -/

theorem skipSpaces_stop {c : Char} (hc : c ≠ ' ') (as bs : List Char) :
    skipSpaces (as ++ c :: bs) = skipSpaces as ++ c :: bs :=
  (takeWhile_stop (by simpa using hc) as bs).2

/-- A word is found before a character that it does not have or not at all. -/
theorem after?_stop {word : List Char} {c : Char} (hw : c ∉ word) (as bs : List Char) :
    after? word (as ++ c :: bs) = (after? word as).map (· ++ c :: bs) := by
  induction word generalizing as with
  | nil => rfl
  | cons w word ih =>
    rw [List.mem_cons, not_or] at hw
    cases as with
    | nil => simp [after?, Ne.symm hw.1]
    | cons a as =>
      by_cases ha : w = a
      · simp [after?, ha, ih hw.2]
      · simp [after?, ha]

theorem skipSpaces_append (cs : List Char) : ∃ spaces, cs = spaces ++ skipSpaces cs :=
  ⟨_, (List.takeWhile_append_dropWhile (p := (· == ' ')) (l := cs)).symm⟩

theorem spacedWord?_follow {word : List Char} (hw : '\n' ∉ word) :
    Follow (spacedWord? word) (wordFirst word) where
  found := by
    intro cs kept rest h
    simp only [spacedWord?, Option.bind_eq_bind, Option.bind_eq_some_iff, after?_eq_some] at h
    obtain ⟨cs, rfl, tail, hs, ht⟩ := h
    obtain ⟨spaces, hc⟩ := skipSpaces_append cs
    have htail : tail = kept ++ rest := by
      split at ht
      · cases ht
        rfl
      · split at ht
        · cases ht
          rfl
        · cases ht
    refine ⟨' ' :: spaces ++ word, ?_⟩
    rw [hc, hs, htail]
    simp
  newline := by
    intro as bs
    have hspace := after?_stop (by decide : '\n' ∉ [' ']) as bs
    unfold spacedWord?
    rw [hspace]
    cases ha : after? [' '] as with
    | none => exact .inl rfl
    | some cs =>
      have hword := after?_stop hw (skipSpaces cs) bs
      rw [← skipSpaces_stop (by decide)] at hword
      cases hc : after? word (skipSpaces cs) with
      | none => exact .inl (by simp [hword, hc])
      | some tail =>
        cases tail with
        | nil => exact .inr ⟨by simp [hc], by simp [hword, hc]; rfl, fun run => by simp [wordFirst]⟩
        | cons c tail =>
          refine .inl ?_
          cases hb : isBlank c <;> simp [hword, hc, hb]
  build_newline := by
    intro run kept h
    simpa [wordFirst, hw] using h

theorem timesArrow?_cons (c : Char) (cs : List Char) :
    timesArrow? (c :: cs) = if isIndent c then
      (after? "times".toList (cs.dropWhile isIndent)).bind fun rest =>
        (after? "->".toList (skipSpaces rest)).map (Prod.mk [])
      else none := by
  by_cases hc : isIndent c
  · refine (if_pos hc).trans ?_
    rw [if_pos hc, Option.bind_eq_bind]
    congr 1
    funext rest
    cases after? "->".toList (skipSpaces rest) <;> rfl
  · exact (if_neg hc).trans (if_neg hc).symm

theorem timesArrow?_follow : Follow timesArrow? repeatFirst where
  found := by
    intro cs kept rest h
    cases cs with
    | nil => cases h
    | cons c cs =>
      rw [timesArrow?_cons] at h
      split at h
      · obtain ⟨tail, ht, hr⟩ := Option.bind_eq_some_iff.1 h
        obtain ⟨rest', ha, he⟩ := Option.map_eq_some_iff.1 hr
        cases he
        obtain ⟨spaces, hs⟩ := skipSpaces_append tail
        rw [after?_eq_some] at ht ha
        refine ⟨c :: cs.takeWhile isIndent ++ "times".toList ++ spaces ++ "->".toList, ?_⟩
        conv => lhs; rw [← List.takeWhile_append_dropWhile (p := isIndent) (l := cs), ht, hs, ha]
        simp only [List.cons_append, List.append_assoc, List.nil_append]
      · cases h
  newline := by
    intro as bs
    refine .inl ?_
    cases as with
    | nil => rfl
    | cons c cs =>
      have hgap := (takeWhile_stop (rfl : isIndent '\n' = false) cs bs).2
      have htimes := after?_stop (by decide : '\n' ∉ "times".toList) (cs.dropWhile isIndent) bs
      rw [← hgap] at htimes
      rw [List.cons_append, timesArrow?_cons, timesArrow?_cons, htimes]
      split
      · cases after? "times".toList (cs.dropWhile isIndent) with
        | none => rfl
        | some tail =>
          have harrow := after?_stop (by decide : '\n' ∉ "->".toList) (skipSpaces tail) bs
          rw [← skipSpaces_stop (by decide)] at harrow
          simp only [Option.map_some, Option.bind_some, harrow, Option.map_map]
          rfl
      · rfl
  build_newline := by
    intro run kept h
    have hfront : '\n' ∉ ";repeat ".toList := by decide
    have hback : '\n' ∉ " ->".toList := by decide
    have hb : '\n' ∈ (";repeat ".toList ++ run) ++ " ->".toList := h
    exact .inl ((List.mem_append.1 ((List.mem_append.1 hb).resolve_right hback)).resolve_left hfront)

/-! ## A blank at the end of a line -/

/-- A word is found in front of a character that it does not have, whatever is skipped before. -/
theorem after?_dropWhile_concat {word : List Char} (hne : word ≠ []) {c : Char} (hc : c ∉ word) (p : Char → Bool)
    (cs : List Char) :
    after? word ((cs ++ [c]).dropWhile p) = (after? word (cs.dropWhile p)).map (· ++ [c]) := by
  obtain ⟨w, word, rfl⟩ := List.exists_cons_of_ne_nil hne
  rw [List.dropWhile_append]
  split
  · rename_i hnil
    rw [List.isEmpty_iff.1 hnil, List.dropWhile_cons, List.dropWhile_nil]
    split
    · rfl
    · exact after?_stop hc [] []
  · exact after?_stop hc _ []

/-- White space behind a line is no part of what a search for a word finds on it. -/
theorem spacedWord?_ends {word : List Char} (hne : word ≠ []) {c : Char} (hc : c ∉ word) (hblank : isBlank c) :
    Ends (spacedWord? word) (wordFirst word) c [] := by
  intro as
  cases as with
  | nil =>
    obtain ⟨w, word, rfl⟩ := List.exists_cons_of_ne_nil hne
    by_cases hs : c = ' '
    · exact .inl (by subst hs; rfl)
    · exact .inl (by simp [spacedWord?, after?, Ne.symm hs])
  | cons a as =>
    by_cases ha : a = ' '
    · subst ha
      have hword := after?_dropWhile_concat hne hc (· == ' ') as
      cases hf : after? word (skipSpaces as) with
      | none =>
        rw [skipSpaces] at hf
        exact .inl (by simp [spacedWord?, after?, skipSpaces, hword, hf])
      | some tail =>
        rw [skipSpaces] at hf
        cases tail with
        | nil => exact .inr ⟨by simp [spacedWord?, after?, skipSpaces, hf],
            by simp [spacedWord?, after?, skipSpaces, hword, hf, hblank], fun run => by simp [wordFirst]⟩
        | cons d tail =>
          refine .inl ?_
          cases hd : isBlank d <;> simp [spacedWord?, after?, skipSpaces, hword, hf, hd]
    · exact .inl (by simp [spacedWord?, after?, Ne.symm ha])

theorem timesArrow?_ends {c : Char} (hc : c ∉ "times".toList ∧ c ∉ "->".toList) : Ends timesArrow? repeatFirst c [] := by
  intro as
  refine .inl ?_
  cases as with
  | nil =>
    rw [List.nil_append, timesArrow?_cons]
    split <;> rfl
  | cons a as =>
    rw [List.cons_append, timesArrow?_cons, timesArrow?_cons, after?_dropWhile_concat (by decide) hc.1]
    split
    · cases after? "times".toList (as.dropWhile isIndent) with
      | none => rfl
      | some tail =>
        simp only [Option.map_some, Option.bind_some, skipSpaces, after?_dropWhile_concat (by decide) hc.2,
          Option.map_map]
        rfl
    · rfl

/-! ## The passes -/

theorem swapWord_lineByLine {isOperand : Char → Bool} {word : List Char}
    (hn : isOperand '\n' = false) (hw : '\n' ∉ word) : LineByLine (swapWord isOperand word) :=
  swapRuns_lineByLine hn (spacedWord?_follow hw)

theorem swapPostfix_lineByLine : LineByLine swapPostfix :=
  (swapWord_lineByLine rfl (by decide : '\n' ∉ "background".toList)).comp
    ((swapWord_lineByLine rfl (by decide : '\n' ∉ "stroke".toList)).comp
      ((swapWord_lineByLine rfl (by decide : '\n' ∉ "fill".toList)).comp
        (swapWord_lineByLine rfl (by decide : '\n' ∉ "bpm".toList))))

theorem desugarTimes_lineByLine : LineByLine desugarTimes :=
  swapRuns_lineByLine rfl timesArrow?_follow

theorem mem_swapWord {isOperand : Char → Bool} {word cs : List Char} {c : Char}
    (hw : '\n' ∉ word) (hc : c ∉ ' ' :: word) (h : c ∈ swapWord isOperand word cs) : c ∈ cs := by
  rw [List.mem_cons, not_or] at hc
  refine mem_swapRuns (spacedWord?_follow hw) (fun run kept hb => ?_) h
  simpa [wordFirst, hc.1, hc.2] using hb

/-- No characters are added but those of the words. -/
theorem mem_swapPostfix {cs : List Char} {c : Char} (hc : c ∉ " bpm fill stroke background".toList) (h : c ∈ swapPostfix cs) :
    c ∈ cs := by
  have hword : ∀ word ∈ "bpm".toList :: colourWords, ' ' :: word ⊆ " bpm fill stroke background".toList := by decide
  have hnotMem : ∀ word ∈ "bpm".toList :: colourWords, c ∉ ' ' :: word := fun word hm hd => hc (hword word hm hd)
  simp only [colourWords, List.forall_mem_cons] at hnotMem
  obtain ⟨hbpm, hfill, hstroke, hbackground, -⟩ := hnotMem
  exact mem_swapWord (by decide) hbpm
    (mem_swapWord (by decide) hfill (mem_swapWord (by decide) hstroke (mem_swapWord (by decide) hbackground h)))

theorem mem_desugarTimes {cs : List Char} {c : Char} (hc : c ∉ ";repeat ->".toList) (h : c ∈ desugarTimes cs) : c ∈ cs := by
  refine mem_swapRuns timesArrow?_follow (fun run kept hb => .inl ?_) h
  have hwords : ";repeat ".toList ++ " ->".toList ⊆ ";repeat ->".toList := by decide
  have hfront : c ∉ ";repeat ".toList := fun hm => hc (hwords (List.mem_append_left _ hm))
  have hback : c ∉ " ->".toList := fun hm => hc (hwords (List.mem_append_right _ hm))
  have hb : c ∈ (";repeat ".toList ++ run) ++ " ->".toList := hb
  exact (List.mem_append.1 ((List.mem_append.1 hb).resolve_right hback)).resolve_left hfront

end LiveSketch.Sketch

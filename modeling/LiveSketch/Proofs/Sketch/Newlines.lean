import LiveSketch.Proofs.Sketch.Failures
import LiveSketch.Proofs.Sketch.Statements

/-!
# Every line stays where it is

No pass adds a newline to a text or takes one away (`count_of_mem_passes`), and neither does ticking
(`count_markLines`). So a script is rejected at a line that the sketch has (`passes_keep_newlines`).

Most passes work line by line, and all there is to show of them is that they make no newlines. Comments can
span lines: there each step of `stripComments` is looked at. Instrumenting a text can change the line behind
a header, but gives one line for each. Separating commands puts nothing but semicolons into the text.
-/
namespace LiveSketch.Sketch

open Text

/-! ## Comments -/

/-- What a step keeps and what it leaves to be looked at have the newlines of the text. -/
theorem commentStep_count (c : Char) (cs : List Char) :
    (commentStep c cs).1.count '\n' + (commentStep c cs).2.count '\n' = (c :: cs).count '\n' := by
  have plain : ([c], cs).1.count '\n' + ([c], cs).2.count '\n' = (c :: cs).count '\n' := by
    rw [← List.count_append]
    rfl
  unfold commentStep
  split
  · rename_i literal rest h
    rw [(literal?_eq_some h).1, List.count_append]
  · split
    · rename_i cs _
      simpa using (dropWhile_newline cs []).2
    · rename_i rest _
      cases hc : closeComment? rest with
      | none => exact plain
      | some found =>
        obtain ⟨inside, rfl, hi⟩ := closeComment?_eq_some hc
        rw [Option.getD_some, hi]
        simp [List.count_filter]
    · exact plain

theorem count_stripComments (cs : List Char) : (stripComments cs).count '\n' = cs.count '\n' := by
  generalize hn : cs.length = n
  induction n using Nat.strongRecOn generalizing cs with
  | ind n ih =>
    cases cs with
    | nil => rfl
    | cons c cs =>
      have hl := commentStep_length c cs
      rw [List.length_cons] at hn
      rw [stripComments_cons, List.count_append, ih _ (by omega) _ rfl, commentStep_count]

/-! ## Instrumented lines -/

theorem newline_notMem_report (i : Nat) : '\n' ∉ report i := by
  have hdigits : '\n' ∉ Number.digitsOf i := fun m => by
    cases Number.isDigit_of_mem_digitsOf m
  have hmarker : '\n' ∉ markerWord := by decide
  rw [report_eq]
  simp [hdigits, hmarker]

theorem newline_notMem_reportFirst {mark line : List Char} (hm : '\n' ∉ mark) (hl : '\n' ∉ line) :
    '\n' ∉ reportFirst mark line := by
  unfold reportFirst
  split
  · split
    · exact hl
    · rename_i c hc
      have hdrop : '\n' ∉ line.dropLast := fun m => hl ((List.dropLast_sublist _).subset m)
      have hlast : '\n' ≠ c := fun e => hl (e ▸ List.mem_of_getLast? hc)
      simp [hm, hdrop, hlast]
  · have htake : '\n' ∉ line.takeWhile isBlank := fun m => hl ((List.takeWhile_sublist _).subset m)
    have hrest : '\n' ∉ line.dropWhile isBlank := fun m => hl ((List.dropWhile_sublist _).subset m)
    simp [hm, htake, hrest]

/-- There is one instrumented line for each line, and none of them has a newline. -/
theorem instrumentLines_lines {ls : List (List Char)} {i : Nat} {pending : Option (List Char)}
    (hp : ∀ mark ∈ pending, '\n' ∉ mark) (hl : ∀ line ∈ ls, '\n' ∉ line) :
    (instrumentLines i pending ls).length = ls.length ∧
      ∀ line ∈ instrumentLines i pending ls, '\n' ∉ line := by
  induction ls generalizing i pending with
  | nil => simp [instrumentLines]
  | cons line ls ih =>
    have cons : ∀ {l : List Char} {pending : Option (List Char)}, '\n' ∉ l →
        (∀ mark ∈ pending, '\n' ∉ mark) →
        (l :: instrumentLines (i + 1) pending ls).length = (line :: ls).length ∧
          ∀ m ∈ l :: instrumentLines (i + 1) pending ls, '\n' ∉ m := by
      intro l pending hnot hp
      obtain ⟨hlength, hnots⟩ := ih (i := i + 1) hp fun l hm => hl l (List.mem_cons_of_mem _ hm)
      exact ⟨by simp [hlength], by simpa using ⟨hnot, hnots⟩⟩
    -- a report that is due only changes the line itself
    have step : ∀ l, '\n' ∉ l → (instrumentLines i none (l :: ls)).length = (line :: ls).length ∧
        ∀ m ∈ instrumentLines i none (l :: ls), '\n' ∉ m := by
      intro l hline
      simp only [instrumentLines]
      split
      · rename_i indent h
        obtain ⟨rfl, -⟩ := header?_eq_some h
        have hloop : '\n' ∉ "repeat 1 ->".toList := by decide
        refine cons (fun m => ?_) fun mark hmark => ?_
        · exact (List.mem_append.1 m).elim (fun m => hline ((List.takeWhile_sublist _).subset m)) hloop
        · rw [← Option.some.inj hmark]
          exact newline_notMem_report i
      · rename_i indent c body h
        obtain ⟨rfl, hs⟩ := header?_eq_some h
        split
        · exact cons hline (by simp)
        · have hloop : '\n' ∉ " repeat 1 -> ".toList := by decide
          refine cons ?_ (by simp)
          simp only [List.mem_append, not_or]
          exact ⟨⟨⟨fun m => hline ((List.takeWhile_sublist _).subset m), newline_notMem_report i⟩,
            hloop⟩, fun m => hline (hs.subset m)⟩
      · exact cons hline (by simp)
    have hline := hl line List.mem_cons_self
    cases pending with
    | none => exact step line hline
    | some mark => exact step _ (newline_notMem_reportFirst (hp mark rfl) hline)

theorem count_instrument (cs : List Char) : (instrument cs).count '\n' = cs.count '\n' := by
  unfold instrument
  split
  · have hlines : ∀ line ∈ splitLines cs, '\n' ∉ line := fun line => newline_notMem_of_mem_splitLines
    obtain ⟨hlength, hnot⟩ := instrumentLines_lines (i := 0) (by simp : ∀ mark ∈ none, '\n' ∉ mark) hlines
    have hne : instrumentLines 0 none (splitLines cs) ≠ [] := by
      rw [← List.length_pos_iff, hlength, length_splitLines]
      omega
    have hcount := count_joinLines hne hnot
    rw [hlength, length_splitLines] at hcount
    exact Nat.succ.inj hcount
  · rfl

/-! ## Statements -/

theorem mem_callBareword {statement : List Char} {c : Char} (h : c ∈ callBareword statement) :
    c ∈ statement ∨ c = '(' ∨ c = ')' := by
  unfold callBareword at h
  split at h
  · rw [← trimEnd_append_blankEnd statement]
    simp only [List.mem_append, List.mem_cons, List.not_mem_nil, or_false] at h ⊢
    rcases h with (h | h) | h
    · exact .inl (.inl h)
    · exact .inr h
    · exact .inl (.inr h)
  · exact .inl h

theorem callBarewords_lineByLine : LineByLine callBarewords := by
  refine mapLines_lineByLine fun line hline hm => hline ?_
  obtain ⟨⟨statement, separator⟩, hp, hm⟩ := List.mem_flatMap.1 hm
  rw [← (pieces_text none line).1]
  refine List.mem_flatMap.2 ⟨_, hp, List.mem_append.2 ?_⟩
  refine (List.mem_append.1 hm).imp_left fun hm => ?_
  exact (mem_callBareword hm).resolve_right (by decide)

theorem Separated.count {cs out : List Char} (h : Separated cs out) :
    out.count '\n' = cs.count '\n' := by
  induction h with
  | nil => rfl
  | keep c h ih => rw [List.count_cons, List.count_cons, ih]
  | put hc h ih => rw [List.count_cons, ih]; rfl

/-! ## All passes -/

/-- **No pass moves a line.** -/
theorem count_of_mem_passes {name : String} {pass : Pass} (h : (name, pass) ∈ passes)
    {cs out : List Char} (hout : pass cs = .ok out) : out.count '\n' = cs.count '\n' := by
  simp only [passes, List.mem_cons, List.not_mem_nil, or_false, Prod.mk.injEq] at h
  rcases h with ⟨-, rfl⟩ | ⟨-, rfl⟩ | ⟨-, rfl⟩ | ⟨-, rfl⟩ | ⟨-, rfl⟩ | ⟨-, rfl⟩ | ⟨-, rfl⟩ | ⟨-, rfl⟩
  · cases hout
    exact removeTicked_lineByLine.count cs
  · simp only [checkDelimiters] at hout
    split at hout
    · cases hout
    · cases hout
      exact count_stripComments cs
  · cases hout
    exact swapPostfix_lineByLine.count cs
  · cases hout
    exact desugarTimes_lineByLine.count cs
  · cases hout
    exact count_instrument cs
  · unfold rejectDraw at hout
    split at hout
    · cases hout
    · cases hout
      rfl
  · cases hout
    exact callBarewords_lineByLine.count cs
  · cases hout
    exact (separateWithin_separated (Nat.le_refl _)).count

theorem count_toScript {cs script : List Char} (h : toScript cs = .ok script) :
    script.count '\n' = cs.count '\n' := by
  have hall : ∀ ps : List (String × Pass), (∀ p ∈ ps, p ∈ passes) → ∀ cs script,
      ps.foldlM (fun cs p => p.2 cs) cs = Except.ok (ε := Fault) script →
        script.count '\n' = cs.count '\n' := by
    intro ps
    induction ps with
    | nil =>
      intro _ cs script h
      cases h
      rfl
    | cons p ps ih =>
      intro hps cs script h
      rw [List.foldlM_cons] at h
      obtain ⟨out, hout, h⟩ := bind_eq_ok.1 h
      rw [ih (fun q hq => hps q (List.mem_cons_of_mem _ hq)) out script h]
      exact count_of_mem_passes (hps p List.mem_cons_self) hout
  exact hall passes (fun _ h => h) cs script h

/-- Ticking keeps the lines. -/
theorem count_markLines (numbers : List Nat) (cs : List Char) :
    (markLines numbers cs).count '\n' = cs.count '\n' := by
  have hlength := congrArg List.length (splitLines_markLines numbers cs)
  rw [List.length_mapIdx, length_splitLines, length_splitLines] at hlength
  exact Nat.succ.inj hlength

/-! ## The line of a failure -/

/-- A byte of a text stands on one of its lines. -/
theorem lineAt_le (n : Nat) (cs : List Char) : lineAt n cs ≤ cs.count '\n' + 1 := by
  have hgo : ∀ n, lineAt.go n cs ≤ cs.count '\n' := by
    induction cs with
    | nil => exact fun _ => Nat.le_refl 0
    | cons c cs ih =>
      intro n
      have hrest := ih (n - c.utf8Size)
      rw [lineAt.go, List.count_cons]
      split
      · exact Nat.zero_le _
      · omega
  exact Nat.succ_le_succ (hgo n)

/-- **Every line stays where it is.** A pass that succeeds gives as many newlines as it gets, and so do all
passes together and ticking, whatever the text is. So if the script of a sketch is rejected, the line that
the failure names is one of the sketch. -/
theorem passes_keep_newlines :
    (∀ name pass cs out, (name, pass) ∈ passes → pass cs = .ok out → out.count '\n' = cs.count '\n') ∧
      (∀ cs script, Routine.scriptOf cs = .ok script → script.count '\n' = cs.count '\n') ∧
      (∀ numbers cs, (markLines numbers cs).count '\n' = cs.count '\n') ∧
      ∀ cs failure, Routine.ofSketch cs = .error failure → failure.kind = .script →
        ∃ script e, Routine.scriptOf cs = .ok script ∧ Script.compile script = .error e ∧
          failure = .ofCompile e ∧ 1 ≤ e.line ∧ e.line ≤ (splitLines cs).length := by
  have hscript : ∀ cs script, Routine.scriptOf cs = .ok script →
      script.count '\n' = cs.count '\n' := by
    intro cs script h
    unfold Routine.scriptOf at h
    split at h
    · rename_i hnil
      cases h
      rw [List.isEmpty_iff.1 hnil]
    · exact count_toScript (mapError_eq_ok.1 h)
  refine ⟨fun name pass cs out h => count_of_mem_passes h, hscript, count_markLines, ?_⟩
  intro cs failure h hkind
  have hne : cs ≠ [] := (ofSketch_eq_error_iff.1 h).1
  rcases (ofSketch_eq_error_of_ne hne).1 h with ⟨fault, -, rfl⟩ | ⟨script, e, hs, he, rfl⟩
  · cases hkind
  · obtain ⟨r, rfl, -⟩ := compile_eq_error_iff.1 he
    refine ⟨script, _, hs, he, rfl, Nat.succ_le_succ (Nat.zero_le _), ?_⟩
    rw [length_splitLines, ← hscript cs script hs]
    exact lineAt_le _ script

/-- A comment over two lines, a command after its operand, and a line without code. -/
def misplacedTime : List Char := "/* two\nlines */box\nred fill\ntime = 1".toList

/-- The last of the four lines is named. -/
theorem passes_keep_newlines_misplacedTime :
    Routine.ofSketch misplacedTime = .error ⟨.script, "line 4: cannot assign to 'time'"⟩ ∧
      ∃ script e, Routine.scriptOf misplacedTime = .ok script ∧ script.count '\n' = 3 ∧
        Script.compile script = .error e ∧ 1 ≤ e.line ∧ e.line ≤ 4 := by
  have h : Routine.ofSketch misplacedTime =
      .error ⟨.script, "line 4: cannot assign to 'time'"⟩ := by
    decide +kernel
  obtain ⟨-, hscript, -, herror⟩ := passes_keep_newlines
  obtain ⟨script, e, hs, he, -, h1, hn⟩ := herror _ _ h rfl
  exact ⟨h, script, e, hs, (hscript _ _ hs).trans (by decide), he, h1, hn⟩

end LiveSketch.Sketch


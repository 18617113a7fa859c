import LiveSketch.Proofs.Sketch.CommentFree
import LiveSketch.Proofs.Sketch.Headers
import LiveSketch.Proofs.Sketch.Insertions
import LiveSketch.Proofs.Sketch.Newlines

/-!
# Texts survive

The script of a sketch without comments has the literals of the sketch, each of them with its ticks turned into slashes
and with words put in front of their operands (`strings_toScript`). So a text is the same in the script and in the
sketch unless it holds a tick or looks like an operand with its word. `Clean` is what each pass keeps; the lexer gives
it for the sketch.
-/
namespace LiveSketch.Sketch

open Text Script
open Number (digitsOf)
open Script.Lexer

variable {stops : List Char}

/-! ## Lines of clean texts -/

theorem clean_newline (hstops : '\n' ∉ stops) {as bs : List Char} :
    Clean stops [] (as ++ '\n' :: bs) ↔ Clean stops [] as ∧ Clean stops [] bs := by
  constructor
  · intro h
    generalize hcs : as ++ '\n' :: bs = cs at h
    induction h generalizing as with
    | nil => simp at hcs
    | @char c cs hq hh hs h ih =>
      rcases List.append_eq_cons_iff.1 hcs with ⟨rfl, he⟩ | ⟨as, rfl, rfl⟩
      · obtain ⟨rfl, rfl⟩ := List.cons.inj he
        exact ⟨.nil, h⟩
      · obtain ⟨has, hbs⟩ := ih rfl
        refine ⟨.char hq hh (fun hc d hd => hs hc d ?_) has, hbs⟩
        cases as with
        | nil => cases hd
        | cons a as => exact hd
    | @literal l cs hl h ih =>
      obtain ⟨as, rfl, rfl⟩ := append_eq_append_cons hl.newline_notMem hcs.symm
      obtain ⟨has, hbs⟩ := ih rfl
      exact ⟨.literal hl has, hbs⟩
  · rintro ⟨has, hbs⟩
    have hback : Clean stops [] ('\n' :: bs) := .char rfl (by decide) (by simp) hbs
    refine .append (has.of_head? fun d hd hm => ?_) hback
    obtain rfl : '\n' = d := Option.some.inj hd
    exact absurd hm hstops

/-- A text is clean if its lines are, and it has their literals. -/
theorem clean_joinLines (hstops : '\n' ∉ stops) {lines : List (List Char)} (hne : lines ≠ []) :
    (Clean stops [] (joinLines lines) ↔ ∀ line ∈ lines, Clean stops [] line) ∧
      ((∀ line ∈ lines, Clean stops [] line) → literals (joinLines lines) = lines.flatMap literals) := by
  induction lines with
  | nil => exact absurd rfl hne
  | cons line lines ih =>
    cases lines with
    | nil => exact ⟨by simp [joinLines], fun _ => by simp [joinLines]⟩
    | cons next lines =>
      obtain ⟨hclean, hliterals⟩ := ih (List.cons_ne_nil next lines)
      rw [joinLines_cons (List.cons_ne_nil next lines), clean_newline hstops, hclean, List.forall_mem_cons (a := line)]
      refine ⟨Iff.rfl, fun h => ?_⟩
      rw [h.1.literals_append, literals_of_none (literal?_of_not_quote rfl _), hliterals h.2]
      rfl

theorem clean_splitLines (hstops : '\n' ∉ stops) {cs : List Char} (h : Clean stops [] cs) :
    (∀ line ∈ splitLines cs, Clean stops [] line) ∧ (splitLines cs).flatMap literals = literals cs := by
  obtain ⟨hclean, hliterals⟩ := clean_joinLines hstops (splitLines_ne_nil cs)
  rw [joinLines_splitLines] at hclean hliterals
  exact ⟨hclean.1 h, (hliterals (hclean.1 h)).symm⟩

/-! ## Instrumented lines -/

theorem isCode_of_isBlank {c : Char} (h : isBlank c) : isCode c := isCode_of (by decide) h

theorem isCode_report (i : Nat) : ∀ c ∈ report i, isCode c := by
  have hdigits : ∀ c ∈ digitsOf i, isCode c := fun c hc =>
    isCode_of (p := Char.isDigit) (by decide) (Number.isDigit_of_mem_digitsOf hc)
  have hmarker : ∀ c ∈ markerWord, isCode c := List.all_eq_true.1 (by decide)
  intro c hc
  simp only [report_eq, List.mem_append, List.mem_cons, List.not_mem_nil, or_false] at hc
  rcases hc with rfl | hc | rfl | hc | rfl | rfl
  · rfl
  · exact hmarker c hc
  · rfl
  · exact hdigits c hc
  · rfl
  · rfl

/-- In front of the body of a header no literal stands. -/
theorem header?_split {line indent rest : List Char} (h : header? line = some (indent, rest)) :
    ∃ front, line = front ++ rest ∧ (∀ c ∈ front, isCode c) ∧ ∀ c ∈ indent, isCode c := by
  simp only [header?, Option.bind_eq_bind, Option.bind_eq_some_iff, afterSpaced?, Option.map_eq_some_iff] at h
  obtain ⟨rest₁, h₁, rest₂, ⟨rest₃, h₃, rfl⟩, he⟩ := h
  cases he
  have hblank : ∀ c ∈ line.takeWhile isBlank, isCode c := fun c hc =>
    isCode_of_isBlank (List.all_eq_true.1 List.all_takeWhile c hc)
  have hinert : ∀ {c}, isInert c → isCode c := isCode_of (by decide)
  have hdo : ∀ c ∈ doOnceWord, isCode c := List.all_eq_true.1 (by decide)
  have harrow : ∀ c ∈ arrowWord, isCode c := List.all_eq_true.1 (by decide)
  obtain ⟨spaces, hs₁, hspaces⟩ := exists_skipSpaces rest₁
  obtain ⟨spaces', hs₃, hspaces'⟩ := exists_skipSpaces rest₃
  rw [after?_eq_some] at h₁ h₃
  refine ⟨line.takeWhile isBlank ++ (doOnceWord ++ (spaces ++ (arrowWord ++ spaces'))), ?_, ?_, hblank⟩
  · conv => lhs; rw [← List.takeWhile_append_dropWhile (p := isBlank) (l := line), h₁, hs₁, h₃, hs₃]
    simp only [List.append_assoc]
  · simp only [List.forall_mem_append]
    exact ⟨hblank, hdo, fun c hc => hinert (hspaces c hc), harrow, fun c hc => hinert (hspaces' c hc)⟩

theorem literals_code {front : List Char} (hf : ∀ c ∈ front, isCode c) (cs : List Char) :
    literals (front ++ cs) = literals cs :=
  literals_unquoted (fun c hc => (isCode_plain (hf c hc)).1) cs

/-- Code in front of a clean line. -/
theorem clean_front {front front' cs : List Char} (hf : ∀ c ∈ front, isCode c) (hf' : ∀ c ∈ front', isCode c)
    (h : Clean stops [] (front ++ cs)) :
    Clean stops [] (front' ++ cs) ∧ literals (front' ++ cs) = literals (front ++ cs) :=
  ⟨clean_code hf' (h.of_code hf), by rw [literals_code hf, literals_code hf']⟩

theorem clean_reportFirst (i : Nat) {line : List Char} (h : Clean stops [] line) :
    Clean stops [] (reportFirst (report i) line) ∧ literals (reportFirst (report i) line) = literals line := by
  have hblank : ∀ c ∈ line.takeWhile isBlank, isCode c := fun c hc =>
    isCode_of_isBlank (List.all_eq_true.1 List.all_takeWhile c hc)
  have hsplit := List.takeWhile_append_dropWhile (p := isBlank) (l := line)
  unfold reportFirst
  split
  · rename_i hnil
    rw [hnil, List.append_nil] at hsplit
    rw [hsplit] at hblank
    split
    · exact ⟨h, rfl⟩
    · rename_i c hc
      have hlast : ∀ d ∈ line.dropLast ++ report i ++ [' ', c], isCode d := by
        simp only [List.forall_mem_append, List.forall_mem_cons]
        exact ⟨⟨fun d hd => hblank d ((List.dropLast_sublist line).subset hd), isCode_report i⟩, rfl,
          hblank c (List.mem_of_getLast? hc), by simp⟩
      have h' : Clean stops [] (line ++ []) := by simpa using h
      obtain ⟨hclean, hliterals⟩ := clean_front hblank hlast h'
      rw [List.append_nil, List.append_nil] at hliterals
      rw [List.append_nil] at hclean
      exact ⟨hclean, hliterals⟩
  · have hspace : ∀ c ∈ [' '], isCode c := List.all_eq_true.1 (by decide)
    have hfront : ∀ c ∈ line.takeWhile isBlank ++ report i ++ [' '], isCode c := by
      simp only [List.forall_mem_append]
      exact ⟨⟨hblank, isCode_report i⟩, hspace⟩
    rw [← hsplit] at h
    obtain ⟨hclean, hliterals⟩ := clean_front hblank hfront h
    rw [hsplit] at hliterals
    simp only [List.append_assoc, List.singleton_append] at hclean hliterals ⊢
    exact ⟨hclean, hliterals⟩

theorem clean_instrumentLines {lines : List (List Char)} {i : Nat} {pending : Option (List Char)}
    (hp : ∀ mark ∈ pending, ∃ k, mark = report k) (h : ∀ line ∈ lines, Clean stops [] line) :
    (∀ line ∈ instrumentLines i pending lines, Clean stops [] line) ∧
      (instrumentLines i pending lines).flatMap literals = lines.flatMap literals := by
  induction lines generalizing i pending with
  | nil => simp [instrumentLines]
  | cons line lines ih =>
    rw [List.forall_mem_cons] at h
    have hloop : ∀ c ∈ "repeat 1 ->".toList, isCode c := List.all_eq_true.1 (by decide)
    have hloop' : ∀ c ∈ " repeat 1 -> ".toList, isCode c := List.all_eq_true.1 (by decide)
    have next : ∀ {out : List Char} {pending : Option (List Char)}, (∀ mark ∈ pending, ∃ k, mark = report k) →
        Clean stops [] out ∧ literals out = literals line →
          (∀ l ∈ out :: instrumentLines (i + 1) pending lines, Clean stops [] l) ∧
            (out :: instrumentLines (i + 1) pending lines).flatMap literals = (line :: lines).flatMap literals := by
      intro out pending hp ho
      obtain ⟨hclean, hliterals⟩ := ih (i := i + 1) hp h.2
      rw [List.forall_mem_cons, List.flatMap_cons, List.flatMap_cons, ho.2, hliterals]
      exact ⟨⟨ho.1, hclean⟩, rfl⟩
    have first : ∀ l, Clean stops [] l ∧ literals l = literals line →
        (∀ l' ∈ instrumentLines i none (l :: lines), Clean stops [] l') ∧
          (instrumentLines i none (l :: lines)).flatMap literals = (line :: lines).flatMap literals := by
      intro l hl
      simp only [instrumentLines]
      split
      · rename_i indent hh
        obtain ⟨front, rfl, hf, hi⟩ := header?_split hh
        have hfront : ∀ c ∈ indent ++ "repeat 1 ->".toList, isCode c := List.forall_mem_append.2 ⟨hi, hloop⟩
        obtain ⟨hclean, hliterals⟩ := clean_front hf hfront hl.1
        rw [List.append_nil] at hclean
        rw [hl.2, List.append_nil] at hliterals
        exact next (by simp) ⟨hclean, hliterals⟩
      · rename_i indent c body hh
        obtain ⟨front, rfl, hf, hi⟩ := header?_split hh
        split
        · exact next (by simp) hl
        · have hfront : ∀ c ∈ indent ++ report i ++ " repeat 1 -> ".toList, isCode c := by
            simp only [List.forall_mem_append]
            exact ⟨⟨hi, isCode_report i⟩, hloop'⟩
          obtain ⟨hclean, hliterals⟩ := clean_front hf hfront hl.1
          exact next (by simp) ⟨hclean, hliterals.trans hl.2⟩
      · exact next (by simp) hl
    cases pending with
    | none => exact first line ⟨h.1, rfl⟩
    | some mark =>
      obtain ⟨k, rfl⟩ := hp mark rfl
      exact first _ (clean_reportFirst k h.1)

/-! ## Ticks in literals -/

theorem commentTicks_cons {c : Char} (hc : c ≠ tick) (cs : List Char) : commentTicks (c :: cs) = c :: commentTicks cs := by
  simp [commentTicks, hc]

theorem commentTicks_tick (cs : List Char) : commentTicks (tick :: cs) = '/' :: '/' :: commentTicks cs := rfl

theorem staysOpen_commentTicks {q : Char} (hq : isQuote q) {escaped : Bool} {body : List Char}
    (h : staysOpen q escaped body) : staysOpen q escaped (commentTicks body) := by
  have hslash : ('/' != q) = true := by simpa using (isQuote_plain hq).2.1.symm
  induction body generalizing escaped with
  | nil => exact h
  | cons c body ih =>
    by_cases hc : c = tick
    · subst hc
      rw [commentTicks_tick]
      cases escaped with
      | true =>
        have ho : staysOpen q false body := by simpa [staysOpen, tick] using h
        have hbody := ih ho
        rw [staysOpen, staysOpen_cons (by decide), hbody, hslash]
        rfl
      | false =>
        rw [staysOpen_cons (by decide)] at h
        rw [staysOpen_cons (by decide), staysOpen_cons (by decide), ih (Bool.and_eq_true_iff.1 h).2, hslash]
        rfl
    · rw [commentTicks_cons hc]
      cases escaped with
      | true =>
        rw [staysOpen] at h ⊢
        rw [ih (Bool.and_eq_true_iff.1 h).2, (Bool.and_eq_true_iff.1 h).1, Bool.and_true]
      | false =>
        by_cases hb : c = '\\'
        · subst hb
          exact ih h
        · rw [staysOpen_cons hb] at h ⊢
          rw [ih (Bool.and_eq_true_iff.1 h).2, (Bool.and_eq_true_iff.1 h).1, Bool.and_true]

theorem IsLiteral.commentTicks {l : List Char} (h : IsLiteral l) : IsLiteral (Sketch.commentTicks l) := by
  obtain ⟨q, body, hq, ho, rfl⟩ := isLiteral_iff.1 h
  have hne : q ≠ tick := by
    rintro rfl
    cases hq
  refine isLiteral_iff.2 ⟨q, Sketch.commentTicks body, hq, staysOpen_commentTicks hq ho, ?_⟩
  rw [commentTicks_cons hne, commentTicks_append, commentTicks_cons hne]
  rfl

/-- In a clean text with ticks in its literals alone they open no comment. -/
theorem Clean.commentTicks {cs : List Char} (h : Clean ['/'] [] cs) (ht : tick ∉ dropLiterals cs) :
    Clean ['/'] [] (Sketch.commentTicks cs) ∧
      literals (Sketch.commentTicks cs) = (literals cs).map Sketch.commentTicks := by
  induction h with
  | nil => exact ⟨.nil, rfl⟩
  | @char c cs hq hh hs _ ih =>
    rw [dropLiterals_of_none (literal?_of_not_quote hq _), List.mem_cons, not_or] at ht
    obtain ⟨hclean, hliterals⟩ := ih ht.2
    rw [commentTicks_cons (Ne.symm ht.1), literals_of_none (literal?_of_not_quote hq _),
      literals_of_none (literal?_of_not_quote hq _)]
    refine ⟨.char hq hh (fun hc d hd => hs hc d ?_) hclean, hliterals⟩
    cases cs with
    | nil => cases hd
    | cons e cs =>
      have he : e ≠ tick := by
        rintro rfl
        exact ht.2 (by rw [dropLiterals_of_none (literal?_of_not_quote rfl _)]; simp)
      rw [commentTicks_cons he] at hd
      exact hd
  | @literal l cs hl _ ih =>
    rw [dropLiterals_of_some (hl.literal? cs)] at ht
    obtain ⟨hclean, hliterals⟩ := ih ht
    rw [commentTicks_append, literals_of_some (hl.commentTicks.literal? _), literals_of_some (hl.literal? _), hliterals]
    exact ⟨.literal hl.commentTicks hclean, rfl⟩

/-- A line without ticks outside its literals holds no ticked header. -/
theorem disableHeader_of_notMem {line : List Char} (h : tick ∉ dropLiterals line) : disableHeader line = line := by
  unfold disableHeader
  split
  · rename_i indent hi
    exfalso
    simp only [tickedHeader?, Option.bind_eq_bind, Option.bind_eq_some_iff, after?_eq_some] at hi
    obtain ⟨rest, hrest, -⟩ := hi
    have hindent : ∀ {l cs : List Char}, (∀ c ∈ l, isIndent c) → tick ∈ dropLiterals cs → tick ∈ dropLiterals (l ++ cs) := by
      intro l cs hl hm
      induction l with
      | nil => exact hm
      | cons c l ih =>
        rw [List.forall_mem_cons] at hl
        rw [List.cons_append, dropLiterals_of_none
          (literal?_of_not_quote (Spelt.not_isQuote (notMem_marks_of_isIndent hl.1)) _)]
        exact List.mem_cons_of_mem _ (ih hl.2)
    refine h ?_
    rw [← List.takeWhile_append_dropWhile (p := isIndent) (l := line), hrest]
    refine hindent (List.all_eq_true.1 List.all_takeWhile) ?_
    rw [List.singleton_append, dropLiterals_of_none (literal?_of_not_quote rfl _)]
    exact List.mem_cons_self
  · rfl

theorem removeTicked_clean {cs : List Char} (h : ∀ line ∈ splitLines cs, tick ∉ dropLiterals line) :
    removeTicked cs = commentTicks cs := by
  have hmap : (splitLines cs).map disableHeader = splitLines cs :=
    List.map_congr_left (g := id) (fun line hl => disableHeader_of_notMem (h line hl)) |>.trans (List.map_id _)
  rw [removeTicked, mapLines, hmap, joinLines_splitLines]

/-- A tick outside the literals of a text stands outside those of a line. -/
theorem tick_notMem_joinLines {lines : List (List Char)} (h : ∀ line ∈ lines, tick ∉ dropLiterals line) :
    tick ∉ dropLiterals (joinLines lines) := by
  induction lines with
  | nil => exact List.not_mem_nil
  | cons line lines ih =>
    rw [List.forall_mem_cons] at h
    cases lines with
    | nil => exact h.1
    | cons next lines =>
      rw [joinLines_cons (List.cons_ne_nil next lines), dropLiterals_newline, List.mem_append, List.mem_cons]
      rintro (hm | hm | hm)
      · exact h.1 hm
      · cases hm
      · exact ih h.2 hm

theorem Clean.tick_notMem {cs : List Char} (h : Clean ['/'] [] cs) (ht : tick ∉ dropLiterals cs)
    (hl : ∀ l ∈ literals cs, tick ∉ l) : tick ∉ cs := by
  induction h with
  | nil => exact List.not_mem_nil
  | @char c cs hq _ _ _ ih =>
    rw [dropLiterals_of_none (literal?_of_not_quote hq _), List.mem_cons, not_or] at ht
    rw [literals_of_none (literal?_of_not_quote hq _)] at hl
    rw [List.mem_cons, not_or]
    exact ⟨ht.1, ih ht.2 hl⟩
  | @literal l cs hliteral _ ih =>
    rw [dropLiterals_of_some (hliteral.literal? cs)] at ht
    rw [literals_of_some (hliteral.literal? cs), List.forall_mem_cons] at hl
    rw [List.mem_append, not_or]
    exact ⟨hl.1, ih ht hl.2⟩

/-! ## The passes -/

theorem slash_stops : (∀ d ∈ ['/'], isCode d = false) ∧ ∀ d ∈ ['/'], isInert d = false := by
  simp only [List.forall_mem_singleton]
  decide

theorem clean_instrument {cs : List Char} (h : Clean ['/'] [] cs) :
    Clean ['/'] [] (instrument cs) ∧ literals (instrument cs) = literals cs := by
  unfold instrument
  split
  · obtain ⟨hlines, hliterals⟩ := clean_splitLines (by decide) h
    obtain ⟨hclean, hsame⟩ := clean_instrumentLines (i := 0) (show ∀ mark ∈ none, ∃ k, mark = report k by simp) hlines
    have hlength := (instrumentLines_lines (i := 0) (show ∀ mark ∈ (none : Option (List Char)), '\n' ∉ mark by simp)
      fun line (hl : line ∈ splitLines cs) => newline_notMem_of_mem_splitLines hl).1
    have hne : instrumentLines 0 none (splitLines cs) ≠ [] := by
      rw [← List.length_pos_iff, hlength]
      exact List.length_pos_iff.2 (splitLines_ne_nil cs)
    obtain ⟨hjoin, hall⟩ := clean_joinLines (show '\n' ∉ ['/'] by decide) hne
    exact ⟨hjoin.2 hclean, by rw [hall hclean, hsame, hliterals]⟩
  · exact ⟨h, rfl⟩

theorem clean_callBarewords {cs : List Char} (h : Clean ['/'] [] cs) :
    Clean ['/'] [] (callBarewords cs) ∧ literals (callBarewords cs) = literals cs := by
  obtain ⟨hlines, hliterals⟩ := clean_splitLines (by decide) h
  have hline : ∀ line ∈ splitLines cs, Clean ['/'] [] (callBarewordsOfLine line) ∧
      literals (callBarewordsOfLine line) = literals line := fun line hl =>
    (grown_callBarewordsOfLine (hlines line hl)).clean slash_stops.1 (hlines line hl)
  obtain ⟨hjoin, hall⟩ := clean_joinLines (show '\n' ∉ ['/'] by decide)
    (show (splitLines cs).map callBarewordsOfLine ≠ [] by simpa using splitLines_ne_nil cs)
  have hmapped : ∀ line ∈ (splitLines cs).map callBarewordsOfLine, Clean ['/'] [] line := fun line hl => by
    obtain ⟨l, hm, rfl⟩ := List.mem_map.1 hl
    exact (hline l hm).1
  refine ⟨hjoin.2 hmapped, ?_⟩
  rw [callBarewords, mapLines, hall hmapped, List.flatMap_map, ← hliterals]
  exact List.flatMap_congr fun line hl => (hline line hl).2

theorem clean_separateCommands {cs : List Char} (h : Clean ['/'] [] cs) :
    Clean ['/'] [] (separateCommands cs) ∧ literals (separateCommands cs) = literals cs :=
  (grown_separateFrom h none).clean slash_stops.1 h

/-- The texts of a script are those of its sketch, if this has no comments, but for what the passes do to each of them:
ticks become slashes, and a word stands in front of its operand. -/
theorem strings_toScript {cs script : List Char} {ts us : List Token} (hfree : CommentFree cs) (hlex : lex cs = .ok ts)
    (hscript : toScript cs = .ok script) (hlex' : lex script = .ok us) :
    strings ts = (literals cs).map literalText ∧
      (CommentFree (commentTicks cs) → strings us = (literals cs).map fun l => literalText (rewritten (commentTicks l))) ∧
        ((∀ l ∈ literals cs, tick ∉ l ∧ rewritten l = l) → strings us = strings ts) := by
  have hnewline : ∀ {cs : List Char}, ∀ line ∈ splitLines cs, '\n' ∉ line := fun _ hl =>
    newline_notMem_of_mem_splitLines hl
  have hlines := clean_lexLines hnewline hlex (by rwa [joinLines_splitLines])
  obtain ⟨hstrings, htick⟩ := strings_lexLines hnewline hlex hlines
  obtain ⟨hjoin, hall⟩ := clean_joinLines (show '\n' ∉ ['/'] by decide) (splitLines_ne_nil cs)
  have htick' := tick_notMem_joinLines htick
  rw [joinLines_splitLines] at hjoin hall htick'
  rw [← hall hlines] at hstrings
  have hclean := hjoin.2 hlines
  obtain ⟨hticks, hlticks⟩ := hclean.commentTicks htick'
  have main : CommentFree (commentTicks cs) →
      strings us = (literals cs).map fun l => literalText (rewritten (commentTicks l)) := by
    intro hkept
    have hprepare : prepare cs = rewritten (commentTicks cs) := by
      rw [prepare, removeTicked_clean htick, hkept.kept]
      rfl
    obtain ⟨h₁, hl₁⟩ := hticks.rewritten slash_stops.2
    obtain ⟨h₂, hl₂⟩ := clean_instrument h₁
    obtain ⟨h₃, hl₃⟩ := clean_callBarewords h₂
    obtain ⟨h₄, hl₄⟩ := clean_separateCommands h₃
    rw [← hprepare, ← toScript_eq_ok hscript] at h₄ hl₄
    obtain ⟨hlines', hliterals'⟩ := clean_splitLines (by decide) h₄
    rw [(strings_lexLines hnewline hlex' hlines').1, hliterals', hl₄, hprepare, hl₃, hl₂, hl₁, hlticks]
    simp only [List.map_map]
    rfl
  refine ⟨hstrings, main, fun hsame => ?_⟩
  have hplain := commentTicks_of_notMem (hclean.tick_notMem htick' fun l hl => (hsame l hl).1)
  have hfree' : CommentFree (commentTicks cs) := by rwa [hplain]
  rw [main hfree', hstrings]
  refine List.map_congr_left fun l hl => ?_
  rw [commentTicks_of_notMem (hsame l hl).1, (hsame l hl).2]

/-- The other quote, an escape, a comment mark and a word that starts a statement in texts, and a loop around them. -/
def quoted : List Char := "2 times -> say \"it's // 60\\\"\"; box ' ball 1 '".toList

def quotedScript : List Char := ";repeat 2 -> say \"it's // 60\\\"\"; ;box ' ball 1 '".toList

theorem strings_toScript_quoted : CommentFree quoted ∧ ∃ ts script us, lex quoted = .ok ts ∧
    toScript quoted = .ok script ∧ lex script = .ok us ∧ strings us = strings ts := by
  have hfree : CommentFree quoted := by decide
  have hlex : (lex quoted).isOk := by decide
  have hscript : toScript quoted = .ok quotedScript := by decide
  have hlex' : (lex quotedScript).isOk := by decide
  have hsame : ∀ l ∈ literals quoted, tick ∉ l ∧ rewritten l = l := by
    rw [show literals quoted = ["\"it's // 60\\\"\"".toList, "' ball 1 '".toList] by decide]
    simp only [List.forall_mem_cons]
    decide
  cases hts : lex quoted with
  | error e =>
    rw [hts] at hlex
    cases hlex
  | ok ts =>
    cases hus : lex quotedScript with
    | error e =>
      rw [hus] at hlex'
      cases hlex'
    | ok us => exact ⟨hfree, ts, quotedScript, us, rfl, hscript, hus, (strings_toScript hfree hts hscript hus).2.2 hsame⟩

/-- A text that looks like a counted repetition becomes one. -/
theorem strings_toScript_times :
    CommentFree "play \"low\", \"3 times -> x\"".toList ∧
      (lex "play \"low\", \"3 times -> x\"".toList).toOption.map strings = some ["low", "3 times -> x"] ∧
        (toScript "play \"low\", \"3 times -> x\"".toList).toOption.bind (fun script => (lex script).toOption.map strings) =
          some ["low", ";repeat 3 -> x"] := by
  decide

end LiveSketch.Sketch

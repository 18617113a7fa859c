import LiveSketch.Proofs.Script.CountedLines
import LiveSketch.Proofs.Sketch.Spreading

/-!
# Counted loops behind a semicolon

`3 times ->` becomes `;repeat 3 ->`. Each pass behind that keeps the semicolon and changes the rest of the line as it
does without it, so the lines are still `Semicoloned` in the script (`semicoloned_finish`). All a pass does in front of the
loop is to put the report of a block there.
-/
namespace LiveSketch.Sketch

open Text Script
open Script.Lexer

variable {v : View} {i : Nat} {numeral : List Char} {lines lines' : List (List Char)}

/-- The numeral of a loop: a run of digits. -/
structure IsDigits (numeral : List Char) : Prop where
  ne_nil : numeral ≠ []
  digit : ∀ c ∈ numeral, c.isDigit

theorem digit_notMem {c : Char} (h : c.isDigit) {cs : List Char} (hcs : cs.all fun d => !d.isDigit) : c ∉ cs := fun hm => by
  have hc := List.all_eq_true.1 hcs c hm
  rw [h] at hc
  cases hc

theorem IsDigits.not_isQuote (hn : IsDigits numeral) : ∀ d ∈ numeral, isQuote d = false := fun d hd =>
  isQuote_of_isNamePart (by simp [isNamePart, Char.isAlphanum, hn.digit d hd])

theorem IsDigits.not_isAlpha (hn : IsDigits numeral) : ∀ d ∈ numeral, d.isAlpha = false := fun d hd =>
  Text.not_isAlpha_of_isDigit (hn.digit d hd)

/-- A numeral holds no character that is no digit. -/
theorem IsDigits.ne (hn : IsDigits numeral) {c : Char} (hc : c.isDigit = false) : ∀ d ∈ numeral, d ≠ c := by
  rintro d hd rfl
  rw [hn.digit d hd] at hc
  cases hc

/-! ## Reports -/

theorem header?_code {indent : List Char} (hi : ∀ d ∈ indent, isBlank d) {c : Char} (hb : isBlank c = false) (hc : c ≠ 'd')
    (rest : List Char) : header? (indent ++ c :: rest) = none := by
  have hdrop : (indent ++ c :: rest).dropWhile isBlank = c :: rest := by
    rw [List.dropWhile_append_of_pos hi, List.dropWhile_cons_of_neg (Bool.eq_false_iff.1 hb)]
  have hword : after? doOnceWord (c :: rest) = none := by
    have hne : 'd' ≠ c := hc.symm
    simp [doOnceWord, after?, hne]
  rw [header?, hdrop, hword]
  rfl

/-- Code that is no header stays, with the report of a block in front of it. -/
theorem instrumentLines_code {indent : List Char} (hi : ∀ d ∈ indent, isBlank d) {c : Char} (hb : isBlank c = false)
    (hc : c ≠ 'd') (rest : List Char) (j k : Nat) (opened : Bool) (lines : List (List Char)) :
    instrumentLines j (pendingReport opened k) ((indent ++ c :: rest) :: lines) =
      (indent ++ ((if opened then leadText .reports k else []) ++ c :: rest)) ::
        instrumentLines (j + 1) (pendingReport false j) lines := by
  have hheader := header?_code hi hb hc rest
  cases opened with
  | true =>
    have htake : (indent ++ c :: rest).takeWhile isBlank = indent := by
      rw [List.takeWhile_append_of_pos hi, List.takeWhile_cons_of_neg (Bool.eq_false_iff.1 hb), List.append_nil]
    have hdrop : (indent ++ c :: rest).dropWhile isBlank = c :: rest := by
      rw [List.dropWhile_append_of_pos hi, List.dropWhile_cons_of_neg (Bool.eq_false_iff.1 hb)]
    rw [instrumentLines_opened, reportFirst_code (by rw [hdrop]; exact List.cons_ne_nil _ _), htake, hdrop]
    rfl
  | false =>
    rw [instrumentLines_line (by rw [opens, hheader]; rfl), instrumentLine, hheader]
    rfl

theorem semicoloned_instrumentLines {count : Nat → Nat} (h : Semicoloned (.loops count) i numeral lines lines') :
    ∀ (j k : Nat) (opened : Bool), ∃ v' i', Semicoloned v' i' numeral (instrumentLines j (pendingReport opened k) lines)
      (instrumentLines j (pendingReport opened k) lines') := by
  induction h with
  | @here indent body lines hi =>
    intro j k opened
    have hi' : ∀ d ∈ indent, isBlank d := fun d hd => isBlank_of_isIndent (hi d hd)
    have hloop : instrumentLines j (pendingReport opened k) ((indent ++ (repeatHead numeral ++ body)) :: lines) = _ :=
      instrumentLines_code hi' (by decide) (by decide) _ j k opened lines
    have hsemicolon := instrumentLines_code hi' (by decide : isBlank ';' = false) (by decide) (repeatHead numeral ++ body) j k
      opened lines
    cases opened with
    | true => exact ⟨.reports, k, by rw [leadText, List.nil_append, List.nil_append, hloop, hsemicolon]; exact .here hi⟩
    | false => exact ⟨.loops count, k, by rw [leadText, List.nil_append, List.nil_append, hloop, hsemicolon]; exact .here hi⟩
  | @line raw lines lines' _ ih =>
    intro j k opened
    have hnext : ∀ {line opened'}, (∀ ls, instrumentLines j (pendingReport opened k) (raw :: ls) =
        line :: instrumentLines (j + 1) (pendingReport opened' j) ls) → ∃ v' i',
          Semicoloned v' i' numeral (instrumentLines j (pendingReport opened k) (raw :: lines))
            (instrumentLines j (pendingReport opened k) (raw :: lines')) := fun hstep => by
      obtain ⟨v', i', h⟩ := ih (j + 1) j _
      rw [hstep, hstep]
      exact ⟨v', i', .line h⟩
    cases opened with
    | true => exact hnext fun ls => instrumentLines_opened k raw ls
    | false =>
      cases ho : opens raw with
      | false => exact hnext fun ls => instrumentLines_line ho k ls
      | true =>
        obtain ⟨indent, hheader⟩ := opens_iff.1 ho
        exact hnext fun ls => instrumentLines_block hheader k ls

/-! ## Calls of the sketch itself -/

theorem opensParen_lead {indent : List Char} (hi : ∀ d ∈ indent, isBlank d) (v : View) (i : Nat) {c : Char}
    (hb : isBlank c = false) (hc : c ≠ '(') (rest : List Char) : opensParen (indent ++ (leadText v i ++ c :: rest)) = false := by
  rw [opensParen_blanks hi]
  cases v with
  | loops count => simpa [leadText, hb] using hc
  | reports =>
    rw [leadText, report_eq]
    simp only [List.append_assoc, List.cons_append, opensParen_cons]
    rfl

theorem hasDraw_lead {indent : List Char} (hi : ∀ d ∈ indent, isBlank d) (v : View) (i : Nat) (text : List Char) :
    hasDraw true (indent ++ (leadText v i ++ text)) = hasDraw true text := by
  rw [hasDraw_blankFront hi]
  cases v with
  | loops count => rfl
  | reports => rw [leadText, List.append_assoc, hasDraw_report, List.singleton_append, hasDraw_blank rfl]

theorem semicoloned_draws (h : Semicoloned v i numeral lines lines') : DrawsAlike (tailText lines) (tailText lines') := by
  have hcons : ∀ (line : List Char) (lines : List (List Char)), tailText (line :: lines) = '\n' :: (line ++ tailText lines) :=
    fun _ _ => rfl
  induction h with
  | @here indent body lines hi =>
    have hi' : ∀ d ∈ indent, isBlank d := fun d hd => isBlank_of_isIndent (hi d hd)
    have hparen : ∀ c rest, isBlank c = false → c ≠ '(' → opensParen ('\n' :: (indent ++ (leadText v i ++ c :: rest))) = false :=
      fun c rest hb hc => opensParen_lead hi' v i hb hc rest
    have hdraw : ∀ boundary text, hasDraw boundary ('\n' :: (indent ++ (leadText v i ++ text))) = hasDraw true text :=
      fun boundary text => by rw [hasDraw_blank rfl, hasDraw_lead hi']
    have hsemicolon : ∀ text, hasDraw true (';' :: text) = hasDraw true text := fun _ => rfl
    simp only [hcons, List.append_assoc, List.cons_append]
    refine ⟨by simp; rfl, by simp; rfl, ?_, fun boundary => by rw [hdraw, hdraw, hsemicolon]⟩
    rw [hparen ';' _ rfl (by decide)]
    exact hparen 'r' _ rfl (by decide)
  | @line raw lines lines' _ ih =>
    rw [hcons, hcons, ← List.cons_append, ← List.cons_append]
    exact ih.append_left (List.cons_ne_nil _ _) (by simp; rfl)

/-! ## Single words -/

theorem callBarewordsOfLine_blanks {front : List Char} (h : ∀ d ∈ front, isBlank d) (line : List Char) :
    callBarewordsOfLine (front ++ line) = front ++ callBarewordsOfLine line := by
  induction front with
  | nil => rfl
  | cons d front ih =>
    rw [List.forall_mem_cons] at h
    have hd : isQuote d = false ∧ d ≠ ';' ∧ d ≠ '-' := by
      refine ⟨(isBlank_plain h.1).1, ?_, ?_⟩ <;>
        · rintro rfl
          cases h.1
    have hpieces : pieces none (d :: (front ++ line)) = consPiece d (pieces none (front ++ line)) := by
      rw [pieces, if_neg (by simpa using hd.2.1), hd.1]
      · rfl
      · rintro _ rfl
        exact absurd rfl hd.2.2
    rw [List.cons_append, callBarewordsOfLine, hpieces, flatMap_consPiece_call h.1 (pieces_text none _).2.2, List.cons_append,
      ← ih h.2, callBarewordsOfLine]

theorem callBarewordsOfLine_lead {indent : List Char} (hi : ∀ d ∈ indent, isBlank d) (v : View) (i : Nat) (text : List Char) :
    callBarewordsOfLine (indent ++ (leadText v i ++ text)) = indent ++ (leadText v i ++ callBarewordsOfLine text) := by
  cases v with
  | loops count => exact callBarewordsOfLine_blanks hi text
  | reports => exact callBarewordsOfLine_report hi i text

/-- The text up to an arrow is a statement. -/
theorem pieces_arrow {word : List Char} (h : ∀ d ∈ word, isQuote d = false ∧ d ≠ ';' ∧ d ≠ '-') (rest : List Char) :
    pieces none (word ++ '-' :: '>' :: rest) = (word, ['-', '>']) :: pieces none rest := by
  induction word with
  | nil => rfl
  | cons d word ih =>
    rw [List.forall_mem_cons] at h
    obtain ⟨⟨hq, hs, hm⟩, h⟩ := h
    rw [List.cons_append, pieces, if_neg (by simpa using hs), hq]
    · rw [if_neg Bool.false_ne_true, ih h]
      rfl
    · rintro _ rfl
      exact absurd rfl hm

theorem callBarewordsOfLine_semicolon (text : List Char) : callBarewordsOfLine (';' :: text) = ';' :: callBarewordsOfLine text := by
  have hpieces : pieces none (';' :: text) = ([], [';']) :: pieces none text := @pieces_semicolon [] (by simp) text
  rw [callBarewordsOfLine, hpieces]
  rfl

/-- The head of a loop is more than a single word. -/
theorem callBareword_repeatHead (hn : IsDigits numeral) :
    callBareword ("repeat".toList ++ ' ' :: (numeral ++ [' '])) = "repeat".toList ++ ' ' :: (numeral ++ [' ']) := by
  obtain ⟨front, d, rfl⟩ := (List.eq_nil_or_concat numeral).resolve_left hn.ne_nil
  have hd : isBlank d = false := isBlank_of_isDigit (isDigit_of_ascii (hn.digit d (by simp)))
  have htrim : trim ("repeat".toList ++ ' ' :: (front ++ [d])) = "repeat".toList ++ ' ' :: (front ++ [d]) := by
    have hstart : trimStart ("repeat".toList ++ ' ' :: (front ++ [d])) = "repeat".toList ++ ' ' :: (front ++ [d]) := rfl
    have hsplit : "repeat".toList ++ ' ' :: (front ++ [d]) = ("repeat".toList ++ ' ' :: front) ++ [d] := by
      rw [List.append_assoc, List.cons_append]
    rw [trim, hstart, hsplit, trimEnd, List.reverse_concat, List.dropWhile_cons_of_neg (Bool.eq_false_iff.1 hd),
      List.reverse_cons, List.reverse_reverse]
  have hsplit : "repeat".toList ++ ' ' :: ((front ++ [d]) ++ [' ']) = ("repeat".toList ++ ' ' :: (front ++ [d])) ++ [' '] := by
    rw [List.append_assoc "repeat".toList, List.cons_append]
  rw [List.concat_eq_append, hsplit, callBareword_concat rfl, callBareword, htrim, if_neg]
  intro hword
  simp only [isBareword, Bool.and_eq_true] at hword
  have hspace := List.all_eq_true.1 hword.1.2 ' ' (by simp)
  cases hspace

theorem callBarewordsOfLine_repeatHead (hn : IsDigits numeral) (body : List Char) :
    callBarewordsOfLine (repeatHead numeral ++ body) = repeatHead numeral ++ callBarewordsOfLine body := by
  have hplain : ∀ d ∈ "repeat".toList ++ ' ' :: (numeral ++ [' ']), isQuote d = false ∧ d ≠ ';' ∧ d ≠ '-' := by
    simp only [List.forall_mem_append, List.forall_mem_cons]
    exact ⟨by decide, by decide, fun d hd => ⟨hn.not_isQuote d hd, hn.ne rfl d hd, hn.ne rfl d hd⟩, by decide⟩
  have hsplit : ∀ body, repeatHead numeral ++ body =
      ("repeat".toList ++ ' ' :: (numeral ++ [' '])) ++ '-' :: '>' :: body := fun body => by
    simp only [repeatHead, List.append_assoc, List.cons_append, List.nil_append]
  have hline : ∀ line, callBarewordsOfLine line = (pieces none line).flatMap fun p => callBareword p.1 ++ p.2 := fun _ => rfl
  rw [hsplit, hline, pieces_arrow hplain, List.flatMap_cons, callBareword_repeatHead hn, hsplit, hline]
  simp only [List.append_assoc, List.cons_append, List.nil_append]

theorem semicoloned_calls (hn : IsDigits numeral) (h : Semicoloned v i numeral lines lines') :
    Semicoloned v i numeral (lines.map callBarewordsOfLine) (lines'.map callBarewordsOfLine) := by
  induction h with
  | @here indent body lines hi =>
    have hi' : ∀ d ∈ indent, isBlank d := fun d hd => isBlank_of_isIndent (hi d hd)
    rw [List.map_cons, List.map_cons, callBarewordsOfLine_lead hi', callBarewordsOfLine_lead hi', callBarewordsOfLine_semicolon,
      callBarewordsOfLine_repeatHead hn]
    exact .here hi
  | line _ ih => exact .line ih

/-! ## Separated commands -/

theorem leftAlone_repeatHead (hn : IsDigits numeral) : LeftAlone (repeatHead numeral) := by
  have hrepeat : LeftAlone ("repeat".toList ++ [' ']) := by
    intro done more
    have hparts : ∀ d ∈ "epeat".toList, isNamePart d := by decide
    have hword : separateFrom none done.getLast? ('r' :: "epeat".toList ++ ' ' :: more) = _ :=
      separateFrom_word rfl hparts (by simp; rfl)
    have hstarts : startsStatement (String.ofList ('r' :: "epeat".toList)) = false := by decide
    rw [wordFront, hstarts, Bool.and_false, if_neg Bool.false_ne_true, List.nil_append, separateFrom_other rfl rfl] at hword
    have hend : (done ++ ("repeat".toList ++ [' '])).getLast? = some ' ' := by rw [← List.append_assoc, List.getLast?_concat]
    have hr : "repeat".toList = 'r' :: "epeat".toList := rfl
    rw [hend, hr]
    simpa using hword
  have hnumeral : LeftAlone (numeral ++ [' ', '-', '>']) := by
    refine .plain ?_
    simp only [List.forall_mem_append]
    exact ⟨fun d hd => ⟨hn.not_isQuote d hd, hn.not_isAlpha d hd⟩, by decide⟩
  have hsplit : repeatHead numeral = ("repeat".toList ++ [' ']) ++ (numeral ++ [' ', '-', '>']) := by
    simp only [repeatHead, List.append_assoc, List.cons_append, List.nil_append]
  rw [hsplit]
  exact hrepeat.append hnumeral

theorem plain_repeatHead (hn : IsDigits numeral) : ∀ d ∈ repeatHead numeral, isQuote d = false ∧ d ≠ '\\' ∧ d ≠ '\n' := by
  have hword : ∀ d ∈ "repeat ".toList, isQuote d = false ∧ d ≠ '\\' ∧ d ≠ '\n' := by decide
  have hdigits : ∀ d ∈ numeral, isQuote d = false ∧ d ≠ '\\' ∧ d ≠ '\n' := fun d hd =>
    ⟨hn.not_isQuote d hd, hn.ne rfl d hd, hn.ne rfl d hd⟩
  have hhead : repeatHead numeral = "repeat ".toList ++ (numeral ++ [' ', '-', '>']) := rfl
  rw [hhead]
  simp only [List.forall_mem_append]
  exact ⟨hword, hdigits, by decide⟩

theorem leftAlone_leadText (v : View) (i : Nat) : LeftAlone (leadText v i) := by
  cases v with
  | loops count => exact .plain (by simp [leadText])
  | reports => exact leftAlone_lead i

theorem plain_leadText (v : View) (i : Nat) : ∀ d ∈ leadText v i, isQuote d = false ∧ d ≠ '\\' ∧ d ≠ '\n' := by
  cases v with
  | loops count => simp [leadText]
  | reports =>
    intro d hd
    obtain ⟨hq, hb⟩ := plain_lead i d hd
    refine ⟨hq, hb, ?_⟩
    rintro rfl
    rw [leadText, List.mem_append] at hd
    exact hd.elim (newline_notMem_report i) (by simp)

/-- In front of the loop nothing is separated, and behind it the same is. -/
theorem semicoloned_separate_here (hn : IsDigits numeral) {quote : Option Char} (hquote : ∀ q ∈ quote, isQuote q) (v : View)
    (i : Nat) {indent : List Char} (hi : ∀ c ∈ indent, isIndent c) (before : Option Char) (rest : List Char) :
    Semicoloned v i numeral (splitLines (separateFrom quote before (indent ++ (leadText v i ++ (repeatHead numeral ++ rest)))))
      (splitLines (separateFrom quote before (indent ++ (leadText v i ++ ';' :: (repeatHead numeral ++ rest))))) := by
  have hindent : ∀ d ∈ indent, isQuote d = false ∧ d.isAlpha = false ∧ d ≠ '\\' := fun d hd =>
    plain_of_isBlank (isBlank_of_isIndent (hi d hd))
  have hnl : '\n' ∉ indent := fun hm => absurd (hi _ hm) (by decide)
  have hfront : ∀ semicolon, semicolon = [] ∨ semicolon = [';'] →
      separateFrom quote before ((indent ++ (leadText v i ++ semicolon) ++ repeatHead numeral) ++ rest) =
        (indent ++ (leadText v i ++ semicolon) ++ repeatHead numeral) ++ separateFrom quote (some '>') rest ∧
      '\n' ∉ indent ++ (leadText v i ++ semicolon) ++ repeatHead numeral := by
    intro semicolon hs
    have hplain : ∀ d ∈ semicolon, isQuote d = false ∧ d.isAlpha = false ∧ d ≠ '\\' ∧ d ≠ '\n' := by
      rcases hs with rfl | rfl
      · simp
      · simp only [List.mem_singleton, forall_eq]
        decide
    have hleft : LeftAlone (indent ++ (leadText v i ++ semicolon) ++ repeatHead numeral) :=
      ((LeftAlone.plain fun d hd => ⟨(hindent d hd).1, (hindent d hd).2.1⟩).append
        ((leftAlone_leadText v i).append (.plain fun d hd => ⟨(hplain d hd).1, (hplain d hd).2.1⟩))).append
          (leftAlone_repeatHead hn)
    have hall : ∀ d ∈ indent ++ (leadText v i ++ semicolon) ++ repeatHead numeral,
        isQuote d = false ∧ d ≠ '\\' ∧ d ≠ '\n' := by
      intro d hd
      simp only [List.mem_append] at hd
      rcases hd with (hd | hd | hd) | hd
      · exact ⟨(hindent d hd).1, (hindent d hd).2.2, fun he => hnl (he ▸ hd)⟩
      · exact plain_leadText v i d hd
      · exact ⟨(hplain d hd).1, (hplain d hd).2.2⟩
      · exact plain_repeatHead hn d hd
    have hkept := (separateFrom_kept hleft (fun d hd => ⟨(hall d hd).1, (hall d hd).2.1⟩) hquote before rest).1
    have hlast : (before.toList ++ (indent ++ (leadText v i ++ semicolon) ++ repeatHead numeral)).getLast? = some '>' := by
      have hhead : repeatHead numeral = ("repeat".toList ++ ' ' :: (numeral ++ [' ', '-'])) ++ ['>'] := by
        simp only [repeatHead, List.append_assoc, List.cons_append, List.nil_append]
      rw [hhead, ← List.append_assoc, ← List.append_assoc, List.getLast?_concat]
    rw [hlast] at hkept
    exact ⟨hkept, fun hm => (hall _ hm).2.2 rfl⟩
  obtain ⟨lines, hlines⟩ := splitLines_eq_cons (separateFrom quote (some '>') rest)
  obtain ⟨hkept, hn₁⟩ := hfront [] (.inl rfl)
  obtain ⟨hkept', hn₂⟩ := hfront [';'] (.inr rfl)
  have hlines' := splitLines_prepend hn₁ hlines
  have hlines'' := splitLines_prepend hn₂ hlines
  rw [← hkept] at hlines'
  rw [← hkept'] at hlines''
  simp only [List.append_assoc, List.append_nil, List.cons_append, List.nil_append] at hlines' hlines''
  rw [hlines', hlines'']
  exact .here hi

theorem semicoloned_separate (hn : IsDigits numeral) (h : Semicoloned v i numeral lines lines') :
    ∀ {quote : Option Char}, (∀ q ∈ quote, isQuote q) → ∀ before : Option Char, (∀ line ∈ lines, '\n' ∉ line) →
      Semicoloned v i numeral (splitLines (separateFrom quote before (joinLines lines)))
        (splitLines (separateFrom quote before (joinLines lines'))) := by
  have hjoin : ∀ (line : List Char) (lines : List (List Char)), joinLines (line :: lines) = line ++ tailText lines :=
    fun line lines => ((List.cons.inj (tailText_eq (List.cons_ne_nil line lines))).2).symm
  induction h with
  | @here indent body lines hi =>
    intro quote hquote before _
    have htext := semicoloned_separate_here hn hquote v i hi before (body ++ tailText lines)
    rw [hjoin, hjoin]
    simpa only [List.append_assoc, List.cons_append] using htext
  | @line raw lines lines' h ih =>
    intro quote hquote before hlines
    obtain ⟨hraw, hlines⟩ := List.forall_mem_cons.1 hlines
    have hne : lines ≠ [] ∧ lines' ≠ [] := by cases h <;> simp
    obtain ⟨out, hout⟩ := exists_spaced before hquote raw
    have hnext := ih (isQuote_of_quoteAfter hquote raw) (some '\n') hlines
    rw [joinLines_cons hne.1, joinLines_cons hne.2, hout.space _ rfl, hout.space _ rfl,
      splitLines_append (hout.newline_notMem hraw), splitLines_append (hout.newline_notMem hraw)]
    exact .line hnext

/-! ## Scripts -/

variable {cs cs' : List Char}

/-- Texts with such lines call the sketch itself or do not, and have scripts with such lines. -/
theorem semicoloned_finish {count : Nat → Nat} (hn : IsDigits numeral)
    (h : Semicoloned (.loops count) i numeral (splitLines cs) (splitLines cs')) :
    hasDraw true (instrument cs') = hasDraw true (instrument cs) ∧
      ∃ v' i', Semicoloned v' i' numeral (splitLines (finish cs)) (splitLines (finish cs')) := by
  obtain ⟨v', i', hinstrument⟩ := semicoloned_instrumentLines h 0 0 false
  have hlines : ∀ cs, instrumentLines 0 (pendingReport false 0) (splitLines cs) = splitLines (instrument cs) :=
    fun cs => (splitLines_instrument cs).symm
  rw [hlines, hlines] at hinstrument
  refine ⟨?_, v', i', ?_⟩
  · have hdraws := semicoloned_draws hinstrument
    rw [tailText_eq (splitLines_ne_nil _), tailText_eq (splitLines_ne_nil _), joinLines_splitLines,
      joinLines_splitLines] at hdraws
    have hboth := hdraws.draw true
    rw [hasDraw_blank rfl, hasDraw_blank rfl] at hboth
    exact hboth.symm
  · have hcalls := semicoloned_calls hn hinstrument
    rw [← splitLines_callBarewords, ← splitLines_callBarewords] at hcalls
    have hseparate := semicoloned_separate hn hcalls (show ∀ q ∈ (none : Option Char), isQuote q by simp) none
      fun _ => newline_notMem_of_mem_splitLines
    rwa [joinLines_splitLines, joinLines_splitLines] at hseparate

/-- A semicolon in front of a loop does not change what a sketch does. -/
theorem ofSketch_semicoloned {count : Nat → Nat} (hn : IsDigits numeral) (hne : cs ≠ []) (hne' : cs' ≠ [])
    (hpaired : Delimiter.all.find? (·.isUnpaired (dropLiterals (stripComments (removeTicked cs')))) =
      Delimiter.all.find? (·.isUnpaired (dropLiterals (stripComments (removeTicked cs)))))
    (h : Semicoloned (.loops count) i numeral (splitLines (prepare cs)) (splitLines (prepare cs'))) (r : Option Routine) :
    Routine.ofSketch cs = .ok r ↔ Routine.ofSketch cs' = .ok r := by
  obtain ⟨hdraw, v', i', hfinish⟩ := semicoloned_finish hn h
  have hscript : ∀ cs script, toScript cs = .ok script ↔
      (Delimiter.all.find? (·.isUnpaired (dropLiterals (stripComments (removeTicked cs)))) = none ∧
        hasDraw true (instrument (prepare cs)) = false) ∧ finish (prepare cs) = script := fun cs script => by
    rw [toScript_eq_ok_iff, and_assoc]
    rfl
  simp only [ofSketch_eq_ok_iff hne, ofSketch_eq_ok_iff hne', hscript, hpaired, hdraw]
  constructor
  · rintro ⟨_, p, ⟨hfront, rfl⟩, hp, hr⟩
    exact ⟨_, p, ⟨hfront, rfl⟩, (compile_semicoloned hfinish p).1 hp, hr⟩
  · rintro ⟨_, p, ⟨hfront, rfl⟩, hp, hr⟩
    exact ⟨_, p, ⟨hfront, rfl⟩, (compile_semicoloned hfinish p).2 hp, hr⟩

end LiveSketch.Sketch

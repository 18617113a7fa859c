import LiveSketch.Proofs.Script.SameLines
import LiveSketch.Proofs.Sketch.DrawCalls
import LiveSketch.Proofs.Sketch.Padding
import LiveSketch.Proofs.Sketch.SeparatedWords

/-!
# Lines with blanks behind and between them

What the passes behind the instrumentation make of lines with blanks behind them, lines of white space between them, and
other numbers in their reports (`Alike`): no call of the sketch itself comes up or goes (`Alike.draws`), the statements
of single words stay (`Alike.calls`), and the commands are separated in the same places (`Alike.separate`). The scripts
have the same lines to the compiler (`Alike.sameLines`).
-/
namespace LiveSketch.Sketch

open Text Script
open Script.Lexer
open Number (digitsOf)

variable {g : Float → Float} {c : Char} {pad : List Char} {ends : Prop}

/-! ## Lines with reports -/

/-- The second line is the first one with a blank behind it, and perhaps with another number in the report at its
front. -/
inductive LineAlike (g : Float → Float) (pad : List Char) : List Char → List Char → Prop where
  | plain {line : List Char} : (pad ≠ [] → line.getLast? ≠ some '\r') → LineAlike g pad line (line ++ pad)
  | report {front body : List Char} {i j : Nat} : (∀ d ∈ front, isBlank d) → g (numeral j) = g (numeral i) →
      (pad ≠ [] → body.getLast? ≠ some '\r') →
      LineAlike g pad (front ++ (leadText .reports i ++ body)) (front ++ (leadText .reports j ++ (body ++ pad)))

/-- The second lines are the first ones with blanks behind them and lines of white space between them. Behind the last
line a blank stands only if the text `ends` so. -/
inductive Alike (g : Float → Float) (c : Char) (ends : Prop) : List (List Char) → List (List Char) → Prop where
  | nil : Alike g c ends [] []
  | line {pad line line' : List Char} {blanks lines lines' : List (List Char)} : pad = [] ∨ pad = [c] →
      (lines = [] → (pad = [] ∨ ends) ∧ blanks = []) → (∀ blank ∈ blanks, ∀ d ∈ blank, isIndent d) →
      LineAlike g pad line line' → Alike g c ends lines lines' →
      Alike g c ends (line :: lines) (line' :: (blanks ++ lines'))

theorem dropReturn_eq_self {line : List Char} (h : line.getLast? ≠ some '\r') : dropReturn line = line := by
  rw [dropReturn, if_neg (by simpa using h)]

theorem dropReturn_return (line : List Char) : dropReturn (line ++ ['\r']) = line := by
  rw [dropReturn, List.getLast?_concat, if_pos (beq_self_eq_true _), List.dropLast_concat]

theorem isIdle_of_isIndent {blank : List Char} (h : ∀ d ∈ blank, isIndent d) : SameLines.IsIdle blank := by
  have hne : blank.getLast? ≠ some '\r' := fun he => absurd (h _ (List.mem_of_getLast? he)) (by decide)
  rw [SameLines.IsIdle, dropReturn_eq_self hne, dropWhile_of_all h]
  rfl

namespace LineAlike

/-- What the lexer drops or passes over at the end of a line. -/
theorem exists_drop (hpad : pad = [] ∨ pad = ['\r'] ∨ pad = [' ']) {line : List Char} (h : pad ≠ [] → line.getLast? ≠ some '\r') :
    ∃ rest, SameLines.IsPad rest ∧ dropReturn (line ++ pad) = dropReturn line ++ rest ∧ (pad ≠ [' '] → rest = []) := by
  rcases hpad with rfl | rfl | rfl
  · exact ⟨[], .inl rfl, by simp, fun _ => rfl⟩
  · exact ⟨[], .inl rfl, by rw [dropReturn_return, dropReturn_eq_self (h (by simp)), List.append_nil], fun _ => rfl⟩
  · refine ⟨[' '], .inr rfl, ?_, fun hne => absurd rfl hne⟩
    rw [dropReturn_eq_self (h (by simp)), dropReturn_eq_self]
    simp

theorem sameLines (hpad : pad = [] ∨ pad = ['\r'] ∨ pad = [' ']) {line line' : List Char} (h : LineAlike g pad line line')
    {lines lines' : List (List Char)} (hl : SameLines g lines lines') : SameLines g (line :: lines) (line' :: lines') := by
  cases h with
  | plain hret =>
    obtain ⟨rest, hrest, hdrop, -⟩ := exists_drop hpad hret
    exact .line hrest hdrop hl
  | @report front body i j hfront hg hret =>
    obtain ⟨rest, hrest, hdrop, -⟩ := exists_drop hpad hret
    refine .reportLine hrest hg hfront (SameLines.dropReturn_report front i body) ?_ hl
    rw [SameLines.dropReturn_report, hdrop]

/-- A carriage return is dropped, so it may be in either text. -/
theorem sameLines_return (hpad : pad = [] ∨ pad = ['\r']) {line line' : List Char} (h : LineAlike g pad line line')
    {lines lines' : List (List Char)} (hl : SameLines g lines' lines) : SameLines g (line' :: lines') (line :: lines) := by
  have hpad' : pad = [] ∨ pad = ['\r'] ∨ pad = [' '] := hpad.imp_right .inl
  have hne : pad ≠ [' '] := by rcases hpad with rfl | rfl <;> simp
  cases h with
  | plain hret =>
    obtain ⟨rest, -, hdrop, hnil⟩ := exists_drop hpad' hret
    exact .line (.inl rfl) (by rw [hdrop, hnil hne, List.append_nil, List.append_nil]) hl
  | @report front body i j hfront hg hret =>
    obtain ⟨rest, -, hdrop, hnil⟩ := exists_drop hpad' hret
    refine .reportLine (.inl rfl) hg.symm hfront (SameLines.dropReturn_report front j (body ++ pad)) ?_ hl
    rw [SameLines.dropReturn_report, hdrop, hnil hne, List.append_nil, List.append_nil]

end LineAlike

/-- Lines of white space are passed over. -/
theorem sameLines_blanks {lines lines' blanks : List (List Char)} (hb : ∀ blank ∈ blanks, ∀ d ∈ blank, isIndent d) :
    (SameLines g lines lines' → SameLines g lines (blanks ++ lines')) ∧
      (SameLines g lines' lines → SameLines g (blanks ++ lines') lines) := by
  induction blanks with
  | nil => exact ⟨id, id⟩
  | cons blank blanks ih =>
    rw [List.forall_mem_cons] at hb
    have hidle := isIdle_of_isIndent hb.1
    exact ⟨fun h => .idle_right hidle ((ih hb.2).1 h), fun h => .idle_left hidle ((ih hb.2).2 h)⟩

namespace Alike

variable {lines lines' : List (List Char)}

theorem sameLines (hc : IsPadding c) (h : Alike g c ends lines lines') : SameLines g lines lines' := by
  induction h with
  | nil => exact .nil g
  | line hpad _ hblanks hline _ ih =>
    refine hline.sameLines (hpad.imp_right fun h => ?_) ((sameLines_blanks hblanks).1 ih)
    rcases hc with rfl | rfl
    · exact .inr h
    · exact .inl h

theorem sameLines_return (h : Alike g '\r' ends lines lines') : SameLines g lines' lines := by
  induction h with
  | nil => exact .nil g
  | line hpad _ hblanks hline _ ih => exact hline.sameLines_return hpad ((sameLines_blanks hblanks).2 ih)

end Alike

/-! ## Calls of the sketch itself -/

theorem isBlank_of_isIndent {d : Char} (h : isIndent d) : isBlank d := by
  simp only [isIndent, Bool.or_eq_true, beq_iff_eq] at h
  rcases h with rfl | rfl <;> rfl

/-- In a text without white space, plus signs and semicolons no call begins. -/
theorem hasDraw_inner {word : List Char} (h : ∀ d ∈ word, (isBlank d || d == '+' || d == ';') = false) (rest : List Char) :
    hasDraw false (word ++ rest) = hasDraw false rest := by
  induction word with
  | nil => rfl
  | cons d word ih =>
    rw [List.forall_mem_cons] at h
    rw [List.cons_append, hasDraw, h.1, ih h.2, Bool.false_and, Bool.false_or]

/-- A report calls nothing else. -/
theorem hasDraw_report (boundary : Bool) (i : Nat) (rest : List Char) :
    hasDraw boundary (report i ++ rest) = hasDraw true rest := by
  obtain ⟨word, hmarker, hword⟩ : ∃ word, markerWord = 'a' :: word ∧
      ∀ d ∈ word, (isBlank d || d == '+' || d == ';') = false := ⟨_, rfl, by decide⟩
  have hdigit : ∀ d : Char, d.isDigit → (isBlank d || d == '+' || d == ';') = false := by
    intro d hd
    have hne : ∀ e ∈ ['+', ';'], d ≠ e := by
      rintro e he rfl
      simp only [List.mem_cons, List.not_mem_nil, or_false] at he
      rcases he with rfl | rfl <;> cases hd
    simp [isBlank_of_isDigit (isDigit_of_ascii hd), hne '+' (by simp), hne ';' (by simp)]
  have hinner : ∀ d ∈ word ++ '(' :: (digitsOf i ++ [')']), (isBlank d || d == '+' || d == ';') = false := by
    intro d hd
    simp only [List.mem_append, List.mem_cons, List.not_mem_nil, or_false] at hd
    rcases hd with hd | rfl | hd | rfl
    · exact hword d hd
    · rfl
    · exact hdigit d (Number.isDigit_of_mem_digitsOf hd)
    · rfl
  have htext : report i ++ rest = ';' :: 'a' :: ((word ++ '(' :: (digitsOf i ++ [')'])) ++ ';' :: rest) := by
    rw [report_eq, hmarker]
    simp
  have hsemicolon : ∀ cs, startsDraw (';' :: cs) = false := fun _ => rfl
  have hletter : ∀ cs, startsDraw ('a' :: cs) = false := fun _ => rfl
  rw [htext, hasDraw, hsemicolon, Bool.and_false, Bool.false_or]
  have hbreak : (isBlank ';' || ';' == '+' || ';' == ';') = true := rfl
  have hplain : (isBlank 'a' || 'a' == '+' || 'a' == ';') = false := rfl
  rw [hbreak, hasDraw, hletter, Bool.and_false, Bool.false_or, hplain, hasDraw_inner hinner, hasDraw, hbreak, Bool.false_and,
    Bool.false_or]

theorem hasDraw_blankFront {front : List Char} (h : ∀ d ∈ front, isBlank d) (rest : List Char) :
    hasDraw true (front ++ rest) = hasDraw true rest := by
  induction front with
  | nil => rfl
  | cons d front ih =>
    rw [List.forall_mem_cons] at h
    rw [List.cons_append, hasDraw_blank h.1, ih h.2]

/-- The lines of a text, each behind a newline. -/
def tailText (lines : List (List Char)) : List Char := lines.flatMap ('\n' :: ·)

theorem tailText_eq {lines : List (List Char)} (h : lines ≠ []) : tailText lines = '\n' :: joinLines lines := by
  induction lines with
  | nil => exact absurd rfl h
  | cons line lines ih =>
    cases lines with
    | nil => simp [tailText, joinLines]
    | cons line' lines =>
      have hrest := ih (List.cons_ne_nil _ _)
      rw [tailText] at hrest ⊢
      rw [List.flatMap_cons, hrest, joinLines_cons (List.cons_ne_nil _ _)]
      rfl

/-- Numbers in reports and blanks do not matter to the calls behind a newline. -/
theorem LineAlike.draws (hpad : ∀ d ∈ pad, isBlank d) {line line' bs bs' : List Char} (h : LineAlike g pad line line')
    (hd : DrawsAlike bs bs') : DrawsAlike ('\n' :: (line ++ bs)) ('\n' :: (line' ++ bs')) := by
  have hbehind : DrawsAlike bs (pad ++ bs') := hd.trans (drawsAlike_blanks hpad hd.blank').symm
  cases h with
  | plain =>
    rw [List.append_assoc, ← List.cons_append, ← List.cons_append]
    exact hbehind.append_left (List.cons_ne_nil _ _) (by simp; rfl)
  | @report front body i j hfront =>
    have htext : ∀ (k : Nat) (text : List Char), front ++ (leadText .reports k ++ text) =
        front ++ (Sketch.report k ++ ' ' :: text) := fun k text => by simp [leadText]
    have hfront' : ∀ d ∈ '\n' :: front, isBlank d := List.forall_mem_cons.2 ⟨rfl, hfront⟩
    have hparen : ∀ (k : Nat) (text : List Char), opensParen ('\n' :: front ++ (Sketch.report k ++ text)) = false := by
      intro k text
      rw [opensParen_blanks hfront', report_eq, List.append_assoc, List.singleton_append, opensParen_cons]
      rfl
    have hdraw : ∀ (k : Nat) (text : List Char) (boundary : Bool),
        hasDraw boundary ('\n' :: front ++ (Sketch.report k ++ text)) = hasDraw true text := fun k text boundary => by
      rw [List.cons_append, hasDraw_blank rfl, hasDraw_blankFront hfront, hasDraw_report]
    simp only [htext, List.append_assoc, ← List.cons_append]
    refine ⟨by simp; rfl, by simp; rfl, ?_, fun boundary => ?_⟩
    · rw [hparen, hparen]
    · rw [hdraw, hdraw]
      have hbody := hbehind.append (' ' :: body) true
      simpa using hbody

theorem tailText_append (lines lines' : List (List Char)) : tailText (lines ++ lines') = tailText lines ++ tailText lines' :=
  List.flatMap_append

theorem Alike.draws (hc : IsPadding c) {lines lines' : List (List Char)} (h : Alike g c ends lines lines') :
    DrawsAlike (tailText lines) (tailText lines') := by
  induction h with
  | nil => exact ⟨by simp [tailText], by simp [tailText], rfl, fun _ => rfl⟩
  | @line pad line line' blanks lines lines' hpad _ hblanks hline _ ih =>
    have hpads : ∀ d ∈ pad, isBlank d := by
      rcases hpad with rfl | rfl
      · simp
      · simpa using hc.blank
    have hbetween : ∀ d ∈ tailText blanks, isBlank d := by
      intro d hd
      obtain ⟨blank, hb, hd⟩ := List.mem_flatMap.1 hd
      rcases List.mem_cons.1 hd with rfl | hd
      · rfl
      · exact isBlank_of_isIndent (hblanks blank hb d hd)
    have hrest : DrawsAlike (tailText lines) (tailText (blanks ++ lines')) := by
      rw [tailText_append]
      exact ih.trans (drawsAlike_blanks hbetween ih.blank').symm
    exact hline.draws hpads hrest

/-! ## Single words -/

/-- The text up to a semicolon is a statement. -/
theorem pieces_semicolon {word : List Char} (h : ∀ d ∈ word, isQuote d = false ∧ d ≠ ';' ∧ d ≠ '-') (rest : List Char) :
    pieces none (word ++ ';' :: rest) = (word, [';']) :: pieces none rest := by
  induction word with
  | nil => rfl
  | cons d word ih =>
    rw [List.forall_mem_cons] at h
    obtain ⟨⟨hq, hs, hm⟩, h⟩ := h
    rw [List.cons_append, pieces, if_neg (by simpa using hs), hq]
    · rw [if_neg Bool.false_ne_true, ih h]
      rfl
    · rintro _ rfl
      exact absurd rfl hm

theorem flatMap_consPiece_call {d : Char} (hd : isBlank d) {ps : List Piece} (hne : ps ≠ []) :
    (consPiece d ps).flatMap (fun p => callBareword p.1 ++ p.2) = d :: ps.flatMap fun p => callBareword p.1 ++ p.2 := by
  obtain ⟨p, ps, rfl⟩ := List.exists_cons_of_ne_nil hne
  simp [consPiece, callBareword_cons hd]

theorem callBareword_blanks {front : List Char} (h : ∀ d ∈ front, isBlank d) : callBareword front = front := by
  induction front with
  | nil => rfl
  | cons d front ih =>
    rw [List.forall_mem_cons] at h
    rw [callBareword_cons h.1, ih h.2]

/-- A statement with a character that no word has stays as it is. -/
theorem callBareword_of_mem {statement : List Char} {d : Char} (hd : d ∈ statement) (hb : isBlank d = false)
    (ha : d.isAlphanum = false) : callBareword statement = statement := by
  have hdrop : ∀ {cs : List Char}, d ∈ cs → d ∈ cs.dropWhile isBlank := by
    intro cs hm
    rw [← List.takeWhile_append_dropWhile (p := isBlank) (l := cs)] at hm
    refine (List.mem_append.1 hm).resolve_left fun hm => ?_
    rw [List.all_eq_true.1 List.all_takeWhile d hm] at hb
    cases hb
  have hm : d ∈ trim statement := List.mem_reverse.2 (hdrop (List.mem_reverse.2 (hdrop hd)))
  rw [callBareword, if_neg]
  intro hword
  simp only [isBareword, Bool.and_eq_true] at hword
  have hall := List.all_eq_true.1 hword.1.2 d hm
  rw [ha] at hall
  cases hall

/-- The report stays, and behind it the code is gone over by itself. -/
theorem callBarewordsOfLine_report {front : List Char} (hfront : ∀ d ∈ front, isBlank d) (i : Nat) (body : List Char) :
    callBarewordsOfLine (front ++ (leadText .reports i ++ body)) =
      front ++ (leadText .reports i ++ callBarewordsOfLine body) := by
  have hplain : ∀ d ∈ front, isQuote d = false ∧ d ≠ ';' ∧ d ≠ '-' := by
    intro d hd
    have hb := hfront d hd
    refine ⟨(isBlank_plain hb).1, ?_, ?_⟩ <;>
      · rintro rfl
        cases hb
  have hcall : ∀ d ∈ markerWord ++ '(' :: (digitsOf i ++ [')']), isQuote d = false ∧ d ≠ ';' ∧ d ≠ '-' := by
    have hmarker : ∀ d ∈ markerWord, isQuote d = false ∧ d ≠ ';' ∧ d ≠ '-' := by decide
    intro d hd
    simp only [List.mem_append, List.mem_cons, List.not_mem_nil, or_false] at hd
    rcases hd with hd | rfl | hd | rfl
    · exact hmarker d hd
    · decide
    · have hdigit := Number.isDigit_of_mem_digitsOf hd
      refine ⟨isQuote_of_isNamePart (by simp [isNamePart, Char.isAlphanum, hdigit]), ?_, ?_⟩ <;>
        · rintro rfl
          cases hdigit
    · decide
  have htext : front ++ (leadText .reports i ++ body) =
      front ++ ';' :: ((markerWord ++ '(' :: (digitsOf i ++ [')'])) ++ ';' :: ' ' :: body) := by
    simp [leadText, report_eq]
  have hstays : callBareword (markerWord ++ '(' :: (digitsOf i ++ [')'])) = markerWord ++ '(' :: (digitsOf i ++ [')']) :=
    callBareword_of_mem (List.mem_append_right _ List.mem_cons_self) rfl rfl
  have hspace : pieces none (' ' :: body) = consPiece ' ' (pieces none body) := by
    rw [pieces, if_neg (by decide)]
    · rfl
    · simp
  have hline : ∀ line, callBarewordsOfLine line = (pieces none line).flatMap fun p => callBareword p.1 ++ p.2 := fun _ => rfl
  rw [htext, hline, hline, pieces_semicolon hplain, pieces_semicolon hcall, List.flatMap_cons, List.flatMap_cons,
    callBareword_blanks hfront, hstays, hspace, flatMap_consPiece_call rfl (pieces_text none body).2.2]
  simp [leadText, report_eq]

theorem getLast?_callBareword {statement : List Char} (h : (callBareword statement).getLast? = some '\r') :
    statement.getLast? = some '\r' := by
  unfold callBareword at h
  split at h
  · rw [← trimEnd_append_blankEnd statement, List.getLast?_append]
    rw [List.getLast?_append] at h
    cases hb : (blankEnd statement).getLast? with
    | none => simp [hb] at h
    | some d =>
      rw [hb] at h
      exact h
  · exact h

theorem getLast?_calls {ps : List Piece} (hd : Delimited ps)
    (h : (ps.flatMap fun p => callBareword p.1 ++ p.2).getLast? = some '\r') :
    (ps.flatMap Piece.text).getLast? = some '\r' := by
  induction ps with
  | nil => cases h
  | cons p ps ih =>
    obtain ⟨statement, separator⟩ := p
    rw [List.flatMap_cons, List.getLast?_append] at h ⊢
    cases ps with
    | nil =>
      obtain rfl : separator = [] := hd
      simp only [List.flatMap_nil, List.getLast?_nil, Option.none_or, List.append_nil] at h
      simpa [Piece.text] using getLast?_callBareword h
    | cons q qs =>
      obtain ⟨hs, hd⟩ := hd
      rcases Option.or_eq_some_iff.1 h with h | ⟨-, h⟩
      · rw [ih hd h]
        rfl
      · -- the line does not end in a separator
        rcases hs with rfl | rfl <;> simp at h

theorem getLast?_callBarewordsOfLine {line : List Char} (h : (callBarewordsOfLine line).getLast? = some '\r') :
    line.getLast? = some '\r' := by
  obtain ⟨htext, hd, -⟩ := pieces_text none line
  rw [← htext]
  exact getLast?_calls hd h

theorem LineAlike.calls (hpad : ∀ body, callBarewordsOfLine (body ++ pad) = callBarewordsOfLine body ++ pad)
    {line line' : List Char} (h : LineAlike g pad line line') :
    LineAlike g pad (callBarewordsOfLine line) (callBarewordsOfLine line') := by
  cases h with
  | plain hret =>
    rw [hpad]
    exact .plain fun hne hlast => hret hne (getLast?_callBarewordsOfLine hlast)
  | report hfront hg hret =>
    rw [callBarewordsOfLine_report hfront, callBarewordsOfLine_report hfront, hpad]
    exact .report hfront hg fun hne hlast => hret hne (getLast?_callBarewordsOfLine hlast)

theorem callBarewordsOfLine_blank {blank : List Char} (h : ∀ d ∈ blank, isIndent d) : callBarewordsOfLine blank = blank := by
  have hplain : ∀ {cs : List Char}, (∀ d ∈ cs, isIndent d) → pieces none cs = [(cs, [])] := by
    intro cs hcs
    induction cs with
    | nil => rfl
    | cons d cs ih =>
      rw [List.forall_mem_cons] at hcs
      have hd := hcs.1
      simp only [isIndent, Bool.or_eq_true, beq_iff_eq] at hd
      rcases hd with rfl | rfl <;> simp [pieces, ih hcs.2, consPiece, isQuote]
  have hline : callBarewordsOfLine blank = (pieces none blank).flatMap fun p => callBareword p.1 ++ p.2 := rfl
  rw [hline, hplain h]
  simp [callBareword_blanks fun d hd => isBlank_of_isIndent (h d hd)]

theorem Alike.calls (hc : IsPadding c) {lines lines' : List (List Char)} (h : Alike g c ends lines lines') :
    Alike g c ends (lines.map callBarewordsOfLine) (lines'.map callBarewordsOfLine) := by
  induction h with
  | nil => exact .nil
  | @line pad line line' blanks lines lines' hpad hlast hblanks hline _ ih =>
    have hstays : blanks.map callBarewordsOfLine = blanks :=
      (List.map_congr_left fun blank hb => callBarewordsOfLine_blank (hblanks blank hb)).trans (List.map_id blanks)
    rw [List.map_cons, List.map_cons, List.map_append, hstays]
    refine .line hpad (fun hnil => hlast (List.map_eq_nil_iff.1 hnil)) hblanks (hline.calls fun body => ?_) ih
    rcases hpad with rfl | rfl
    · rw [List.append_nil, List.append_nil]
    · exact callBarewordsOfLine_pad hc body

/-! ## Separated commands -/

section

variable {quote before : Option Char} {as out text : List Char}

theorem isQuote_of_quoteAfter (hquote : ∀ q ∈ quote, isQuote q) (cs : List Char) : ∀ q ∈ quoteAfter quote cs, isQuote q := by
  fun_induction quoteAfter quote cs with
  | case1 quote => exact hquote
  | case2 q => exact hquote
  | case3 q d cs ih => exact ih hquote
  | case4 q c cs _ _ ih =>
    refine ih ?_
    split
    · simp
    · exact hquote
  | case5 c cs ih =>
    refine ih ?_
    split
    · simpa
    · simp

theorem separateFrom_quotes {q : Char} (h : ∀ d ∈ text, d ≠ q ∧ d ≠ '\\') (before : Option Char) (rest : List Char) :
    separateFrom (some q) before (text ++ rest) = text ++ separateFrom (some q) (before.toList ++ text).getLast? rest ∧
      quoteAfter (some q) (text ++ rest) = quoteAfter (some q) rest := by
  induction text generalizing before with
  | nil => exact ⟨by cases before <;> rfl, rfl⟩
  | cons d text ih =>
    obtain ⟨⟨hq, hb⟩, h⟩ := List.forall_mem_cons.1 h
    obtain ⟨hs, ha⟩ := ih h (some d)
    have hlast : (before.toList ++ d :: text).getLast? = ((some d).toList ++ text).getLast? := by
      rw [List.getLast?_append, List.getLast?_cons]
      exact List.getLast?_cons.symm
    refine ⟨?_, ?_⟩
    · rw [List.cons_append, separateFrom_quoted hb, if_neg (by simpa using hq), hs, hlast, List.cons_append]
    · rw [List.cons_append, quoteAfter, if_neg (by simpa using hq), ha] <;> simp [hb]

/-- A text without quotes that is left alone outside literals is left alone everywhere. -/
theorem separateFrom_kept (hl : LeftAlone text) (hp : ∀ d ∈ text, isQuote d = false ∧ d ≠ '\\')
    (hquote : ∀ q ∈ quote, isQuote q) (before : Option Char) (rest : List Char) :
    separateFrom quote before (text ++ rest) = text ++ separateFrom quote (before.toList ++ text).getLast? rest ∧
      quoteAfter quote (text ++ rest) = quoteAfter quote rest := by
  cases quote with
  | none =>
    have hbefore : before.toList.getLast? = before := by cases before <;> rfl
    have hdone := hl before.toList rest
    rw [hbefore] at hdone
    exact ⟨hdone, quoteAfter_of_plain (fun d hd => (hp d hd).1) rest⟩
  | some q =>
    refine separateFrom_quotes (fun d hd => ⟨?_, (hp d hd).2⟩) before rest
    rintro rfl
    have hq := hquote d rfl
    rw [(hp d hd).1] at hq
    cases hq

theorem plain_of_isBlank {d : Char} (h : isBlank d) : isQuote d = false ∧ d.isAlpha = false ∧ d ≠ '\\' := by
  refine ⟨(isBlank_plain h).1, Bool.eq_false_iff.2 fun ha => ?_, ?_⟩
  · have hword := isWord_of_isAlpha ha
    rw [isWord_of_isBlank h] at hword
    cases hword
  · rintro rfl
    cases h

/-- A report has a word that begins no statement. -/
theorem leftAlone_lead (i : Nat) : LeftAlone (leadText .reports i) := by
  have hmarker : LeftAlone (markerWord ++ ['(']) := by
    intro done more
    have hparts : ∀ d ∈ "ddDoOnce".toList, isNamePart d := by decide
    have hword : separateFrom none done.getLast? ('a' :: "ddDoOnce".toList ++ '(' :: more) = _ :=
      separateFrom_word rfl hparts (by simp; rfl)
    rw [wordFront, List.head?_cons, Option.any_some, show isAsciiSpace '(' = false from rfl, Bool.and_false, Bool.false_and,
      if_neg Bool.false_ne_true, List.nil_append, separateFrom_other rfl rfl] at hword
    have hend : (done ++ (markerWord ++ ['('])).getLast? = some '(' := by rw [← List.append_assoc, List.getLast?_concat]
    have hm : markerWord = 'a' :: "ddDoOnce".toList := rfl
    rw [hend, hm]
    simpa using hword
  have hdigits : LeftAlone (digitsOf i ++ [')', ';', ' ']) := by
    refine .plain fun d hd => ?_
    simp only [List.mem_append, List.mem_cons, List.not_mem_nil, or_false] at hd
    rcases hd with hd | rfl | rfl | rfl
    · have hdigit := Number.isDigit_of_mem_digitsOf hd
      exact ⟨isQuote_of_isNamePart (by simp [isNamePart, Char.isAlphanum, hdigit]), Text.not_isAlpha_of_isDigit hdigit⟩
    all_goals decide
  have htext : leadText .reports i = [';'] ++ ((markerWord ++ ['(']) ++ (digitsOf i ++ [')', ';', ' '])) := by
    simp [leadText, report_eq]
  rw [htext]
  exact (LeftAlone.plain (by decide)).append (hmarker.append hdigits)

theorem plain_lead (i : Nat) : ∀ d ∈ leadText .reports i, isQuote d = false ∧ d ≠ '\\' := by
  have hmarker : ∀ d ∈ markerWord, isQuote d = false ∧ d ≠ '\\' := by decide
  intro d hd
  simp only [leadText, report_eq, List.mem_append, List.mem_cons, List.not_mem_nil, or_false] at hd
  rcases hd with (rfl | hd | rfl | hd | rfl | rfl) | rfl
  · decide
  · exact hmarker d hd
  · decide
  · have hpart : isNamePart d := by simp [isNamePart, Char.isAlphanum, Number.isDigit_of_mem_digitsOf hd]
    refine ⟨isQuote_of_isNamePart hpart, ?_⟩
    rintro rfl
    cases hpart
  all_goals decide

/-- Blanks and a report in front of the code of a line. -/
theorem separateFrom_report (hquote : ∀ q ∈ quote, isQuote q) {front : List Char} (hfront : ∀ d ∈ front, isBlank d) (i : Nat)
    (before : Option Char) (rest : List Char) :
    separateFrom quote before (front ++ (leadText .reports i ++ rest)) =
        front ++ (leadText .reports i ++ separateFrom quote (some ' ') rest) ∧
      quoteAfter quote (front ++ (leadText .reports i ++ rest)) = quoteAfter quote rest := by
  have hplain := fun d hd => plain_of_isBlank (hfront d hd)
  have hfront' := separateFrom_kept (LeftAlone.plain fun d hd => ⟨(hplain d hd).1, (hplain d hd).2.1⟩)
    (fun d hd => ⟨(hplain d hd).1, (hplain d hd).2.2⟩) hquote
  have hlead := separateFrom_kept (leftAlone_lead i) (plain_lead i) hquote
  have hlast : ∀ before : Option Char, (before.toList ++ leadText .reports i).getLast? = some ' ' := by
    intro before
    rw [leadText, ← List.append_assoc, List.getLast?_concat]
  rw [(hfront' before _).1, (hfront' before _).2, (hlead _ _).1, (hlead none _).2, hlast]
  exact ⟨rfl, rfl⟩

theorem Separated.getLast? (hc : c.isAlpha = false) (hs : c ≠ ';') (h : Separated (as ++ [c]) (out ++ [c])) :
    out.getLast? = as.getLast? := by
  have hempty : ∀ {cs : List Char}, Separated cs [] → cs = [] := by
    intro cs h
    cases h
    rfl
  generalize hin : as ++ [c] = ins at h
  generalize hout : out ++ [c] = outs at h
  induction h generalizing as out with
  | nil => simp at hin
  | @keep d cs out' h ih =>
    cases as with
    | nil =>
      obtain ⟨rfl, rfl⟩ := List.cons.inj hin
      cases h
      rw [List.append_cancel_right (hout.trans (List.nil_append _).symm)]
    | cons a as =>
      obtain ⟨rfl, rfl⟩ := List.cons.inj hin
      cases out with
      | nil =>
        obtain ⟨rfl, rfl⟩ := List.cons.inj hout
        exact absurd (hempty h) (by simp)
      | cons e out =>
        obtain ⟨rfl, rfl⟩ := List.cons.inj hout
        rw [List.getLast?_cons, List.getLast?_cons, ih rfl rfl]
  | @put d cs out' hd h ih =>
    cases out with
    | nil => exact absurd (List.cons.inj hout).1 hs
    | cons e out =>
      obtain ⟨rfl, rfl⟩ := List.cons.inj hout
      have hlast := ih hin rfl
      cases as with
      | nil =>
        obtain ⟨rfl, -⟩ := List.cons.inj hin
        rw [hc] at hd
        cases hd
      | cons a as =>
        rw [List.getLast?_cons, hlast, List.getLast?_cons]
        rfl

namespace Spaced

theorem separated (h : Spaced quote before as out) : Separated (as ++ [' ']) (out ++ [' ']) := by
  have hspace := h.space [] (rfl : isAsciiSpace ' ')
  rw [separateFrom_nil] at hspace
  rw [← hspace]
  exact separateWithin_separated (Nat.le_refl _)

theorem getLast? (h : Spaced quote before as out) : out.getLast? = as.getLast? := h.separated.getLast? rfl (by decide)

theorem newline_notMem (h : Spaced quote before as out) (hn : '\n' ∉ as) : '\n' ∉ out := by
  have hcount := h.separated.count
  rw [List.count_append, List.count_append, List.count_eq_zero.2 hn] at hcount
  exact List.count_eq_zero.1 (by simpa using hcount)

/-- A line with a blank behind it, in front of the next line and at the end of the text. -/
theorem line (h : Spaced quote before as out) (hquote : ∀ q ∈ quote, isQuote q) (hc : IsPadding c)
    (hpad : pad = [] ∨ pad = [c]) :
    (∀ bs, separateFrom quote before ((as ++ pad) ++ '\n' :: bs) =
      (out ++ pad) ++ '\n' :: separateFrom (quoteAfter quote as) (some '\n') bs) ∧
      (pad ≠ [] → separateFrom quote before (as ++ pad) = out ++ pad) := by
  rcases hpad with rfl | rfl
  · exact ⟨fun bs => by rw [List.append_nil, List.append_nil, h.space bs rfl], fun hne => absurd rfl hne⟩
  · refine ⟨fun bs => ?_, fun _ => ?_⟩
    · rw [List.append_assoc, List.singleton_append, h.space _ hc.asciiSpace,
        separateFrom_space (isQuote_of_quoteAfter hquote as) rfl, List.append_assoc, List.singleton_append]
    · rw [h.space [] hc.asciiSpace, separateFrom_nil]

/-- A line with a blank behind it at the end of the text, unless it ends in a command. -/
theorem last (h : Spaced quote before as out) (hc : IsPadding c) (hpad : pad = [] ∨ pad = [c]) {front : List Char}
    (hfront : front.getLast? = before) (hcommand : pad = [] ∨ endsInCommand (front ++ separateFrom quote before as) = false) :
    separateFrom quote before (as ++ pad) = separateFrom quote before as ++ pad ∧
      (pad ≠ [] → (separateFrom quote before as).getLast? = as.getLast?) := by
  rcases hpad with rfl | rfl
  · exact ⟨by rw [List.append_nil, List.append_nil], fun hne => absurd rfl hne⟩
  · have hout : separateFrom quote before as = out := by
      refine h.atEnd.resolve_right fun hends => ?_
      have hcommand := hcommand.resolve_left (by simp)
      rw [hends front hfront] at hcommand
      cases hcommand
    rw [hout, h.space [] hc.asciiSpace, separateFrom_nil]
    exact ⟨rfl, fun _ => h.getLast?⟩

end Spaced

end

theorem newline_notMem_separateFrom {quote before : Option Char} {as : List Char} (hn : '\n' ∉ as) :
    '\n' ∉ separateFrom quote before as := by
  have hseparated : Separated as (separateFrom quote before as) := separateWithin_separated (Nat.le_refl as.length)
  have hcount := hseparated.count
  rw [List.count_eq_zero.2 hn] at hcount
  exact List.count_eq_zero.1 hcount

section

variable {quote before : Option Char} {line line' : List Char}

/-- What becomes of a line in front of the next one. -/
theorem LineAlike.separate (hc : IsPadding c) (hpad : pad = [] ∨ pad = [c]) (h : LineAlike g pad line line')
    (hquote : ∀ q ∈ quote, isQuote q) (hn : '\n' ∉ line) :
    ∃ out out', LineAlike g pad out out' ∧ '\n' ∉ out ∧ '\n' ∉ out' ∧ ∀ bs,
      separateFrom quote before (line ++ '\n' :: bs) =
          out ++ '\n' :: separateFrom (quoteAfter quote line) (some '\n') bs ∧
        separateFrom quote before (line' ++ '\n' :: bs) =
          out' ++ '\n' :: separateFrom (quoteAfter quote line) (some '\n') bs := by
  have hnpad : '\n' ∉ pad := by
    rcases hpad with rfl | rfl
    · simp
    · simpa using Ne.symm hc.plain.2.2.2.2.2.1
  cases h with
  | plain hret =>
    obtain ⟨out, hout⟩ := exists_spaced before hquote line
    have hnout := hout.newline_notMem hn
    exact ⟨out, out ++ pad, .plain fun hne => hout.getLast? ▸ hret hne, hnout, by simp [hnout, hnpad], fun bs =>
      ⟨hout.space bs rfl, (hout.line hquote hc hpad).1 bs⟩⟩
  | @report front body i j hfront hg hret =>
    obtain ⟨out, hout⟩ := exists_spaced (some ' ') hquote body
    have hparts : '\n' ∉ front ∧ '\n' ∉ body := by
      simp only [List.mem_append, not_or] at hn
      exact ⟨hn.1, hn.2.2⟩
    have hlead : ∀ k, '\n' ∉ leadText .reports k := fun k => by simp [leadText, newline_notMem_report]
    have hnout := hout.newline_notMem hparts.2
    refine ⟨_, _, .report hfront hg fun hne => hout.getLast? ▸ hret hne, by simp [hparts.1, hlead, hnout],
      by simp [hparts.1, hlead, hnout, hnpad], fun bs => ?_⟩
    have hreport := separateFrom_report hquote hfront
    have hassoc : ∀ (k : Nat) (code rest : List Char), front ++ (leadText .reports k ++ code) ++ rest =
        front ++ (leadText .reports k ++ (code ++ rest)) := fun k code rest => by simp
    rw [(hreport i none body).2]
    simp only [hassoc]
    rw [(hreport i _ _).1, (hreport j _ _).1, hout.space bs rfl, (hout.line hquote hc hpad).1 bs]
    exact ⟨rfl, rfl⟩

/-- What becomes of the last line. -/
theorem LineAlike.separate_last (hc : IsPadding c) (hpad : pad = [] ∨ pad = [c]) (h : LineAlike g pad line line')
    (hquote : ∀ q ∈ quote, isQuote q) {front : List Char} (hfront : front.getLast? = before)
    (hcommand : pad = [] ∨ endsInCommand (front ++ separateFrom quote before line) = false) :
    LineAlike g pad (separateFrom quote before line) (separateFrom quote before line') := by
  cases h with
  | plain hret =>
    obtain ⟨out, hout⟩ := exists_spaced before hquote line
    obtain ⟨hend, hlast⟩ := hout.last hc hpad hfront hcommand
    rw [hend]
    exact .plain fun hne => hlast hne ▸ hret hne
  | @report indent body i j hindent hg hret =>
    obtain ⟨out, hout⟩ := exists_spaced (some ' ') hquote body
    have hreport := separateFrom_report hquote hindent
    rw [(hreport i before body).1] at hcommand ⊢
    have hfront' : (front ++ (indent ++ leadText .reports i)).getLast? = some ' ' := by
      rw [leadText, ← List.append_assoc, ← List.append_assoc, List.getLast?_concat]
    obtain ⟨hend, hlast⟩ := hout.last hc hpad hfront' (by simpa only [List.append_assoc] using hcommand)
    rw [(hreport j before _).1, hend]
    exact .report hindent hg fun hne => hlast hne ▸ hret hne

end

/-- Lines of white space stay. -/
theorem splitLines_blanks {quote : Option Char} (hquote : ∀ q ∈ quote, isQuote q) {blanks lines : List (List Char)}
    (hb : ∀ blank ∈ blanks, ∀ d ∈ blank, isIndent d) (hne : lines ≠ []) :
    splitLines (separateFrom quote (some '\n') (joinLines (blanks ++ lines))) =
      blanks ++ splitLines (separateFrom quote (some '\n') (joinLines lines)) := by
  have hblank : ∀ {blank : List Char} {before : Option Char} {rest : List Char}, (∀ d ∈ blank, isIndent d) →
      separateFrom quote before (blank ++ '\n' :: rest) = blank ++ '\n' :: separateFrom quote (some '\n') rest := by
    intro blank
    induction blank with
    | nil => exact fun _ => separateFrom_space hquote rfl
    | cons d blank ih =>
      intro before rest h
      rw [List.forall_mem_cons] at h
      rw [List.cons_append, separateFrom_space hquote (isAsciiSpace_of_isIndent h.1), ih h.2, List.cons_append]
  induction blanks with
  | nil => rfl
  | cons blank blanks ih =>
    rw [List.forall_mem_cons] at hb
    have hn : '\n' ∉ blank := fun hm => absurd (hb.1 _ hm) (by decide)
    rw [List.cons_append, joinLines_cons (by simp [hne]), hblank hb.1, splitLines_append hn, ih hb.2, List.cons_append]

/-- Separating commands keeps the lines alike. -/
theorem Alike.separate (hc : IsPadding c) {lines lines' : List (List Char)} (h : Alike g c ends lines lines') :
    ∀ {quote before : Option Char}, (∀ q ∈ quote, isQuote q) → lines ≠ [] → (∀ line ∈ lines, '\n' ∉ line) →
      (∀ line ∈ lines', '\n' ∉ line) → ∀ front : List Char, front.getLast? = before →
      (ends → endsInCommand (front ++ separateFrom quote before (joinLines lines)) = false) →
      Alike g c ends (splitLines (separateFrom quote before (joinLines lines)))
        (splitLines (separateFrom quote before (joinLines lines'))) := by
  induction h with
  | nil => exact fun _ hne => absurd rfl hne
  | @line pad line line' blanks lines lines' hpad hlast hblanks hline hrest ih =>
    intro quote before hquote _ hn hn' front hfront hends
    rw [List.forall_mem_cons] at hn hn'
    by_cases hnil : lines = []
    · subst hnil
      obtain ⟨hcommand, rfl⟩ := hlast rfl
      cases hrest
      rw [List.append_nil, joinLines, joinLines, splitLines_line (newline_notMem_separateFrom hn.1),
        splitLines_line (newline_notMem_separateFrom hn'.1)]
      rw [joinLines] at hends
      show Alike g c ends [_] (_ :: ([] ++ []))
      refine .line hpad (fun _ => ⟨hcommand, rfl⟩) (by simp) ?_ .nil
      exact hline.separate_last hc hpad hquote hfront (hcommand.imp_right hends)
    · have hnil' : lines' ≠ [] := by
        rintro rfl
        cases hrest
        exact hnil rfl
      obtain ⟨out, out', hout, hno, hno', htext⟩ := hline.separate hc hpad hquote hn.1
      have hnext := isQuote_of_quoteAfter hquote line
      rw [joinLines_cons hnil, joinLines_cons (by simp [hnil']), (htext _).1, (htext _).2, splitLines_append hno,
        splitLines_append hno', splitLines_blanks hnext hblanks hnil']
      rw [joinLines_cons hnil, (htext _).1] at hends
      refine .line hpad (fun hempty => absurd hempty (splitLines_ne_nil _)) hblanks hout ?_
      refine ih hnext hnil hn.2 (fun line hm => hn'.2 line (List.mem_append_right _ hm)) (front ++ (out ++ ['\n'])) ?_
        fun he => ?_
      · rw [← List.append_assoc, List.getLast?_concat]
      · simpa using hends he

end LiveSketch.Sketch

import LiveSketch.Proofs.Sketch.Loops
import LiveSketch.Proofs.Sketch.Quoted
import LiveSketch.Proofs.Sketch.Literals

/-!
# A blank behind a line

What the passes make of a line with a space or a carriage return behind it is what they make of the line, with the
blank behind it. There is one exception. The header of a block ends in its arrow and spaces, so a carriage return there
takes it for no header at all (`header?_return`). A report is put behind the white space at the start of a line, which
is all of a line without code, so such a line must not get another blank (`reportFirst_pad`).
-/
namespace LiveSketch.Sketch

open Text
open Script (View)

/-- The blanks that may stand behind a line: what is left in front of a comment, and what is left of the end of a line. -/
def IsPadding (c : Char) : Prop := c = ' ' ∨ c = '\r'

namespace IsPadding

variable {c : Char}

theorem blank (h : IsPadding c) : isBlank c := by rcases h with rfl | rfl <;> rfl

theorem asciiSpace (h : IsPadding c) : isAsciiSpace c := by rcases h with rfl | rfl <;> rfl

/-- No such character has a part in a literal, a separator or a word. -/
theorem plain (h : IsPadding c) :
    isQuote c = false ∧ c ≠ '\\' ∧ c ≠ '>' ∧ c ≠ '-' ∧ c ≠ ';' ∧ c ≠ '\n' ∧ c.isAlpha = false ∧ isDigit c = false := by
  rcases h with rfl | rfl <;> decide

end IsPadding

variable {c : Char}

/-! ## Words in front of their operands -/

theorem rewritten_pad (hc : IsPadding c) (line : List Char) : rewritten (line ++ [c]) = rewritten line ++ [c] := by
  have hplain := hc.plain
  have hword : ∀ {p : Char → Bool} {word : List Char}, p c = false → word ≠ [] → c ∉ word → '\n' ∉ word →
      ∀ cs, swapWord p word (cs ++ [c]) = swapWord p word cs ++ [c] := fun hp hne hw hn cs =>
    swapRuns_ends (spacedWord?_follow hn) hp (spacedWord?_ends hne hw hc.blank) cs
  have htimes : ∀ cs, desugarTimes (cs ++ [c]) = desugarTimes cs ++ [c] := fun cs =>
    swapRuns_ends timesArrow?_follow hplain.2.2.2.2.2.2.2
      (timesArrow?_ends (by rcases hc with rfl | rfl <;> decide)) cs
  have hbpm : ∀ cs, swapWord isDigit "bpm".toList (cs ++ [c]) = swapWord isDigit "bpm".toList cs ++ [c] :=
    hword hplain.2.2.2.2.2.2.2 (by decide) (by rcases hc with rfl | rfl <;> decide) (by decide)
  have hcolour : ∀ word ∈ colourWords, ∀ cs, swapWord Char.isAlpha word (cs ++ [c]) = swapWord Char.isAlpha word cs ++ [c] := by
    intro word hm
    have hwords : ∀ word ∈ colourWords, word ≠ [] ∧ ' ' ∉ word ∧ '\r' ∉ word ∧ '\n' ∉ word := by decide
    obtain ⟨hne, hspace, hreturn, hn⟩ := hwords word hm
    exact hword hplain.2.2.2.2.2.2.1 hne (by rcases hc with rfl | rfl <;> assumption) hn
  simp only [colourWords, List.mem_cons, List.not_mem_nil, or_false, forall_eq_or_imp, forall_eq] at hcolour
  rw [rewritten, swapPostfix, hbpm]
  simp only [colourWords, List.foldl_cons, List.foldl_nil, hcolour, htimes]
  rfl

/-! ## Literals -/

theorem closeLiteral?_pad {q : Char} (hq : c ≠ q) (hc : IsPadding c) (as : List Char) :
    closeLiteral? q (as ++ [c]) = (closeLiteral? q as).map fun found => (found.1, found.2 ++ [c]) := by
  obtain ⟨-, hb, -, -, -, hn, -⟩ := hc.plain
  fun_induction closeLiteral? q as with
  | case1 => simp [closeLiteral?_cons hb, hq, hn, closeLiteral?]
  | case2 => simp [closeLiteral?, hn]
  | case3 d cs hd => simp_all [closeLiteral?]
  | case4 d cs hd ih =>
    simp_all [closeLiteral?]
    rfl
  | case5 d cs h1 h2 hd =>
    rw [List.cons_append, closeLiteral?_cons (ne_backslash h1 h2), if_pos (by simpa using hd)]
    rfl
  | case6 d cs h1 h2 hd hn' =>
    rw [List.cons_append, closeLiteral?_cons (ne_backslash h1 h2), if_neg (by simpa using hd),
      if_pos (by simpa using hn')]
    rfl
  | case7 d cs h1 h2 hd hn' ih =>
    rw [List.cons_append, closeLiteral?_cons (ne_backslash h1 h2), if_neg (by simpa using hd),
      if_neg (by simpa using hn'), ih, Option.map_map, Option.map_map]
    rfl

theorem literal?_pad (hc : IsPadding c) (as : List Char) :
    literal? (as ++ [c]) = (literal? as).map fun found => (found.1, found.2 ++ [c]) := by
  cases as with
  | nil => exact literal?_of_not_quote hc.plain.1 []
  | cons q as =>
    rw [List.cons_append, literal?, literal?]
    split
    · rename_i hq
      have hne : c ≠ q := by
        rintro rfl
        rw [hc.plain.1] at hq
        cases hq
      rw [closeLiteral?_pad hne hc, Option.map_map, Option.map_map]
      rfl
    · rfl

theorem dropLiterals_pad (hc : IsPadding c) (as : List Char) : dropLiterals (as ++ [c]) = dropLiterals as ++ [c] := by
  induction as using literalInduction with
  | nil => exact dropLiterals_of_none (literal?_of_not_quote hc.plain.1 [])
  | char d cs hl ih =>
    have hpad : literal? (d :: (cs ++ [c])) = none := by simpa [hl] using literal?_pad hc (d :: cs)
    rw [List.cons_append, dropLiterals_of_none hl, dropLiterals_of_none hpad, ih, List.cons_append]
  | literal cs l rest hl ih =>
    rw [dropLiterals_of_some hl, dropLiterals_of_some (literal?_append hl _).1, ih]

/-! ## Headers -/

/-- The header of a block stands on the line: nothing but spaces follows its arrow. -/
def opens (line : List Char) : Bool := (header? line).any (·.2.isEmpty)

theorem dropWhile_concat_of_ne_nil {p : Char → Bool} {cs : List Char} (h : cs.dropWhile p ≠ []) (c : Char) :
    (cs ++ [c]).dropWhile p = cs.dropWhile p ++ [c] ∧ (cs ++ [c]).takeWhile p = cs.takeWhile p := by
  have hd : ∃ d ∈ cs, p d = false := by
    by_contra hno
    refine h (dropWhile_of_all fun d hd => ?_)
    simpa using fun hp => hno ⟨d, hd, hp⟩
  obtain ⟨d, hd, hp⟩ := hd
  obtain ⟨as, bs, rfl⟩ := List.append_of_mem hd
  rw [List.append_assoc, List.cons_append]
  obtain ⟨ht, hdrop⟩ := takeWhile_stop hp as bs
  obtain ⟨ht', hdrop'⟩ := takeWhile_stop hp as (bs ++ [c])
  rw [ht, ht', hdrop, hdrop', List.append_assoc]
  exact ⟨rfl, rfl⟩

/-- A line with a blank behind it is a header just if the line is. -/
theorem header?_pad (hc : IsPadding c) (line : List Char) :
    header? (line ++ [c]) = (header? line).map fun found =>
      (found.1, if found.2 = [] then (if c = ' ' then [] else [c]) else found.2 ++ [c]) := by
  have hdo : c ∉ doOnceWord := by rcases hc with rfl | rfl <;> decide
  have harrow : c ∉ arrowWord := by rcases hc with rfl | rfl <;> decide
  have hword := after?_dropWhile_concat (by decide) hdo isBlank line
  cases hf : after? doOnceWord (line.dropWhile isBlank) with
  | none => simp [header?, hword, hf]
  | some tail =>
    have hne : line.dropWhile isBlank ≠ [] := by
      intro hnil
      rw [hnil] at hf
      cases hf
    have htail := after?_dropWhile_concat (by decide) harrow (· == ' ') tail
    have htake := (dropWhile_concat_of_ne_nil hne c).2
    cases ha : after? arrowWord (tail.dropWhile (· == ' ')) with
    | none => simp [header?, hword, hf, htake, afterSpaced?, skipSpaces, htail, ha]
    | some rest =>
      have hskip : (rest ++ [c]).dropWhile (· == ' ') =
          if rest.dropWhile (· == ' ') = [] then (if c = ' ' then [] else [c]) else rest.dropWhile (· == ' ') ++ [c] := by
        rw [List.dropWhile_append]
        simp [List.dropWhile_cons]
      simp [header?, hword, hf, htake, afterSpaced?, skipSpaces, htail, ha, hskip]

/-- A carriage return behind the arrow of a block makes it a header without a block and without a body. -/
theorem header?_return {line indent : List Char} (h : header? line = some (indent, [])) :
    header? (line ++ ['\r']) = some (indent, ['\r']) := by
  rw [header?_pad (.inr rfl), h]
  rfl

theorem opens_iff {line : List Char} : opens line ↔ ∃ indent, header? line = some (indent, []) := by
  unfold opens
  cases header? line with
  | none => simp
  | some found =>
    obtain ⟨indent, rest⟩ := found
    simp

/-- A blank behind a line does not make it the header of a block. -/
theorem opens_pad (hc : IsPadding c) {line : List Char} (h : opens line = false) : opens (line ++ [c]) = false := by
  unfold opens at h ⊢
  rw [header?_pad hc]
  cases hh : header? line with
  | none => rfl
  | some found =>
    have hne : found.2 ≠ [] := by
      intro hnil
      rw [hh, Option.any_some, hnil] at h
      cases h
    simp [hne]

theorem mem_of_skipSpaces {cs : List Char} {d : Char} (h : d ∈ cs) : d = ' ' ∨ d ∈ skipSpaces cs := by
  rw [← List.takeWhile_append_dropWhile (p := (· == ' ')) (l := cs), List.mem_append] at h
  exact h.imp_left fun hd => eq_of_beq (List.all_eq_true.1 List.all_takeWhile d hd)

/-- A line with a ticked header holds nothing else. -/
theorem mem_of_tickedHeader? {line indent : List Char} (h : tickedHeader? line = some indent) {d : Char} (hd : d ∈ line) :
    d ∈ [' ', '\t'] ∨ d ∈ tick :: (doOnceWord ++ arrowWord) := by
  simp only [tickedHeader?, afterSpaced?, Option.bind_eq_bind, Option.bind_eq_some_iff, Option.map_eq_some_iff,
    after?_eq_some] at h
  obtain ⟨named, hline, behind, hnamed, spaces, ⟨tail, hbehind, rfl⟩, h⟩ := h
  have hnil : skipSpaces tail = [] := by
    by_contra hne
    rw [if_neg (by simpa using hne)] at h
    cases h
  rw [← List.takeWhile_append_dropWhile (p := Script.Lexer.isIndent) (l := line), hline, List.mem_append] at hd
  rcases hd with hd | hd
  · have hindent := List.all_eq_true.1 List.all_takeWhile d hd
    simp only [Script.Lexer.isIndent, Bool.or_eq_true, beq_iff_eq] at hindent
    simp [hindent]
  · rw [List.singleton_append, List.mem_cons] at hd
    rcases hd with rfl | hd
    · simp
    rcases mem_of_skipSpaces hd with rfl | hd
    · simp
    rw [hnamed, List.mem_append] at hd
    rcases hd with hd | hd
    · simp [hd]
    rcases mem_of_skipSpaces hd with rfl | hd
    · simp
    rw [hbehind, List.mem_append] at hd
    rcases hd with hd | hd
    · simp [hd]
    rcases mem_of_skipSpaces hd with rfl | hd
    · simp
    · rw [hnil] at hd
      cases hd

/-! ## Reports -/

theorem getLast?_dropWhile {p : Char → Bool} {cs : List Char} (h : cs.dropWhile p ≠ []) :
    (cs.dropWhile p).getLast? = cs.getLast? := by
  conv => rhs; rw [← List.takeWhile_append_dropWhile (p := p) (l := cs)]
  rw [List.getLast?_append]
  cases hl : (cs.dropWhile p).getLast? with
  | none => exact absurd (List.getLast?_eq_none_iff.1 hl) h
  | some d => rfl

/-- The report stands in front of the code of the line. -/
theorem reportFirst_code {line : List Char} (h : line.dropWhile isBlank ≠ []) (i : Nat) :
    reportFirst (report i) line = line.takeWhile isBlank ++ (leadText .reports i ++ line.dropWhile isBlank) := by
  obtain ⟨d, rest, hd⟩ := List.exists_cons_of_ne_nil h
  simp [reportFirst, hd, leadText]

/-- In front of code the report does not see a blank behind it. -/
theorem reportFirst_pad {line : List Char} (h : line.dropWhile isBlank ≠ []) (i : Nat) (c : Char) :
    reportFirst (report i) (line ++ [c]) =
      line.takeWhile isBlank ++ (leadText .reports i ++ (line.dropWhile isBlank ++ [c])) := by
  obtain ⟨hd, ht⟩ := dropWhile_concat_of_ne_nil h c
  rw [reportFirst_code (by rw [hd]; simp), hd, ht]

/-- Without code it stands in front of the last blank. -/
theorem reportFirst_blank {line : List Char} (h : line.dropWhile isBlank = []) :
    line = [] ∧ (∀ i, reportFirst (report i) line = []) ∨ ∃ front last, line = front ++ [last] ∧ (∀ d ∈ front, isBlank d) ∧
      isBlank last ∧ ∀ i, reportFirst (report i) line = front ++ (leadText .reports i ++ [last]) := by
  rcases List.eq_nil_or_concat line with rfl | ⟨front, last, rfl⟩
  · exact .inl ⟨rfl, fun _ => rfl⟩
  · rw [List.concat_eq_append] at h ⊢
    have hall := all_of_dropWhile_eq_nil h
    refine .inr ⟨front, last, rfl, fun d hd => hall d (List.mem_append_left _ hd), hall last (by simp), fun i => ?_⟩
    simp [reportFirst, h, leadText]

/-! ## Single words -/

theorem trimEnd_blank {c : Char} (hc : isBlank c) (cs : List Char) :
    trimEnd (cs ++ [c]) = trimEnd cs ∧ blankEnd (cs ++ [c]) = blankEnd cs ++ [c] := by
  simp [trimEnd, blankEnd, hc]

theorem trim_blank {c : Char} (hc : isBlank c) (cs : List Char) : trim (cs ++ [c]) = trim cs := by
  rw [trim, trim, trimStart, trimStart, List.dropWhile_append]
  split
  · rename_i hnil
    rw [List.isEmpty_iff.1 hnil, List.dropWhile_cons_of_pos hc]
    rfl
  · exact (trimEnd_blank hc _).1

/-- White space around a statement stays where it is. -/
theorem callBareword_concat {c : Char} (hc : isBlank c) (cs : List Char) :
    callBareword (cs ++ [c]) = callBareword cs ++ [c] := by
  obtain ⟨htrim, hblank⟩ := trimEnd_blank hc cs
  rw [callBareword, callBareword, trim_blank hc, htrim, hblank]
  split <;> simp

theorem callBareword_cons {c : Char} (hc : isBlank c) (cs : List Char) : callBareword (c :: cs) = c :: callBareword cs := by
  have htrim : trim (c :: cs) = trim cs := by rw [trim, trim, trimStart, trimStart, List.dropWhile_cons_of_pos hc]
  rw [callBareword, callBareword, htrim]
  split
  · rename_i hword
    have hne : cs.reverse.dropWhile isBlank ≠ [] := by
      intro hnil
      have hall : ∀ d ∈ cs, isBlank d := fun d hd => all_of_dropWhile_eq_nil hnil d (List.mem_reverse.2 hd)
      rw [trim, trimStart, dropWhile_of_all hall] at hword
      cases hword
    obtain ⟨hd, ht⟩ := dropWhile_concat_of_ne_nil hne c
    rw [trimEnd, trimEnd, blankEnd, blankEnd, List.reverse_cons, hd, ht]
    simp
  · rfl

/-- In the second list the last statement has a blank behind it. -/
def PadsLast (c : Char) (ps ps' : List Piece) : Prop :=
  ∃ front statement, ps = front ++ [(statement, [])] ∧ ps' = front ++ [(statement ++ [c], [])]

theorem PadsLast.piece {ps ps' : List Piece} (p : Piece) (h : PadsLast c ps ps') : PadsLast c (p :: ps) (p :: ps') := by
  obtain ⟨front, statement, rfl, rfl⟩ := h
  exact ⟨p :: front, statement, rfl, rfl⟩

theorem PadsLast.consPiece {ps ps' : List Piece} (d : Char) (h : PadsLast c ps ps') :
    PadsLast c (Sketch.consPiece d ps) (Sketch.consPiece d ps') := by
  obtain ⟨front, statement, rfl, rfl⟩ := h
  cases front with
  | nil => exact ⟨[], d :: statement, rfl, rfl⟩
  | cons p front => exact ⟨(d :: p.1, p.2) :: front, statement, rfl, rfl⟩

/-- A blank behind a line stands behind its last statement. -/
theorem pieces_pad (hc : IsPadding c) (quote : Option Char) (cs : List Char) :
    PadsLast c (pieces quote cs) (pieces quote (cs ++ [c])) := by
  obtain ⟨hq, hb, hgreater, hminus, hsemicolon, -⟩ := hc.plain
  have hlast : ∀ quote : Option Char, PadsLast c [([], [])] (pieces quote [c]) := by
    intro quote
    refine ⟨[], [], rfl, ?_⟩
    cases quote <;> simp [pieces, Sketch.consPiece, hsemicolon]
  fun_induction pieces quote cs with
  | case1 quote => exact hlast quote
  | case2 q d cs ih => exact (ih.consPiece d).consPiece '\\'
  | case3 q d cs h ih =>
    rw [List.cons_append]
    by_cases hd : d = '\\' ∧ cs = []
    · obtain ⟨rfl, rfl⟩ := hd
      exact ⟨[], ['\\'], by simp [pieces, Sketch.consPiece], by simp [pieces, Sketch.consPiece]⟩
    · rw [pieces]
      · exact ih.consPiece d
      · rintro e es rfl he
        cases cs with
        | nil => exact hd ⟨rfl, rfl⟩
        | cons f cs => exact h f cs rfl rfl
  | case4 cs ih => exact ih.piece _
  | case5 d cs h hd ih =>
    rw [List.cons_append, pieces, if_pos hd]
    · exact ih.piece _
    · rintro es rfl -
      cases hd
  | case6 d cs h hd ih =>
    rw [List.cons_append, pieces, if_neg hd]
    · exact ih.consPiece d
    · rintro es rfl he
      cases cs with
      | nil => exact hgreater (List.cons.inj he).1
      | cons f cs => exact h cs rfl (by rw [(List.cons.inj he).1])

theorem callBarewordsOfLine_pad (hc : IsPadding c) (line : List Char) :
    callBarewordsOfLine (line ++ [c]) = callBarewordsOfLine line ++ [c] := by
  obtain ⟨front, statement, h, h'⟩ := pieces_pad hc none line
  rw [callBarewordsOfLine, callBarewordsOfLine, h, h']
  simp [callBareword_concat hc.blank]

end LiveSketch.Sketch

import LiveSketch.Proofs.Script.Delimiting
import LiveSketch.Proofs.Script.Spelling
import LiveSketch.Proofs.Sketch.CommentFree
import LiveSketch.Proofs.Sketch.Insertions
import LiveSketch.Proofs.Sketch.Separating
import LiveSketch.Proofs.Text.Classes

/-!
# Separating commands, lexeme by lexeme

`separateFrom` reads characters, and the script reads lexemes. What the first does to the text of one lexeme: it puts a
semicolon in front of a name, or leaves the lexeme alone (`separateFrom_found`). The letter of an exponent is the one
letter outside names and text literals, and never a word that begins a statement (`LeftAlone.number`).
-/
namespace LiveSketch.Sketch

open Text Script
open Script.Lexer

/-! ## Lexemes -/

variable {afterName : Bool} {kind : TokenKind} {text rest more done : List Char}

/-- The lexemes by the scanners that find them. -/
inductive Found (afterName : Bool) : TokenKind → (text rest : List Char) → Prop where
  | number {x : Float} {text rest : List Char} : startsNumber (text ++ rest) →
      scanNumber (text ++ rest) = .ok ⟨x, text, rest⟩ → Found afterName (.number x) text rest
  | name {c : Char} {cs rest : List Char} : isNameStart c → (∀ d ∈ cs, isNamePart d) →
      (∀ d ∈ rest.head?, isNamePart d = false) → Found afterName (.ident (String.ofList (c :: cs))) (c :: cs) rest
  | literal {text l rest : List Char} : IsLiteral l → Found afterName (.string (String.ofList text)) l rest
  | operator {kind : TokenKind} {text rest : List Char} : scanOperator afterName (text ++ rest) = some ⟨kind, text, rest⟩ →
      Found afterName kind text rest

theorem head?_dropWhile_isNamePart (cs : List Char) : ∀ d ∈ (cs.dropWhile isNamePart).head?, isNamePart d = false := by
  intro d hd
  have hhead := List.head?_dropWhile_not isNamePart cs
  rw [Option.mem_def.1 hd] at hhead
  simpa using hhead

theorem takeWhile_isNamePart (cs : List Char) : ∀ d ∈ cs.takeWhile isNamePart, isNamePart d :=
  List.all_eq_true.1 List.all_takeWhile

theorem isQuote_of_isNamePart {c : Char} (h : isNamePart c) : isQuote c = false :=
  Spelt.not_isQuote (notMem_marks_of_isNamePart h)

theorem isAsciiSpace_of_isIndent {c : Char} (h : isIndent c) : isAsciiSpace c := by
  simp only [isIndent, Bool.or_eq_true, beq_iff_eq] at h
  rcases h with rfl | rfl <;> rfl

theorem isLiteral_of_lexeme {value : String} {l : List Char} (h : Lexeme (.string value) l) : IsLiteral l := by
  generalize hk : TokenKind.string value = kind at h
  cases h with
  | text hl => exact hl
  | plain hno => exact absurd hk.symm (hno _)
  | _ => cases hk

theorem found_of_scans (h : Scans afterName kind text rest) (hn : '\n' ∉ text ++ rest) : Found afterName kind text rest := by
  obtain ⟨c, cs, rfl, -, -, hscan⟩ := h
  have hscan := hscan 0
  have hlexeme := lexeme_of_scanToken hn hscan
  unfold scanToken at hscan
  split at hscan
  · rename_i hnumber
    split at hscan
    · rename_i s hs
      obtain ⟨x, l, r⟩ := s
      obtain ⟨rfl, rfl, rfl⟩ := Scanned.mk.inj (Except.ok.inj hscan)
      exact .number hnumber hs
    · cases hscan
  split at hscan
  · rename_i hstart
    obtain ⟨rfl, hl, hr⟩ := Scanned.mk.inj (Except.ok.inj hscan)
    have hall : ∀ d ∈ c :: cs, isNamePart d := hl ▸ takeWhile_isNamePart _
    rw [hl]
    exact .name hstart (List.forall_mem_cons.1 hall).2 (hr ▸ head?_dropWhile_isNamePart _)
  split at hscan
  · split at hscan
    · rename_i found _
      obtain ⟨hk, -, -⟩ := Scanned.mk.inj (Except.ok.inj hscan)
      exact hk ▸ .literal (isLiteral_of_lexeme (hk.symm ▸ hlexeme))
    · cases hscan
  · split at hscan
    · rename_i s hs
      obtain rfl := Except.ok.inj hscan
      exact .operator hs
    · cases hscan

/-- An operator has one character, with which the next one makes no other operator, or two. -/
theorem scanOperator_cases {cs : List Char} {s : Scanned TokenKind} (h : scanOperator afterName cs = some s) :
    (∃ c, s.lexeme = [c] ∧ operator? c = some s.value ∧ ∀ d ∈ s.rest.head?, pairOperator? c d = none) ∨
      ∃ c d, s.lexeme = [c, d] ∧ (stepOperator? c d = some s.value ∨ pairOperator? c d = some s.value) := by
  rcases cs with _ | ⟨c, _ | ⟨d, cs⟩⟩
  · cases h
  · obtain ⟨k, hk, rfl⟩ := Option.map_eq_some_iff.1 h
    exact .inl ⟨c, rfl, hk, by simp⟩
  · rw [scanOperator] at h
    split at h
    · rename_i k hk
      cases h
      refine .inr ⟨c, d, rfl, (Option.or_eq_some_iff.1 hk).imp (fun hstep => ?_) (·.2)⟩
      split at hstep
      · exact hstep
      · cases hstep
    · rename_i hno
      obtain ⟨k, hk, rfl⟩ := Option.map_eq_some_iff.1 h
      exact .inl ⟨c, rfl, hk, by simpa using (Option.or_eq_none_iff.1 hno).2⟩

/-- The characters of an operator. -/
theorem chars_of_scanOperator {cs : List Char} {s : Scanned TokenKind} (h : scanOperator afterName cs = some s) :
    ∀ d ∈ s.lexeme, isQuote d = false ∧ isNamePart d = false := by
  rcases scanOperator_cases h with ⟨c, he, hk, -⟩ | ⟨c, d, he, hk | hk⟩ <;> rw [he]
  · unfold operator? at hk
    split at hk <;> first | simp; decide | cases hk
  · unfold stepOperator? at hk
    split at hk <;> first | simp; decide | cases hk
  · unfold pairOperator? at hk
    split at hk <;> first | simp; decide | cases hk

/-- A number is a run of digits with a point among them, perhaps, and an exponent, perhaps. -/
theorem chars_of_scanNumber {cs : List Char} {s : Scanned Float} (hn : startsNumber cs) (h : scanNumber cs = .ok s) :
    ∃ front back, s.lexeme = front ++ back ∧ front ≠ [] ∧ (∀ d ∈ front, d.isDigit ∨ d = '.') ∧
      (back = [] ∨ ∃ mark sign digits, back = mark :: (sign ++ digits) ∧ (mark = 'e' ∨ mark = 'E') ∧
        (sign = [] ∨ sign = ['-'] ∨ sign = ['+']) ∧ digits ≠ [] ∧ ∀ d ∈ digits, d.isDigit) := by
  have hexponent : ∀ {ds : List Char} {e : Scanned Int}, scanExponent ds = .ok e → e.lexeme = [] ∨
      ∃ mark sign digits, e.lexeme = mark :: (sign ++ digits) ∧ (mark = 'e' ∨ mark = 'E') ∧
        (sign = [] ∨ sign = ['-'] ∨ sign = ['+']) ∧ digits ≠ [] ∧ ∀ d ∈ digits, d.isDigit := by
    intro ds e he
    have hdigits : ∀ bs : List Char, ∀ d ∈ bs.takeWhile Char.isDigit, d.isDigit :=
      fun _ => List.all_eq_true.1 List.all_takeWhile
    cases ds with
    | nil =>
      cases he
      exact .inl rfl
    | cons mark ds =>
      by_cases hm : mark = 'e' ∨ mark = 'E'
      · cases ds with
        | nil => simp [scanExponent, hm] at he
        | cons d ds =>
          by_cases hd : d = '-' ∨ d = '+'
          · rcases hd with rfl | rfl
            · simp only [scanExponent, hm, beq_iff_eq, Bool.or_eq_true, if_true, List.isEmpty_iff] at he
              split at he <;> cases he
              rename_i hne
              exact .inr ⟨mark, ['-'], _, rfl, hm, .inr (.inl rfl), hne, hdigits ds⟩
            · simp only [scanExponent, hm, beq_iff_eq, Bool.or_eq_true, if_true, List.isEmpty_iff] at he
              split at he <;> cases he
              rename_i hne
              exact .inr ⟨mark, ['+'], _, rfl, hm, .inr (.inr rfl), hne, hdigits ds⟩
          · simp only [not_or] at hd
            simp [scanExponent, hm, hd] at he
            split at he <;> cases he
            rename_i hne
            rw [Bool.not_eq_false] at hne
            refine .inr ⟨mark, [], _, rfl, hm, .inl rfl, ?_, hdigits (d :: ds)⟩
            simp [hne]
      · simp [scanExponent, hm] at he
        subst he
        exact .inl rfl
  have hdigits : ∀ bs : List Char, ∀ d ∈ bs.takeWhile Char.isDigit, d.isDigit ∨ d = '.' := fun _ d hd =>
    .inl (List.all_eq_true.1 List.all_takeWhile d hd)
  have hwhole : (∀ more, cs.dropWhile Char.isDigit ≠ '.' :: more) → cs.takeWhile Char.isDigit ≠ [] := by
    intro hno hnil
    cases cs with
    | nil => cases hn
    | cons c cs =>
      by_cases hc : c.isDigit
      · rw [List.takeWhile_cons_of_pos hc] at hnil
        cases hnil
      · rw [List.dropWhile_cons_of_neg hc] at hno
        by_cases hdot : c = '.'
        · exact hno cs (by rw [hdot])
        · rw [startsNumber_cons hdot] at hn
          exact hc hn
  cases hd : cs.dropWhile Char.isDigit with
  | nil =>
    simp [scanNumber, hd, scanExponent] at h
    cases h
    exact ⟨_, [], (List.append_nil _).symm, hwhole (by simp [hd]), hdigits cs, .inl rfl⟩
  | cons d rest =>
    by_cases hdot : d = '.'
    · simp [scanNumber, hd, hdot] at h
      split at h
      · cases h
      · rename_i e he
        cases h
        refine ⟨cs.takeWhile Char.isDigit ++ '.' :: rest.takeWhile Char.isDigit, e.lexeme, by simp, by simp, ?_,
          hexponent he⟩
        simp only [List.forall_mem_append, List.forall_mem_cons]
        exact ⟨hdigits cs, .inr trivial, hdigits rest⟩
    · simp [scanNumber, hd, hdot] at h
      split at h
      · cases h
      · rename_i e he
        cases h
        exact ⟨_, e.lexeme, rfl, hwhole (by simp [hd, hdot]), hdigits cs, hexponent he⟩

/-! ## Separating commands within a lexeme -/

/-- Statements begin with words of letters. -/
theorem isAlpha_of_startsStatement {word : String} (h : startsStatement word) : ∀ c ∈ word.toList, c.isAlpha := by
  have hcommands : (Command.all.all fun c => c.name.toList.all Char.isAlpha) = true := by decide
  have hsetters : (setters.all fun word => word.toList.all Char.isAlpha) = true := by decide
  rcases Bool.or_eq_true_iff.1 h with hc | hs
  · obtain ⟨command, hfind⟩ := Option.isSome_iff_exists.1 hc
    have hname := List.find?_some hfind
    have hall := List.all_eq_true.1 hcommands command (List.mem_of_find?_eq_some hfind)
    rw [← eq_of_beq hname]
    exact List.all_eq_true.1 hall
  · exact List.all_eq_true.1 (List.all_eq_true.1 hsetters word (by simpa using hs))

theorem not_startsStatement {word : List Char} {c : Char} (hc : c ∈ word) (hd : c.isAlpha = false) :
    startsStatement (String.ofList word) = false := by
  refine Bool.eq_false_iff.2 fun h => ?_
  have halpha := isAlpha_of_startsStatement h c (by rwa [String.toList_ofList])
  rw [hd] at halpha
  cases halpha

/-- Behind a part of a name the rest of it is left alone. -/
theorem separateFrom_inside {b : Char} (hb : isNamePart b) (cs : List Char) :
    separateFrom none (some b) cs = cs.takeWhile isNamePart ++
      separateFrom none ((b :: cs.takeWhile isNamePart).getLast?) (cs.dropWhile isNamePart) := by
  induction cs generalizing b with
  | nil => rfl
  | cons c cs ih =>
    by_cases hc : isNamePart c
    · rw [List.takeWhile_cons_of_pos hc, List.dropWhile_cons_of_pos hc, List.getLast?_cons_cons]
      by_cases ha : c.isAlpha
      · have hword : separateFrom none (some b) _ = _ :=
          separateFrom_word ha (takeWhile_isNamePart cs) (head?_dropWhile_isNamePart cs)
        rw [wordFront, Option.any_some, hb, Bool.not_true, Bool.false_and, Bool.false_and, if_neg Bool.false_ne_true,
          List.nil_append, List.cons_append, List.takeWhile_append_dropWhile] at hword
        exact hword
      · rw [separateFrom_other (isQuote_of_isNamePart hc) (Bool.eq_false_iff.2 ha), ih hc, List.cons_append]
    · rw [List.takeWhile_cons_of_neg hc, List.dropWhile_cons_of_neg hc]
      rfl

/-- Behind any text these characters are left alone, whatever follows them. -/
def LeftAlone (text : List Char) : Prop := ∀ done more : List Char,
  separateFrom none done.getLast? (text ++ more) = text ++ separateFrom none (done ++ text).getLast? more

namespace LeftAlone

theorem append {text text' : List Char} (h : LeftAlone text) (h' : LeftAlone text') : LeftAlone (text ++ text') := by
  intro done more
  rw [List.append_assoc, h, h', List.append_assoc, List.append_assoc]

theorem plain (h : ∀ d ∈ text, isQuote d = false ∧ d.isAlpha = false) : LeftAlone text := by
  induction text with
  | nil =>
    intro done more
    rw [List.append_nil, List.nil_append, List.nil_append]
  | cons c text ih =>
    obtain ⟨hc, htext⟩ := List.forall_mem_cons.1 h
    refine (show LeftAlone [c] from fun done more => ?_).append (ih htext)
    rw [List.getLast?_concat]
    exact separateFrom_other hc.1 hc.2

theorem literal (h : IsLiteral text) : LeftAlone text := by
  intro done more
  obtain ⟨q, body, hq, hopen, rfl⟩ := isLiteral_iff.1 h
  rw [← List.cons_append, ← List.append_assoc, List.getLast?_concat, List.append_assoc, List.cons_append,
    separateFrom_quote hq, List.singleton_append, separateFrom_open hq hopen, List.append_assoc]
  rfl

/-- The exponent of a number without a sign. -/
theorem exponent {mark : Char} (hm : mark.isAlpha) {digits : List Char} (hne : digits ≠ [])
    (hd : ∀ d ∈ digits, d.isDigit) : LeftAlone (mark :: digits) := by
  intro done more
  have hpart : ∀ d ∈ digits, isNamePart d := fun d h => by simp [isNamePart, Char.isAlphanum, hd d h]
  obtain ⟨init, last, rfl⟩ := List.eq_nil_or_concat digits |>.resolve_left hne
  rw [List.concat_eq_append] at hpart hd ⊢
  have hlast : isNamePart last ∧ last.isAlpha = false :=
    ⟨hpart last (by simp), Text.not_isAlpha_of_isDigit (hd last (by simp))⟩
  have hword : separateFrom none done.getLast? _ = _ := separateFrom_word hm
    (List.forall_mem_append.2 ⟨hpart, takeWhile_isNamePart more⟩) (head?_dropWhile_isNamePart more)
  rw [wordFront, not_startsStatement (c := last) (by simp) hlast.2, Bool.and_false, if_neg Bool.false_ne_true,
    List.nil_append, List.cons_append, List.append_assoc, List.takeWhile_append_dropWhile] at hword
  have hend : (done ++ mark :: (init ++ [last])).getLast? = some last := by
    rw [← List.cons_append, ← List.append_assoc, List.getLast?_concat]
  have hend' : (mark :: (init ++ [last] ++ more.takeWhile isNamePart)).getLast? =
      (last :: more.takeWhile isNamePart).getLast? := by
    rw [List.append_assoc, ← List.cons_append, List.getLast?_append, List.singleton_append, List.getLast?_cons]
    rfl
  rw [List.cons_append, hword, hend, separateFrom_inside hlast.1, hend', ← List.append_assoc, List.cons_append,
    List.cons_append, List.cons_append]

/-- A letter in front of what is neither part of a name nor a blank. -/
theorem letter {mark c : Char} (hm : mark.isAlpha) (hc : isNamePart c = false) (hspace : isAsciiSpace c = false)
    (h : LeftAlone (c :: text)) : LeftAlone (mark :: c :: text) := by
  intro done more
  have hword : separateFrom none done.getLast? _ = _ := separateFrom_word hm (List.forall_mem_nil _)
    (by simpa using hc : ∀ d ∈ (c :: (text ++ more)).head?, isNamePart d = false)
  rw [wordFront, List.head?_cons, Option.any_some, hspace, Bool.and_false, Bool.false_and,
    if_neg Bool.false_ne_true] at hword
  have hmark := h (done ++ [mark]) more
  rw [List.getLast?_concat, List.append_assoc, List.singleton_append] at hmark
  exact hword.trans (congrArg (mark :: ·) hmark)

theorem number {cs : List Char} {s : Scanned Float} (hn : startsNumber cs) (h : scanNumber cs = .ok s) :
    LeftAlone s.lexeme := by
  obtain ⟨front, back, he, -, hfront, hback⟩ := chars_of_scanNumber hn h
  have hdigit : ∀ d : Char, d.isDigit → isQuote d = false ∧ d.isAlpha = false := fun d hd =>
    ⟨isQuote_of_isNamePart (by simp [isNamePart, Char.isAlphanum, hd]), Text.not_isAlpha_of_isDigit hd⟩
  have hplain : LeftAlone front := plain fun d hd => (hfront d hd).elim (hdigit d) (by rintro rfl; decide)
  rw [he]
  rcases hback with rfl | ⟨mark, sign, digits, rfl, hm, hsign, hne, hd⟩
  · rwa [List.append_nil]
  have hmark : mark.isAlpha := by rcases hm with rfl | rfl <;> decide
  have hsigned : ∀ c ∈ ['-', '+'], LeftAlone (mark :: c :: digits) := by
    intro c hc
    have hplain : isNamePart c = false ∧ isAsciiSpace c = false ∧ isQuote c = false ∧ c.isAlpha = false := by
      simp only [List.mem_cons, List.not_mem_nil, or_false] at hc
      rcases hc with rfl | rfl <;> decide
    exact letter hmark hplain.1 hplain.2.1 (plain (List.forall_mem_cons.2 ⟨hplain.2.2, fun d h => hdigit d (hd d h)⟩))
  refine hplain.append ?_
  rcases hsign with rfl | rfl | rfl
  · exact exponent hmark hne hd
  · exact hsigned '-' (by simp)
  · exact hsigned '+' (by simp)

end LeftAlone

/-- What becomes of a name. -/
theorem separateFrom_name {c : Char} {cs : List Char} (hc : isNameStart c) (hcs : ∀ d ∈ cs, isNamePart d)
    (hmore : ∀ d ∈ more.head?, isNamePart d = false) (done : List Char) :
    ∃ front, separateFrom none done.getLast? (c :: cs ++ more) =
        front ++ (c :: cs) ++ separateFrom none (done ++ c :: cs).getLast? more ∧
      (front = [] ∨ front = [';'] ∧ (∃ d ∈ done.getLast?, isNamePart d = false) ∧ (∃ d ∈ more.head?, isAsciiSpace d) ∧
        startsStatement (String.ofList (c :: cs))) := by
  have hlast : (done ++ c :: cs).getLast? = (c :: cs).getLast? := by
    rw [List.getLast?_append, List.getLast?_cons]
    rfl
  rw [hlast]
  by_cases ha : c.isAlpha
  · refine ⟨_, separateFrom_word ha hcs hmore, ?_⟩
    rw [wordFront]
    split
    · rename_i h
      simp only [Bool.and_eq_true, Option.any_eq_true, Bool.not_eq_true'] at h
      obtain ⟨⟨hb, hm⟩, hs⟩ := h
      exact .inr ⟨rfl, hb, hm, hs⟩
    · exact .inl rfl
  · have hpart := isNamePart_of_isNameStart hc
    have htake : (cs ++ more).takeWhile isNamePart = cs ∧ (cs ++ more).dropWhile isNamePart = more := by
      rw [List.takeWhile_append_of_pos hcs, List.dropWhile_append_of_pos hcs]
      cases more with
      | nil => simp
      | cons d more => simp [hmore d rfl]
    refine ⟨[], ?_, .inl rfl⟩
    rw [List.cons_append, separateFrom_other (isQuote_of_isNamePart hpart) (Bool.eq_false_iff.2 ha),
      separateFrom_inside hpart, htake.1, htake.2]
    rfl

/-- What becomes of a lexeme: a semicolon is put in front of some names, and all others stay. -/
theorem separateFrom_found (hf : Found afterName kind text rest) {tail : List Char}
    (htail : ∀ d ∈ tail.head?, isNamePart d = false) (done : List Char) :
    ∃ front, separateFrom none done.getLast? (text ++ (rest ++ tail)) =
        front ++ text ++ separateFrom none (done ++ text).getLast? (rest ++ tail) ∧
      (front = [] ∨ front = [';'] ∧ kind = .ident (String.ofList text) ∧ (∃ d ∈ done.getLast?, isNamePart d = false) ∧
        (∃ d ∈ (rest ++ tail).head?, isAsciiSpace d) ∧ startsStatement (String.ofList text)) := by
  cases hf with
  | number hn hs => exact ⟨[], LeftAlone.number hn hs done _, .inl rfl⟩
  | literal hl => exact ⟨[], LeftAlone.literal hl done _, .inl rfl⟩
  | operator hs =>
    refine ⟨[], LeftAlone.plain (fun d hd => ?_) done _, .inl rfl⟩
    obtain ⟨hq, hpart⟩ := chars_of_scanOperator hs d hd
    refine ⟨hq, Bool.eq_false_iff.2 fun ha => ?_⟩
    simp [isNamePart, Char.isAlphanum, ha] at hpart
  | name hc hcs hrest =>
    have hmore : ∀ d ∈ (rest ++ tail).head?, isNamePart d = false := by
      cases rest with
      | nil => exact htail
      | cons d rest => exact hrest
    obtain ⟨front, he, hfront⟩ := separateFrom_name hc hcs hmore done
    exact ⟨front, he, hfront.imp_right fun h => ⟨h.1, rfl, h.2⟩⟩

end LiveSketch.Sketch

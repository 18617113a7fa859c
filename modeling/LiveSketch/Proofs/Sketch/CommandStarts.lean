import LiveSketch.Proofs.Script.Accepted
import LiveSketch.Proofs.Script.Renumbering
import LiveSketch.Proofs.Script.Semicolons
import LiveSketch.Proofs.Sketch.Prefixed
import LiveSketch.Proofs.Sketch.SeparatedWords
import LiveSketch.Script.Lowering

/-!
# Separating commands that are separated

A script in which every statement already begins where a statement may begin still gets a semicolon in front of each of
its commands: `fill red` becomes `;fill red`, also behind an indentation, an arrow or an `else`. The parser passes over
it, since a statement, a body of a line and the first statement of a block all may begin with one (`Parted`).

What is needed of the text in front of a word is kept in `Passed`, token by token: that no text literal is open, and
that a statement begins behind the text only if one begins behind its last token. The tokens alone would not do. The text
`--` in front of `>` is read as a step and a comparison, which looks like an arrow in front of a word, but no script has
the two tokens next to each other (`EndsStep`).
-/
namespace LiveSketch.Sketch

open Text Script
open Script.Lexer

variable {afterName : Bool} {kind : TokenKind} {text rest more done : List Char}

/-! ## What stands in front -/

theorem isWord_of_isNamePart {c : Char} (h : isNamePart c) : isWord c := by
  rcases Bool.or_eq_true_iff.1 h with hc | hc
  · exact isWord_of_isAlphanum hc
  · rw [eq_of_beq hc]
    decide

theorem dropWhile_isIndent_reverse {l : Char} (hl : isIndent l = false) (front : List Char) :
    (front ++ [l]).reverse.dropWhile isIndent = l :: front.reverse := by
  rw [List.reverse_append, List.reverse_singleton, List.singleton_append, List.dropWhile_cons_of_neg (by simp [hl])]

theorem beginsStatement_blank {l : Char} (hl : isIndent l) (front : List Char) :
    beginsStatement (front ++ [l]) = beginsStatement front := by
  rw [beginsStatement, List.reverse_append, List.reverse_singleton, List.singleton_append,
    List.dropWhile_cons_of_pos hl, beginsStatement]

/-- What a text ends in behind which a statement may begin. -/
theorem beginsStatement_cases {front : List Char} {l : Char} (hl : isIndent l = false)
    (h : beginsStatement (front ++ [l])) : l = '\n' ∨ l = ';' ∨ (l = '>' ∧ front.getLast? = some '-') ∨
      ∃ before, front ++ [l] = before ++ "else".toList ∧ ∀ c ∈ before.getLast?, isWord c = false := by
  rw [beginsStatement, dropWhile_isIndent_reverse hl] at h
  have hreverse : ∀ {c : Char} {cs : List Char}, front.reverse = c :: cs → front = cs.reverse ++ [c] := fun he => by
    rw [← List.reverse_reverse front, he, List.reverse_cons]
  split at h
  · rename_i he
    cases he
  · rename_i he
    exact .inl (List.cons.inj he).1
  · rename_i he
    exact .inr (.inl (List.cons.inj he).1)
  · rename_i he
    obtain ⟨rfl, hfront⟩ := List.cons.inj he
    exact .inr (.inr (.inl ⟨rfl, by rw [hreverse hfront, List.getLast?_concat]⟩))
  · rename_i before he
    obtain ⟨rfl, hfront⟩ := List.cons.inj he
    refine .inr (.inr (.inr ⟨before.reverse, ?_, ?_⟩))
    · rw [hreverse hfront]
      simp
    · intro c hc
      rw [List.getLast?_reverse] at hc
      rw [Option.mem_def.1 hc] at h
      simpa using h
  · cases h

/-- What the text in front says of the last token in it, in front of `rest`. -/
structure Passed (done : List Char) (prev : TokenKind) (rest : List Char) : Prop where
  quote : quoteAfter none done = none
  leads : beginsStatement done → prev.leads
  minus : done.getLast? = some '-' → prev = .decrement ∨ rest.head? ≠ some '>'
  letter : (∃ c ∈ done.getLast?, c.isAlpha) → ∀ d ∈ rest.head?, isNamePart d = false

theorem quoteAfter_append {quote : Option Char} {front : List Char} (h : quoteAfter quote front = none)
    (back : List Char) : quoteAfter quote (front ++ back) = quoteAfter none back := by
  fun_induction quoteAfter quote front with
  | case1 quote => rw [h]; rfl
  | case2 => cases h
  | case3 q d cs ih => rw [List.cons_append, List.cons_append, quoteAfter, ih h]
  | case4 q c cs h1 h2 ih =>
    rw [List.cons_append, quoteAfter, ih h]
    · rintro rfl hnil
      cases cs with
      | nil => exact h1 rfl rfl
      | cons d cs => cases hnil
    · rintro d ds rfl hcs
      cases cs with
      | nil => exact h1 rfl rfl
      | cons e cs => exact h2 e cs rfl rfl
  | case5 c cs ih => rw [List.cons_append, quoteAfter, ih h]

theorem quoteAfter_open {q : Char} (hq : isQuote q) {body : List Char} (h : staysOpen q false body) :
    quoteAfter (some q) (body ++ [q]) = none := by
  have hb := (isQuote_plain hq).1
  fun_induction closeLiteral? q body with
  | case1 => rw [List.nil_append, quoteAfter] <;> simp [hb, quoteAfter]
  | case2 => cases h
  | case3 d body hd => simp_all [staysOpen]
  | case4 d body hd ih =>
    simp only [staysOpen, beq_self_eq_true, if_true, Bool.and_eq_true] at h
    rw [List.cons_append, List.cons_append, quoteAfter, ih h.2]
  | case5 c body h1 h2 hc =>
    rw [staysOpen_cons (ne_backslash h1 h2)] at h
    simp_all
  | case6 c body h1 h2 hc hn =>
    rw [staysOpen_cons (ne_backslash h1 h2)] at h
    simp_all
  | case7 c body h1 h2 hc hn ih =>
    have hc' := ne_backslash h1 h2
    rw [staysOpen_cons hc', Bool.and_eq_true, Bool.and_eq_true] at h
    rw [List.cons_append, quoteAfter, if_neg hc, ih h.2] <;> simp [hc']

theorem quoteAfter_literal (h : IsLiteral text) : quoteAfter none text = none := by
  obtain ⟨q, body, hq, hopen, rfl⟩ := isLiteral_iff.1 h
  rw [quoteAfter, if_pos hq, quoteAfter_open hq hopen]

namespace Passed

variable {prev : TokenKind}

theorem blank {c : Char} (hc : isIndent c) (h : Passed done prev (c :: rest)) : Passed (done ++ [c]) prev rest := by
  have hplain : isQuote c = false ∧ c ≠ '-' ∧ c.isAlpha = false := by
    simp only [isIndent, Bool.or_eq_true, beq_iff_eq] at hc
    rcases hc with rfl | rfl <;> decide
  refine ⟨?_, fun hs => h.leads (by rwa [← beginsStatement_blank hc]), fun hl => ?_, ?_⟩
  · rw [quoteAfter_append h.quote, quoteAfter, hplain.1]
    rfl
  · rw [List.getLast?_concat] at hl
    exact absurd (Option.some.inj hl) hplain.2.1
  · rintro ⟨d, hd, ha⟩
    rw [List.getLast?_concat] at hd
    cases hd
    rw [hplain.2.2] at ha
    cases ha

/-- A lexeme that ends in a character that is neither a letter nor a blank. -/
theorem other {init : List Char} {l : Char} (h : Passed done prev (init ++ [l] ++ rest)) (hq : quoteAfter none (init ++ [l]) = none)
    (hl : isIndent l = false ∧ l ≠ '\n' ∧ l.isAlpha = false) (hsemicolon : l = ';' → kind.leads)
    (harrow : l = '>' → (done ++ init).getLast? = some '-' → kind.leads)
    (hminus : l = '-' → kind = .decrement ∨ rest.head? ≠ some '>') : Passed (done ++ (init ++ [l])) kind rest := by
  rw [← List.append_assoc]
  refine ⟨?_, fun hs => ?_, fun hm => ?_, ?_⟩
  · rw [List.append_assoc, quoteAfter_append h.quote, hq]
  · rcases beginsStatement_cases hl.1 hs with rfl | hs | ⟨hs, hlast⟩ | ⟨before, he, -⟩
    · exact absurd rfl hl.2.1
    · exact hsemicolon hs
    · exact harrow hs hlast
    · have hend := congrArg List.getLast? he
      rw [List.getLast?_concat, List.getLast?_append] at hend
      cases hend
      exact absurd hl.2.2 (by decide)
  · rw [List.getLast?_concat] at hm
    exact hminus (Option.some.inj hm)
  · rintro ⟨d, hd, ha⟩
    rw [List.getLast?_concat] at hd
    cases hd
    rw [hl.2.2] at ha
    cases ha

theorem name {c : Char} {cs : List Char} (h : Passed done prev (c :: cs ++ rest)) (hc : isNameStart c)
    (hcs : ∀ d ∈ cs, isNamePart d) (hrest : ∀ d ∈ rest.head?, isNamePart d = false) :
    Passed (done ++ c :: cs) (.ident (String.ofList (c :: cs))) rest := by
  have hpart : ∀ d ∈ c :: cs, isNamePart d := List.forall_mem_cons.2 ⟨isNamePart_of_isNameStart hc, hcs⟩
  obtain ⟨init, l, he⟩ : ∃ init l, c :: cs = init ++ [l] := by
    obtain ⟨init, l, he⟩ := List.eq_nil_or_concat (c :: cs) |>.resolve_left (List.cons_ne_nil _ _)
    exact ⟨init, l, he.trans (List.concat_eq_append ..)⟩
  have hl : isNamePart l := hpart l (by simp [he])
  have hlast : (done ++ c :: cs).getLast? = some l := by rw [he, ← List.append_assoc, List.getLast?_concat]
  have hne : ∀ {d : Char}, isNamePart d = false → l ≠ d := by
    rintro d hd rfl
    rw [hl] at hd
    cases hd
  refine ⟨?_, fun hs => ?_, fun hm => ?_, fun _ => hrest⟩
  · rw [quoteAfter_append h.quote, ← List.append_nil (c :: cs),
      quoteAfter_of_plain fun d hd => isQuote_of_isNamePart (hpart d hd)]
    rfl
  · rw [he, ← List.append_assoc] at hs
    have hindent : isIndent l = false := by
      refine Bool.eq_false_iff.2 fun hi => ?_
      simp only [isIndent, Bool.or_eq_true, beq_iff_eq] at hi
      rcases hi with hi | hi <;> exact hne (by decide) hi
    rcases beginsStatement_cases hindent hs with hs | hs | ⟨hs, -⟩ | ⟨before, hsplit, hbefore⟩
    · exact absurd hs (hne (by decide))
    · exact absurd hs (hne (by decide))
    · exact absurd hs (hne (by decide))
    · rw [List.append_assoc, ← he] at hsplit
      rcases List.append_eq_append_iff.1 hsplit with ⟨more, hbefore', hword⟩ | ⟨more, hdone, hword⟩
      · rcases List.eq_nil_or_concat more with rfl | ⟨more, d, rfl⟩
        · rw [hword]
          rfl
        · -- in front of the `else` stands another part of the name
          rw [List.concat_eq_append] at hbefore' hword
          have hd := hbefore d (by rw [hbefore', ← List.append_assoc, List.getLast?_concat]; rfl)
          have hword' : isWord d := isWord_of_isNamePart (hpart d (by simp [hword]))
          rw [hd] at hword'
          cases hword'
      · rcases List.eq_nil_or_concat more with rfl | ⟨more, d, rfl⟩
        · rw [← show "else".toList = c :: cs from hword]
          rfl
        · -- the name goes on with a name
          rw [List.concat_eq_append] at hdone hword
          have hd : d ∈ "else".toList := by rw [hword]; simp
          have halpha : d.isAlpha := by
            have hall : ("else".toList.all Char.isAlpha) = true := by decide
            exact List.all_eq_true.1 hall d hd
          have hhead := h.letter ⟨d, by rw [hdone, ← List.append_assoc, List.getLast?_concat]; rfl, halpha⟩ c rfl
          rw [isNamePart_of_isNameStart hc] at hhead
          cases hhead
  · rw [hlast] at hm
    exact absurd (Option.some.inj hm) (hne (by decide))

theorem number {x : Float} (h : Passed done prev (text ++ rest)) (hn : startsNumber (text ++ rest))
    (hs : scanNumber (text ++ rest) = .ok ⟨x, text, rest⟩) : Passed (done ++ text) (.number x) rest := by
  obtain ⟨front, back, he, hne, hfront, hback⟩ := chars_of_scanNumber hn hs
  obtain ⟨init, l, hsplit, hl⟩ : ∃ init l, text = init ++ [l] ∧ (l.isDigit ∨ l = '.') := by
    rcases hback with rfl | ⟨mark, sign, digits, rfl, -, -, hne, hd⟩
    · obtain ⟨init, l, rfl⟩ := List.eq_nil_or_concat front |>.resolve_left hne
      exact ⟨init, l, by simpa using he, hfront l (by simp)⟩
    · obtain ⟨init, l, rfl⟩ := List.eq_nil_or_concat digits |>.resolve_left hne
      exact ⟨front ++ mark :: (sign ++ init), l, by simpa using he, .inl (hd l (by simp))⟩
  have hplain : isIndent l = false ∧ l ≠ '\n' ∧ l.isAlpha = false ∧ l ≠ ';' ∧ l ≠ '>' ∧ l ≠ '-' := by
    rcases hl with hl | rfl
    · have hno : ∀ d ∈ [' ', '\t', '\n', ';', '>', '-'], l ≠ d := by
        rintro d hd rfl
        simp only [List.mem_cons, List.not_mem_nil, or_false] at hd
        rcases hd with rfl | rfl | rfl | rfl | rfl | rfl <;> cases hl
      refine ⟨?_, hno _ (by simp), Text.not_isAlpha_of_isDigit hl, hno _ (by simp), hno _ (by simp), hno _ (by simp)⟩
      simp [isIndent, hno ' ' (by simp), hno '\t' (by simp)]
    · decide
  obtain ⟨hi, hnewline, ha, hsemicolon, harrow, hminus⟩ := hplain
  have hquote : quoteAfter none text = none := by
    rw [← List.append_nil text, quoteAfter_of_plain fun d hd => Spelt.not_isQuote (number_unmarked hs d hd)]
    rfl
  subst hsplit
  exact h.other hquote ⟨hi, hnewline, ha⟩ (absurd · hsemicolon) (absurd · harrow) (absurd · hminus)

theorem literal (h : Passed done prev (text ++ rest)) (hl : IsLiteral text) : Passed (done ++ text) kind rest := by
  obtain ⟨q, body, hq, hopen, rfl⟩ := isLiteral_iff.1 hl
  have hplain : isIndent q = false ∧ q ≠ '\n' ∧ q.isAlpha = false ∧ q ≠ ';' ∧ q ≠ '>' ∧ q ≠ '-' := by
    simp only [isQuote, Bool.or_eq_true, beq_iff_eq] at hq
    rcases hq with rfl | rfl <;> decide
  obtain ⟨hi, hn, ha, hsemicolon, harrow, hminus⟩ := hplain
  have hend : Passed done prev (q :: body ++ [q] ++ rest) := h
  exact hend.other (quoteAfter_literal hl) ⟨hi, hn, ha⟩ (absurd · hsemicolon) (absurd · harrow) (absurd · hminus)

theorem operator (h : Passed done prev (text ++ rest)) (hs : scanOperator afterName (text ++ rest) = some ⟨kind, text, rest⟩)
    (hstep : prev = .decrement → kind ≠ .greater) : Passed (done ++ text) kind rest := by
  have hquote : quoteAfter none text = none := by
    rw [← List.append_nil text, quoteAfter_of_plain fun d hd => (chars_of_scanOperator hs d hd).1]
    rfl
  rcases scanOperator_cases hs with ⟨c, he, hk, hrest⟩ | ⟨c, d, he, hk⟩
  · obtain rfl : text = [c] := he
    have hplain : isIndent c = false ∧ c ≠ '\n' ∧ c.isAlpha = false := by
      unfold operator? at hk
      split at hk <;> first | decide | cases hk
    have hend : Passed done prev ([] ++ [c] ++ rest) := h
    refine hend.other hquote hplain ?_ ?_ ?_
    · rintro rfl
      cases hk
      rfl
    · rintro rfl hlast
      cases hk
      rw [List.append_nil] at hlast
      rcases h.minus hlast with hprev | hne
      · exact absurd rfl (hstep hprev)
      · exact absurd rfl hne
    · rintro rfl
      cases hk
      exact .inr fun hhead => absurd (hrest '>' hhead) (by decide)
  · obtain rfl : text = [c, d] := he
    have hplain : isIndent d = false ∧ d ≠ '\n' ∧ d.isAlpha = false ∧ d ≠ ';' ∧ (d = '>' → kind = .arrow) ∧
        (d = '-' → kind = .decrement) := by
      rcases hk with hk | hk
      · unfold stepOperator? at hk
        split at hk <;> cases hk <;> decide
      · unfold pairOperator? at hk
        split at hk <;> cases hk <;> decide
    obtain ⟨hi, hn, ha, hsemicolon, harrow, hminus⟩ := hplain
    have hend : Passed done prev ([c] ++ [d] ++ rest) := h
    exact hend.other hquote ⟨hi, hn, ha⟩ (absurd · hsemicolon) (fun hd _ => by rw [harrow hd]; rfl)
      fun hd => .inl (hminus hd)

theorem found (h : Passed done prev (text ++ rest)) (hf : Found afterName kind text rest)
    (hstep : prev = .decrement → kind ≠ .greater) : Passed (done ++ text) kind rest := by
  cases hf with
  | number hn hs => exact h.number hn hs
  | name hc hcs hrest => exact h.name hc hcs hrest
  | literal hl => exact h.literal hl
  | operator hs => exact h.operator hs hstep

end Passed

/-! ## Lines -/

/-- Every word that begins a statement, with white space behind it, stands where a statement may begin, or in a text
literal. -/
def CommandsBegin (cs : List Char) : Prop :=
  ∀ front word back, cs = front ++ (word ++ back) → (∀ c ∈ front.getLast?, isNamePart c = false) →
    startsStatement (String.ofList word) → (∃ c ∈ back.head?, isAsciiSpace c) →
    beginsStatement front ∨ quoteAfter none front ≠ none

/-- The words of a text are the runs of name parts in it, so one word at each place is enough. -/
theorem commandsBegin_iff {cs : List Char} : CommandsBegin cs ↔ ∀ n ∈ List.range (cs.length + 1),
    (∀ c ∈ (cs.take n).getLast?, isNamePart c = false) →
    startsStatement (String.ofList ((cs.drop n).takeWhile isNamePart)) →
    (∃ c ∈ ((cs.drop n).dropWhile isNamePart).head?, isAsciiSpace c) →
    beginsStatement (cs.take n) ∨ quoteAfter none (cs.take n) ≠ none := by
  constructor
  · exact fun h n _ hlast hstarts hspace => h _ _ _ (by simp) hlast hstarts hspace
  · intro h front word back hcs hlast hstarts hspace
    have hword : ∀ c ∈ word, isNamePart c := by
      intro c hc
      have halpha := isAlpha_of_startsStatement hstarts c (by rwa [String.toList_ofList])
      simp [isNamePart, Char.isAlphanum, halpha]
    obtain ⟨space, hmem, hs⟩ := hspace
    obtain ⟨back, rfl⟩ := List.head?_eq_some_iff.1 hmem
    have hpart := (isNamePart_of_isAsciiSpace hs).1
    have hplace := h front.length (List.mem_range.2 (by rw [hcs, List.length_append]; omega))
    rw [hcs, List.take_left, List.drop_left, List.takeWhile_append_of_pos hword, List.dropWhile_append_of_pos hword,
      List.takeWhile_cons_of_neg (by simp [hpart]), List.dropWhile_cons_of_neg (by simp [hpart]), List.append_nil] at hplace
    exact hplace hlast hstarts ⟨space, rfl, hs⟩

instance (cs : List Char) : Decidable (CommandsBegin cs) :=
  decidable_of_iff ((List.range (cs.length + 1)).all fun n => (cs.take n).getLast?.any isNamePart ||
      !startsStatement (String.ofList ((cs.drop n).takeWhile isNamePart)) ||
      !((cs.drop n).dropWhile isNamePart).head?.any isAsciiSpace ||
      beginsStatement (cs.take n) || (quoteAfter none (cs.take n)).isSome) (by
    have hlast : ∀ o : Option Char, (∀ c ∈ o, ¬ isNamePart c) ↔ ¬ o.any isNamePart := by
      rintro (_ | c) <;> simp
    have hspace : ∀ o : Option Char, (∃ c ∈ o, isAsciiSpace c) ↔ o.any isAsciiSpace := by
      rintro (_ | c) <;> simp
    simp only [commandsBegin_iff, List.all_eq_true, Bool.or_eq_true, Bool.not_eq_eq_eq_not, Bool.not_true,
      ← Bool.not_eq_true, Option.ne_none_iff_isSome, hlast, hspace]
    refine forall₂_congr fun n _ => ?_
    tauto)

/-- What separating commands makes of the code of a line. -/
structure SeparatedCode (pos : Nat) (afterName : Bool) (prev : TokenKind) (done cs tail : List Char) (ts : List Token)
    (out : List Char) : Prop where
  text : separateFrom none done.getLast? (cs ++ tail) = out ++ separateFrom none (done ++ cs).getLast? tail
  front : SameFront cs out
  last : out.getLast? = cs.getLast?
  newline : '\n' ∉ out
  begins : Begins cs → Begins out
  quote : quoteAfter none (done ++ cs) = none
  tokens : ∀ {pos' before before'}, before ≤ pos → before' ≤ pos' → (before < pos ↔ before' < pos') →
    ∃ ts', Lexed pos' afterName out ts' ∧ ∀ {more more'},
      (∀ {k stop stop'}, stop ≤ pos + byteLength cs → stop' ≤ pos' + byteLength out →
        (stop < pos + byteLength cs ↔ stop' < pos' + byteLength out) → Parted k (glyphs stop more) (glyphs stop' more')) →
      Parted prev (glyphs before (ts ++ more)) (glyphs before' (ts' ++ more'))

theorem Clean.of_plain {stops : List Char} (ht : ∀ c ∈ text, isQuote c = false) (h : Clean stops [] (text ++ rest)) :
    Clean stops [] rest := by
  induction text with
  | nil => exact h
  | cons c text ih =>
    obtain ⟨hc, ht⟩ := List.forall_mem_cons.1 ht
    exact ih ht (h.tail hc).2.2

theorem Clean.startsComment_eq_false (h : Clean ['/'] [] rest) : startsComment rest = false := by
  unfold startsComment
  split
  · exact absurd rfl (h.tail rfl).1
  · have hslash := (h.tail rfl).2.1 rfl '/' rfl
    simp at hslash
  · rfl

/-- Behind a lexeme the text is clean too. -/
theorem Clean.of_found (hf : Found afterName kind text rest) (h : Clean ['/'] [] (text ++ more)) : Clean ['/'] [] more := by
  cases hf with
  | literal hl => exact h.of_literal hl
  | number hn hs => exact h.of_plain fun d hd => Spelt.not_isQuote (number_unmarked hs d hd)
  | operator hs => exact h.of_plain fun d hd => (chars_of_scanOperator hs d hd).1
  | name hc hcs =>
    exact h.of_plain (List.forall_mem_cons.2 ⟨isQuote_of_isNamePart (isNamePart_of_isNameStart hc), fun d hd =>
      isQuote_of_isNamePart (hcs d hd)⟩)

theorem isQuote_of_isIndent {c : Char} (h : isIndent c) : isQuote c = false :=
  Spelt.not_isQuote (notMem_marks_of_isIndent h)

namespace SeparatedCode

variable {pos : Nat} {prev : TokenKind} {cs tail out : List Char} {ts : List Token}

theorem nil (hquote : quoteAfter none done = none) : SeparatedCode pos afterName prev done [] tail [] [] where
  text := by rw [List.append_nil, List.nil_append, List.nil_append]
  front := .refl _
  last := rfl
  newline := List.not_mem_nil
  begins := id
  quote := by rwa [List.append_nil]
  tokens hb hb' hlt := ⟨[], .nil, fun h => h hb hb' hlt⟩

theorem blank {c : Char} (hc : isIndent c) (h : SeparatedCode (pos + c.utf8Size) false prev (done ++ [c]) cs tail ts out) :
    SeparatedCode pos afterName prev done (c :: cs) tail ts (c :: out) where
  text := by
    have htext := h.text
    rw [List.getLast?_concat, List.append_assoc, List.singleton_append] at htext
    rw [List.cons_append, separateFrom_space (by simp) (isAsciiSpace_of_isIndent hc), htext, List.cons_append]
  front := .inl rfl
  last := by rw [List.getLast?_cons, List.getLast?_cons, h.last]
  newline := by
    have hne : '\n' ≠ c := by
      rintro rfl
      cases hc
    exact List.not_mem_cons_of_ne_of_not_mem hne h.newline
  begins := by
    rintro ⟨d, ds, he, hd, -⟩
    cases he
    rw [hc] at hd
    cases hd
  quote := by
    have hquote := h.quote
    rwa [List.append_assoc, List.singleton_append] at hquote
  tokens {pos' before before'} hb hb' hlt := by
    have hsize := c.utf8Size_pos
    obtain ⟨ts', hlex, hrel⟩ := h.tokens (show before ≤ pos + c.utf8Size by omega)
      (show before' ≤ pos' + c.utf8Size by omega) (by omega)
    refine ⟨ts', .blank hc hlex, fun hmore => hrel fun h1 h2 h3 => hmore ?_ ?_ ?_⟩ <;>
      · simp only [Text.byteLength_cons]
        omega

/-- A lexeme that stays, or a name with a semicolon in front of it. -/
theorem lexeme (hs : Scans afterName kind text rest) (hword : kind.isWord) {front : List Char}
    (hfront : front = [] ∨ front = [';'] ∧ prev.leads ∧ ∃ word, kind = .ident word ∧ word ≠ "if")
    (htext : separateFrom none done.getLast? (text ++ (rest ++ tail)) =
      front ++ text ++ separateFrom none (done ++ text).getLast? (rest ++ tail))
    (hn : '\n' ∉ text)
    (h : SeparatedCode (pos + byteLength text) (isName kind) kind (done ++ text) rest tail ts out) :
    SeparatedCode pos afterName prev done (text ++ rest) tail (⟨kind, pos, pos + byteLength text⟩ :: ts)
      (front ++ (text ++ out)) where
  text := by rw [List.append_assoc, htext, h.text]; simp
  front := by
    obtain ⟨c, cs, rfl, -, -, -⟩ := hs
    rcases hfront with rfl | ⟨rfl, -⟩
    · exact .inl rfl
    · exact .inr fun d hd => by cases hd; rfl
  last := by
    obtain ⟨c, cs, rfl, -, -, -⟩ := hs
    simp only [List.getLast?_append, List.getLast?_cons, h.last, Option.or_assoc, Option.some_or]
  newline := by
    have hfront' : '\n' ∉ front := by rcases hfront with rfl | ⟨rfl, -⟩ <;> simp
    simp only [List.mem_append, not_or]
    exact ⟨hfront', hn, h.newline⟩
  begins _ := by
    obtain ⟨c, cs, rfl, hi, hcomment, -⟩ := hs.of_front h.front
    rcases hfront with rfl | ⟨rfl, -⟩
    · exact ⟨c, cs ++ out, rfl, hi, hcomment⟩
    · exact ⟨';', _, rfl, rfl, rfl⟩
  quote := by rw [← List.append_assoc]; exact h.quote
  tokens {pos' before before'} hb hb' hlt := by
    have hs' := hs.of_front h.front
    have hflag : decide (before' < pos') = decide (before < pos) := decide_eq_decide.2 hlt.symm
    rcases hfront with rfl | ⟨rfl, hleads, word, rfl, hif⟩
    · obtain ⟨ts', hlex, hrel⟩ := h.tokens (Nat.le_refl _) (Nat.le_refl (pos' + byteLength text)) (by simp)
      rw [List.nil_append]
      refine ⟨_, .lexeme hs' hword hlex, fun hmore => ?_⟩
      rw [List.cons_append, List.cons_append, glyphs, glyphs, hflag]
      refine .keep (hrel fun h1 h2 h3 => hmore ?_ ?_ ?_) <;>
        · simp only [byteLength_append]
          omega
    · obtain ⟨ts', hlex, hrel⟩ := h.tokens (Nat.le_refl _) (Nat.le_refl (pos' + 1 + byteLength text)) (by simp)
      have hsemicolon := Delimiter.semicolon.scans afterName (text ++ out)
      refine ⟨_, .lexeme hsemicolon rfl (.lexeme (hs'.apart rfl) hword hlex), fun hmore => ?_⟩
      rw [List.cons_append, List.cons_append, List.cons_append, glyphs, glyphs, glyphs, hflag,
        show decide (pos' + byteLength [';'] < pos' + byteLength [';']) = false by simp]
      refine .put hleads hif (hrel fun h1 h2 h3 => hmore ?_ ?_ ?_) <;>
        · simp only [byteLength_append, show byteLength [';'] = 1 from rfl]
          omega

end SeparatedCode

/-- The code of a line, perhaps with a carriage return behind it. -/
theorem separated_of_lexed {whole ret : List Char} (hbegin : CommandsBegin whole) {pos : Nat} {cs : List Char}
    {ts : List Token} (h : Lexed pos afterName cs ts) :
    ∀ {done tail : List Char} {prev : TokenKind}, whole = done ++ (cs ++ tail) → Passed done prev cs →
      Clean ['/'] [] (cs ++ ret) → '\n' ∉ cs → (∀ d ∈ tail.head?, isNamePart d = false) →
      (prev :: ts.map Token.kind).IsChain EndsStep → ∃ out, SeparatedCode pos afterName prev done cs tail ts out := by
  induction h with
  | nil => exact fun _ hp _ _ _ _ => ⟨[], .nil hp.quote⟩
  | @blank pos afterName c cs ts hc _ ih =>
    intro done tail prev hw hp hclean hn htail hchain
    obtain ⟨out, h⟩ := ih (by rw [hw]; simp) (hp.blank hc) (hclean.tail (isQuote_of_isIndent hc)).2.2
      (fun hm => hn (List.mem_cons_of_mem _ hm)) htail hchain
    exact ⟨_, h.blank hc⟩
  | comment hcomment =>
    intro done tail prev _ _ hclean
    have hno := hclean.startsComment_eq_false
    rw [startsComment_append hcomment] at hno
    cases hno
  | @lexeme pos afterName kind text rest ts hs hword _ ih =>
    intro done tail prev hw hp hclean hn htail hchain
    have hf := found_of_scans hs hn
    rw [List.map_cons, List.isChain_cons_cons] at hchain
    have hstep : prev = .decrement → kind ≠ .greater := by
      rintro rfl rfl
      rcases hchain.1 (by simp [Parser.stepOp?]) with (h | h | h) | h <;> cases h
    obtain ⟨out, h⟩ := ih (show whole = done ++ text ++ (rest ++ tail) by rw [hw]; simp) (hp.found hf hstep)
      (Clean.of_found hf (by rwa [List.append_assoc] at hclean))
      (fun hm => hn (List.mem_append_right _ hm)) htail hchain.2
    obtain ⟨front, he, hfront⟩ := separateFrom_found hf htail done
    refine ⟨_, h.lexeme hs hword (hfront.imp_right fun hput => ?_) he fun hm => hn (List.mem_append_left _ hm)⟩
    obtain ⟨hsemicolon, hk, ⟨b, hb, hpart⟩, hspace, hstarts⟩ := hput
    have hbegins := hbegin done text (rest ++ tail) (by rw [hw, List.append_assoc])
      (fun c hc => Option.mem_unique hb hc ▸ hpart) hstarts hspace
    refine ⟨hsemicolon, hp.leads (hbegins.resolve_right fun hquote => hquote hp.quote), _, hk, ?_⟩
    intro hif
    rw [hif] at hstarts
    exact absurd hstarts (by decide)

/-! ## Texts -/

/-- The one text stands apart from what is in front of it just if the other one does. -/
def Aligned (before pos before' pos' : Nat) : Prop :=
  before = 0 ∧ pos = 0 ∧ before' = 0 ∧ pos' = 0 ∨ before < pos ∧ before' < pos' ∧ (before + 1 < pos ↔ before' + 1 < pos')

/-- Wherever these lines stand, their tokens are the given ones with semicolons in front of statements. -/
def PartedLines (pos : Nat) (levels : List Nat) (lines : List (List Char)) (ts : List Token) : Prop :=
  ∀ {pos' before before' : Nat}, Aligned before pos before' pos' → ∃ ts', lexLines pos' levels lines = .ok ts' ∧
    ∀ {prev : TokenKind}, prev.leads → Parted prev (glyphs before ts) (glyphs before' ts')

theorem leads_of_layout (h : kind.isWord = false) : kind.leads := by
  cases kind <;> first | rfl | cases h

theorem parted_layout {kinds : List TokenKind} (hk : ∀ kind ∈ kinds, kind.isWord = false) {p p' : Nat}
    {ts us : List Token} (h : ∀ {prev : TokenKind} {before before' : Nat}, prev.leads → before ≤ p → before' ≤ p' →
      (before < p ↔ before' < p') → Parted prev (glyphs before ts) (glyphs before' us)) :
    ∀ {prev : TokenKind} {before before' : Nat}, prev.leads → before ≤ p → before' ≤ p' → (before < p ↔ before' < p') →
      Parted prev (glyphs before (kinds.map (⟨·, p, p⟩) ++ ts)) (glyphs before' (kinds.map (⟨·, p', p'⟩) ++ us)) := by
  induction kinds with
  | nil => exact h
  | cons kind kinds ih =>
    intro prev before before' _ hb hb' hlt
    obtain ⟨hkind, hkinds⟩ := List.forall_mem_cons.1 hk
    rw [List.map_cons, List.map_cons, List.cons_append, List.cons_append, glyphs, glyphs, decide_eq_decide.2 hlt]
    exact .keep (ih hkinds (leads_of_layout hkind) (Nat.le_refl _) (Nat.le_refl _) (by simp))

/-- The end of a text. -/
theorem partedLines_nil {pos : Nat} {levels : List Nat} {ts : List Token} (h : lexLines pos levels [] = .ok ts) :
    PartedLines pos levels [] ts := by
  intro pos' before before' halign
  cases h
  refine ⟨_, rfl, fun hprev => ?_⟩
  have hkinds : ∀ p : Nat, List.replicate levels.length (⟨.dedent, p, p⟩ : Token) ++ [⟨.eof, p, p⟩] =
      (List.replicate levels.length TokenKind.dedent ++ [TokenKind.eof]).map (⟨·, p, p⟩) ++ [] := fun p => by simp
  rw [hkinds, hkinds]
  have hk : ∀ kind ∈ List.replicate levels.length TokenKind.dedent ++ [TokenKind.eof], kind.isWord = false := by
    intro kind hk
    rcases List.mem_append.1 hk with hk | hk
    · rw [List.eq_of_mem_replicate hk]
      rfl
    · rw [List.mem_singleton.1 hk]
      rfl
  rcases halign with ⟨rfl, rfl, rfl, rfl⟩ | ⟨hlt, hlt', hiff⟩
  · exact parted_layout hk (fun _ _ _ _ => .nil) hprev (Nat.le_refl _) (Nat.le_refl _) Iff.rfl
  · exact parted_layout hk (fun _ _ _ _ => .nil) hprev (by omega) (by omega) (by omega)

theorem dropReturn_concat (line : List Char) : dropReturn (line ++ ['\r']) = line := by
  rw [dropReturn, List.getLast?_concat, if_pos (beq_self_eq_true _), List.dropLast_concat]

theorem dropReturn_of_ne {line : List Char} (h : line.getLast? ≠ some '\r') : dropReturn line = line := by
  rw [dropReturn, if_neg (by simpa using h)]

/-- A line with white space alone. -/
theorem partedLines_idle {pos : Nat} {levels : List Nat} {raw : List Char} {lines' : List (List Char)} {ts : List Token}
    (hraw : ((dropReturn raw).dropWhile isIndent).isEmpty || startsComment ((dropReturn raw).dropWhile isIndent))
    (h : PartedLines (pos + byteLength raw + 1) levels lines' ts) : PartedLines pos levels (raw :: lines') ts := by
  intro pos' before before' halign
  rw [lexLines_skip hraw]
  refine h ?_
  rcases halign with ⟨rfl, rfl, rfl, rfl⟩ | ⟨hlt, hlt', hiff⟩
  · exact .inr ⟨by omega, by omega, by omega⟩
  · exact .inr ⟨by omega, by omega, by omega⟩

section

variable {whole done tail : List Char} {pos : Nat} {levels : List Nat} {raw : List Char} {lines : List (List Char)}
  {ts : List Token}

/-- A line on which something stands. -/
theorem partedLines_begins {indent body ret code : List Char} {us ts₂ : List Token} {kinds : List TokenKind}
    {levels₂ : List Nat} {lines' : List (List Char)} (hi : ∀ c ∈ indent, isIndent c)
    (hcode : SeparatedCode (pos + indent.length) false .newline done body tail us code) (hbegins : Begins body)
    (hdrop : dropReturn (indent ++ (code ++ ret)) = indent ++ code)
    (hkinds : Indents indent.length levels kinds levels₂)
    (hts : ts = kinds.map (⟨·, pos + indent.length, pos + indent.length⟩) ++ us ++
      ⟨.newline, pos + indent.length + byteLength body, pos + byteLength raw⟩ :: ts₂)
    (h : PartedLines (pos + byteLength raw + 1) levels₂ lines' ts₂) :
    PartedLines pos levels ((indent ++ (code ++ ret)) :: lines') ts := by
  intro pos' before before' halign
  obtain ⟨us', hlex, -⟩ := hcode.tokens (Nat.le_refl _) (Nat.le_refl (pos' + indent.length)) (by simp)
  obtain ⟨ts₂', hlines, hparted⟩ := h (.inr ⟨Nat.lt_succ_self (pos + byteLength raw),
    Nat.lt_succ_self (pos' + byteLength (indent ++ (code ++ ret))), by simp⟩)
  refine ⟨_, (lexLines_begins_iff hdrop hi (hcode.begins hbegins)).2 ⟨kinds, levels₂, us', ts₂', hkinds, hlex, hlines, rfl⟩,
    fun hprev => ?_⟩
  rw [hts, List.append_assoc, List.append_assoc]
  refine parted_layout hkinds.1 (fun hprev hb hb' hlt => ?_) hprev ?_ ?_ ?_
  · obtain ⟨us'', hlex', hrel'⟩ := hcode.tokens hb hb' hlt
    obtain rfl : us'' = us' := Except.ok.inj ((lexed_iff.2 hlex').symm.trans (lexed_iff.2 hlex))
    refine (hrel' fun h1 h2 h3 => ?_).of_leads hprev
    rw [glyphs, glyphs, decide_eq_decide.2 h3]
    exact .keep (hparted rfl)
  all_goals rcases halign with ⟨rfl, rfl, rfl, rfl⟩ | ⟨hlt, hlt', -⟩ <;> omega

/-- What becomes of the first line. -/
theorem exists_separated_line (hbegin : CommandsBegin whole) (h : lexLines pos levels (raw :: lines) = .ok ts)
    (hw : whole = done ++ (raw ++ tail)) (hdone : ∀ c ∈ done.getLast?, c = '\n') (hquote : quoteAfter none done = none)
    (hclean : Clean ['/'] [] raw) (hn : '\n' ∉ raw) (htail : ∀ c ∈ tail.head?, c = '\n')
    (hchain : (ts.map Token.kind).IsChain EndsStep) :
    ∃ out levels₂ ts₂, separateFrom none done.getLast? (raw ++ tail) = out ++ separateFrom none (done ++ raw).getLast? tail ∧
      '\n' ∉ out ∧ quoteAfter none (done ++ raw) = none ∧ lexLines (pos + byteLength raw + 1) levels₂ lines = .ok ts₂ ∧
      (ts₂.map Token.kind).IsChain EndsStep ∧
      ∀ {lines'}, PartedLines (pos + byteLength raw + 1) levels₂ lines' ts₂ → PartedLines pos levels (out :: lines') ts := by
  have hblank : ∀ c, isIndent c ∨ c = '\r' → isQuote c = false ∧ c.isAlpha = false := by
    intro c hc
    simp only [isIndent, Bool.or_eq_true, beq_iff_eq] at hc
    rcases hc with (rfl | rfl) | rfl <;> decide
  obtain ⟨ret, hraw, hret⟩ : ∃ ret, raw = dropReturn raw ++ ret ∧ (ret = [] ∨ ret = ['\r']) := by
    rcases dropReturn_cases raw with he | he
    · exact ⟨[], by rw [← he, List.append_nil], .inl rfl⟩
    · exact ⟨['\r'], he, .inr rfl⟩
  have hends : ∀ c ∈ ret, isIndent c ∨ c = '\r' := by rcases hret with rfl | rfl <;> simp
  rcases lexLines_cases raw with hskip | ⟨indent, body, hr, hi, hb⟩
  · have hblanks : ∀ c ∈ raw, isIndent c ∨ c = '\r' := by
      have hsplit := List.takeWhile_append_dropWhile (p := isIndent) (l := dropReturn raw)
      have hindent : ∀ c ∈ (dropReturn raw).takeWhile isIndent, isIndent c :=
        List.all_eq_true.1 List.all_takeWhile
      have hrest : (dropReturn raw).dropWhile isIndent = [] := by
        rcases Bool.or_eq_true_iff.1 hskip with he | hcomment
        · exact List.isEmpty_iff.1 he
        · rw [hraw, ← hsplit, List.append_assoc] at hclean
          have hno := (hclean.of_plain fun c hc => (hblank c (.inl (hindent c hc))).1).startsComment_eq_false
          rw [startsComment_append hcomment] at hno
          cases hno
      rw [hrest, List.append_nil] at hsplit
      rw [hraw, ← hsplit]
      exact List.forall_mem_append.2 ⟨fun c hc => .inl (hindent c hc), hends⟩
    have hplain := fun c hc => hblank c (hblanks c hc)
    rw [lexLines_skip hskip] at h
    refine ⟨raw, levels, ts, LeftAlone.plain hplain done tail, hn, ?_, h, hchain, partedLines_idle hskip⟩
    rw [quoteAfter_append hquote, ← List.append_nil raw, quoteAfter_of_plain fun c hc => (hplain c hc).1]
    rfl
  · obtain ⟨kinds, levels₂, us, ts₂, hkinds, hlex, hlines, hts⟩ := (lexLines_begins_iff hr hi hb).1 h
    rw [hr, List.append_assoc] at hraw
    have hindent : ∀ c ∈ indent, isQuote c = false ∧ c.isAlpha = false := fun c hc => hblank c (.inl (hi c hc))
    have hret' : ∀ c ∈ ret, isQuote c = false ∧ c.isAlpha = false := fun c hc => hblank c (hends c hc)
    have hquote' : quoteAfter none (done ++ indent) = none := by
      rw [quoteAfter_append hquote, ← List.append_nil indent, quoteAfter_of_plain fun c hc => (hindent c hc).1]
      rfl
    have hlast : ∀ c ∈ (done ++ indent).getLast?, c ≠ '-' ∧ c.isAlpha = false := by
      intro c hc
      rw [List.getLast?_append] at hc
      rcases Option.or_eq_some_iff.1 hc with hc | ⟨-, hc⟩
      · have hc := hi c (List.mem_of_getLast? hc)
        simp only [isIndent, Bool.or_eq_true, beq_iff_eq] at hc
        rcases hc with rfl | rfl <;> decide
      · rw [hdone c hc]
        decide
    have hpassed : Passed (done ++ indent) .newline body := by
      refine ⟨hquote', fun _ => rfl, fun hm => absurd rfl (hlast _ hm).1, ?_⟩
      rintro ⟨c, hc, ha⟩
      rw [(hlast c hc).2] at ha
      cases ha
    rw [hraw] at hclean hn
    simp only [List.mem_append, not_or] at hn
    have htail' : ∀ d ∈ (ret ++ tail).head?, isNamePart d = false := by
      intro d hd
      rcases hret with rfl | rfl
      · rw [htail d hd]
        rfl
      · cases hd
        rfl
    rw [hts, List.map_append, List.map_append, List.map_cons] at hchain
    obtain ⟨hfront, hback, -⟩ := List.isChain_append.1 hchain
    have hcodes : (TokenKind.newline :: us.map Token.kind).IsChain EndsStep :=
      List.isChain_cons.2 ⟨fun _ _ hstep => absurd rfl hstep, (List.isChain_append.1 hfront).2.1⟩
    obtain ⟨code, hcode⟩ := separated_of_lexed hbegin hlex (by rw [hw, hraw]; simp) hpassed
      (hclean.of_plain fun c hc => (hindent c hc).1) hn.2.1 htail' hcodes
    have hdrop : dropReturn (indent ++ (code ++ ret)) = indent ++ code := by
      rcases hret with rfl | rfl
      · rw [List.append_nil] at hraw ⊢
        refine dropReturn_of_ne fun he => ?_
        rw [List.getLast?_append, hcode.last, ← List.getLast?_append, ← hraw] at he
        rw [dropReturn, if_pos (beq_iff_eq.2 he), ← hraw] at hr
        have hlength := congrArg List.length hr
        have hne : raw ≠ [] := by
          rintro rfl
          cases he
        have hpos := List.length_pos_iff.2 hne
        rw [List.length_dropLast] at hlength
        omega
      · rw [← List.append_assoc, dropReturn_concat]
    refine ⟨indent ++ (code ++ ret), levels₂, ts₂, ?_, ?_, ?_, hlines, (List.isChain_cons.1 hback).2,
      partedLines_begins hi hcode hb hdrop hkinds hts⟩
    · rw [hraw, List.append_assoc, List.append_assoc, LeftAlone.plain hindent, hcode.text, LeftAlone.plain hret']
      simp only [List.append_assoc]
    · simp only [List.mem_append, not_or]
      exact ⟨hn.1, hcode.newline, hn.2.2⟩
    · rw [hraw, ← List.append_assoc, ← List.append_assoc, quoteAfter_append hcode.quote, ← List.append_nil ret,
        quoteAfter_of_plain fun c hc => (hret' c hc).1]
      rfl

end

/-- What becomes of all lines. -/
theorem exists_separated_lines {whole : List Char} (hbegin : CommandsBegin whole) {lines : List (List Char)} :
    ∀ {raw done : List Char} {pos : Nat} {levels : List Nat} {ts : List Token},
      lexLines pos levels (raw :: lines) = .ok ts → whole = done ++ joinLines (raw :: lines) →
      (∀ c ∈ done.getLast?, c = '\n') → quoteAfter none done = none →
      (∀ line ∈ raw :: lines, Clean ['/'] [] line ∧ '\n' ∉ line) → (ts.map Token.kind).IsChain EndsStep →
      ∃ outs, outs ≠ [] ∧ separateFrom none done.getLast? (joinLines (raw :: lines)) = joinLines outs ∧
        (∀ line ∈ outs, '\n' ∉ line) ∧ PartedLines pos levels outs ts := by
  induction lines with
  | nil =>
    intro raw done pos levels ts h hw hdone hquote hlines hchain
    obtain ⟨hclean, hn⟩ := hlines raw List.mem_cons_self
    obtain ⟨out, levels₂, ts₂, htext, hout, -, hlex, -, hparted⟩ := exists_separated_line hbegin h
      (show whole = done ++ (raw ++ []) by rw [hw, joinLines, List.append_nil]) hdone hquote hclean hn (by simp) hchain
    rw [List.append_nil, separateFrom_nil, List.append_nil] at htext
    exact ⟨[out], by simp, htext, by simpa using hout, hparted (partedLines_nil hlex)⟩
  | cons raw' lines ih =>
    intro raw done pos levels ts h hw hdone hquote hlines hchain
    obtain ⟨⟨hclean, hn⟩, hrest⟩ := List.forall_mem_cons.1 hlines
    have hjoin : joinLines (raw :: raw' :: lines) = raw ++ '\n' :: joinLines (raw' :: lines) := rfl
    obtain ⟨out, levels₂, ts₂, htext, hout, hquote', hlex, hchain', hparted⟩ := exists_separated_line hbegin h
      (hjoin ▸ hw) hdone hquote hclean hn (by simp) hchain
    have hnewline : quoteAfter none (done ++ raw ++ ['\n']) = none := by
      rw [quoteAfter_append hquote']
      rfl
    obtain ⟨outs, hne, htexts, houts, hparted'⟩ := ih hlex
      (show whole = done ++ raw ++ ['\n'] ++ joinLines (raw' :: lines) by rw [hw, hjoin]; simp) (by simp) hnewline hrest hchain'
    rw [List.getLast?_concat] at htexts
    refine ⟨out :: outs, List.cons_ne_nil _ _, ?_, List.forall_mem_cons.2 ⟨hout, houts⟩, hparted hparted'⟩
    rw [hjoin, htext, separateFrom_space (by simp) rfl, htexts, joinLines_cons hne]

/-- The tokens of a text in which the commands are separated are those of the text with semicolons in front of
statements. -/
theorem lex_separateCommands {cs : List Char} {ts : List Token} (hbegin : CommandsBegin cs) (hfree : CommentFree cs)
    (h : lex cs = .ok ts) (hchain : (ts.map Token.kind).IsChain EndsStep) :
    ∃ ts', lex (separateCommands cs) = .ok ts' ∧ Parted .newline (glyphs 0 ts) (glyphs 0 ts') := by
  have hn : ∀ line ∈ splitLines cs, '\n' ∉ line := fun _ => newline_notMem_of_mem_splitLines
  have hclean := clean_lexLines hn h (by rwa [joinLines_splitLines])
  obtain ⟨raw, lines, hlines⟩ := List.exists_cons_of_ne_nil (splitLines_ne_nil cs)
  have hjoin : joinLines (raw :: lines) = cs := by rw [← hlines, joinLines_splitLines]
  rw [lex, hlines] at h
  rw [hlines] at hn hclean
  obtain ⟨outs, hne, htext, houts, hparted⟩ := exists_separated_lines hbegin h
    (show cs = [] ++ joinLines (raw :: lines) from hjoin.symm) (by simp) rfl
    (fun line hm => ⟨hclean line hm, hn line hm⟩) hchain
  obtain ⟨ts', hlex, hrel⟩ := hparted (.inl ⟨rfl, rfl, rfl, rfl⟩)
  refine ⟨ts', ?_, hrel rfl⟩
  have hseparated : separateCommands cs = joinLines outs := by
    rw [← htext, hjoin]
    rfl
  rw [lex, hseparated, splitLines_joinLines hne houts, hlex]

/-- **Separating the commands of a script that are separated changes nothing**: it is accepted with the same
program. -/
theorem compile_separateCommands {cs : List Char} {p : Program} (h : compile cs = .ok p) (hfree : CommentFree cs)
    (hbegin : CommandsBegin cs) : compile (separateCommands cs) = .ok p := by
  obtain ⟨stmts, hparse, hlower⟩ := bind_eq_ok.1 (mapError_eq_ok.1 h)
  obtain ⟨ts, hlex, hprogram⟩ := bind_eq_ok.1 hparse
  have hderives := (Parser.program_iff (nested_lex hlex) (ordered_lex hlex)).1 ⟨stmts, hprogram, rfl⟩
  obtain ⟨ts', hlex', hparted⟩ := lex_separateCommands hbegin hfree hlex hderives.isChain
  obtain ⟨stmts', hprogram', he⟩ :=
    Parser.program_of_derivesProgram (nested_lex hlex') (ordered_lex hlex') (hderives.parted hparted)
  rw [compile, parse, hlex', ok_bind, hprogram', ok_bind, lower_of_erase he hlower]
  rfl

/-- Commands in all places where a statement may begin, and two of their names in a text literal. -/
def begunCommands : List Char := "n = 'a box b'\nif n -> box 2\nelse ball 3\nif n\n\tline 2; peg 3\n".toList

theorem compile_separateCommands_begunCommands : ∃ p, compile begunCommands = .ok p ∧
    CommentFree begunCommands ∧ CommandsBegin begunCommands ∧ separateCommands begunCommands =
      "n = 'a box b'\nif n -> ;box 2\nelse ;ball 3\nif n\n\t;line 2; ;peg 3\n".toList ∧
    compile (separateCommands begunCommands) = .ok p := by
  have hcompiled : (compile begunCommands).isOk := by decide +kernel
  have hfree : CommentFree begunCommands := by decide +kernel
  have hbegin : CommandsBegin begunCommands := by decide +kernel
  cases hp : compile begunCommands with
  | error e =>
    rw [hp] at hcompiled
    cases hcompiled
  | ok p => exact ⟨p, rfl, hfree, hbegin, by decide +kernel, compile_separateCommands hp hfree hbegin⟩

end LiveSketch.Sketch

import LiveSketch.Proofs.Sketch.Padding
import LiveSketch.Proofs.Sketch.Settled
import LiveSketch.Proofs.Text.Classes

/-!
# The ends of lines and comments behind them

What goes on at the end of a text (`place`) says what is left of a comment that is put there: nothing within another
comment, and otherwise the space in front of it (`stripComments_behind`). A step of the comment pass does not see what
stands behind the text when no literal and no comment goes on there (`commentStep_append`). The passes behind it leave
blanks where they stand (`LeavesBlanks`).
-/
namespace LiveSketch.Sketch

open Text

/-! ## Where a text ends -/

/-- What goes on at the end of a text, when all its block comments are closed. -/
inductive Place where
  | code
  | comment
  | literal
  deriving DecidableEq, Repr

namespace Place

/-- What is left of a space and a comment behind the text: within a comment they are gone. -/
def gap : Place → List Char
  | comment => []
  | _ => [' ']

end Place

/-- What goes on at the end of a text; each step takes a character off it. An open literal or a line comment on its last
line goes on. -/
def placeWithin : (fuel : Nat) → List Char → Place
  | 0, _ => .code
  | _ + 1, [] => .code
  | fuel + 1, c :: cs =>
    if cs.contains '\n' then placeWithin fuel (commentStep c cs).2
    else if isQuote c && (literal? (c :: cs)).isNone then .literal
    else if (after? ['/', '/'] (c :: cs)).isSome then .comment
    else placeWithin fuel (commentStep c cs).2

/-- What goes on at the end of a text. -/
def place (cs : List Char) : Place := placeWithin cs.length cs

theorem placeWithin_eq {fuel fuel' : Nat} {cs : List Char} (h : cs.length ≤ fuel) (h' : cs.length ≤ fuel') :
    placeWithin fuel cs = placeWithin fuel' cs := by
  induction cs using commentInduction generalizing fuel fuel' with
  | nil => cases fuel <;> cases fuel' <;> rfl
  | step c cs ih =>
    have hl := commentStep_length c cs
    rw [List.length_cons] at h h'
    obtain ⟨fuel, rfl⟩ : ∃ n, fuel = n + 1 := ⟨fuel - 1, by omega⟩
    obtain ⟨fuel', rfl⟩ : ∃ n, fuel' = n + 1 := ⟨fuel' - 1, by omega⟩
    rw [placeWithin, placeWithin, @ih fuel fuel' (by omega) (by omega)]

theorem place_cons (c : Char) (cs : List Char) : place (c :: cs) =
    if cs.contains '\n' then place (commentStep c cs).2
    else if isQuote c && (literal? (c :: cs)).isNone then .literal
    else if (after? ['/', '/'] (c :: cs)).isSome then .comment
    else place (commentStep c cs).2 := by
  rw [place, List.length_cons, placeWithin, placeWithin_eq (commentStep_length c cs) (Nat.le_refl _), place]

/-! ## Comments behind a text -/

/-- A literal that is not closed on its line is not closed by what stands behind that. -/
theorem literal?_append_none {c : Char} {cs : List Char} (h : literal? (c :: cs) = none)
    (hline : '\n' ∈ cs ∨ isQuote c = false) (more : List Char) : literal? (c :: (cs ++ more)) = none := by
  rcases hline with hn | hq
  · obtain ⟨as, bs, rfl⟩ := List.append_of_mem hn
    have hline : literal? (c :: as) = none := by
      have hsplit := literal?_newline (c :: as) bs (List.cons_ne_nil c as)
      rw [List.cons_append, h] at hsplit
      exact Option.map_eq_none_iff.1 hsplit.symm
    have hsplit := literal?_newline (c :: as) (bs ++ more) (List.cons_ne_nil c as)
    rw [hline] at hsplit
    simpa using hsplit
  · exact literal?_of_not_quote hq _

/-- A block comment that ends in a text ends there whatever follows, and text without its closing mark does not end it. -/
theorem closeComment?_append {cs more : List Char} (hmore : ∀ d ∈ more.head?, d ≠ '/') :
    (∃ found, closeComment? cs = some found ∧ closeComment? (cs ++ more) = some (found.1, found.2 ++ more)) ∨
      (closeComment? cs = none ∧ (closeComment? more = none → closeComment? (cs ++ more) = none)) := by
  fun_induction closeComment? cs with
  | case1 => exact .inr ⟨rfl, id⟩
  | case2 cs => exact .inl ⟨_, rfl, rfl⟩
  | case3 c cs hc ih =>
    have hstep : closeComment? (c :: cs ++ more) = (closeComment? (cs ++ more)).map
        fun found => ([c].filter (· == '\n') ++ found.1, found.2) := by
      refine closeComment?_cons fun ds he hd => ?_
      cases cs with
      | nil =>
        have hhead : more = '/' :: ds := hd
        exact hmore '/' (by rw [hhead]; rfl) rfl
      | cons d cs => exact hc cs he (by rw [(List.cons.inj hd).1])
    rcases ih with ⟨found, hf, ih⟩ | ⟨hf, ih⟩
    · exact .inl ⟨_, by rw [hf]; rfl, by rw [hstep, ih]; by_cases hn : c = '\n' <;> simp [hn]⟩
    · exact .inr ⟨by rw [hf]; rfl, fun hm => by rw [hstep, ih hm]; rfl⟩

/-- A step does not see what stands behind the text, if nothing goes on at its end. -/
theorem commentStep_append {c : Char} {cs more : List Char} (hmore : ∀ d ∈ more.head?, d ≠ '/' ∧ d ≠ '*')
    (hliteral : literal? (c :: cs) = none → '\n' ∈ cs ∨ isQuote c = false)
    (hline : (after? ['/', '/'] (c :: cs)).isSome → '\n' ∈ cs)
    (hblock : opensComment (c :: cs) = false ∨ closeComment? more = none) :
    commentStep c (cs ++ more) = ((commentStep c cs).1, (commentStep c cs).2 ++ more) := by
  cases hl : literal? (c :: cs) with
  | some found =>
    rw [commentStep_of_literal hl]
    exact commentStep_of_literal (literal?_append hl more).1
  | none =>
    have hl' := literal?_append_none hl (hliteral hl) more
    by_cases hc : c = '/'
    · subst hc
      cases cs with
      | nil =>
        cases more with
        | nil => rfl
        | cons d more =>
          obtain ⟨hs, hb⟩ := hmore d rfl
          exact commentStep_slash hs hb more
      | cons d ds =>
        by_cases hs : d = '/'
        · subst hs
          have hn : '\n' ∈ ds := by simpa using hline rfl
          obtain ⟨as, bs, rfl⟩ := List.append_of_mem hn
          have hdrop : ∀ rest, commentStep '/' ('/' :: (as ++ '\n' :: rest)) = ([], as.dropWhile (· != '\n') ++ '\n' :: rest) :=
            fun rest => congrArg (Prod.mk []) (dropWhile_newline as rest).1
          rw [List.cons_append, List.append_assoc, List.cons_append, hdrop, hdrop]
          simp
        · by_cases hb : d = '*'
          · subst hb
            have hstep : ∀ es, commentStep '/' ('*' :: es) = (closeComment? es).getD (['/'], '*' :: es) := fun _ => rfl
            rw [List.cons_append, hstep, hstep]
            rcases @closeComment?_append ds _ fun d hd => (hmore d hd).1 with ⟨found, hf, hf'⟩ | ⟨hf, hf'⟩
            · rw [hf, hf']
              rfl
            · rw [hf, hf' (hblock.resolve_left (by simp [opensComment, hf]))]
              rfl
          · rw [List.cons_append, commentStep_slash hs hb, commentStep_slash hs hb]
            rfl
    · rw [commentStep_of_plain hl hc, commentStep_of_plain hl' hc]

/-- Of a comment nothing is left, and what stands in front of it is left if no comment and no literal can begin in it. -/
theorem stripComments_line {indent : List Char} (hi : ∀ c ∈ indent, isBlank c) (rest : List Char) :
    stripComments (indent ++ rest) = indent ++ stripComments rest := by
  induction indent with
  | nil => rfl
  | cons c indent ih =>
    rw [List.forall_mem_cons] at hi
    obtain ⟨hq, hs, -⟩ := isBlank_plain hi.1
    rw [List.cons_append, stripComments_cons, commentStep_of_plain (literal?_of_not_quote hq _) hs, ih hi.2]
    rfl

theorem stripComments_newline_cons (rest : List Char) : stripComments ('\n' :: rest) = '\n' :: stripComments rest :=
  @stripComments_line ['\n'] (by simp; rfl) rest

theorem dropWhile_tail {text tail : List Char} (hn : '\n' ∉ text) (ht : BehindLine tail) :
    (text ++ tail).dropWhile (· != '\n') = tail := by
  rw [List.dropWhile_append, dropWhile_of_all (ne_newline_of_notMem hn)]
  rcases ht with rfl | ⟨rest, rfl⟩ <;> rfl

theorem stripComments_comment {text tail : List Char} (hn : '\n' ∉ text) (ht : BehindLine tail) :
    stripComments ('/' :: '/' :: (text ++ tail)) = stripComments tail := by
  have hstep : commentStep '/' ('/' :: (text ++ tail)) = ([], (text ++ tail).dropWhile (· != '\n')) := rfl
  rw [stripComments_cons, hstep, dropWhile_tail hn ht]
  rfl

/-- Of a comment behind a text the space is left, unless the text ends in a comment. -/
theorem stripComments_behind {text tail : List Char} (hn : '\n' ∉ text) (ht : BehindLine tail) {as : List Char}
    (hplace : place as ≠ .literal)
    (hblock : settled as ∨ closeComment? (' ' :: '/' :: '/' :: (text ++ tail)) = none) :
    stripComments (as ++ ' ' :: '/' :: '/' :: (text ++ tail)) = stripComments as ++ ((place as).gap ++ stripComments tail) := by
  induction as using commentInduction with
  | nil =>
    have hline := @stripComments_line [' '] (by simp; rfl) ('/' :: '/' :: (text ++ tail))
    rw [stripComments_comment hn ht] at hline
    exact hline
  | step c cs ih =>
    have hstep : (literal? (c :: cs) = none → '\n' ∈ cs ∨ isQuote c = false) →
        ((after? ['/', '/'] (c :: cs)).isSome → '\n' ∈ cs) → place (commentStep c cs).2 ≠ .literal →
        stripComments (c :: cs ++ ' ' :: '/' :: '/' :: (text ++ tail)) =
          stripComments (c :: cs) ++ ((place (commentStep c cs).2).gap ++ stripComments tail) := by
      intro hliteral hline hplace
      rw [settled_cons, Bool.and_eq_true, Bool.not_eq_true'] at hblock
      rw [List.cons_append, stripComments_cons, stripComments_cons,
        commentStep_append (by simp) hliteral hline (hblock.imp_left And.left), ih hplace (hblock.imp_left And.right),
        List.append_assoc]
    rw [place_cons] at hplace ⊢
    split at hplace
    · rename_i hnl
      have hnl' : '\n' ∈ cs := by simpa using hnl
      rw [if_pos hnl]
      exact hstep (fun _ => .inl hnl') (fun _ => hnl') hplace
    · rename_i hnl
      rw [if_neg hnl]
      split at hplace
      · exact absurd rfl hplace
      · rename_i hquote
        rw [if_neg hquote]
        split at hplace
        · rename_i hcomment
          rw [if_pos hcomment]
          have hnl' : '\n' ∉ cs := by simpa using hnl
          obtain ⟨rest, hrest⟩ := Option.isSome_iff_exists.1 hcomment
          have he : c :: cs = '/' :: '/' :: rest := after?_eq_some.1 hrest
          obtain ⟨rfl, rfl⟩ := List.cons.inj he
          rw [List.mem_cons, not_or] at hnl'
          have hn' : '\n' ∉ rest ++ ' ' :: '/' :: '/' :: text := by simp [hnl'.2, hn]
          have hself := stripComments_comment hnl'.2 (.inl rfl)
          have hmore := stripComments_comment hn' ht
          rw [List.append_nil] at hself
          simp only [List.append_assoc, List.cons_append] at hmore
          simp only [List.cons_append, hself, hmore]
          rfl
        · rename_i hcomment
          rw [if_neg hcomment]
          refine hstep (fun hl => .inr ?_) (fun h => absurd h hcomment) hplace
          simpa [hl] using hquote

/-! ## Blanks -/

/-- The function goes from line to line and leaves blanks where they stand. -/
structure LeavesBlanks (f : List Char → List Char) : Prop where
  lines : LineByLine f
  space : ∀ as, f (as ++ [' ']) = f as ++ [' ']
  blanks : ∀ cs, (∀ c ∈ cs, isBlank c) → f cs = cs

namespace LeavesBlanks

variable {f : List Char → List Char}

theorem tail (h : LeavesBlanks f) {tail : List Char} (ht : BehindLine tail) (as : List Char) :
    f (as ++ tail) = f as ++ f tail ∧ BehindLine (f tail) :=
  h.lines.append_tail (h.blanks [] (by simp)) ht as

end LeavesBlanks

theorem dropLiterals_leavesBlanks : LeavesBlanks dropLiterals where
  lines := ⟨dropLiterals_newline, fun _ hn hm => hn (mem_dropLiterals hm)⟩
  space := dropLiterals_pad (.inl rfl)
  blanks cs h := by
    induction cs with
    | nil => rfl
    | cons c cs ih =>
      rw [List.forall_mem_cons] at h
      rw [dropLiterals_of_none (literal?_of_not_quote (isBlank_plain h.1).1 cs), ih h.2]

/-- Text without operands stays. -/
theorem swapRuns_front {isOperand : Char → Bool} {follow? : List Char → Option (List Char × List Char)}
    {build : (run kept : List Char) → List Char} {front : List Char} (h : ∀ c ∈ front, isOperand c = false)
    (rest : List Char) :
    swapRuns isOperand follow? build (front ++ rest) = front ++ swapRuns isOperand follow? build rest := by
  induction front with
  | nil => rfl
  | cons c front ih =>
    rw [List.forall_mem_cons] at h
    rw [List.cons_append, swapRuns_of_not h.1, ih h.2]
    rfl

theorem swapRuns_blanks {isOperand : Char → Bool} {follow? : List Char → Option (List Char × List Char)}
    {build : (run kept : List Char) → List Char} {cs : List Char} (h : ∀ c ∈ cs, isOperand c = false) :
    swapRuns isOperand follow? build cs = cs := by
  have hall := @swapRuns_front isOperand follow? build cs h []
  have hnil : swapRuns isOperand follow? build [] = [] := rfl
  rwa [List.append_nil, hnil, List.append_nil] at hall

theorem rewritten_leavesBlanks : LeavesBlanks rewritten where
  lines := desugarTimes_lineByLine.comp swapPostfix_lineByLine
  space := rewritten_pad (.inl rfl)
  blanks cs h := by
    have hdigit : ∀ c ∈ cs, isDigit c = false := by
      intro c hc
      by_contra hd
      have hb := isBlank_of_isDigit (Bool.eq_true_of_not_eq_false hd)
      rw [h c hc] at hb
      cases hb
    have hletter : ∀ c ∈ cs, c.isAlpha = false := by
      intro c hc
      by_contra ha
      have hw := isWord_of_isAlpha (Bool.eq_true_of_not_eq_false ha)
      rw [isWord_of_isBlank (h c hc)] at hw
      cases hw
    have hcolours : ∀ words : List (List Char),
        words.foldl (fun cs word => swapWord Char.isAlpha word cs) cs = cs := by
      intro words
      induction words with
      | nil => rfl
      | cons word words ih => rw [List.foldl_cons, swapWord, swapRuns_blanks hletter, ih]
    rw [rewritten, swapPostfix, swapWord, swapRuns_blanks hdigit, hcolours, desugarTimes, swapRuns_blanks hdigit]

end LiveSketch.Sketch

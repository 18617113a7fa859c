import LiveSketch.Proofs.Sketch.Postfix
import LiveSketch.Proofs.Text.Classes

/-!
# Words that stand in front already

Putting words in front of their operands leaves a text alone where the words begin statements
(`swapPostfix_eq_self`). There is one way to begin a statement that it does not know: an `else` without an arrow is
taken for the operand of a command behind it (`swapPostfix_else`).
-/
namespace LiveSketch.Sketch

open Text
open Script.Lexer (isIndent)

/-! ## One word -/

/-- An operand stands somewhere in front of the word, with spaces between them. -/
def HasOperand (isOperand : Char → Bool) (word cs : List Char) : Prop :=
  ∃ front c spaces back, cs = front ++ c :: (spaces ++ (word ++ back)) ∧ isOperand c ∧ spaces ≠ [] ∧
    (∀ s ∈ spaces, s = ' ') ∧ ∀ d ∈ back.head?, isBlank d

theorem HasOperand.append {isOperand : Char → Bool} {word cs : List Char} (h : HasOperand isOperand word cs)
    (before : List Char) : HasOperand isOperand word (before ++ cs) := by
  obtain ⟨front, c, spaces, back, rfl, h⟩ := h
  exact ⟨before ++ front, c, spaces, back, (List.append_assoc ..).symm, h⟩

theorem spacedWord?_eq_some {word cs kept rest : List Char} (h : spacedWord? word cs = some (kept, rest)) :
    ∃ spaces back, cs = spaces ++ (word ++ back) ∧ spaces ≠ [] ∧ (∀ s ∈ spaces, s = ' ') ∧
      ∀ d ∈ back.head?, isBlank d := by
  unfold spacedWord? at h
  obtain ⟨cs', hspace, h⟩ := Option.bind_eq_some_iff.1 h
  obtain ⟨back, hword, h⟩ := Option.bind_eq_some_iff.1 h
  rw [after?_eq_some] at hspace hword
  have hsplit : cs' = cs'.takeWhile (· == ' ') ++ (word ++ back) := by
    rw [← hword]
    exact List.takeWhile_append_dropWhile.symm
  refine ⟨' ' :: cs'.takeWhile (· == ' '), back, ?_, List.cons_ne_nil _ _, ?_, ?_⟩
  · rw [hspace, List.cons_append, List.nil_append, List.cons_append, ← hsplit]
  · refine List.forall_mem_cons.2 ⟨rfl, fun s hs => ?_⟩
    exact beq_iff_eq.1 (List.all_eq_true.1 List.all_takeWhile s hs)
  · intro d hd
    cases back with
    | nil => cases hd
    | cons e back =>
      cases hd
      cases hblank : isBlank d with
      | true => rfl
      | false => simp [hblank] at h

/-- A text in which no operand stands in front of the word is left alone. -/
theorem swapWord_eq_self {isOperand : Char → Bool} {word : List Char} (hw : '\n' ∉ word) {cs : List Char}
    (h : ¬ HasOperand isOperand word cs) : swapWord isOperand word cs = cs := by
  have hfollow := spacedWord?_follow hw
  generalize hn : cs.length = n
  induction n using Nat.strongRecOn generalizing cs with
  | _ n ih =>
    cases cs with
    | nil => rfl
    | cons c cs =>
      have hrest : ∀ {front rest : List Char}, c :: cs = front ++ rest → front ≠ [] →
          swapWord isOperand word rest = rest := by
        intro front rest he hne
        refine ih rest.length ?_ (fun hr => h (he ▸ hr.append front)) rfl
        rw [← hn, he, List.length_append]
        exact Nat.lt_add_of_pos_left (List.length_pos_iff.2 hne)
      by_cases hc : isOperand c
      · have hrun : (c :: cs).takeWhile isOperand ++ (c :: cs).dropWhile isOperand = c :: cs :=
          List.takeWhile_append_dropWhile
        have hne : (c :: cs).takeWhile isOperand ≠ [] := by
          rw [List.takeWhile_cons_of_pos hc]
          exact List.cons_ne_nil _ _
        cases hf : spacedWord? word ((c :: cs).dropWhile isOperand) with
        | none =>
          rw [swapWord, swapRuns_of_none hfollow hc hf]
          exact (congrArg _ (hrest hrun.symm hne)).trans hrun
        | some found =>
          -- the last character of the run is an operand in front of the word
          obtain ⟨spaces, back, hback, hs0, hs, hb⟩ := spacedWord?_eq_some hf
          obtain ⟨front, last, hlast⟩ := List.eq_nil_or_concat _ |>.resolve_left hne
          have hoperand : isOperand last := by
            have hall := List.all_eq_true.1 (List.all_takeWhile (p := isOperand) (l := c :: cs))
            exact hall last (by rw [hlast]; simp)
          refine absurd ⟨front, last, spaces, back, ?_, hoperand, hs0, hs, hb⟩ h
          rw [← hrun, hlast, hback, List.concat_eq_append, List.append_assoc]
          rfl
      · have hsplit : c :: cs = [c] ++ cs := rfl
        have hself : swapWord isOperand word cs = cs := hrest hsplit (List.cons_ne_nil _ _)
        rw [swapWord, swapRuns_of_not (Bool.eq_false_iff.2 hc)]
        exact congrArg _ hself

/-! ## Words that begin statements -/

/-- The words that may follow their operand. -/
def postfixWords : List (List Char) := "bpm".toList :: colourWords

/-- Behind this text a statement may begin: it is the start of a line, or it ends in a semicolon, an arrow or the word
`else`, with blanks behind it. -/
def beginsStatement (front : List Char) : Bool :=
  match front.reverse.dropWhile isIndent with
  | [] | '\n' :: _ | ';' :: _ | '>' :: '-' :: _ => true
  | 'e' :: 's' :: 'l' :: 'e' :: before => !before.head?.any isWord
  | _ => false

/-- The word stands here by itself, and a statement does not begin with it. -/
def Misplaced (word cs : List Char) : Prop :=
  ∃ front back, cs = front ++ (word ++ back) ∧ (∀ c ∈ front.getLast?, isWord c = false) ∧
    (∀ c ∈ back.head?, isWord c = false) ∧ beginsStatement front = false

/-- The word follows an `else` with nothing but spaces between them, and white space or the end of the text follows the
word. -/
def BehindElse (word cs : List Char) : Prop :=
  ∃ front spaces back, cs = front ++ ("else".toList ++ (spaces ++ (word ++ back))) ∧
    (∀ c ∈ front.getLast?, isWord c = false) ∧ spaces ≠ [] ∧ (∀ s ∈ spaces, s = ' ') ∧ ∀ c ∈ back.head?, isBlank c

/-- An operand in front of a word that begins a statement is an `else`. -/
theorem behindElse_of_hasOperand {isOperand : Char → Bool} (ho : ∀ c, isOperand c → isWord c) {word cs : List Char}
    (h : HasOperand isOperand word cs) (hm : ¬ Misplaced word cs) : BehindElse word cs ∧ isOperand 'e' := by
  obtain ⟨front, c, spaces, back, rfl, hc, hs0, hs, hb⟩ := h
  have hword := ho c hc
  have hindent : isIndent c = false := by
    cases hi : isIndent c with
    | false => rfl
    | true =>
      simp only [isIndent, Bool.or_eq_true, beq_iff_eq] at hi
      rcases hi with rfl | rfl <;> exact absurd hword (by decide)
  have hbegins : beginsStatement (front ++ c :: spaces) = true := by
    cases hbegins : beginsStatement (front ++ c :: spaces) with
    | true => rfl
    | false =>
      refine absurd ⟨front ++ c :: spaces, back, ?_, fun d hd => ?_, fun d hd => isWord_of_isBlank (hb d hd), hbegins⟩ hm
      · rw [List.append_assoc, List.cons_append]
      · obtain ⟨init, last, rfl⟩ := List.eq_nil_or_concat spaces |>.resolve_left hs0
        have hlast : last = ' ' := hs last (by simp)
        rw [List.concat_eq_append, ← List.cons_append, ← List.append_assoc, List.getLast?_concat] at hd
        cases hd
        rw [hlast]
        decide
  have hback : (front ++ c :: spaces).reverse.dropWhile isIndent = c :: front.reverse := by
    have hall : ∀ s ∈ spaces.reverse, isIndent s := fun s hm => by
      rw [hs s (List.mem_reverse.1 hm)]
      rfl
    rw [List.reverse_append, List.reverse_cons, List.append_assoc, List.dropWhile_append_of_pos hall]
    exact List.dropWhile_cons_of_neg (Bool.eq_false_iff.1 hindent)
  unfold beginsStatement at hbegins
  rw [hback] at hbegins
  split at hbegins
  · rename_i he
    cases he
  · rename_i he
    exact absurd hword (by rw [(List.cons.inj he).1]; decide)
  · rename_i he
    exact absurd hword (by rw [(List.cons.inj he).1]; decide)
  · rename_i he
    exact absurd hword (by rw [(List.cons.inj he).1]; decide)
  · rename_i before he
    obtain ⟨rfl, hfront⟩ := List.cons.inj he
    have hfront' : front = before.reverse ++ ['e', 'l', 's'] := by
      rw [← List.reverse_reverse front, hfront]
      simp
    refine ⟨⟨before.reverse, spaces, back, ?_, ?_, hs0, hs, hb⟩, hc⟩
    · rw [hfront', List.append_assoc]
      rfl
    · intro d hd
      rw [List.getLast?_reverse] at hd
      rw [hd] at hbegins
      simpa using hbegins
  · cases hbegins

/-- A place in a text can be looked for. -/
theorem exists_append_iff {cs : List Char} {P : List Char → List Char → Prop} :
    (∃ front back, cs = front ++ back ∧ P front back) ↔ ∃ n ∈ List.range (cs.length + 1), P (cs.take n) (cs.drop n) := by
  constructor
  · rintro ⟨front, back, rfl, h⟩
    refine ⟨front.length, List.mem_range.2 (by rw [List.length_append]; omega), ?_⟩
    rwa [List.take_left, List.drop_left]
  · rintro ⟨n, -, h⟩
    exact ⟨cs.take n, cs.drop n, (List.take_append_drop n cs).symm, h⟩

theorem misplaced_iff {word cs : List Char} : Misplaced word cs ↔
    ∃ n ∈ List.range (cs.length + 1), ∃ back ∈ after? word (cs.drop n), (∀ c ∈ (cs.take n).getLast?, isWord c = false) ∧
      (∀ c ∈ back.head?, isWord c = false) ∧ beginsStatement (cs.take n) = false := by
  refine Iff.trans ?_ (exists_append_iff (P := fun front rest => ∃ back ∈ after? word rest,
    (∀ c ∈ front.getLast?, isWord c = false) ∧ (∀ c ∈ back.head?, isWord c = false) ∧ beginsStatement front = false))
  constructor
  · rintro ⟨front, back, hcs, h⟩
    exact ⟨front, word ++ back, hcs, back, after?_append word back, h⟩
  · rintro ⟨front, rest, hcs, back, hback, h⟩
    exact ⟨front, back, by rw [hcs, after?_eq_some.1 hback], h⟩

theorem behindElse_iff {word cs : List Char} : BehindElse word cs ↔
    ∃ n ∈ List.range (cs.length + 1), (∀ c ∈ (cs.take n).getLast?, isWord c = false) ∧
      ∃ rest ∈ after? "else".toList (cs.drop n), ∃ m ∈ List.range (rest.length + 1), rest.take m ≠ [] ∧
        (∀ s ∈ rest.take m, s = ' ') ∧ ∃ back ∈ after? word (rest.drop m), ∀ c ∈ back.head?, isBlank c := by
  refine Iff.trans ?_ (exists_append_iff (P := fun front mid => (∀ c ∈ front.getLast?, isWord c = false) ∧
    ∃ rest ∈ after? "else".toList mid, ∃ m ∈ List.range (rest.length + 1), rest.take m ≠ [] ∧
      (∀ s ∈ rest.take m, s = ' ') ∧ ∃ back ∈ after? word (rest.drop m), ∀ c ∈ back.head?, isBlank c))
  constructor
  · rintro ⟨front, spaces, back, hcs, hf, hs0, hs, hb⟩
    refine ⟨front, _, hcs, hf, spaces ++ (word ++ back), after?_append _ _, spaces.length,
      List.mem_range.2 (by rw [List.length_append]; omega), ?_⟩
    rw [List.take_left, List.drop_left]
    exact ⟨hs0, hs, back, after?_append word back, hb⟩
  · rintro ⟨front, mid, hcs, hf, rest, hrest, m, -, hs0, hs, back, hback, hb⟩
    refine ⟨front, rest.take m, back, ?_, hf, hs0, hs, hb⟩
    rw [hcs, after?_eq_some.1 hrest, ← after?_eq_some.1 hback, List.take_append_drop]

-- The conditions are written as searches in the text, since one for all `c ∈ o` could be decided by trying every character.
instance (word cs : List Char) : Decidable (Misplaced word cs) :=
  decidable_of_iff ((List.range (cs.length + 1)).any fun n => (after? word (cs.drop n)).any fun back =>
      (cs.take n).getLast?.all (!isWord ·) && (back.head?.all (!isWord ·) && !beginsStatement (cs.take n))) (by
    simp [misplaced_iff, Option.any_eq_true, Option.all_eq_true])

instance (word cs : List Char) : Decidable (BehindElse word cs) :=
  decidable_of_iff ((List.range (cs.length + 1)).any fun n => (cs.take n).getLast?.all (!isWord ·) &&
      (after? "else".toList (cs.drop n)).any fun rest => (List.range (rest.length + 1)).any fun m =>
        !(rest.take m).isEmpty && ((rest.take m).all (· == ' ') &&
          (after? word (rest.drop m)).any fun back => back.head?.all isBlank)) (by
    simp only [behindElse_iff, List.any_eq_true, Option.any_eq_true, Option.all_eq_true, List.all_eq_true, Bool.and_eq_true,
      Bool.not_eq_true', List.isEmpty_eq_false_iff, beq_iff_eq, Option.mem_def])

/-- A text in which the words stand only where statements begin is left alone, if no command of a colour follows an
`else` without an arrow. -/
theorem swapPostfix_eq_self {cs : List Char} (h : ∀ word ∈ postfixWords, ¬ Misplaced word cs)
    (helse : ∀ word ∈ colourWords, ¬ BehindElse word cs) : swapPostfix cs = cs := by
  have hbpm : swapWord isDigit "bpm".toList cs = cs := by
    refine swapWord_eq_self (by decide) fun ho => ?_
    obtain ⟨-, hdigit⟩ := behindElse_of_hasOperand (fun _ => isWord_of_isDigit) ho (h _ List.mem_cons_self)
    exact absurd hdigit (by decide)
  have hcolour : ∀ word ∈ colourWords, swapWord Char.isAlpha word cs = cs := by
    intro word hword
    have hline : '\n' ∉ word := by
      have hlines : ∀ word ∈ colourWords, '\n' ∉ word := by decide
      exact hlines word hword
    refine swapWord_eq_self hline fun ho => helse word hword ?_
    exact (behindElse_of_hasOperand (fun _ => isWord_of_isAlpha) ho (h _ (List.mem_cons_of_mem _ hword))).1
  rw [swapPostfix, hbpm]
  simp only [colourWords, List.mem_cons, List.not_mem_nil, or_false, forall_eq_or_imp, forall_eq] at hcolour
  simp only [colourWords, List.foldl_cons, List.foldl_nil, hcolour]

/-- Words at all places where a statement may begin, but for the one behind an `else` and spaces. -/
theorem swapPostfix_eq_self_statements : ∃ cs : List Char,
    cs = "if x -> bpm 60; fill red\nelse -> stroke blue\n\tbackground red\nelse\tfill red".toList ∧
      (∀ word ∈ postfixWords, ¬ Misplaced word cs) ∧ (∀ word ∈ colourWords, ¬ BehindElse word cs) ∧ swapPostfix cs = cs :=
  ⟨_, rfl, by decide +kernel, by decide +kernel, swapPostfix_eq_self (by decide +kernel) (by decide +kernel)⟩

/-- An `else` in front of a command is taken for its operand, although the command begins a statement. -/
theorem swapPostfix_else : ∃ cs : List Char, cs = "if x -> box\nelse fill red".toList ∧
    (∀ word ∈ postfixWords, ¬ Misplaced word cs) ∧ swapPostfix cs = "if x -> box\nfill else red".toList :=
  ⟨_, rfl, by decide +kernel, by decide +kernel⟩

end LiveSketch.Sketch

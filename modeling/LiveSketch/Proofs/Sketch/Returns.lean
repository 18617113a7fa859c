import LiveSketch.Proofs.Sketch.Settled
import LiveSketch.Proofs.Sketch.Spreading

/-!
# The ends of lines

`ofSketch_withReturns`: a sketch whose lines end in a carriage return and a newline has the program that it has with
newlines alone. The passes go over the text as it is (`Returned` says that the second text has carriage returns more),
until the script drops the last one of each line. Only headers are told by what stands at the end of their line: a
carriage return hides the arrow of a block, and it makes a line that a report is put on of an empty one
(`returnsApart`).
-/
namespace LiveSketch.Sketch

open Text Script
open Script.Lexer

/-- The text with a carriage return in front of every newline. -/
def withReturns (cs : List Char) : List Char := cs.flatMap fun c => if c == '\n' then ['\r', '\n'] else [c]

/-- The second text is the first one with carriage returns in front of some newlines. -/
inductive Returned : List Char → List Char → Prop where
  | nil : Returned [] []
  | char {c : Char} {as bs : List Char} : Returned as bs → Returned (c :: as) (c :: bs)
  | newline {as bs : List Char} : Returned as bs → Returned ('\n' :: as) ('\r' :: '\n' :: bs)

/-- No carriage return stands behind the arrow of a block on this line, or, if the line in front is `opened` by such an
arrow, on the line alone. -/
def returnApart (opened : Bool) (line : List Char) : Bool :=
  if opened then line.getLast? != some '\r' || !(line.dropWhile isBlank).isEmpty else (header? line).all (·.2 != ['\r'])

/-- No carriage return hides the header of a block in these lines, or stands alone behind one. -/
def returnsApart : (opened : Bool) → List (List Char) → Bool
  | _, [] => true
  | opened, line :: lines => returnApart opened line && returnsApart (!opened && opens line) lines

namespace Returned

variable {as bs : List Char}

theorem withReturns (cs : List Char) : Returned cs (Sketch.withReturns cs) := by
  induction cs with
  | nil => exact .nil
  | cons c cs ih =>
    rw [Sketch.withReturns, List.flatMap_cons]
    split
    · rename_i hc
      rw [eq_of_beq hc]
      exact .newline ih
    · exact .char ih

theorem append_left (front : List Char) (h : Returned as bs) : Returned (front ++ as) (front ++ bs) := by
  induction front with
  | nil => exact h
  | cons c front ih => exact .char ih

/-- From line to line. -/
@[elab_as_elim]
theorem lineInduction {motive : (as bs : List Char) → Returned as bs → Prop}
    (last : ∀ line h, '\n' ∉ line → motive line line h)
    (line : ∀ line ret as bs h hline, '\n' ∉ line → ret = [] ∨ ret = ['\r'] → motive as bs h →
      motive (line ++ '\n' :: as) (line ++ (ret ++ '\n' :: bs)) hline) {as bs : List Char} (h : Returned as bs) :
    motive as bs h := by
  suffices hfront : ∀ front hf, '\n' ∉ front → motive (front ++ as) (front ++ bs) hf from hfront [] h (by simp)
  induction h with
  | nil =>
    intro front hf hn
    have hlast := last front (by simpa using hf) hn
    simpa using hlast
  | @char c as bs h ih =>
    intro front hf hn
    by_cases hc : c = '\n'
    · subst hc
      exact line front [] as bs h hf hn (.inl rfl) (ih [] h (by simp))
    · have hn' : '\n' ∉ front ++ [c] := by simp [hn, Ne.symm hc]
      simpa using ih (front ++ [c]) (by simpa using hf) hn'
  | @newline as bs h ih =>
    intro front hf hn
    exact line front ['\r'] as bs h hf hn (.inr rfl) (ih [] h (by simp))

theorem line {line ret : List Char} (hret : ret = [] ∨ ret = ['\r']) (h : Returned as bs) :
    Returned (line ++ '\n' :: as) (line ++ (ret ++ '\n' :: bs)) := by
  rcases hret with rfl | rfl
  · exact .append_left line (.char h)
  · exact .append_left line (.newline h)

/-- A function that goes from line to line and leaves a carriage return behind a line alone. -/
theorem lineByLine {f : List Char → List Char} (hf : LineByLine f) (h : Returned as bs)
    (hreturn : ∀ line ∈ (splitLines as).dropLast, f (line ++ ['\r']) = f line ++ ['\r']) : Returned (f as) (f bs) := by
  induction h using lineInduction with
  | last line _ hn =>
    have hrefl := (Returned.nil).append_left (f line)
    rwa [List.append_nil] at hrefl
  | line line ret as bs h _ hn hret ih =>
    have hlines := splitLines_append hn as
    rw [hlines, List.dropLast_cons_of_ne_nil (splitLines_ne_nil as), List.forall_mem_cons] at hreturn
    have hline : f (line ++ ret) = f line ++ ret := by
      rcases hret with rfl | rfl
      · rw [List.append_nil, List.append_nil]
      · exact hreturn.1
    rw [← List.append_assoc, hf.newline, hf.newline, hline, List.append_assoc]
    exact .line hret (ih hreturn.2)

/-! ## Comments -/

theorem of_append {front : List Char} (hn : '\n' ∉ front) (h : Returned (front ++ as) bs) :
    ∃ bs', bs = front ++ bs' ∧ Returned as bs' := by
  induction front generalizing bs with
  | nil => exact ⟨bs, rfl, h⟩
  | cons c front ih =>
    rw [List.mem_cons, not_or] at hn
    cases h with
    | char h =>
      obtain ⟨bs', rfl, h'⟩ := ih hn.2 h
      exact ⟨bs', rfl, h'⟩
    | newline => exact absurd rfl hn.1

/-- What stands in the second text at the front, and does not end in a carriage return, stands in the first. -/
theorem append_of {front : List Char} (hn : '\n' ∉ front) (hlast : front.getLast? ≠ some '\r')
    (h : Returned as (front ++ bs)) : ∃ as', as = front ++ as' ∧ Returned as' bs := by
  induction front generalizing as with
  | nil => exact ⟨as, rfl, h⟩
  | cons c front ih =>
    rw [List.mem_cons, not_or] at hn
    generalize hin : c :: front ++ bs = ins at h
    cases h with
    | nil => cases hin
    | char h =>
      obtain ⟨rfl, rfl⟩ := List.cons.inj hin
      cases front with
      | nil => exact ⟨_, rfl, h⟩
      | cons d front =>
        obtain ⟨as', rfl, h'⟩ := ih hn.2 (by simpa using hlast) h
        exact ⟨as', rfl, h'⟩
    | newline h =>
      obtain ⟨rfl, he⟩ := List.cons.inj hin
      cases front with
      | nil => exact absurd rfl hlast
      | cons d front => exact absurd (by rw [(List.cons.inj he).1]; exact List.mem_cons_self) hn.2

/-- The same literal stands at the front of both texts. -/
theorem literal? (h : Returned as bs) : (Text.literal? as = none ∧ Text.literal? bs = none) ∨
    ∃ l rest rest', Text.literal? as = some (l, rest) ∧ Text.literal? bs = some (l, rest') ∧ Returned rest rest' := by
  cases hl : Text.literal? as with
  | some found =>
    obtain ⟨l, rest⟩ := found
    obtain ⟨rfl, hn, -⟩ := literal?_eq_some hl
    obtain ⟨rest', rfl, hrest⟩ := h.of_append hn
    have hliteral : IsLiteral l := (literal?_append hl []).2
    exact .inr ⟨l, rest, rest', rfl, hliteral.literal? rest', hrest⟩
  | none =>
    refine .inl ⟨rfl, ?_⟩
    cases hl' : Text.literal? bs with
    | none => rfl
    | some found =>
      obtain ⟨l, rest'⟩ := found
      obtain ⟨rfl, hn, -⟩ := literal?_eq_some hl'
      have hliteral : IsLiteral l := (literal?_append hl' []).2
      have hlast : l.getLast? ≠ some '\r' := by
        obtain ⟨q, body, hq, -, rfl⟩ := isLiteral_iff.1 hliteral
        rw [← List.cons_append, List.getLast?_concat]
        rintro he
        cases he
        cases hq
      obtain ⟨rest, rfl, -⟩ := h.append_of hn hlast
      rw [hliteral.literal?] at hl
      cases hl

theorem closeComment? (h : Returned as bs) : (Sketch.closeComment? as = none ∧ Sketch.closeComment? bs = none) ∨
    ∃ newlines rest rest', Sketch.closeComment? as = some (newlines, rest) ∧
      Sketch.closeComment? bs = some (newlines, rest') ∧ Returned rest rest' := by
  induction h with
  | nil => exact .inl ⟨rfl, rfl⟩
  | @char c as bs h ih =>
    by_cases hclose : ∃ ds, c = '*' ∧ as = '/' :: ds
    · obtain ⟨ds, rfl, rfl⟩ := hclose
      cases h with
      | char h => exact .inr ⟨[], ds, _, rfl, rfl, h⟩
    · have hopen : ∀ ds, c = '*' → as = '/' :: ds → False := fun ds hc hs => hclose ⟨ds, hc, hs⟩
      have hopen' : ∀ ds, c = '*' → bs = '/' :: ds → False := by
        rintro ds rfl rfl
        cases h with
        | char h => exact hopen _ rfl rfl
      rw [closeComment?_cons hopen, closeComment?_cons hopen']
      rcases ih with ⟨hn, hn'⟩ | ⟨newlines, rest, rest', hs, hs', hr⟩
      · rw [hn, hn']
        exact .inl ⟨rfl, rfl⟩
      · rw [hs, hs']
        exact .inr ⟨_, rest, rest', rfl, rfl, hr⟩
  | @newline as bs h ih =>
    rw [closeComment?_cons (by simp), closeComment?_cons (by simp), closeComment?_cons (by simp)]
    rcases ih with ⟨hn, hn'⟩ | ⟨newlines, rest, rest', hs, hs', hr⟩
    · rw [hn, hn']
      exact .inl ⟨rfl, rfl⟩
    · rw [hs, hs']
      exact .inr ⟨_, rest, rest', rfl, rfl, hr⟩

theorem dropLine (h : Returned as bs) : Returned (as.dropWhile (· != '\n')) (bs.dropWhile (· != '\n')) := by
  induction h with
  | nil => exact .nil
  | @char c as bs h ih =>
    by_cases hc : c = '\n'
    · subst hc
      exact .char h
    · rw [List.dropWhile_cons_of_pos (by simpa using hc), List.dropWhile_cons_of_pos (by simpa using hc)]
      exact ih
  | newline h => exact .char h

/-- A step takes the same off both texts. -/
theorem commentStep (c : Char) (h : Returned as bs) : (Sketch.commentStep c as).1 = (Sketch.commentStep c bs).1 ∧
    Returned (Sketch.commentStep c as).2 (Sketch.commentStep c bs).2 := by
  rcases (Returned.char (c := c) h).literal? with ⟨hn, hn'⟩ | ⟨l, rest, rest', hs, hs', hrest⟩
  · by_cases hc : c = '/'
    · subst hc
      cases h with
      | nil => exact ⟨rfl, .nil⟩
      | newline h =>
        rw [commentStep_slash (by decide) (by decide), commentStep_slash (by decide) (by decide)]
        exact ⟨rfl, .newline h⟩
      | @char d as bs h =>
        by_cases hd : d = '/'
        · subst hd
          exact ⟨rfl, h.dropLine⟩
        · by_cases hb : d = '*'
          · subst hb
            have hblock : ∀ ds, Sketch.commentStep '/' ('*' :: ds) =
                (Sketch.closeComment? ds).getD (['/'], '*' :: ds) := fun _ => rfl
            rw [hblock, hblock]
            rcases h.closeComment? with ⟨hopen, hopen'⟩ | ⟨newlines, rest, rest', hclose, hclose', hrest⟩
            · rw [hopen, hopen']
              exact ⟨rfl, .char h⟩
            · rw [hclose, hclose']
              exact ⟨rfl, hrest⟩
          · rw [commentStep_slash hd hb, commentStep_slash hd hb]
            exact ⟨rfl, .char h⟩
    · rw [commentStep_of_plain hn hc, commentStep_of_plain hn' hc]
      exact ⟨rfl, h⟩
  · rw [commentStep_of_literal hs, commentStep_of_literal hs']
    exact ⟨rfl, hrest⟩

theorem stripComments (h : Returned as bs) : Returned (Sketch.stripComments as) (Sketch.stripComments bs) := by
  induction as using commentInduction generalizing bs with
  | nil =>
    cases h
    exact .nil
  | step c cs ih =>
    cases h with
    | char h =>
      obtain ⟨hkept, hrest⟩ := h.commentStep c
      rw [stripComments_cons, stripComments_cons, hkept]
      exact (ih hrest).append_left _
    | @newline _ bs h =>
      have hreturn : Sketch.commentStep '\r' ('\n' :: bs) = (['\r'], '\n' :: bs) :=
        commentStep_of_plain (literal?_of_not_quote rfl _) (by decide)
      have hnewline : ∀ cs, Sketch.commentStep '\n' cs = (['\n'], cs) := fun cs =>
        commentStep_of_plain (literal?_of_not_quote rfl _) (by decide)
      rw [hnewline] at ih
      rw [stripComments_cons, stripComments_cons '\r', hreturn, stripComments_cons '\n', hnewline, hnewline]
      exact .newline (ih h)

/-! ## The other passes -/

theorem countP {p : Char → Bool} (hp : p '\r' = false) (h : Returned as bs) : bs.countP p = as.countP p := by
  induction h with
  | nil => rfl
  | char _ ih => rw [List.countP_cons, List.countP_cons, ih]
  | newline _ ih => rw [List.countP_cons_of_neg (by simp [hp]), List.countP_cons, List.countP_cons, ih]

theorem removeTicked (h : Returned as bs) (hticked : ∀ line ∈ (splitLines as).dropLast, tickedHeader? line = none) :
    Returned (Sketch.removeTicked as) (Sketch.removeTicked bs) := by
  refine h.lineByLine removeTicked_lineByLine fun line hm => ?_
  have hn : '\n' ∉ line := newline_notMem_of_mem_splitLines (List.mem_of_mem_dropLast hm)
  have hreturn : tickedHeader? (line ++ ['\r']) = none := by
    cases ht : tickedHeader? (line ++ ['\r']) with
    | none => rfl
    | some indent => exact absurd (mem_of_tickedHeader? ht (d := '\r') (by simp)) (by decide)
  rw [removeTicked_line hn, removeTicked_line (by simp [hn]), disableHeader_eq_self (hticked line hm),
    disableHeader_eq_self hreturn, commentTicks_append]
  rfl

theorem rewritten (h : Returned as bs) : Returned (Sketch.rewritten as) (Sketch.rewritten bs) :=
  h.lineByLine (desugarTimes_lineByLine.comp swapPostfix_lineByLine) fun line _ => rewritten_pad (.inr rfl) line

theorem dropLiterals (h : Returned as bs) : Returned (Sketch.dropLiterals as) (Sketch.dropLiterals bs) :=
  h.lineByLine ⟨dropLiterals_newline, fun _ hn hm => hn (mem_dropLiterals hm)⟩ fun line _ => dropLiterals_pad (.inr rfl) line

/-- The same delimiters are unpaired. -/
theorem isUnpaired (h : Returned as bs) (d : Delimiter) : d.isUnpaired bs = d.isUnpaired as := by
  have hreturn : d.chars.contains '\r' = false := by cases d <;> rfl
  rw [Delimiter.isUnpaired, Delimiter.isUnpaired, h.countP hreturn]

/-! ## Headers -/

/-- Behind a line that is told apart the carriage return is a blank like any other. -/
theorem takesReturn {opened : Bool} {line ret : List Char} (hcr : '\r' ∉ line) (hret : ret = [] ∨ ret = ['\r'])
    (hapart : returnApart opened (line ++ ret)) :
    (!opened && opens (line ++ ret)) = (!opened && opens line) ∧ (ret = [] ∨ ret = ['\r'] ∧ TakesPad '\r' opened line) := by
  rcases hret with rfl | rfl
  · exact ⟨by rw [List.append_nil], .inl rfl⟩
  have hending : line.getLast? ≠ some '\r' := fun he => hcr (List.mem_of_getLast? he)
  cases opened with
  | true =>
    have hcode : line.dropWhile isBlank ≠ [] := by
      intro hnil
      have hblank : (line ++ ['\r']).dropWhile isBlank = [] := by
        rw [List.dropWhile_append, hnil]
        rfl
      rw [returnApart, if_pos rfl, List.getLast?_concat, hblank] at hapart
      cases hapart
    exact ⟨rfl, .inr ⟨rfl, hending, fun _ => hcode, fun ho => Bool.noConfusion ho⟩⟩
  | false =>
    have ho : opens line = false := by
      by_contra hopens
      obtain ⟨indent, hheader⟩ := opens_iff.1 (Bool.eq_true_of_not_eq_false hopens)
      rw [returnApart, if_neg Bool.false_ne_true, header?_return hheader] at hapart
      simp at hapart
    exact ⟨by rw [opens_pad (.inr rfl) ho, ho], .inr ⟨rfl, hending, fun h => Bool.noConfusion h, fun _ _ => ho⟩⟩

theorem spread (hcr : '\r' ∉ as) {opened : Bool} (h : Returned as bs) (hapart : returnsApart opened (splitLines bs)) :
    Spread id '\r' False opened (splitLines as) (splitLines bs) := by
  induction h using lineInduction generalizing opened with
  | last line _ hn =>
    rw [splitLines_line hn]
    have hline : Spread id '\r' False opened [line] ((line ++ []) :: ([] ++ [])) :=
      .line (.inl rfl) (fun _ => ⟨.inl rfl, rfl⟩) (.inl rfl) .nil
    rwa [List.append_nil] at hline
  | line line ret as bs h _ hn hret ih =>
    have hlines' : splitLines (line ++ (ret ++ '\n' :: bs)) = (line ++ ret) :: splitLines bs := by
      rw [← List.append_assoc]
      refine splitLines_append (fun hm => ?_) bs
      rcases List.mem_append.1 hm with hm | hm
      · exact hn hm
      · rcases hret with rfl | rfl <;> simp at hm
    rw [hlines', returnsApart, Bool.and_eq_true] at hapart
    rw [splitLines_append hn, hlines']
    have hsame := takesReturn (fun hm => hcr (List.mem_append_left _ hm)) hret hapart.1
    rw [hsame.1] at hapart
    exact .line hsame.2 (fun hnil => absurd hnil (splitLines_ne_nil as)) (.inl rfl)
      (ih (fun hm => hcr (List.mem_append_right _ (List.mem_cons_of_mem _ hm))) hapart.2)

end Returned

/-! ## Programs -/

section

variable {cs : List Char}

theorem returned_prepare (hticked : ∀ line ∈ (splitLines cs).dropLast, tickedHeader? line = none) :
    Returned (prepare cs) (prepare (withReturns cs)) :=
  ((Returned.withReturns cs).removeTicked hticked).stripComments.rewritten

theorem return_notMem_prepare (h : '\r' ∉ cs) : '\r' ∉ prepare cs := by
  intro hm
  have hticked := mem_stripComments (mem_swapPostfix (by decide) (mem_desugarTimes (by decide) hm))
  refine h (removeTicked_lineByLine.mem (by decide) (fun line hn hline => ?_) hticked)
  rw [removeTicked_line hn] at hline
  have hdisabled := mem_commentTicks (by decide) hline
  rcases disableHeader_cases line with hd | hd <;> rw [hd] at hdisabled
  · exact hdisabled
  · have hword : '\r' ∉ "if false ->".toList := by decide
    exact (List.takeWhile_sublist _).subset ((List.mem_append.1 hdisabled).resolve_right hword)

theorem blanked_withReturns (hcr : '\r' ∉ cs) (hticked : ∀ line ∈ (splitLines cs).dropLast, tickedHeader? line = none)
    (hapart : returnsApart false (splitLines (prepare (withReturns cs)))) :
    Blanked id '\r' False cs (withReturns cs) where
  paired := by
    have hsame := ((Returned.withReturns cs).removeTicked hticked).stripComments.dropLiterals.isUnpaired
    rw [funext hsame]
  lines := (returned_prepare hticked).spread (return_notMem_prepare hcr) hapart
  ending he := he.elim

/-- **The ends of lines do not matter**, unless a carriage return stands behind the arrow of a header, or alone on the
line behind one. -/
theorem ofSketch_withReturns (hcr : '\r' ∉ cs)
    (hticked : ∀ line ∈ (splitLines cs).dropLast, tickedHeader? line = none)
    (hapart : returnsApart false (splitLines (prepare (withReturns cs)))) :
    ((∃ script, toScript (withReturns cs) = .ok script) ↔ ∃ script, toScript cs = .ok script) ∧
      ∀ r, Routine.ofSketch (withReturns cs) = .ok r ↔ Routine.ofSketch cs = .ok r := by
  have h := blanked_withReturns hcr hticked hapart
  refine ⟨h.accepted (.inr rfl), fun r => ?_⟩
  by_cases hne : cs = []
  · subst hne
    rfl
  have hne' : withReturns cs ≠ [] := by
    obtain ⟨c, cs, rfl⟩ := List.exists_cons_of_ne_nil hne
    rw [withReturns, List.flatMap_cons]
    split <;> simp
  constructor
  · intro hr
    obtain ⟨script, q, hs, hq, rfl⟩ := (ofSketch_eq_ok_iff hne').1 hr
    obtain ⟨p, hp, hsame⟩ := h.ofSketch_return hne hne' hr
    rw [Program.renumber_id, Program.renumber_id] at hsame
    rw [hp, hsame]
  · intro hr
    obtain ⟨script, q, hs, hq, rfl⟩ := (ofSketch_eq_ok_iff hne).1 hr
    obtain ⟨p, hp, hsame⟩ := h.ofSketch (.inr rfl) hne hne' hr
    rw [Program.renumber_id, Program.renumber_id] at hsame
    rw [hp, hsame]

end

/-- Headers of blocks and of one line, one with a tick and one with a comment behind it, and a block comment. -/
def commentedHeaders : List Char :=
  "doOnce -> // once\n\tbox 2 /* two\nlines */\n2 times ->\n\tdoOnce -> red fill\n✓doOnce -> peg\n60 bpm\n".toList

theorem ofSketch_withReturns_commentedHeaders : ∃ r, Routine.ofSketch commentedHeaders = .ok (some r) ∧
    '\r' ∉ commentedHeaders ∧ (∀ line ∈ (splitLines commentedHeaders).dropLast, tickedHeader? line = none) ∧
    returnsApart false (splitLines (prepare (withReturns commentedHeaders))) ∧
    Routine.ofSketch (withReturns commentedHeaders) = .ok (some r) := by
  have hsome : (Routine.ofSketch commentedHeaders).toOption.any Option.isSome := by decide +kernel
  have hcr : '\r' ∉ commentedHeaders := by decide +kernel
  have hticked : ∀ line ∈ (splitLines commentedHeaders).dropLast, tickedHeader? line = none := by decide +kernel
  have hapart : returnsApart false (splitLines (prepare (withReturns commentedHeaders))) := by decide +kernel
  cases hr : Routine.ofSketch commentedHeaders with
  | error e =>
    rw [hr] at hsome
    cases hsome
  | ok r =>
    cases r with
    | none =>
      rw [hr] at hsome
      cases hsome
    | some r => exact ⟨r, rfl, hcr, hticked, hapart, ((ofSketch_withReturns hcr hticked hapart).2 _).2 hr⟩

/-- A carriage return behind the arrow of a block hides the header: its `doOnce` is left to the compiler. -/
theorem withReturns_rejected : (Routine.ofSketch "doOnce ->\n\tbox".toList).isOk ∧
    (Routine.ofSketch (withReturns "doOnce ->\n\tbox".toList)).isOk = false ∧
    (Routine.ofSketch "✓doOnce ->\n\tbox".toList).isOk ∧
    (Routine.ofSketch (withReturns "✓doOnce ->\n\tbox".toList)).isOk = false := by
  refine ⟨?_, ?_, ?_, ?_⟩ <;> decide +kernel

end LiveSketch.Sketch

import LiveSketch.Proofs.Sketch.Precheck
import LiveSketch.Proofs.Sketch.Remarks

/-!
# Code at the start of a line

Ticks and comments are removed around code at the start of a line, and the code itself stays, or all of it is inside a block
comment (`stripped_code`). What a sketch does hangs on the code only by way of the passes behind that (`ofSketch_code`).
-/
namespace LiveSketch.Sketch

open Text Script
open Script.Lexer (isIndent)

/-- The next line begins behind the text. -/
def AtLineStart (cs : List Char) : Prop := cs = [] ∨ ∃ above, cs = above ++ ['\n']

/-- Code on one line, in which no comment, literal or tick begins and no block comment ends. -/
structure PlainCode (code : List Char) : Prop where
  visible : ∃ c ∈ code, isIndent c = false
  plain : ∀ c ∈ code, c ∉ '\n' :: '*' :: marks

/-- Without ticks and comments this is left of a text that stands behind code. -/
def strippedBehind (rest : List Char) : List Char :=
  stripComments (commentTicks (rest.takeWhile (· != '\n')) ++ removeTicked (rest.dropWhile (· != '\n')))

variable {code before : List Char}

theorem AtLineStart.map {f : List Char → List Char} (hf : LineByLine f) (h : AtLineStart before) :
    ∃ front, AtLineStart front ∧ ∀ more, f (before ++ more) = front ++ f more := by
  rcases h with rfl | ⟨above, rfl⟩
  · exact ⟨[], .inl rfl, fun _ => rfl⟩
  · refine ⟨f above ++ ['\n'], .inr ⟨_, rfl⟩, fun more => ?_⟩
    rw [List.append_assoc, List.append_assoc]
    exact hf.newline above more

/-- A text ends behind its first line, or goes on there with a newline. -/
theorem behindLine_dropWhile (rest : List Char) : BehindLine (rest.dropWhile (· != '\n')) := by
  have hsplit := List.takeWhile_append_dropWhile (p := (· != '\n')) (l := rest)
  rcases firstLine_cases rest with h | ⟨more, h⟩
  · exact .inl (List.append_cancel_left ((hsplit.trans h).trans (List.append_nil _).symm))
  · exact .inr ⟨more, List.append_cancel_left (hsplit.trans h)⟩

namespace PlainCode

theorem unmarked (h : PlainCode code) {c : Char} (hc : c ∈ code) : c ∉ marks := fun hm =>
  h.plain c hc (List.mem_cons_of_mem _ (List.mem_cons_of_mem _ hm))

theorem newline_notMem (h : PlainCode code) : '\n' ∉ code := fun hm => h.plain _ hm List.mem_cons_self

theorem star_notMem (h : PlainCode code) : '*' ∉ code := fun hm => h.plain _ hm (by simp)

theorem tick_notMem (h : PlainCode code) : tick ∉ code := fun hm => h.unmarked hm (by simp [marks, tick])

/-! ## Ticks -/

theorem tickedHeader? (h : PlainCode code) (line : List Char) : Sketch.tickedHeader? (code ++ line) = none := by
  obtain ⟨c, hc, hi⟩ := h.visible
  have hne : code.dropWhile isIndent ≠ [] := fun he => by
    rw [all_of_dropWhile_eq_nil he c hc] at hi
    cases hi
  obtain ⟨d, ds, hd⟩ := List.exists_cons_of_ne_nil hne
  have hmem : d ∈ code := (List.dropWhile_sublist _).subset (hd ▸ List.mem_cons_self)
  have htick : tick ≠ d := fun he => h.tick_notMem (he ▸ hmem)
  have hdrop : (code ++ line).dropWhile isIndent = d :: (ds ++ line) := by
    rw [List.dropWhile_append, hd]
    rfl
  simp [Sketch.tickedHeader?, hdrop, after?, htick]

theorem removeTicked (h : PlainCode code) (rest : List Char) : Sketch.removeTicked (code ++ rest) =
    code ++ (commentTicks (rest.takeWhile (· != '\n')) ++ Sketch.removeTicked (rest.dropWhile (· != '\n'))) := by
  have hline : '\n' ∉ code ++ rest.takeWhile (· != '\n') := by
    rw [List.mem_append, not_or]
    exact ⟨h.newline_notMem, newline_notMem_firstLine rest⟩
  conv => lhs; rw [← List.takeWhile_append_dropWhile (p := (· != '\n')) (l := rest)]
  rw [← List.append_assoc, (removeTicked_tail (behindLine_dropWhile rest) _).1, removeTicked_line hline,
    disableHeader_eq_self (h.tickedHeader? _), commentTicks_append, commentTicks_of_notMem h.tick_notMem, List.append_assoc]

/-! ## Comments -/

theorem stripComments (h : PlainCode code) (rest : List Char) :
    Sketch.stripComments (code ++ rest) = code ++ Sketch.stripComments rest := by
  have hclean : Clean ['/', '*'] rest (code ++ []) := Spelt.clean_unmarked (fun _ => h.unmarked) .nil
  rw [List.append_nil] at hclean
  exact hclean.stripComments_append

theorem closeComment? (h : PlainCode code) (rest : List Char) : Sketch.closeComment? (code ++ rest) = Sketch.closeComment? rest := by
  have hstar := h.star_notMem
  have hnewline := h.newline_notMem
  clear h
  induction code with
  | nil => rfl
  | cons c code ih =>
    rw [List.mem_cons, not_or] at hstar hnewline
    have hstep : Sketch.closeComment? (c :: (code ++ rest)) = _ := closeComment?_cons fun _ hc _ => hstar.1 hc.symm
    have hkept : [c].filter (· == '\n') = [] := by simpa using Ne.symm hnewline.1
    rw [List.cons_append, hstep, hkept, ih hstar.2 hnewline.2]
    simp

end PlainCode

/-- Inside a block comment that ends behind the code nothing of the code is left. -/
theorem stripComments_within {as rest : List Char} (ha : settled as = false) (hrest : closeComment? rest ≠ none) :
    ∃ text, ∀ code, PlainCode code → stripComments (as ++ '\n' :: (code ++ rest)) = text := by
  obtain ⟨found, hfound⟩ := Option.ne_none_iff_exists'.1 hrest
  induction as using commentInduction with
  | nil => cases ha
  | step c cs ih =>
    cases ho : opensComment (c :: cs) with
    | false =>
      rw [settled_cons, ho] at ha
      obtain ⟨text, htext⟩ := ih ha
      refine ⟨(commentStep c cs).1 ++ text, fun code hcode => ?_⟩
      rw [List.cons_append, stripComments_cons, commentStep_apart (.inl ho), htext code hcode]
    | true =>
      unfold opensComment at ho
      split at ho
      · rename_i ds he
        obtain ⟨rfl, rfl⟩ := List.cons.inj he
        refine ⟨ds.filter (· == '\n') ++ '\n' :: found.1 ++ stripComments found.2, fun code hcode => ?_⟩
        have hclose : closeComment? (ds ++ '\n' :: (code ++ rest)) = _ :=
          ((closeComment?_newline ds (code ++ rest)).resolve_left fun ⟨_, hs, _⟩ => by
            rw [hs] at ho
            cases ho).2
        rw [hcode.closeComment?, hfound] at hclose
        have hstep : commentStep '/' ('*' :: (ds ++ '\n' :: (code ++ rest))) =
            (closeComment? (ds ++ '\n' :: (code ++ rest))).getD (['/'], '*' :: (ds ++ '\n' :: (code ++ rest))) := rfl
        rw [List.cons_append, List.cons_append, stripComments_cons, hstep, hclose]
        rfl
      · cases ho

/-- Code at the start of a line stays when ticks and comments are removed, or all of it is inside a block comment. -/
theorem stripped_code (hb : AtLineStart before) (rest : List Char) :
    (∃ front, AtLineStart front ∧
      ∀ code, PlainCode code → stripComments (removeTicked (before ++ (code ++ rest))) = front ++ (code ++ strippedBehind rest)) ∨
    ∃ text, ∀ code, PlainCode code → stripComments (removeTicked (before ++ (code ++ rest))) = text := by
  generalize hout : commentTicks (rest.takeWhile (· != '\n')) ++ removeTicked (rest.dropWhile (· != '\n')) = out
  have hbehind : strippedBehind rest = stripComments out := congrArg stripComments hout
  rw [hbehind]
  rcases hb with rfl | ⟨above, rfl⟩
  · exact .inl ⟨[], .inl rfl, fun code hcode => by
      rw [List.nil_append, hcode.removeTicked, hout, hcode.stripComments, List.nil_append]⟩
  · have hticks : ∀ code, PlainCode code →
        removeTicked (above ++ ['\n'] ++ (code ++ rest)) = removeTicked above ++ '\n' :: (code ++ out) := fun code hcode => by
      rw [List.append_assoc, List.singleton_append, removeTicked_lineByLine.newline, hcode.removeTicked, hout]
    by_cases h : settled (removeTicked above) ∨ closeComment? out = none
    · refine .inl ⟨stripComments (removeTicked above) ++ ['\n'], .inr ⟨_, rfl⟩, fun code hcode => ?_⟩
      rw [hticks code hcode, stripComments_apart (by rwa [hcode.closeComment?]), hcode.stripComments, List.append_assoc]
      rfl
    · rw [not_or] at h
      obtain ⟨text, htext⟩ := stripComments_within (Bool.eq_false_iff.2 h.1) h.2
      exact .inr ⟨text, fun code hcode => by rw [hticks code hcode, htext code hcode]⟩

/-! ## Sketches -/

theorem paired_code (hb : AtLineStart before) (rest : List Char) {code' : List Char} (h : PlainCode code) (h' : PlainCode code') :
    Delimiter.all.find? (·.isUnpaired (dropLiterals (stripComments (removeTicked (before ++ (code' ++ rest)))))) =
      Delimiter.all.find? (·.isUnpaired (dropLiterals (stripComments (removeTicked (before ++ (code ++ rest)))))) := by
  rcases stripped_code hb rest with ⟨front, hfront, htext⟩ | ⟨text, htext⟩
  · obtain ⟨kept, -, hkept⟩ := hfront.map dropLiterals_leavesBlanks.lines
    have hcount : ∀ code, PlainCode code → ∀ d : Delimiter, (dropLiterals (code ++ strippedBehind rest)).countP
        (fun c => d.chars.contains c) = (dropLiterals (strippedBehind rest)).countP fun c => d.chars.contains c :=
      fun code hcode d => countP_unmarked d (fun _ => hcode.unmarked) _
    rw [htext _ h, htext _ h', hkept, hkept]
    congr 1
    funext d
    rw [Delimiter.isUnpaired, Delimiter.isUnpaired, List.countP_append, List.countP_append, hcount _ h, hcount _ h']
  · rw [htext _ h, htext _ h']

theorem toScript_congr {cs cs' : List Char}
    (hpaired : Delimiter.all.find? (·.isUnpaired (dropLiterals (stripComments (removeTicked cs')))) =
      Delimiter.all.find? (·.isUnpaired (dropLiterals (stripComments (removeTicked cs)))))
    (h : prepare cs' = prepare cs) : toScript cs' = toScript cs := by
  rw [toScript_passes, toScript_passes]
  cases hfind : Delimiter.all.find? (·.isUnpaired (dropLiterals (stripComments (removeTicked cs)))) with
  | some d =>
    have herror : ∀ cs, Delimiter.all.find? (·.isUnpaired (dropLiterals (stripComments cs))) = some d →
        checkDelimiters cs = .error (.unpaired d) := fun cs hd => checkDelimiters_eq_error.2 ⟨d, hd, rfl⟩
    rw [herror _ (hpaired.trans hfind), herror _ hfind]
  | none =>
    rw [checkDelimiters_eq_ok.2 ⟨hpaired.trans hfind, rfl⟩, checkDelimiters_eq_ok.2 ⟨hfind, rfl⟩, ok_bind, ok_bind]
    exact congrArg (fun cs => rejectDraw (instrument cs) >>= fun allowed =>
      pure (separateCommands (callBarewords allowed))) h

theorem ofSketch_congr {cs cs' : List Char} (hne : cs ≠ []) (hne' : cs' ≠ [])
    (hpaired : Delimiter.all.find? (·.isUnpaired (dropLiterals (stripComments (removeTicked cs')))) =
      Delimiter.all.find? (·.isUnpaired (dropLiterals (stripComments (removeTicked cs)))))
    (h : prepare cs' = prepare cs) : Routine.ofSketch cs' = Routine.ofSketch cs := by
  rw [← List.isEmpty_eq_false_iff] at hne hne'
  rw [Routine.ofSketch, Routine.ofSketch, hne, hne', Routine.scriptOf, Routine.scriptOf, hne, hne', toScript_congr hpaired h]

theorem PlainCode.ne_nil (h : PlainCode code) (before rest : List Char) : before ++ (code ++ rest) ≠ [] := by
  obtain ⟨c, hc, -⟩ := h.visible
  exact List.ne_nil_of_mem (List.mem_append_right before (List.mem_append_left rest hc))

/-- The code is rewritten with what stands behind it, or all of it is inside a block comment. -/
theorem prepare_code (hb : AtLineStart before) (rest : List Char) :
    (∃ front, AtLineStart front ∧
      ∀ code, PlainCode code → prepare (before ++ (code ++ rest)) = front ++ rewritten (code ++ strippedBehind rest)) ∨
    ∃ text, ∀ code, PlainCode code → prepare (before ++ (code ++ rest)) = text := by
  rcases stripped_code hb rest with ⟨front, hfront, htext⟩ | ⟨text, htext⟩
  · obtain ⟨kept, hstart, hkept⟩ := hfront.map rewritten_leavesBlanks.lines
    refine .inl ⟨kept, hstart, fun code hcode => ?_⟩
    rw [← hkept, ← htext code hcode]
    rfl
  · exact .inr ⟨rewritten text, fun code hcode => congrArg rewritten (htext code hcode)⟩

/-- Two codes that are rewritten alike do the same in the place of each other. -/
theorem ofSketch_code (hb : AtLineStart before) {rest code' : List Char} (h : PlainCode code) (h' : PlainCode code')
    (hsame : rewritten (code' ++ strippedBehind rest) = rewritten (code ++ strippedBehind rest)) :
    Routine.ofSketch (before ++ (code' ++ rest)) = Routine.ofSketch (before ++ (code ++ rest)) := by
  refine ofSketch_congr (h.ne_nil before rest) (h'.ne_nil before rest) (paired_code hb rest h h') ?_
  rcases prepare_code hb rest with ⟨front, -, hprepare⟩ | ⟨text, hprepare⟩
  · rw [hprepare _ h, hprepare _ h', hsame]
  · rw [hprepare _ h, hprepare _ h']

end LiveSketch.Sketch

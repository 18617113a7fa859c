import LiveSketch.Proofs.Sketch.LineEnds
import LiveSketch.Proofs.Sketch.Spreading

/-!
# Remarks in a sketch

`ofSketch_remark`: a line of white space or of a comment, or a comment behind a line, does not change what a sketch does.
Ticks and comments are gone when the code is looked at, and what is left of a `Remark` are blanks (`Remark.stripped`), so
the lines are the ones before, spread out (`Spread`). The exceptions are the places where a pass looks at the end of a line,
or puts a report on the line behind a header (`Remark.Apart`).
-/
namespace LiveSketch.Sketch

open Text Script
open Script.Lexer

/-! ## Remarks -/

/-- What may be put at the end of a line: a line of white space, a line with nothing but a comment, or a comment behind the
line. White space is spaces and tabs, with a carriage return at the end of a line. -/
inductive Remark where
  | blank (indent ret : List Char) (indented : indent.all isIndent) (ending : ret = [] ∨ ret = ['\r'])
  | comment (indent text : List Char) (indented : indent.all isIndent) (inLine : '\n' ∉ text)
  | behind (text : List Char) (inLine : '\n' ∉ text)

namespace Remark

/-- It stands behind the code of a line. -/
def isBehind : Remark → Bool
  | behind .. => true
  | _ => false

/-- What is put at the end of the line. -/
def text : Remark → List Char
  | blank indent ret _ _ => '\n' :: (indent ++ ret)
  | comment indent text _ _ => '\n' :: (indent ++ '/' :: '/' :: text)
  | behind text _ => ' ' :: '/' :: '/' :: text

/-- What is left of it when the comments are gone. -/
def left (front : Place) : Remark → List Char
  | blank indent ret _ _ => '\n' :: (indent ++ ret)
  | comment indent _ _ _ => '\n' :: indent
  | behind _ _ => front.gap

/-- A line stands between two lines, and a comment at the end of one. -/
structure Fits (r : Remark) (rest : List Char) : Prop where
  tail : BehindLine rest
  between : r.isBehind = false → rest ≠ []

/-- It stands outside block comments, and a comment behind a line outside text literals. -/
structure Outside (r : Remark) (before rest : List Char) : Prop where
  block : settled (removeTicked before) ∨ closeComment? (removeTicked (r.text ++ rest)) = none
  literal : r.isBehind → place (removeTicked before) ≠ .literal

end Remark

/-! ### Ticks -/

theorem tickedHeader?_of_slash {line : List Char} (h : '/' ∈ line) : tickedHeader? line = none := by
  cases ht : tickedHeader? line with
  | none => rfl
  | some indent => exact absurd (mem_of_tickedHeader? ht h) (by decide)

/-- Behind a line that is no header without its tick, text stays but for the ticks in it. -/
theorem removeTicked_append {as more : List Char} (hn : '\n' ∉ more) (h : tickedHeader? (lastLine as) = none)
    (h' : '/' ∈ more) : removeTicked (as ++ more) = removeTicked as ++ commentTicks more := by
  have hline : ∀ line, '\n' ∉ line → tickedHeader? line = none →
      removeTicked (line ++ more) = removeTicked line ++ commentTicks more := by
    intro line hl ht
    have ht' : tickedHeader? (line ++ more) = none := tickedHeader?_of_slash (List.mem_append_right _ h')
    rw [removeTicked_line (by simp [hl, hn]), removeTicked_line hl, disableHeader_eq_self ht, disableHeader_eq_self ht',
      commentTicks_append]
  rcases lastLine_cases as with ⟨hcs, he⟩ | ⟨front, hcs, hl⟩
  · exact hline as hcs (he ▸ h)
  · generalize lastLine as = line at hcs hl h
    subst hcs
    rw [List.append_assoc, List.cons_append, removeTicked_lineByLine.newline, removeTicked_lineByLine.newline,
      hline line hl h, List.append_assoc, List.cons_append]

theorem commentTicks_blanks {cs : List Char} (h : ∀ c ∈ cs, isBlank c) : commentTicks cs = cs :=
  commentTicks_of_notMem fun hm => (isBlank_plain (h _ hm)).2.2.2.2 rfl

theorem removeTicked_blanks {cs : List Char} (hn : '\n' ∉ cs) (h : ∀ c ∈ cs, isBlank c) : removeTicked cs = cs := by
  have hheader : tickedHeader? cs = none := by
    have htick : tick ∉ cs.dropWhile isIndent := fun hm =>
      (isBlank_plain (h _ ((List.dropWhile_sublist _).subset hm))).2.2.2.2 rfl
    cases ha : after? [tick] (cs.dropWhile isIndent) with
    | none => simp [tickedHeader?, ha]
    | some rest => exact absurd (by rw [after?_eq_some.1 ha]; simp) htick
  rw [removeTicked_line hn, disableHeader_eq_self hheader, commentTicks_blanks h]

theorem removeTicked_comment {indent text : List Char} (hi : ∀ c ∈ indent, isIndent c) (hn : '\n' ∉ text) :
    removeTicked (indent ++ '/' :: '/' :: text) = indent ++ '/' :: '/' :: commentTicks text := by
  have hline : '\n' ∉ indent ++ '/' :: '/' :: text := by
    have hindent : '\n' ∉ indent := fun hm => absurd (hi _ hm) (by decide)
    simp [hindent, hn]
  rw [removeTicked_line hline, disableHeader_eq_self (tickedHeader?_of_slash (by simp)), commentTicks_append,
    commentTicks_blanks fun c hc => isBlank_of_isIndent (hi c hc)]
  rfl

theorem removeTicked_tail {tail : List Char} (ht : BehindLine tail) (as : List Char) :
    removeTicked (as ++ tail) = removeTicked as ++ removeTicked tail ∧ BehindLine (removeTicked tail) :=
  removeTicked_lineByLine.append_tail rfl ht as

/-! ### Comments -/

theorem stripComments_tail {as tail : List Char} (ht : BehindLine tail) (h : settled as ∨ closeComment? tail = none) :
    stripComments (as ++ tail) = stripComments as ++ stripComments tail ∧ BehindLine (stripComments tail) := by
  rcases ht with rfl | ⟨rest, rfl⟩
  · exact ⟨by simp [stripComments, stripCommentsWithin], .inl rfl⟩
  · have hclose : closeComment? ('\n' :: rest) = none → closeComment? rest = none := by
      rw [closeComment?_cons (by simp)]
      exact Option.map_eq_none_iff.1
    rw [stripComments_newline_cons]
    exact ⟨stripComments_apart (h.imp_right hclose), .inr ⟨_, rfl⟩⟩

namespace Remark

theorem blanks_of_indent {indent ret : List Char} (hi : indent.all isIndent) (hret : ret = [] ∨ ret = ['\r']) :
    (∀ c ∈ indent ++ ret, isBlank c) ∧ '\n' ∉ indent ++ ret := by
  have hindent : ∀ c ∈ indent, isIndent c := List.all_eq_true.1 hi
  have hn : '\n' ∉ indent := fun hm => absurd (hindent _ hm) (by decide)
  have hb : ∀ c ∈ indent, isBlank c := fun c hc => isBlank_of_isIndent (hindent c hc)
  rcases hret with rfl | rfl
  · simpa using ⟨hb, hn⟩
  · refine ⟨fun c hc => ?_, by simp [hn]⟩
    rcases List.mem_append.1 hc with hc | hc
    · exact hb c hc
    · rw [List.mem_singleton.1 hc]
      rfl

/-- What is left is nothing, a space, or a line of blanks. -/
theorem left_cases (r : Remark) (front : Place) : r.left front = [] ∨ r.left front = [' '] ∨
    ∃ line, r.left front = '\n' :: line ∧ (∀ c ∈ line, isBlank c) ∧ '\n' ∉ line := by
  cases r with
  | blank indent ret hi hret => exact .inr (.inr ⟨_, rfl, blanks_of_indent hi hret⟩)
  | comment indent text hi _ =>
    have hblanks := blanks_of_indent hi (.inl rfl)
    rw [List.append_nil] at hblanks
    exact .inr (.inr ⟨_, rfl, hblanks⟩)
  | behind =>
    cases front with
    | comment => exact .inl rfl
    | code | literal => exact .inr (.inl rfl)

theorem isBlank_left (r : Remark) (front : Place) : ∀ c ∈ r.left front, isBlank c := by
  intro c hc
  rcases r.left_cases front with h | h | ⟨line, h, hb, -⟩ <;> rw [h] at hc
  · cases hc
  · rw [List.mem_singleton.1 hc]
    rfl
  · rcases List.mem_cons.1 hc with rfl | hc
    · rfl
    · exact hb c hc

/-- Without ticks and comments blanks are left of a remark. -/
theorem stripped (r : Remark) {before rest : List Char} (hfits : r.Fits rest) (hout : r.Outside before rest)
    (hheader : r.isBehind → tickedHeader? (lastLine before) = none) :
    stripComments (removeTicked (before ++ (r.text ++ rest))) = stripComments (removeTicked before) ++
      (r.left (place (removeTicked before)) ++ stripComments (removeTicked rest)) := by
  have hblock := hout.block
  have hline : ∀ line kept, '\n' ∉ line → r.text = '\n' :: line → r.left (place (removeTicked before)) = '\n' :: kept →
      stripComments (removeTicked line ++ removeTicked rest) = kept ++ stripComments (removeTicked rest) →
      stripComments (removeTicked (before ++ (r.text ++ rest))) = stripComments (removeTicked before) ++
        (r.left (place (removeTicked before)) ++ stripComments (removeTicked rest)) := by
    intro line kept _ ht hl hstrip
    have hnil : removeTicked [] = [] := rfl
    have hnewline := removeTicked_lineByLine.newline [] (line ++ rest)
    rw [hnil, List.nil_append, List.nil_append] at hnewline
    rw [ht, List.cons_append, hnewline, closeComment?_cons (by simp), Option.map_eq_none_iff,
      (removeTicked_tail hfits.tail line).1] at hblock
    rw [ht, hl, List.cons_append, removeTicked_lineByLine.newline, (removeTicked_tail hfits.tail line).1,
      stripComments_apart hblock, hstrip]
    rfl
  cases r with
  | blank indent ret hi hret =>
    obtain ⟨hb, hn⟩ := blanks_of_indent hi hret
    exact hline _ _ hn rfl rfl (by rw [removeTicked_blanks hn hb, stripComments_line hb])
  | comment indent text hi hn =>
    have hi' := List.all_eq_true.1 hi
    have hindent : '\n' ∉ indent := fun hm => absurd (hi' _ hm) (by decide)
    have htext : '\n' ∉ commentTicks text := mt (mem_commentTicks (by decide)) hn
    refine hline _ _ (by simp [hindent, hn]) rfl rfl ?_
    rw [removeTicked_comment hi' hn, List.append_assoc, stripComments_line fun c hc => isBlank_of_isIndent (hi' c hc)]
    exact congrArg (indent ++ ·) (stripComments_comment htext (removeTicked_tail hfits.tail []).2)
  | behind text hn =>
    have htext : '\n' ∉ commentTicks text := mt (mem_commentTicks (by decide)) hn
    have hticks : commentTicks (' ' :: '/' :: '/' :: text) = ' ' :: '/' :: '/' :: commentTicks text := rfl
    have hself : removeTicked (' ' :: '/' :: '/' :: text) = ' ' :: '/' :: '/' :: commentTicks text :=
      @removeTicked_comment [' '] _ (by simp [isIndent]) hn
    rw [Remark.text, (removeTicked_tail hfits.tail _).1, hself] at hblock
    rw [Remark.text, ← List.append_assoc, (removeTicked_tail hfits.tail _).1,
      removeTicked_append (by simp [hn]) (hheader rfl) (by simp), hticks, List.append_assoc]
    exact stripComments_behind htext (removeTicked_tail hfits.tail []).2 (hout.literal rfl) hblock

end Remark

theorem LeavesBlanks.left {f : List Char → List Char} (h : LeavesBlanks f) (r : Remark) (front : Place) {tail : List Char}
    (ht : BehindLine tail) (as : List Char) : f (as ++ (r.left front ++ tail)) = f as ++ (r.left front ++ f tail) := by
  rcases r.left_cases front with hl | hl | ⟨line, hl, hb, -⟩ <;> rw [hl]
  · exact (h.tail ht as).1
  · rw [← List.append_assoc, (h.tail ht _).1, h.space, List.append_assoc]
  · rw [List.cons_append, h.lines.newline, (h.tail ht line).1, h.blanks line hb, List.cons_append]

/-! ### The text in which headers are looked for -/

section

variable {before rest : List Char}

theorem closeComment?_tail {tail : List Char} (ht : BehindLine tail) {as : List Char}
    (h : closeComment? (as ++ tail) = none) : closeComment? tail = none := by
  rcases ht with rfl | ⟨rest, rfl⟩
  · rfl
  · rw [closeComment?_cons (by simp), Option.map_eq_none_iff]
    rcases closeComment?_newline as rest with ⟨found, -, hfound⟩ | ⟨-, hrest⟩
    · rw [hfound] at h
      cases h
    · rw [hrest] at h
      exact Option.map_eq_none_iff.1 h

/-- Outside block comments a text is stripped up to the end of a line and from there on. -/
theorem stripped_tail {r : Remark} (hfits : r.Fits rest) (hout : r.Outside before rest) :
    stripComments (removeTicked (before ++ rest)) =
      stripComments (removeTicked before) ++ stripComments (removeTicked rest) ∧
        BehindLine (stripComments (removeTicked rest)) := by
  obtain ⟨hticks, htail⟩ := removeTicked_tail hfits.tail before
  rw [hticks]
  refine stripComments_tail htail (hout.block.imp_right fun h => ?_)
  rw [(removeTicked_tail hfits.tail _).1] at h
  exact closeComment?_tail htail h

theorem prepare_tail {r : Remark} (hfits : r.Fits rest) (hout : r.Outside before rest) :
    prepare (before ++ rest) = prepare before ++ prepare rest ∧ BehindLine (prepare rest) := by
  obtain ⟨hstrip, htail⟩ := stripped_tail hfits hout
  have htext := rewritten_leavesBlanks.tail htail (stripComments (removeTicked before))
  rw [← hstrip] at htext
  exact htext

theorem prepare_remark {r : Remark} (hfits : r.Fits rest) (hout : r.Outside before rest)
    (hheader : r.isBehind → tickedHeader? (lastLine before) = none) :
    prepare (before ++ (r.text ++ rest)) =
      prepare before ++ (r.left (place (removeTicked before)) ++ prepare rest) := by
  have htext := rewritten_leavesBlanks.left r (place (removeTicked before)) (stripped_tail hfits hout).2
    (stripComments (removeTicked before))
  rw [← r.stripped hfits hout hheader] at htext
  exact htext

/-- Blanks are no delimiters. -/
theorem isUnpaired_remark {r : Remark} (hfits : r.Fits rest) (hout : r.Outside before rest)
    (hheader : r.isBehind → tickedHeader? (lastLine before) = none) (d : Delimiter) :
    d.isUnpaired (dropLiterals (stripComments (removeTicked (before ++ (r.text ++ rest))))) =
      d.isUnpaired (dropLiterals (stripComments (removeTicked (before ++ rest)))) := by
  obtain ⟨hstrip, htail⟩ := stripped_tail hfits hout
  have hblanks : (r.left (place (removeTicked before))).countP (fun c => d.chars.contains c) = 0 := by
    rw [List.countP_eq_zero]
    intro c hc hd
    have hb := r.isBlank_left _ c hc
    have hchars : d.chars.all (! isBlank ·) := by cases d <;> decide
    have hplain := List.all_eq_true.1 hchars c (by simpa using hd)
    rw [hb] at hplain
    cases hplain
  rw [r.stripped hfits hout hheader, hstrip, dropLiterals_leavesBlanks.left r _ htail,
    (dropLiterals_leavesBlanks.tail htail _).1]
  simp only [Delimiter.isUnpaired, List.countP_append, hblanks, Nat.zero_add]

end

/-! ## Lines -/

/-- The last of the lines is the header of a block. -/
def endsOpened : (opened : Bool) → List (List Char) → Bool
  | opened, [] => opened
  | opened, line :: lines => endsOpened (!opened && opens line) lines

theorem endsOpened_concat (opened : Bool) (lines : List (List Char)) (line : List Char) :
    endsOpened opened (lines ++ [line]) = (!endsOpened opened lines && opens line) := by
  induction lines generalizing opened with
  | nil => rfl
  | cons l lines ih => exact ih _

namespace Spread

variable {g : Float → Float} {c : Char} {ends : Prop} {opened : Bool} {line blank : List Char} {lines lines' : List (List Char)}

theorem refl (g : Float → Float) (c : Char) (ends : Prop) (opened : Bool) (lines : List (List Char)) :
    Spread g c ends opened lines lines := by
  induction lines generalizing opened with
  | nil => exact .nil
  | cons line lines ih =>
    have hline : Spread g c ends opened (line :: lines) ((line ++ []) :: ([] ++ lines)) :=
      .line (.inl rfl) (fun _ => ⟨.inl rfl, rfl⟩) (.inl rfl) (ih _)
    rwa [List.append_nil] at hline

/-- The lines in front are the same. -/
theorem append (front : List (List Char))
    (h : Spread g c ends (endsOpened opened front) lines lines') :
    Spread g c ends opened (front ++ lines) (front ++ lines') := by
  induction front generalizing opened with
  | nil => exact h
  | cons line front ih =>
    have hline : Spread g c ends opened (line :: (front ++ lines)) ((line ++ []) :: ([] ++ (front ++ lines'))) :=
      .line (.inl rfl) (fun _ => ⟨.inl rfl, rfl⟩) (.inl rfl) (ih h)
    rwa [List.append_nil] at hline

/-- A line of white space comes in between, behind no header of a block. -/
theorem between (ho : (!opened && opens line) = false) (hb : ∀ d ∈ blank, isIndent d)
    (hg : ∀ m n : Nat, g (numeral m) = g (numeral n)) (hne : lines ≠ []) :
    Spread g c ends opened (line :: lines) (line :: blank :: lines) := by
  have hline : Spread g c ends opened (line :: lines) ((line ++ []) :: ([blank] ++ lines)) :=
    .line (.inl rfl) (fun he => absurd he hne) (.inr ⟨ho, by simpa using hb, hg⟩) (refl g c ends _ lines)
  rwa [List.append_nil] at hline

/-- One line gets a blank. -/
theorem padded (h : TakesPad c opened line) (he : lines = [] → ends) :
    Spread g c ends opened (line :: lines) ((line ++ [c]) :: lines) :=
  .line (.inr ⟨rfl, h⟩) (fun hl => ⟨.inr (he hl), rfl⟩) (.inl rfl) (refl g c ends _ lines)

section

variable {front rest blank : List Char}

/-- The same for texts. -/
theorem line_between (ho : endsOpened opened (splitLines front) = false) (hb : ∀ d ∈ blank, isIndent d)
    (hg : ∀ m n : Nat, g (numeral m) = g (numeral n)) :
    Spread g c ends opened (splitLines (front ++ '\n' :: rest)) (splitLines (front ++ ('\n' :: blank ++ '\n' :: rest))) := by
  have hn : '\n' ∉ blank := fun hm => absurd (hb _ hm) (by decide)
  have hlines : (splitLines front).dropLast ++ [lastLine front] = splitLines front := List.dropLast_append_getLast _
  rw [List.cons_append, splitLines_append_newline, splitLines_append_newline, splitLines_append hn]
  generalize (splitLines front).dropLast = lines at hlines
  rw [← hlines] at ho ⊢
  rw [endsOpened_concat] at ho
  simp only [List.append_assoc, List.singleton_append]
  exact .append lines (.between ho hb hg (splitLines_ne_nil rest))

theorem line_padded (hc : c ≠ '\n') (h : TakesPad c (endsOpened opened (splitLines front).dropLast) (lastLine front))
    (hrest : BehindLine rest) (he : rest = [] → ends) :
    Spread g c ends opened (splitLines (front ++ rest)) (splitLines (front ++ ([c] ++ rest))) := by
  have hlines : (splitLines front).dropLast ++ [lastLine front] = splitLines front := List.dropLast_append_getLast _
  have hpad : splitLines (front ++ [c]) = (splitLines front).dropLast ++ [lastLine front ++ [c]] :=
    splitLines_append_line (by simp [hc.symm]) _
  generalize (splitLines front).dropLast = lines at h hlines hpad
  rw [← List.append_assoc]
  rcases hrest with rfl | ⟨rest, rfl⟩
  · rw [List.append_nil, List.append_nil, hpad, ← hlines]
    exact .append lines (.padded h fun _ => he rfl)
  · rw [splitLines_append_newline, splitLines_append_newline, hpad, ← hlines, List.append_assoc, List.append_assoc]
    exact .append lines (.padded h fun hnil => absurd hnil (splitLines_ne_nil rest))

end

end Spread

/-! ## Programs -/

/-- The sketch is accepted, and this is its program. -/
def HasProgram (cs : List Char) (p : Program) : Prop := ∃ script, toScript cs = .ok script ∧ Script.compile script = .ok p

/-- The program of what a sketch gives: no routine runs nothing. -/
def programOf (found : Option Routine) : Program := (found.bind (·.program)).getD ⟨[], []⟩

/-- Nothing but the numbers of reports is different. -/
def SameButReports (p p' : Program) : Prop :=
  ∀ g : Float → Float, (∀ m n : Nat, g (numeral m) = g (numeral n)) → p'.renumber g = p.renumber g

section

variable {cs cs' : List Char} {p p' : Program}

theorem HasProgram.unique (h : HasProgram cs p) (h' : HasProgram cs p') : p' = p := by
  obtain ⟨script, hs, hp⟩ := h
  obtain ⟨script', hs', hp'⟩ := h'
  obtain rfl := Except.ok.inj (hs.symm.trans hs')
  exact Except.ok.inj (hp'.symm.trans hp)

theorem HasProgram.ofSketch (h : HasProgram cs p) (hne : cs ≠ []) : Routine.ofSketch cs = .ok (some ⟨some p⟩) := by
  obtain ⟨script, hs, hp⟩ := h
  exact (ofSketch_eq_ok_iff hne).2 ⟨script, p, hs, hp, rfl⟩

theorem hasProgram_of_ofSketch {found : Option Routine} (h : Routine.ofSketch cs = .ok found) :
    HasProgram cs (programOf found) := by
  by_cases hne : cs = []
  · subst hne
    cases h
    exact ⟨[], rfl, rfl⟩
  · obtain ⟨script, p, hs, hp, rfl⟩ := (ofSketch_eq_ok_iff hne).1 h
    exact ⟨script, hs, hp⟩

theorem Blanked.hasProgram {g : Float → Float} {c : Char} {ends : Prop} (hc : IsPadding c) (h : Blanked g c ends cs cs')
    (hp : HasProgram cs p) : ∃ p', HasProgram cs' p' ∧ p'.renumber g = p.renumber g := by
  obtain ⟨script, hs, hp⟩ := hp
  obtain ⟨script', hs'⟩ := (h.accepted hc).2 ⟨script, hs⟩
  obtain ⟨p', hp', hsame⟩ := compile_sameLines ((h.alike hc hs hs').sameLines hc) hp
  exact ⟨p', ⟨script', hs', hp'⟩, hsame⟩

/-- Without lines in between all numbers stay. -/
theorem Blanked.hasProgram_same {c : Char} {ends : Prop} (hc : IsPadding c) (h : Blanked id c ends cs cs')
    (hp : HasProgram cs p) : HasProgram cs' p := by
  obtain ⟨p', hp', hsame⟩ := h.hasProgram hc hp
  rw [Program.renumber_id, Program.renumber_id] at hsame
  rwa [← hsame]

/-- With lines in between they do not. -/
theorem exists_sameButReports {c : Char} {ends : Prop} (hc : IsPadding c)
    (h : ∀ g : Float → Float, (∀ m n : Nat, g (numeral m) = g (numeral n)) → Blanked g c ends cs cs')
    (hp : HasProgram cs p) : ∃ p', HasProgram cs' p' ∧ SameButReports p p' := by
  obtain ⟨p', hp', -⟩ := (h (fun _ => numeral 0) fun _ _ => rfl).hasProgram hc hp
  refine ⟨p', hp', fun g hg => ?_⟩
  obtain ⟨q, hq, hsame⟩ := (h g hg).hasProgram hc hp
  rwa [hp'.unique hq] at hsame

end

/-! ## The places of remarks -/

/-- No pass looks at the place of the remark: a line does not stand directly behind the header of a block, nor a comment
behind a ticked header, behind a carriage return, on an empty line behind the header of a block, or behind a command
without arguments at the end of the text. A comment within a comment may stand anywhere. -/
structure Remark.Apart (r : Remark) (before rest : List Char) : Prop where
  line : r.isBehind = false → endsOpened false (splitLines (prepare before)) = false
  ticked : r.isBehind → tickedHeader? (lastLine before) = none
  ending : r.isBehind → place (removeTicked before) = .code → (lastLine (prepare before)).getLast? ≠ some '\r'
  code : r.isBehind → place (removeTicked before) = .code → endsOpened false (splitLines (prepare before)).dropLast →
    (lastLine (prepare before)).dropWhile isBlank ≠ []
  command : r.isBehind → place (removeTicked before) = .code → rest = [] → ∀ script, toScript before = .ok script →
    endsInCommand script = false

section

variable {before rest : List Char}

theorem prepare_line (rest : List Char) : prepare ('\n' :: rest) = '\n' :: prepare rest := by
  have hticks : removeTicked ('\n' :: rest) = '\n' :: removeTicked rest := removeTicked_lineByLine.newline [] rest
  have htext : ∀ cs, rewritten ('\n' :: cs) = '\n' :: rewritten cs := rewritten_leavesBlanks.lines.newline []
  have hstages : ∀ cs, prepare cs = rewritten (stripComments (removeTicked cs)) := fun _ => rfl
  rw [hstages, hticks, stripComments_newline_cons, htext, hstages]

theorem paired_remark {r : Remark} (hfits : r.Fits rest) (hout : r.Outside before rest) (hapart : r.Apart before rest) :
    Delimiter.all.find? (·.isUnpaired (dropLiterals (stripComments (removeTicked (before ++ (r.text ++ rest)))))) =
      Delimiter.all.find? (·.isUnpaired (dropLiterals (stripComments (removeTicked (before ++ rest))))) := by
  rw [funext (isUnpaired_remark hfits hout hapart.ticked)]

/-- A line of spaces and tabs is left of the remark. -/
theorem blanked_line {r : Remark} (hfits : r.Fits rest) (hout : r.Outside before rest) (hapart : r.Apart before rest)
    (hline : r.isBehind = false) {blank : List Char} (hleft : ∀ front, r.left front = '\n' :: blank)
    (hb : ∀ d ∈ blank, isIndent d) {g : Float → Float} (hg : ∀ m n : Nat, g (numeral m) = g (numeral n)) :
    Blanked g ' ' False (before ++ rest) (before ++ (r.text ++ rest)) where
  paired := paired_remark hfits hout hapart
  ending he := he.elim
  lines := by
    obtain ⟨more, rfl⟩ := hfits.tail.resolve_left (hfits.between hline)
    rw [(prepare_tail hfits hout).1, prepare_remark hfits hout hapart.ticked, hleft, prepare_line]
    exact .line_between (hapart.line hline) hb hg

/-- A space is left of the remark. -/
theorem blanked_behind {r : Remark} (hfits : r.Fits rest) (hout : r.Outside before rest) (hapart : r.Apart before rest)
    (hbehind : r.isBehind) (hcode : place (removeTicked before) = .code) (hleft : r.left .code = [' ']) :
    Blanked id ' ' (rest = []) (before ++ rest) (before ++ (r.text ++ rest)) where
  paired := paired_remark hfits hout hapart
  ending he script hs := by
    rw [he, List.append_nil] at hs
    exact hapart.command hbehind hcode he script hs
  lines := by
    have htakes : TakesPad ' ' (endsOpened false (splitLines (prepare before)).dropLast) (lastLine (prepare before)) :=
      ⟨hapart.ending hbehind hcode, hapart.code hbehind hcode, fun _ hc => absurd hc (by decide)⟩
    have hends : prepare rest = [] → rest = [] := by
      rcases hfits.tail with rfl | ⟨more, rfl⟩
      · exact fun _ => rfl
      · rw [prepare_line]
        exact fun h => absurd h (List.cons_ne_nil _ _)
    rw [(prepare_tail hfits hout).1, prepare_remark hfits hout hapart.ticked, hcode, hleft]
    exact .line_padded (by decide) htakes (prepare_tail hfits hout).2 hends

/-- Within a comment nothing is left of the remark. -/
theorem blanked_comment {r : Remark} (hfits : r.Fits rest) (hout : r.Outside before rest) (hapart : r.Apart before rest)
    (hcomment : place (removeTicked before) = .comment) (hleft : r.left .comment = []) :
    Blanked id ' ' False (before ++ rest) (before ++ (r.text ++ rest)) where
  paired := paired_remark hfits hout hapart
  ending he := he.elim
  lines := by
    rw [(prepare_tail hfits hout).1, prepare_remark hfits hout hapart.ticked, hcomment, hleft, List.nil_append]
    exact .refl id ' ' False false _

theorem closeComment?_blanks {blanks tail : List Char} (hb : ∀ c ∈ blanks, isBlank c) (ht : BehindLine tail)
    (h : closeComment? tail = none) : closeComment? (blanks ++ tail) = none := by
  have hhead : ∀ d ∈ tail.head?, d ≠ '/' := by
    rcases ht with rfl | ⟨rest, rfl⟩ <;> simp
  rcases @closeComment?_append blanks _ hhead with ⟨found, hf, -⟩ | ⟨-, hnone⟩
  · obtain ⟨inside, hi, -⟩ := @closeComment?_eq_some _ found.1 found.2 hf
    exact absurd rfl (isBlank_plain (hb '*' (by simp [hi]))).2.2.1
  · exact hnone h

/-- A line of blanks may end in a carriage return. -/
theorem blanked_return {indent : List Char} {hi : indent.all isIndent} {hret : ['\r'] = [] ∨ ['\r'] = ['\r']}
    (hfits : (Remark.blank indent ['\r'] hi hret).Fits rest) (hout : (Remark.blank indent ['\r'] hi hret).Outside before rest)
    (hapart : (Remark.blank indent ['\r'] hi hret).Apart before rest) :
    ∃ r₀ : Remark, r₀ = .blank indent [] hi (.inl rfl) ∧ r₀.Fits rest ∧ r₀.Outside before rest ∧ r₀.Apart before rest ∧
      Blanked id '\r' False (before ++ (r₀.text ++ rest))
        (before ++ ((Remark.blank indent ['\r'] hi hret).text ++ rest)) := by
  have hindent : ∀ c ∈ indent, isIndent c := List.all_eq_true.1 hi
  have hn : '\n' ∉ indent := fun hm => absurd (hindent _ hm) (by decide)
  have hbehind : ¬ (Remark.blank indent [] hi (.inl rfl)).isBehind := Bool.false_ne_true
  have hfits' : (Remark.blank indent [] hi (.inl rfl)).Fits rest := ⟨hfits.tail, fun _ => hfits.between rfl⟩
  have hout' : (Remark.blank indent [] hi (.inl rfl)).Outside before rest := by
    refine ⟨hout.block.imp_right fun h => ?_, fun he => absurd he hbehind⟩
    obtain ⟨hticks, htail⟩ := removeTicked_tail hfits.tail (Remark.blank indent ['\r'] hi hret).text
    rw [hticks] at h
    have hblank : ∀ c ∈ indent ++ [], isBlank c := (Remark.blanks_of_indent hi (.inl rfl)).1
    have htext : removeTicked ('\n' :: (indent ++ [])) = '\n' :: (indent ++ []) := by
      have hline := removeTicked_lineByLine.newline [] (indent ++ [])
      rw [removeTicked_blanks (by simpa using hn) hblank] at hline
      exact hline
    rw [(removeTicked_tail hfits.tail _).1, Remark.text, htext]
    exact closeComment?_blanks (List.forall_mem_cons.2 ⟨rfl, hblank⟩) htail (closeComment?_tail htail h)
  have hapart' : (Remark.blank indent [] hi (.inl rfl)).Apart before rest :=
    ⟨fun _ => hapart.line rfl, fun he => absurd he hbehind, fun he => absurd he hbehind, fun he => absurd he hbehind,
      fun he => absurd he hbehind⟩
  refine ⟨_, rfl, hfits', hout', hapart', ?_, ?_, fun he => he.elim⟩
  · rw [paired_remark hfits hout hapart, paired_remark hfits' hout' hapart']
  · obtain ⟨more, rfl⟩ := hfits.tail.resolve_left (hfits.between rfl)
    obtain ⟨hlast, hdrop⟩ := lastLine_newline hn (prepare before)
    have hopens : opens indent = false := by rw [opens, header?_blank hindent, Option.any_none]
    have htakes : TakesPad '\r' (endsOpened false (splitLines (prepare before ++ '\n' :: indent)).dropLast)
        (lastLine (prepare before ++ '\n' :: indent)) := by
      rw [hdrop, hlast, hapart.line rfl]
      exact ⟨fun he => absurd (hindent _ (List.mem_of_getLast? he)) (by decide), fun he => absurd he Bool.false_ne_true, fun _ _ => hopens⟩
    have hlines : Spread id '\r' False false _ _ := .line_padded (by decide) htakes (.inr ⟨prepare more, rfl⟩) (by simp)
    rw [prepare_remark hfits hout hapart.ticked, prepare_remark hfits' hout' hapart'.ticked, prepare_line]
    simpa [Remark.left] using hlines

/-- **Comments and white space are inert**: a line of white space or with nothing but a comment between two lines, outside
block comments and not directly behind the header of a block, and a comment behind a line, outside block comments and
literals and with the exceptions of `Remark.Apart`, leave a sketch accepted, and leave its program as it is up to the
numbers of reports; a comment behind a line leaves these too. -/
theorem ofSketch_remark (r : Remark) (hfits : r.Fits rest) (hout : r.Outside before rest) (hapart : r.Apart before rest)
    {found : Option Routine} (h : Routine.ofSketch (before ++ rest) = .ok found) :
    ∃ p, Routine.ofSketch (before ++ (r.text ++ rest)) = .ok (some ⟨some p⟩) ∧ SameButReports (programOf found) p ∧
      (r.isBehind → p = programOf found) := by
  have hp := hasProgram_of_ofSketch h
  have hne : before ++ (r.text ++ rest) ≠ [] := by cases r <;> simp [Remark.text]
  have hline : ∀ r : Remark, r.Fits rest → r.Outside before rest → r.Apart before rest → r.isBehind = false →
      ∀ blank, (∀ front, r.left front = '\n' :: blank) → (∀ d ∈ blank, isIndent d) →
        ∃ p, HasProgram (before ++ (r.text ++ rest)) p ∧ SameButReports (programOf found) p :=
    fun r hfits hout hapart hl blank hleft hb =>
      exists_sameButReports (.inl rfl) (fun g hg => blanked_line hfits hout hapart hl hleft hb hg) hp
  cases r with
  | blank indent ret hi hret =>
    have hindent : ∀ c ∈ indent, isIndent c := List.all_eq_true.1 hi
    rcases hret with rfl | rfl
    · obtain ⟨p, hp', hsame⟩ := hline _ hfits hout hapart rfl indent (fun _ => by simp [Remark.left]) hindent
      exact ⟨p, hp'.ofSketch hne, hsame, nofun⟩
    · obtain ⟨r₀, rfl, hfits', hout', hapart', hreturn⟩ := blanked_return hfits hout hapart
      obtain ⟨p, hp', hsame⟩ := hline _ hfits' hout' hapart' rfl indent (fun _ => by simp [Remark.left]) hindent
      exact ⟨p, (hreturn.hasProgram_same (.inr rfl) hp').ofSketch hne, hsame, nofun⟩
  | comment indent text hi hn =>
    obtain ⟨p, hp', hsame⟩ := hline _ hfits hout hapart rfl indent (fun _ => rfl) (List.all_eq_true.1 hi)
    exact ⟨p, hp'.ofSketch hne, hsame, nofun⟩
  | behind text hn =>
    refine ⟨programOf found, HasProgram.ofSketch ?_ hne, fun _ _ => rfl, fun _ => rfl⟩
    cases hplace : place (removeTicked before) with
    | code => exact (blanked_behind hfits hout hapart rfl hplace rfl).hasProgram_same (.inl rfl) hp
    | comment => exact (blanked_comment hfits hout hapart hplace rfl).hasProgram_same (.inl rfl) hp
    | literal => exact absurd hplace (hout.literal rfl)

end

/-- Headers with and without ticks, a block comment and a literal with the mark of a comment in it: a text up to the end of a
line, and the rest. -/
def noteFront : List Char := "3 times ->\n\tdoOnce -> box 2\n✓doOnce -> peg\nball /* two\nlines */red fill".toList

def noteRest : List Char := "\nplay \"a // b\"\n60 bpm".toList

/-- One remark of each kind. -/
def notes : List Remark :=
  [.blank ['\t', ' '] ['\r'] rfl (.inr rfl), .comment ['\t'] " it's ✓".toList rfl (by decide), .behind " don't /*".toList (by decide)]

theorem ofSketch_remark_notes : ∃ found, Routine.ofSketch (noteFront ++ noteRest) = .ok (some found) ∧
    ∀ r ∈ notes, r.Fits noteRest ∧ r.Outside noteFront noteRest ∧ r.Apart noteFront noteRest ∧
      ∃ p, Routine.ofSketch (noteFront ++ (r.text ++ noteRest)) = .ok (some ⟨some p⟩) ∧
        SameButReports (programOf (some found)) p := by
  have hsome : (Routine.ofSketch (noteFront ++ noteRest)).toOption.any Option.isSome := by decide +kernel
  have hfits : ∀ r : Remark, r.Fits noteRest := fun _ => ⟨.inr ⟨_, rfl⟩, fun _ => by decide⟩
  have hsettled : settled (removeTicked noteFront) := by decide +kernel
  have hplace : place (removeTicked noteFront) ≠ .literal := by decide +kernel
  have hout : ∀ r : Remark, r.Outside noteFront noteRest := fun _ => ⟨.inl hsettled, fun _ => hplace⟩
  have hopened : endsOpened false (splitLines (prepare noteFront)) = false := by decide +kernel
  have hticked : tickedHeader? (lastLine noteFront) = none := by decide +kernel
  have hending : (lastLine (prepare noteFront)).getLast? ≠ some '\r' := by decide +kernel
  have hcode : (lastLine (prepare noteFront)).dropWhile isBlank ≠ [] := by decide +kernel
  have hapart : ∀ r : Remark, r.Apart noteFront noteRest := fun _ =>
    ⟨fun _ => hopened, fun _ => hticked, fun _ _ => hending, fun _ _ _ => hcode, fun _ _ hnil => absurd hnil (by decide)⟩
  cases hr : Routine.ofSketch (noteFront ++ noteRest) with
  | error e =>
    rw [hr] at hsome
    cases hsome
  | ok found =>
    cases found with
    | none =>
      rw [hr] at hsome
      cases hsome
    | some found =>
      refine ⟨found, rfl, fun r _ => ⟨hfits r, hout r, hapart r, ?_⟩⟩
      obtain ⟨p, hp, hsame, -⟩ := ofSketch_remark r (hfits r) (hout r) (hapart r) hr
      exact ⟨p, hp, hsame⟩

/-- The numbers of statements in the loops of a program. -/
def loopLengths (p : Program) : List Nat :=
  p.body.map fun
    | .loop _ body => body.length
    | _ => 0

theorem length_renumberInstrs (g : Float → Float) (instrs : List Instr) :
    (renumberInstrs g instrs).length = instrs.length := by
  induction instrs with
  | nil => rfl
  | cons i instrs ih => rw [renumberInstrs, List.length_cons, List.length_cons, ih]

theorem loopLengths_renumber (g : Float → Float) (p : Program) : loopLengths (p.renumber g) = loopLengths p := by
  obtain ⟨body, slots⟩ := p
  simp only [loopLengths, Program.renumber]
  induction body with
  | nil => rfl
  | cons i body ih =>
    rw [renumberInstrs, List.map_cons, List.map_cons, ih]
    cases i <;> simp [Instr.renumber, length_renumberInstrs]

/-- An empty line behind the header of a block takes the report of the block away. Further, a comment behind a ticked header
hides it, a carriage return in front of a comment is not the end of the line, nor is a form feed white space, and a command in
front of a comment at the end of the text is separated from what stands before it. -/
theorem ofSketch_remark_header : (∃ p p', Routine.ofSketch "doOnce ->\n\tbox".toList = .ok (some ⟨some p⟩) ∧
      Routine.ofSketch "doOnce ->\n\n\tbox".toList = .ok (some ⟨some p'⟩) ∧ ¬ SameButReports p p') ∧
    ((Routine.ofSketch "✓doOnce ->\n\tbox".toList).isOk ∧
      (Routine.ofSketch "✓doOnce -> // done\n\tbox".toList).isOk = false) ∧
    ((Routine.ofSketch "box\r\npeg".toList).isOk ∧ (Routine.ofSketch "box\r // one\npeg".toList).isOk = false ∧
      (Routine.ofSketch "box\r\n\x0c\npeg".toList).isOk = false) ∧
    (Routine.ofSketch "x = box".toList).isOk ∧ (Routine.ofSketch "x = box // one".toList).isOk = false := by
  have hfound : ∀ {cs : List Char} {lengths : List Nat}, cs ≠ [] →
      (Routine.ofSketch cs).toOption.map (loopLengths ∘ programOf) = some lengths →
        ∃ p, Routine.ofSketch cs = .ok (some ⟨some p⟩) ∧ loopLengths p = lengths := by
    intro cs lengths hne h
    cases hr : Routine.ofSketch cs with
    | error e =>
      rw [hr] at h
      cases h
    | ok found =>
      rw [hr] at h
      obtain ⟨script, p, -, -, rfl⟩ := (ofSketch_eq_ok_iff hne).1 hr
      exact ⟨p, rfl, Option.some.inj h⟩
  refine ⟨?_, by decide +kernel, by decide +kernel, by decide +kernel⟩
  obtain ⟨p, hp, hlength⟩ := @hfound "doOnce ->\n\tbox".toList [2] (by decide) (by decide +kernel)
  obtain ⟨p', hp', hlength'⟩ := @hfound "doOnce ->\n\n\tbox".toList [1] (by decide) (by decide +kernel)
  refine ⟨p, p', hp, hp', fun hsame => ?_⟩
  have hlengths := congrArg loopLengths (hsame (fun _ => 0) fun _ _ => rfl)
  rw [loopLengths_renumber, loopLengths_renumber, hlength, hlength'] at hlengths
  exact absurd hlengths (by decide)

end LiveSketch.Sketch

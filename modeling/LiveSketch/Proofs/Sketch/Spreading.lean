import LiveSketch.Proofs.Sketch.AlikeLines
import LiveSketch.Proofs.Sketch.Failures

/-!
# Blanks that a sketch does not see

`Blanked.ofSketch`: a sketch has the same program, but for the numbers in its reports, when blanks come behind its lines
and lines of white space between them. `Spread` says where they may come when the sketch is instrumented: nowhere that a
report would be put on a line of blanks, or not on the line that it is for (`Spread.instrument`). From there on they are
carried through the passes as `Alike` lines.
-/
namespace LiveSketch.Sketch

open Text Script
open Script.Lexer

variable {g : Float → Float} {c : Char} {ends : Prop}

/-! ## Instrumented lines -/

/-- The report that waits for a line, if the line in front of it is the header of a block. -/
def pendingReport (opened : Bool) (i : Nat) : Option (List Char) := if opened then some (report i) else none

section

variable {i : Nat} {line : List Char} {lines : List (List Char)}

theorem instrumentLines_opened (k : Nat) (line : List Char) (lines : List (List Char)) :
    instrumentLines i (pendingReport true k) (line :: lines) =
      reportFirst (report k) line :: instrumentLines (i + 1) (pendingReport false i) lines := by
  simp [pendingReport, instrumentLines, header?_reportFirst]

theorem instrumentLines_block {indent : List Char} (h : header? line = some (indent, [])) (k : Nat)
    (lines : List (List Char)) : instrumentLines i (pendingReport false k) (line :: lines) =
      (indent ++ "repeat 1 ->".toList) :: instrumentLines (i + 1) (pendingReport true i) lines := by
  simp [pendingReport, instrumentLines, h]

/-- The line of a header with its body, or of no header at all. -/
def instrumentLine (i : Nat) (line : List Char) : List Char :=
  match header? line with
  | some (indent, c :: body) =>
    if isBlank c then line else indent ++ (leadText .reports i ++ ("repeat 1 -> ".toList ++ c :: body))
  | _ => line

theorem instrumentLines_line (h : opens line = false) (k : Nat) (lines : List (List Char)) :
    instrumentLines i (pendingReport false k) (line :: lines) =
      instrumentLine i line :: instrumentLines (i + 1) (pendingReport false i) lines := by
  unfold opens at h
  unfold instrumentLine
  cases hh : header? line with
  | none => simp [pendingReport, instrumentLines, hh]
  | some found =>
    obtain ⟨indent, rest⟩ := found
    cases rest with
    | nil =>
      rw [hh] at h
      cases h
    | cons d body =>
      by_cases hd : isBlank d
      · simp [pendingReport, instrumentLines, hh, hd]
      · simp [pendingReport, instrumentLines, hh, hd, leadText]

theorem instrumentLines_eq_nil {pending : Option (List Char)} (h : instrumentLines i pending lines = []) : lines = [] := by
  cases lines with
  | nil => rfl
  | cons line lines =>
    have hlength : 0 < (instrumentLines i pending (line :: lines)).length := by
      simp only [instrumentLines]
      split
      · simp
      · split <;> simp
      · simp
    rw [h] at hlength
    cases hlength

theorem header?_blank {blank : List Char} (h : ∀ d ∈ blank, isIndent d) : header? blank = none := by
  have hdrop : blank.dropWhile isBlank = [] := dropWhile_of_all fun d hd => isBlank_of_isIndent (h d hd)
  rw [header?, hdrop]
  rfl

/-- Lines of white space stay where no report waits. -/
theorem instrumentLines_blanks {blanks : List (List Char)} (hb : ∀ blank ∈ blanks, ∀ d ∈ blank, isIndent d) (i k : Nat)
    (lines : List (List Char)) : instrumentLines i (pendingReport false k) (blanks ++ lines) =
      blanks ++ instrumentLines (i + blanks.length) (pendingReport false k) lines := by
  induction blanks generalizing i with
  | nil => rfl
  | cons blank blanks ih =>
    rw [List.forall_mem_cons] at hb
    have hnone := header?_blank hb.1
    have hnext := ih hb.2 (i + 1)
    rw [List.length_cons, Nat.add_comm blanks.length, ← Nat.add_assoc, List.cons_append, List.cons_append, ← hnext]
    simp [pendingReport, instrumentLines, hnone]

end

/-! ## Lines that get blanks -/

/-- Behind the line a blank may be put: it is no header of a block that a carriage return would hide, and no report
waits for it if it has no code. -/
structure TakesPad (c : Char) (opened : Bool) (line : List Char) : Prop where
  ending : line.getLast? ≠ some '\r'
  code : opened → line.dropWhile isBlank ≠ []
  header : opened = false → c = '\r' → opens line = false

/-- The second lines are the first ones with blanks behind them and lines of white space between them, which no report
meets. `opened` says that the line in front is the header of a block. With lines in between the numbers of reports
change, and `g` does not tell them apart. -/
inductive Spread (g : Float → Float) (c : Char) (ends : Prop) : Bool → List (List Char) → List (List Char) → Prop where
  | nil {opened : Bool} : Spread g c ends opened [] []
  | line {opened : Bool} {pad line : List Char} {blanks lines lines' : List (List Char)} :
      pad = [] ∨ pad = [c] ∧ TakesPad c opened line → (lines = [] → (pad = [] ∨ ends) ∧ blanks = []) →
      blanks = [] ∨ (!opened && opens line) = false ∧ (∀ blank ∈ blanks, ∀ d ∈ blank, isIndent d) ∧
        (∀ m n : Nat, g (numeral m) = g (numeral n)) →
      Spread g c ends (!opened && opens line) lines lines' →
      Spread g c ends opened (line :: lines) ((line ++ pad) :: (blanks ++ lines'))

namespace Spread

variable {opened : Bool} {pad line : List Char} {lines lines' : List (List Char)}

/-- The report of a block in front of the code of a line. -/
theorem reportFirst (hpad : pad = [] ∨ pad = [c] ∧ TakesPad c true line) {a b : Nat}
    (hg : g (numeral b) = g (numeral a)) :
    LineAlike g pad (Sketch.reportFirst (report a) line) (Sketch.reportFirst (report b) (line ++ pad)) := by
  by_cases hcode : line.dropWhile isBlank = []
  · obtain rfl : pad = [] := hpad.resolve_right fun h => h.2.code rfl hcode
    rw [List.append_nil]
    rcases reportFirst_blank hcode with ⟨-, hnil⟩ | ⟨front, last, -, hfront, -, hlast⟩
    · rw [hnil, hnil]
      exact .plain fun hne => absurd rfl hne
    · have hreport : LineAlike g [] _ (front ++ (leadText .reports b ++ ([last] ++ []))) :=
        .report hfront hg fun hne => absurd rfl hne
      rw [List.append_nil] at hreport
      rw [hlast, hlast]
      exact hreport
  · have hfront : ∀ d ∈ line.takeWhile isBlank, isBlank d := List.all_eq_true.1 List.all_takeWhile
    rw [reportFirst_code hcode]
    rcases hpad with rfl | ⟨rfl, htakes⟩
    · have hreport : LineAlike g [] _ (line.takeWhile isBlank ++ (leadText .reports b ++ (line.dropWhile isBlank ++ []))) :=
        .report hfront hg fun hne => absurd rfl hne
      rw [List.append_nil] at hreport
      rw [List.append_nil, reportFirst_code hcode]
      exact hreport
    · rw [reportFirst_pad hcode]
      exact .report hfront hg fun _ => getLast?_dropWhile hcode ▸ htakes.ending

/-- A line that opens no block. -/
theorem instrumentLine (hc : IsPadding c) (hpad : pad = [] ∨ pad = [c] ∧ TakesPad c false line) (ho : opens line = false)
    {i j : Nat} (hg : g (numeral j) = g (numeral i)) :
    opens (line ++ pad) = false ∧
      LineAlike g pad (Sketch.instrumentLine i line) (Sketch.instrumentLine j (line ++ pad)) := by
  have hret : pad ≠ [] → line.getLast? ≠ some '\r' := fun hne => (hpad.resolve_left hne).2.ending
  have hfound : ∀ {found : List Char × List Char}, header? line = some found → found.2 ≠ [] := by
    intro found hf hnil
    rw [opens, hf, Option.any_some, hnil] at ho
    cases ho
  have hheader : header? (line ++ pad) = (header? line).map fun found => (found.1, found.2 ++ pad) := by
    rcases hpad with rfl | ⟨rfl, -⟩
    · simp
    · rw [header?_pad hc]
      refine Option.map_congr fun found hf => ?_
      rw [if_neg (hfound hf)]
  unfold opens at ho ⊢
  unfold Sketch.instrumentLine
  rw [hheader]
  cases hh : header? line with
  | none => exact ⟨rfl, .plain hret⟩
  | some found =>
    obtain ⟨indent, rest⟩ := found
    obtain ⟨d, body, rfl⟩ := List.exists_cons_of_ne_nil (hfound hh)
    refine ⟨rfl, ?_⟩
    by_cases hd : isBlank d
    · simpa [hd] using LineAlike.plain hret
    · obtain ⟨rfl, hsuffix⟩ := header?_eq_some hh
      have hindent : ∀ d ∈ line.takeWhile isBlank, isBlank d := List.all_eq_true.1 List.all_takeWhile
      have hlast : ("repeat 1 -> ".toList ++ d :: body).getLast? = line.getLast? := by
        obtain ⟨front, rfl⟩ := hsuffix
        rw [List.getLast?_append, List.getLast?_append, List.getLast?_cons]
        rfl
      have hreport : LineAlike g pad _ _ := .report hindent hg fun hne => hlast ▸ hret hne
      rw [List.append_assoc, List.cons_append] at hreport
      simpa only [Option.map_some, hd, if_false, Bool.false_eq_true, List.cons_append] using hreport

/-- In front of a block the header becomes the head of a loop, and a space behind it goes. -/
theorem header (hpad : pad = [] ∨ pad = [c] ∧ TakesPad c false line) (hc : IsPadding c) {indent : List Char}
    (h : header? line = some (indent, [])) : header? (line ++ pad) = some (indent, []) := by
  rcases hpad with rfl | ⟨rfl, htakes⟩
  · rwa [List.append_nil]
  · have hspace : c = ' ' := by
      refine hc.resolve_right fun hr => ?_
      have ho := htakes.header rfl hr
      rw [opens_iff.2 ⟨indent, h⟩] at ho
      cases ho
    rw [header?_pad hc, h, hspace]
    rfl

/-- The instrumented lines are alike up to the numbers in the reports. -/
theorem instrument (hc : IsPadding c) (h : Spread g c ends opened lines lines') :
    ∀ {i j a b : Nat}, i = j ∨ (∀ m n : Nat, g (numeral m) = g (numeral n)) → g (numeral b) = g (numeral a) →
      Alike g c ends (instrumentLines i (pendingReport opened a) lines)
        (instrumentLines j (pendingReport opened b) lines') := by
  induction h with
  | nil => exact fun _ _ => .nil
  | @line opened pad line blanks lines lines' hpad hlast hblanks hrest ih =>
    intro i j a b hij hg
    have hgij : g (numeral j) = g (numeral i) := by
      rcases hij with rfl | hall
      · rfl
      · exact hall j i
    have hnext : ∀ {o : Bool} {a b : Nat}, (!opened && opens line) = o → g (numeral b) = g (numeral a) →
        Alike g c ends (instrumentLines (i + 1) (pendingReport o a) lines)
          (instrumentLines (j + 1 + blanks.length) (pendingReport o b) lines') := by
      intro o a b ho hg
      have hnumber : i + 1 = j + 1 + blanks.length ∨ ∀ m n : Nat, g (numeral m) = g (numeral n) := by
        rcases hblanks with rfl | ⟨-, -, hall⟩
        · exact hij.imp_left fun he => by rw [he]; rfl
        · exact .inr hall
      exact ho ▸ ih hnumber hg
    have hbetween : ∀ blank ∈ blanks, ∀ d ∈ blank, isIndent d := by
      rcases hblanks with rfl | ⟨-, hall, -⟩
      · simp
      · exact hall
    have hpad' : pad = [] ∨ pad = [c] := hpad.imp_right (·.1)
    cases opened with
    | true =>
      rw [instrumentLines_opened, instrumentLines_opened, instrumentLines_blanks hbetween]
      exact .line hpad' (fun he => hlast (instrumentLines_eq_nil he)) hbetween (reportFirst hpad hg) (hnext rfl hgij)
    | false =>
      cases ho : opens line with
      | false =>
        obtain ⟨ho', hline⟩ := instrumentLine hc hpad ho hgij
        rw [instrumentLines_line ho, instrumentLines_line ho', instrumentLines_blanks hbetween]
        exact .line hpad' (fun he => hlast (instrumentLines_eq_nil he)) hbetween hline (hnext ho hgij)
      | true =>
        obtain ⟨indent, hheader⟩ := opens_iff.1 ho
        obtain rfl : blanks = [] := hblanks.resolve_right fun h => by
          rw [ho] at h
          cases h.1
        rw [instrumentLines_block hheader, instrumentLines_block (header hpad hc hheader)]
        have hline : LineAlike g [] (indent ++ "repeat 1 ->".toList) (indent ++ "repeat 1 ->".toList ++ []) :=
          .plain fun hne => absurd rfl hne
        rw [List.append_nil] at hline
        exact .line (.inl rfl) (fun _ => ⟨.inl rfl, rfl⟩) (by simp) hline (hnext ho hgij)

end Spread

/-! ## Scripts -/

/-- What the passes behind the delimiters make of a text, if they accept it. -/
def finish (cs : List Char) : List Char := separateCommands (callBarewords (instrument cs))

theorem splitLines_callBarewords (cs : List Char) :
    splitLines (callBarewords cs) = (splitLines cs).map callBarewordsOfLine := by
  rw [callBarewords_lineByLine.splitLines]
  refine List.map_congr_left fun line hm => ?_
  rw [callBarewords, mapLines, splitLines_line (newline_notMem_of_mem_splitLines hm)]
  rfl

section

variable {cs cs' : List Char}

namespace Spread

theorem instrumented (hc : IsPadding c) (h : Spread g c ends false (splitLines cs) (splitLines cs')) :
    Alike g c ends (splitLines (Sketch.instrument cs)) (splitLines (Sketch.instrument cs')) := by
  rw [splitLines_instrument, splitLines_instrument]
  exact h.instrument (i := 0) (j := 0) (a := 0) (b := 0) hc (.inl rfl) rfl

/-- Texts that differ in such blanks call the sketch itself or do not. -/
theorem hasDraw (hc : IsPadding c) (h : Spread g c ends false (splitLines cs) (splitLines cs')) :
    Sketch.hasDraw true (Sketch.instrument cs') = Sketch.hasDraw true (Sketch.instrument cs) := by
  have hdraw := (h.instrumented hc).draws hc
  rw [tailText_eq (splitLines_ne_nil _), tailText_eq (splitLines_ne_nil _), joinLines_splitLines,
    joinLines_splitLines] at hdraw
  have hboth := hdraw.draw true
  rw [hasDraw_blank rfl, hasDraw_blank rfl] at hboth
  exact hboth.symm

/-- Their scripts have lines that are alike. -/
theorem finish (hc : IsPadding c) (h : Spread g c ends false (splitLines cs) (splitLines cs'))
    (hends : ends → endsInCommand (Sketch.finish cs) = false) :
    Alike g c ends (splitLines (Sketch.finish cs)) (splitLines (Sketch.finish cs')) := by
  have hcalls := (h.instrumented hc).calls hc
  rw [← splitLines_callBarewords, ← splitLines_callBarewords] at hcalls
  have hseparate := hcalls.separate hc (show ∀ q ∈ (none : Option Char), isQuote q by simp) (splitLines_ne_nil _)
    (fun _ => newline_notMem_of_mem_splitLines) (fun _ => newline_notMem_of_mem_splitLines) []
    (rfl : ([] : List Char).getLast? = none)
  rw [joinLines_splitLines, joinLines_splitLines] at hseparate
  exact hseparate hends

end Spread

/-- A sketch is accepted by all passes unless one of two sees something. -/
theorem exists_toScript_iff : (∃ script, toScript cs = .ok script) ↔
    Delimiter.all.find? (·.isUnpaired (dropLiterals (stripComments (removeTicked cs)))) = none ∧
      hasDraw true (instrument (prepare cs)) = false := by
  simp [toScript_eq_ok_iff]

/-- Two sketches whose delimiters are found alike, and whose lines differ in such blanks. -/
structure Blanked (g : Float → Float) (c : Char) (ends : Prop) (cs cs' : List Char) : Prop where
  paired : Delimiter.all.find? (·.isUnpaired (dropLiterals (stripComments (removeTicked cs')))) =
    Delimiter.all.find? (·.isUnpaired (dropLiterals (stripComments (removeTicked cs))))
  lines : Spread g c ends false (splitLines (prepare cs)) (splitLines (prepare cs'))
  ending : ends → ∀ script, toScript cs = .ok script → endsInCommand script = false

namespace Blanked

/-- They are accepted or rejected alike. -/
theorem accepted (hc : IsPadding c) (h : Blanked g c ends cs cs') :
    (∃ script, toScript cs' = .ok script) ↔ ∃ script, toScript cs = .ok script := by
  rw [exists_toScript_iff, exists_toScript_iff, h.paired, h.lines.hasDraw hc]

theorem alike (hc : IsPadding c) (h : Blanked g c ends cs cs') {script script' : List Char}
    (hs : toScript cs = .ok script) (hs' : toScript cs' = .ok script') :
    Alike g c ends (splitLines script) (splitLines script') := by
  have hending := fun he => h.ending he script hs
  rw [toScript_eq_ok hs] at hending ⊢
  rw [toScript_eq_ok hs']
  exact h.lines.finish hc hending

/-- **Blanks that a sketch does not see** change its program in nothing but the numbers of reports. -/
theorem ofSketch (hc : IsPadding c) (hne : cs ≠ []) (hne' : cs' ≠ []) (h : Blanked g c ends cs cs') {p : Program}
    (hp : Routine.ofSketch cs = .ok (some ⟨some p⟩)) :
    ∃ p', Routine.ofSketch cs' = .ok (some ⟨some p'⟩) ∧ p'.renumber g = p.renumber g := by
  obtain ⟨script, q, hs, hq, he⟩ := (ofSketch_eq_ok_iff hne).1 hp
  cases he
  obtain ⟨script', hs'⟩ := (h.accepted hc).2 ⟨script, hs⟩
  obtain ⟨p', hp', hsame⟩ := compile_sameLines ((h.alike hc hs hs').sameLines hc) hq
  exact ⟨p', (ofSketch_eq_ok_iff hne').2 ⟨script', p', hs', hp', rfl⟩, hsame⟩

/-- Carriage returns come and go. -/
theorem ofSketch_return (hne : cs ≠ []) (hne' : cs' ≠ []) (h : Blanked g '\r' ends cs cs') {p : Program}
    (hp : Routine.ofSketch cs' = .ok (some ⟨some p⟩)) :
    ∃ p', Routine.ofSketch cs = .ok (some ⟨some p'⟩) ∧ p'.renumber g = p.renumber g := by
  obtain ⟨script', q, hs', hq, he⟩ := (ofSketch_eq_ok_iff hne').1 hp
  cases he
  obtain ⟨script, hs⟩ := (h.accepted (.inr rfl)).1 ⟨script', hs'⟩
  obtain ⟨p', hp', hsame⟩ := compile_sameLines (h.alike (.inr rfl) hs hs').sameLines_return hq
  exact ⟨p', (ofSketch_eq_ok_iff hne).2 ⟨script, p', hs, hp', rfl⟩, hsame⟩

end Blanked

end

end LiveSketch.Sketch

import LiveSketch.Proofs.Text.Match
import LiveSketch.Text.Lines

/-!
# Texts and their lines

Lines hold no newlines, and `splitLines` undoes `joinLines`: a text is no more and no less than its lines.
-/
namespace LiveSketch.Text

theorem joinLines_cons {line : List Char} {lines : List (List Char)} (h : lines ≠ []) :
    joinLines (line :: lines) = line ++ '\n' :: joinLines lines := by
  cases lines with
  | nil => exact absurd rfl h
  | cons l ls => rfl

theorem joinLines_append {lines lines' : List (List Char)} (h : lines ≠ []) (h' : lines' ≠ []) :
    joinLines (lines ++ lines') = joinLines lines ++ '\n' :: joinLines lines' := by
  induction lines with
  | nil => exact absurd rfl h
  | cons line lines ih =>
    cases lines with
    | nil => exact joinLines_cons h'
    | cons l ls =>
      rw [List.cons_append, joinLines_cons (by simp), joinLines_cons (by simp),
        ih (List.cons_ne_nil l ls), List.append_assoc, List.cons_append]

theorem splitLines_newline (cs : List Char) : splitLines ('\n' :: cs) = [] :: splitLines cs := rfl

theorem splitLines_line {line : List Char} (h : '\n' ∉ line) : splitLines line = [line] := by
  induction line with
  | nil => rfl
  | cons c cs ih =>
    have hc : (c == '\n') = false := by simpa using fun e : c = '\n' => h (e ▸ List.mem_cons_self)
    simp [splitLines, hc, ih fun m => h (List.mem_cons_of_mem _ m)]

/-- A text whose first newline stands behind `line`. -/
theorem splitLines_append {line : List Char} (h : '\n' ∉ line) (cs : List Char) :
    splitLines (line ++ '\n' :: cs) = line :: splitLines cs := by
  induction line with
  | nil => rfl
  | cons c line ih =>
    have hc : (c == '\n') = false := by simpa using fun e : c = '\n' => h (e ▸ List.mem_cons_self)
    simp [splitLines, hc, ih fun m => h (List.mem_cons_of_mem _ m)]

/-- Lines survive being joined. -/
theorem splitLines_joinLines {lines : List (List Char)} (hne : lines ≠ [])
    (h : ∀ line ∈ lines, '\n' ∉ line) : splitLines (joinLines lines) = lines := by
  induction lines with
  | nil => exact absurd rfl hne
  | cons line lines ih =>
    have hl := h line List.mem_cons_self
    cases lines with
    | nil => exact splitLines_line hl
    | cons l ls =>
      rw [joinLines_cons (List.cons_ne_nil l ls), splitLines_append hl,
        ih (List.cons_ne_nil l ls) fun m hm => h m (List.mem_cons_of_mem _ hm)]

theorem newline_notMem_of_mem_splitLines {cs line : List Char} (h : line ∈ splitLines cs) :
    '\n' ∉ line := by
  induction cs generalizing line with
  | nil => simp_all [splitLines]
  | cons c cs ih =>
    unfold splitLines at h
    split at h
    · rcases List.mem_cons.1 h with rfl | h
      · simp
      · exact ih h
    · rename_i hc
      have hc : '\n' ≠ c := fun e => hc (by simp [← e])
      split at h
      · simp_all
      · rename_i l ls hs
        rw [hs] at ih
        rcases List.mem_cons.1 h with rfl | h
        · simp [hc, ih List.mem_cons_self]
        · exact ih (List.mem_cons_of_mem _ h)

theorem splitLines_eq_nil_line_iff {cs : List Char} : splitLines cs = [[]] ↔ cs = [] := by
  constructor
  · intro h
    simpa [h, joinLines] using (joinLines_splitLines cs).symm
  · rintro rfl
    rfl

theorem ne_newline_of_notMem {line : List Char} (h : '\n' ∉ line) : ∀ c ∈ line, (c != '\n') = true :=
  fun c hc => by simpa using fun e : c = '\n' => h (e ▸ hc)

theorem newline_notMem_firstLine (cs : List Char) : '\n' ∉ cs.takeWhile (· != '\n') := fun m => by
  simpa using List.all_eq_true.1 List.all_takeWhile _ m

/-- A text is its first line, or goes on behind it with a newline. -/
theorem firstLine_cases (cs : List Char) :
    cs = cs.takeWhile (· != '\n') ∨ ∃ rest, cs = cs.takeWhile (· != '\n') ++ '\n' :: rest := by
  induction cs with
  | nil => exact .inl rfl
  | cons c cs ih =>
    by_cases hc : c = '\n'
    · exact .inr ⟨cs, by simp [hc]⟩
    · rw [List.takeWhile_cons_of_pos (by simpa using hc)]
      rcases ih with ih | ⟨rest, ih⟩
      · exact .inl (congrArg (c :: ·) ih)
      · exact .inr ⟨rest, congrArg (c :: ·) ih⟩

theorem splitLines_eq_cons (cs : List Char) :
    ∃ lines, splitLines cs = cs.takeWhile (· != '\n') :: lines := by
  cases hs : splitLines cs with
  | nil => exact absurd hs (splitLines_ne_nil cs)
  | cons line lines =>
    have hline : '\n' ∉ line :=
      newline_notMem_of_mem_splitLines (hs ▸ List.mem_cons_self : line ∈ splitLines cs)
    have hall := ne_newline_of_notMem hline
    refine ⟨lines, ?_⟩
    rw [← joinLines_splitLines cs, hs]
    cases lines with
    | nil => rw [joinLines, takeWhile_of_all hall]
    | cons l ls => rw [joinLines_cons (List.cons_ne_nil l ls), takeWhile_append hall (by simp)]

/-- The lines of two texts with a newline between them. -/
theorem splitLines_append_newline (as bs : List Char) :
    splitLines (as ++ '\n' :: bs) = splitLines as ++ splitLines bs := by
  induction as with
  | nil => rfl
  | cons c cs ih =>
    by_cases hc : c = '\n'
    · subst hc
      simp [splitLines_newline, ih]
    · cases hs : splitLines cs with
      | nil => exact absurd hs (splitLines_ne_nil cs)
      | cons line lines => simp [splitLines, hc, ih, hs]

theorem length_splitLines (cs : List Char) : (splitLines cs).length = cs.count '\n' + 1 := by
  induction cs with
  | nil => rfl
  | cons c cs ih =>
    by_cases hc : c = '\n'
    · subst hc
      simp [splitLines_newline, ih]
    · cases hs : splitLines cs with
      | nil => exact absurd hs (splitLines_ne_nil cs)
      | cons line lines =>
        rw [hs] at ih
        simpa [splitLines, hc, hs] using ih

/-- Lines that are joined make a newline between each two. -/
theorem count_joinLines {lines : List (List Char)} (hne : lines ≠ [])
    (h : ∀ line ∈ lines, '\n' ∉ line) : (joinLines lines).count '\n' + 1 = lines.length := by
  rw [← length_splitLines, splitLines_joinLines hne h]

/-- Where line `i` begins: at the front of the text or behind a newline. -/
theorem exists_of_getElem?_splitLines {cs line : List Char} {i : Nat}
    (h : (splitLines cs)[i]? = some line) :
    ∃ rest, line = rest.takeWhile (· != '\n') ∧
      ((i = 0 ∧ cs = rest) ∨ ∃ front, cs = front ++ '\n' :: rest ∧ i = front.count '\n' + 1) := by
  induction cs generalizing i with
  | nil =>
    cases i with
    | zero =>
      simp [splitLines] at h
      exact ⟨[], by simp [h], .inl ⟨rfl, rfl⟩⟩
    | succ i => simp [splitLines] at h
  | cons c cs ih =>
    cases i with
    | zero =>
      obtain ⟨lines, hl⟩ := splitLines_eq_cons (c :: cs)
      rw [hl] at h
      exact ⟨c :: cs, (Option.some.inj h).symm, .inl ⟨rfl, rfl⟩⟩
    | succ i =>
      by_cases hc : c = '\n'
      · subst hc
        rw [splitLines_newline, List.getElem?_cons_succ] at h
        obtain ⟨rest, hr, ⟨rfl, rfl⟩ | ⟨front, rfl, rfl⟩⟩ := ih h
        · exact ⟨cs, hr, .inr ⟨[], rfl, rfl⟩⟩
        · exact ⟨rest, hr, .inr ⟨'\n' :: front, rfl, by simp⟩⟩
      · obtain ⟨lines, hl⟩ := splitLines_eq_cons cs
        have hi : (splitLines cs)[i + 1]? = some line := by
          simpa [splitLines, hc, hl] using h
        obtain ⟨rest, hr, ⟨h0, -⟩ | ⟨front, rfl, hf⟩⟩ := ih hi
        · cases h0
        · exact ⟨rest, hr, .inr ⟨c :: front, rfl, by simpa [hc] using hf⟩⟩

/-- A line stands at the end of the text or in front of a newline. -/
theorem suffix_of_mem_splitLines {cs line : List Char} (h : line ∈ splitLines cs) :
    line <:+ cs ∨ ∃ rest, (line ++ '\n' :: rest) <:+ cs := by
  obtain ⟨i, hi⟩ := List.mem_iff_getElem?.1 h
  obtain ⟨rest, rfl, hrest⟩ := exists_of_getElem?_splitLines hi
  have hs : rest <:+ cs := by
    rcases hrest with ⟨-, rfl⟩ | ⟨front, rfl, -⟩
    · exact List.suffix_rfl
    · exact ⟨front ++ ['\n'], by simp⟩
  rcases firstLine_cases rest with he | ⟨tail, he⟩
  · exact .inl (he ▸ hs)
  · exact .inr ⟨tail, he ▸ hs⟩

/-- Any other character of a text stands on one of its lines. -/
theorem mem_joinLines {c : Char} (hc : c ≠ '\n') {lines : List (List Char)} :
    c ∈ joinLines lines ↔ ∃ line ∈ lines, c ∈ line := by
  induction lines with
  | nil => simp [joinLines]
  | cons line lines ih =>
    cases lines with
    | nil => simp [joinLines]
    | cons line' lines =>
      rw [joinLines_cons (List.cons_ne_nil _ _), List.mem_append, List.mem_cons, ih, or_iff_right hc]
      simp

/-! ## Functions that work line by line -/

/-- The function works on each line by itself. -/
structure LineByLine (f : List Char → List Char) : Prop where
  newline : ∀ as bs, f (as ++ '\n' :: bs) = f as ++ '\n' :: f bs
  notMem : ∀ line, '\n' ∉ line → '\n' ∉ f line

namespace LineByLine

variable {f g : List Char → List Char}

theorem splitLines (h : LineByLine f) (cs : List Char) :
    Text.splitLines (f cs) = (Text.splitLines cs).map f := by
  have hjoin : ∀ lines : List (List Char), lines ≠ [] →
      f (joinLines lines) = joinLines (lines.map f) := by
    intro lines hne
    induction lines with
    | nil => exact absurd rfl hne
    | cons line lines ih =>
      cases lines with
      | nil => rfl
      | cons l ls =>
        rw [joinLines_cons (List.cons_ne_nil l ls), h.newline, ih (List.cons_ne_nil l ls),
          List.map_cons, List.map_cons, List.map_cons, joinLines_cons (List.cons_ne_nil _ _)]
  have hne := splitLines_ne_nil cs
  conv => lhs; rw [← joinLines_splitLines cs, hjoin _ hne]
  refine splitLines_joinLines (by simpa using hne) fun line hl => ?_
  obtain ⟨l, hm, rfl⟩ := List.mem_map.1 hl
  exact h.notMem l (newline_notMem_of_mem_splitLines hm)

/-- Newlines are neither added nor taken away. -/
theorem count (h : LineByLine f) (cs : List Char) : (f cs).count '\n' = cs.count '\n' := by
  have hlines := congrArg List.length (h.splitLines cs)
  rw [List.length_map, length_splitLines, length_splitLines] at hlines
  exact Nat.succ.inj hlines

theorem mem (h : LineByLine f) {c : Char} (hc : c ≠ '\n') (hf : ∀ line, '\n' ∉ line → c ∈ f line → c ∈ line)
    {cs : List Char} (hm : c ∈ f cs) : c ∈ cs := by
  rw [← joinLines_splitLines (f cs), mem_joinLines hc, h.splitLines] at hm
  obtain ⟨line', hline', hm⟩ := hm
  obtain ⟨line, hline, rfl⟩ := List.mem_map.1 hline'
  rw [← joinLines_splitLines cs, mem_joinLines hc]
  exact ⟨line, hline, hf line (newline_notMem_of_mem_splitLines hline) hm⟩

theorem comp (hg : LineByLine g) (hf : LineByLine f) : LineByLine (g ∘ f) where
  newline as bs := by simp only [Function.comp_apply, hf.newline, hg.newline]
  notMem line h := hg.notMem _ (hf.notMem line h)

end LineByLine

theorem mapLines_lineByLine {f : List Char → List Char} (h : ∀ line, '\n' ∉ line → '\n' ∉ f line) :
    LineByLine (mapLines f) where
  newline as bs := by
    rw [mapLines, splitLines_append_newline, List.map_append,
      joinLines_append (by simpa using splitLines_ne_nil as) (by simpa using splitLines_ne_nil bs)]
    rfl
  notMem line hl := by
    rw [mapLines, splitLines_line hl]
    exact h line hl

/-! ## The last line of a text -/

/-- What stands behind the last newline. -/
def lastLine (cs : List Char) : List Char := (splitLines cs).getLast (splitLines_ne_nil cs)

/-- A text is a line, or ends in a newline and a line. -/
theorem lastLine_cases (cs : List Char) :
    ('\n' ∉ cs ∧ lastLine cs = cs) ∨ ∃ front, cs = front ++ '\n' :: lastLine cs ∧ '\n' ∉ lastLine cs := by
  have hlines : (splitLines cs).dropLast ++ [lastLine cs] = splitLines cs := List.dropLast_concat_getLast _
  have hn : '\n' ∉ lastLine cs := newline_notMem_of_mem_splitLines (List.getLast_mem _)
  have hjoin := joinLines_splitLines cs
  rw [← hlines] at hjoin
  cases hfront : (splitLines cs).dropLast with
  | nil =>
    rw [hfront] at hjoin
    have hline : lastLine cs = cs := hjoin
    exact .inl ⟨hline ▸ hn, hline⟩
  | cons line lines =>
    rw [hfront, joinLines_append (List.cons_ne_nil _ _) (List.cons_ne_nil _ _)] at hjoin
    exact .inr ⟨_, hjoin.symm, hn⟩

/-- A line behind a newline is the last one. -/
theorem lastLine_newline {line : List Char} (hn : '\n' ∉ line) (cs : List Char) :
    lastLine (cs ++ '\n' :: line) = line ∧ (splitLines (cs ++ '\n' :: line)).dropLast = splitLines cs := by
  have hlines : splitLines (cs ++ '\n' :: line) = splitLines cs ++ [line] := by
    rw [splitLines_append_newline, splitLines_line hn]
  exact ⟨by simp only [lastLine, hlines, List.getLast_concat], by rw [hlines, List.dropLast_concat]⟩

/-- More text without a newline stands behind the last line. -/
theorem splitLines_append_line {more : List Char} (hn : '\n' ∉ more) (cs : List Char) :
    splitLines (cs ++ more) = (splitLines cs).dropLast ++ [lastLine cs ++ more] := by
  rcases lastLine_cases cs with ⟨hcs, hline⟩ | ⟨front, hcs, hline⟩
  · rw [hline, splitLines_line hcs, splitLines_line (by simp [hcs, hn])]
    rfl
  · generalize lastLine cs = line at hcs hline ⊢
    subst hcs
    have hmore : '\n' ∉ line ++ more := by simp [hline, hn]
    rw [List.append_assoc, List.cons_append, splitLines_append_newline, splitLines_append_newline, splitLines_line hline,
      List.dropLast_concat, splitLines_line hmore]

/-- The end of a text, or what stands behind a line of it. -/
def BehindLine (cs : List Char) : Prop := cs = [] ∨ ∃ rest, cs = '\n' :: rest

/-- A function that works line by line goes over such a rest by itself. -/
theorem LineByLine.append_tail {f : List Char → List Char} (hf : LineByLine f) (hnil : f [] = []) {tail : List Char}
    (ht : BehindLine tail) (as : List Char) : f (as ++ tail) = f as ++ f tail ∧ BehindLine (f tail) := by
  rcases ht with rfl | ⟨rest, rfl⟩
  · simp [hnil, BehindLine]
  · have hrest : f ('\n' :: rest) = '\n' :: f rest := by simpa [hnil] using hf.newline [] rest
    rw [hrest, hf.newline]
    exact ⟨rfl, .inr ⟨_, rfl⟩⟩

end LiveSketch.Text

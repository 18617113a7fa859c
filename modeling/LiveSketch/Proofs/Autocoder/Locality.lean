import LiveSketch.Autocoder.Basic
import LiveSketch.Proofs.Autocoder.Respelling

/-!
# Where a token is respelled

If one token of a text is respelled, then the text splits as before, except for that token, unless the tokens
in front take the digit with which the new spelling begins (`splits_respelled`).
-/
namespace LiveSketch.Autocoder

open Text (isWord isBlank)

/-- Whether the last of the tokens would be one with a digit behind them. -/
def TakesDigit (ts : List Token) : Prop := ∃ back, back ≠ [] ∧ back <:+ ts ∧ Accepted (emit back ++ ['0'])

/-- The texts that go on with a digit. -/
def GoesOn (s : List Char) : Prop :=
  s = ['-'] ∨ IsNumber s ∨ (∀ c ∈ s, isWord c) ∨
    (∃ b w, isBlank b ∧ (∀ c ∈ w, isWord c) ∧ s = "animationStyle".toList ++ b :: w) ∨
    ∃ w, (∀ c ∈ w, isWord c) ∧ s = "next-tutorial:".toList ++ w

theorem IsNumber.front {s : List Char} {d : Char} (h : IsNumber (s ++ [d])) : s = [] ∨ s = ['-'] ∨ IsNumber s := by
  obtain ⟨sign, body, he, hs, hne, hb, hc⟩ := h
  rcases List.eq_nil_or_concat body with rfl | ⟨front, x, rfl⟩
  · exact absurd rfl hne
  · rw [List.concat_eq_append] at he hb hc
    rw [← List.append_assoc] at he
    obtain ⟨rfl, -⟩ := List.append_inj' he rfl
    by_cases h0 : front = []
    · rw [h0, List.append_nil]
      exact hs.imp_right .inl
    · rw [List.count_append] at hc
      exact .inr (.inr ⟨sign, front, rfl, hs, h0, fun c hm => hb c (by simp [hm]), by omega⟩)

theorem goesOn_of_shape {s : List Char} (h : Shape (s ++ ['0'])) : GoesOn s := by
  have hlast : ∀ {p : List Char} {x : Char}, s ++ ['0'] = p ++ [x] → s = p ∧ '0' = x := fun he =>
    ⟨(List.append_inj' he rfl).1, (List.cons.inj (List.append_inj' he rfl).2).1⟩
  generalize hv : s ++ ['0'] = v at h
  have hmem : '0' ∈ v := by simp [← hv]
  cases h with
  | comment _ => exact absurd (hlast hv).2 (by decide)
  | number hn =>
    rw [← hv] at hn
    rcases hn.front with rfl | h | h
    · exact .inr (.inr (.inl (List.forall_mem_nil _)))
    · exact .inl h
    · exact .inr (.inl h)
  | sign hs =>
    rw [← (hlast (p := []) hv).2] at hs
    exact absurd hs (by decide)
  | equals => exact absurd hmem (by decide)
  | newline _ _ hc => exact absurd (hc '0' hmem) (by decide)
  | spaces _ hc => exact absurd (hc '0' hmem) (by decide)
  | word _ hw =>
    rw [← hv] at hw
    exact .inr (.inr (.inl fun c hc => hw c (List.mem_append_left _ hc)))
  | @style b w hb hw0 hw =>
    rcases List.eq_nil_or_concat w with rfl | ⟨front, x, rfl⟩
    · exact absurd rfl hw0
    · rw [List.concat_eq_append] at hv hw
      rw [← List.cons_append, ← List.append_assoc] at hv
      exact .inr (.inr (.inr (.inl ⟨b, front, hb, fun c hc => hw c (List.mem_append_left _ hc), (hlast hv).1⟩)))
  | @tutorial w hw0 hw =>
    rcases List.eq_nil_or_concat w with rfl | ⟨front, x, rfl⟩
    · exact absurd rfl hw0
    · rw [List.concat_eq_append] at hv hw
      rw [← List.append_assoc] at hv
      exact .inr (.inr (.inr (.inr ⟨front, fun c hc => hw c (List.mem_append_left _ hc), (hlast hv).1⟩)))
  | @iteration n a b _ _ _ _ _ _ =>
    have he := @hlast (n ++ a ++ "times".toList ++ b ++ ['-']) '>' (by rw [hv]; simp)
    exact absurd he.2 (by decide)
  | @doOnce tick a arrow _ _ _ harrow =>
    rcases harrow with rfl | rfl
    · exact absurd (hlast hv).2 (by decide)
    · have he := @hlast (tick ++ "doOnce".toList ++ a ++ ['-']) '>' (by rw [hv]; simp)
      exact absurd he.2 (by decide)
  | colour _ _ _ => exact absurd (hlast hv).2 (by decide)

theorem GoesOn.shape {s : List Char} (h : GoesOn s) : Shape (s ++ ['0']) := by
  have hsnoc : ∀ {w : List Char}, (∀ c ∈ w, isWord c) → ∀ c ∈ w ++ ['0'], isWord c := fun hw c hc =>
    (List.mem_append.1 hc).elim (hw c) fun hc => by rw [List.mem_singleton.1 hc]; decide
  rcases h with rfl | hn | hw | ⟨b, w, hb, hw, rfl⟩ | ⟨w, hw, rfl⟩
  · exact .number ⟨['-'], ['0'], rfl, .inr rfl, by decide, by decide, by decide⟩
  · exact .number (hn.append_digit (by decide))
  · exact .word (by simp) (hsnoc hw)
  · rw [List.append_assoc, List.cons_append]
    exact .style hb (by simp) (hsnoc hw)
  · rw [List.append_assoc]
    exact .tutorial (by simp) (hsnoc hw)

/-- What takes a digit: a minus sign, a number, a word, and the two phrases that end in a word. -/
theorem takesDigit_iff {ts : List Token} : TakesDigit ts ↔ ∃ back, back ≠ [] ∧ back <:+ ts ∧ GoesOn (emit back) := by
  simp only [TakesDigit, accepted_iff]
  exact exists_congr fun back => and_congr_right fun _ => and_congr_right fun _ =>
    ⟨goesOn_of_shape, GoesOn.shape⟩

/-- How two spellings begin. -/
inductive Begin : List Char → List Char → Prop where
  | letters {c d : Char} {s v : List Char} : c.isAlpha → d.isAlpha → Begin (c :: s) (d :: v)
  | digits {c d : Char} {s v : List Char} : c.isDigit → d.isDigit → Begin (c :: s) (d :: v)
  | minus {d : Char} {s v : List Char} : d.isDigit → Begin ('-' :: s) ('-' :: d :: v)
  | sign {c d : Char} {s v : List Char} : c = '-' ∨ c = '.' → d.isDigit → Begin (c :: s) (d :: v)

theorem Respelled.begin {t u : Token} (h : Respelled t u) : Begin t.text u.text := by
  have hname : ∀ {a b : String}, a ∈ names → b ∈ names → Begin a.toList b.toList := by
    intro a b ha hb
    obtain ⟨ha0, ha⟩ := names_letters a ha
    obtain ⟨hb0, hb⟩ := names_letters b hb
    cases hla : a.toList with
    | nil => exact absurd (by simpa using hla) ha0
    | cons c s =>
      cases hlb : b.toList with
      | nil => exact absurd (by simpa using hlb) hb0
      | cons d v => exact .letters (ha c (by simp [hla])) (hb d (by simp [hlb]))
  cases h with
  | colour ha hb => exact hname (List.mem_append_left _ ha) (List.mem_append_left _ hb)
  | mesh ha hb => exact hname (List.mem_append_right _ ha) (List.mem_append_right _ hb)
  | @count n m s hn0 hn hm0 hm hs =>
    cases n with
    | nil => exact absurd rfl hn0
    | cons c n =>
      cases m with
      | nil => exact absurd rfl hm0
      | cons d m => exact .digits (hn c (by simp)) (hm d (by simp))
  | @number s sign whole fraction hs hsign hw0 hw hf =>
    cases whole with
    | nil => exact absurd rfl hw0
    | cons d whole =>
      have hd := hw d (by simp)
      cases s with
      | nil =>
        obtain ⟨sign, body, he, -, hne, -⟩ := hs
        exact absurd (List.append_eq_nil_iff.1 he.symm).2 hne
      | cons c s =>
        rcases hsign with rfl | ⟨rfl, hc⟩
        · rcases hs.first with h | rfl | rfl
          · exact .digits h hd
          · exact .sign (.inr rfl) hd
          · exact .sign (.inl rfl) hd
        · obtain rfl : c = '-' := by simpa using hc
          exact .minus hd

/-- A respelling has a line feed only where the token has one, and no parenthesis. -/
theorem Respelled.plain {t u : Token} (h : Respelled t u) : ('\n' ∈ u.text ↔ '\n' ∈ t.text) ∧ ')' ∉ u.text := by
  have hname : ∀ {a : String}, a ∈ names → '\n' ∉ a.toList ∧ ')' ∉ a.toList := by
    intro a ha
    obtain ⟨-, ha⟩ := names_letters a ha
    exact ⟨fun h => absurd (ha _ h) (by decide), fun h => absurd (ha _ h) (by decide)⟩
  have hdigits : ∀ {s : List Char}, (∀ c ∈ s, c.isDigit) → '\n' ∉ s ∧ ')' ∉ s := fun hs =>
    ⟨fun h => absurd (hs _ h) (by decide), fun h => absurd (hs _ h) (by decide)⟩
  cases h with
  | colour ha hb =>
    have ha := hname (List.mem_append_left _ ha)
    have hb := hname (List.mem_append_left _ hb)
    simp [ha.1, hb.1, hb.2]
  | mesh ha hb =>
    have ha := hname (List.mem_append_right _ ha)
    have hb := hname (List.mem_append_right _ hb)
    simp [ha.1, hb.1, hb.2]
  | @count n m s _ hn _ hm hs =>
    have hs' : ')' ∉ s := by
      obtain ⟨n, a, b, rfl, hn, -, ha, -, hb⟩ := hs
      simp only [List.mem_append, not_or]
      refine ⟨fun h => absurd (hn _ h) (by decide), fun h => absurd (ha _ h) (by decide), by decide,
        fun h => absurd (hb _ h) (by decide), by decide⟩
    simp [(hdigits hn).1, (hdigits hm).1, (hdigits hm).2, hs']
  | @number s sign whole fraction hs hsign _ hw hf =>
    have hs' : '\n' ∉ s := by
      obtain ⟨sign, body, rfl, hsign, -, hb, -⟩ := hs
      simp only [List.mem_append, not_or]
      exact ⟨by rcases hsign with rfl | rfl <;> decide, fun h => absurd (hb _ h) (by decide)⟩
    have hsign' : '\n' ∉ sign ∧ ')' ∉ sign := by rcases hsign with rfl | ⟨rfl, -⟩ <;> decide
    simp [hs', hsign'.1, hsign'.2, (hdigits hw).1, (hdigits hw).2, (hdigits hf).1, (hdigits hf).2]

/-- A word character can stand behind what ends in a letter. -/
theorem shape_append_of_letter {s : List Char} {x c : Char} (h : Shape s) (hx : s.getLast? = some x) (ha : x.isAlpha)
    (hc : isWord c) : Shape (s ++ [c]) := by
  have hmem := List.mem_of_getLast? hx
  have hlast : ∀ {p : List Char} {y : Char}, s = p ++ [y] → x = y := by
    rintro p y rfl
    rw [List.getLast?_concat] at hx
    exact (Option.some.inj hx).symm
  have hsnoc : ∀ {w : List Char}, (∀ y ∈ w, isWord y) → ∀ y ∈ w ++ [c], isWord y := fun hw y hy =>
    (List.mem_append.1 hy).elim (hw y) fun hy => List.mem_singleton.1 hy ▸ hc
  cases h with
  | comment _ => exact absurd ha (by rw [hlast rfl]; decide)
  | number hn =>
    obtain ⟨sign, body, rfl, hs, -, hb, -⟩ := hn
    rcases List.mem_append.1 hmem with hm | hm
    · rcases hs with rfl | rfl
      · cases hm
      · exact absurd ha (by rw [List.mem_singleton.1 hm]; decide)
    · rcases hb x hm with hd | rfl
      · rw [Text.not_isAlpha_of_isDigit hd] at ha
        cases ha
      · exact absurd ha (by decide)
  | sign hs =>
    have hplain : ∀ y ∈ signs, y.isAlpha = false := by decide
    rw [hlast (p := []) rfl, hplain _ hs] at ha
    cases ha
  | equals => exact absurd ha (by rw [hlast (p := ['=']) rfl]; decide)
  | newline _ _ hs => rcases hs x hmem with rfl | rfl <;> exact absurd ha (by decide)
  | spaces _ hs => exact absurd ha (by rw [hs x hmem]; decide)
  | word _ hs => exact .word (by simp) (hsnoc hs)
  | style hb _ hw =>
    rw [List.append_assoc, List.cons_append]
    exact .style hb (by simp) (hsnoc hw)
  | tutorial _ hw =>
    rw [List.append_assoc]
    exact .tutorial (by simp) (hsnoc hw)
  | @iteration n a b _ _ _ _ _ _ =>
    exact absurd ha (by rw [hlast (y := '>') (p := n ++ a ++ "times".toList ++ b ++ ['-']) (by simp)]; decide)
  | @doOnce tick a arrow _ _ _ harrow =>
    rcases harrow with rfl | rfl
    · exact absurd ha (by rw [hlast rfl]; decide)
    · exact absurd ha (by rw [hlast (y := '>') (p := tick ++ "doOnce".toList ++ a ++ ['-']) (by simp)]; decide)
  | colour _ _ _ => exact absurd ha (by rw [hlast rfl]; decide)

/-! ## The tokens in front -/

section Front

variable {before : List Token} {cs : List Char}

theorem Splits.shape {ts : List Token} (h : Splits entries cs ts) : ∀ t ∈ ts, t.text ≠ [] ∧ Shape t.text := by
  induction h with
  | nil => exact List.forall_mem_nil _
  | cons hf _ ih =>
    obtain ⟨e, he, -, ha⟩ := hf.first.accepts
    exact List.forall_mem_cons.2 ⟨⟨hf.ne_nil, shape_of_accepts e he ha⟩, ih⟩

/-- Nothing of a form of the table reaches from the tokens into the text behind them. -/
theorem Apart.not_shape (h : Apart entries before cs) {back : List Token} (hne : back ≠ []) (hb : back <:+ before)
    {w : List Char} (hw : w ≠ []) (hp : w <+: cs) : ¬ Shape (emit back ++ w) := by
  intro hs
  obtain ⟨e, he, ha⟩ := accepted_of_shape hs
  exact h back hne hb w hw hp e he ha

/-- A word character does not stand behind a token that ends in a letter. -/
theorem Apart.letter (h : Apart entries before cs) (hbefore : Splits entries (emit before) before)
    {back : List Token} (hb : back <:+ before) {x : Char} (hx : (emit back).getLast? = some x) (ha : x.isAlpha)
    {c : Char} (hc : isWord c) : ¬ [c] <+: cs := by
  intro hp
  rcases List.eq_nil_or_concat back with rfl | ⟨others, t, rfl⟩
  · cases hx
  · rw [List.concat_eq_append] at hb hx
    have hlast : [t] <:+ before := (List.suffix_append others [t]).trans hb
    obtain ⟨hne, hshape⟩ := hbefore.shape t (hlast.subset (by simp))
    have hemit : emit [t] = t.text := by simp [emit]
    have hx' : t.text.getLast? = some x := by
      rwa [emit_append, hemit, List.getLast?_append_of_ne_nil _ hne] at hx
    refine h.not_shape (List.cons_ne_nil t []) hlast (List.cons_ne_nil c []) hp ?_
    rw [hemit]
    exact shape_append_of_letter hshape hx' ha hc

theorem emit_ne_nil (hbefore : Splits entries (emit before) before) {back : List Token} (hne : back ≠ [])
    (hb : back <:+ before) : emit back ≠ [] := by
  cases back with
  | nil => exact absurd rfl hne
  | cons t back =>
    rw [emit_cons]
    exact fun h => (hbefore.shape t (hb.subset (by simp))).1 (List.append_eq_nil_iff.1 h).1

/-- No line ends behind an open comment. -/
theorem Apart.line (h : Apart entries before cs) {back : List Token} (hne : back ≠ []) (hb : back <:+ before)
    {a : List Char} (hs : emit back = "//".toList ++ a) (ha : '\n' ∉ a) : '\n' ∉ cs := by
  intro hm
  obtain ⟨p, q, rfl, hp⟩ := List.eq_append_cons_of_mem hm
  refine h.not_shape hne hb (w := p ++ ['\n']) (by simp) ⟨q, by simp⟩ ?_
  rw [hs, ← List.append_assoc, List.append_assoc _ a]
  exact .comment (by simp [ha, hp])

/-- No parenthesis closes in the line behind an open colour. -/
theorem Apart.paren {s : List Char} (h : Apart entries before (s ++ cs)) (hs0 : s ≠ []) (hs : '\n' ∉ s)
    {back : List Token} (hne : back ≠ []) (hb : back <:+ before) {a m : List Char} (ha : ∀ x ∈ a, isBlank x)
    (he : emit back = "color".toList ++ a ++ '(' :: m) (hm : '\n' ∉ m) {n : List Char} (hn : '\n' ∉ n) :
    ¬ n ++ [')'] <+: cs := by
  intro hp
  refine h.not_shape hne hb (w := s ++ (n ++ [')'])) (by simp) ((List.prefix_append_right_inj _).2 hp) ?_
  have hshape := Shape.colour ha (m := m ++ (s ++ n)) (by simp [hs0]) (by simp [hm, hs, hn])
  rw [he]
  simpa only [List.append_assoc, List.cons_append] using hshape

end Front

/-! ## The respelled token -/

/-- A respelled token does not go on with a keyword. -/
theorem Respelled.not_keyword {t u : Token} (h : Respelled t u) {cs : List Char} (hf : Finds entries (t.text ++ cs) t)
    {k v : List Char} {d : Char} (hk : k ∈ keywords) (hd : isWord d = false) : ¬ k ++ d :: v <+: u.text ++ cs := by
  have hletters : ∀ k ∈ keywords, k ≠ [] ∧ ∀ x ∈ k, x.isAlpha := by decide
  obtain ⟨hk0, hkl⟩ := hletters k hk
  have hname : ∀ {a b : String} {kind : TokenKind}, a ∈ names → b ∈ names →
      Finds entries (a.toList ++ cs) ⟨kind, a.toList⟩ → ¬ k ++ d :: v <+: b.toList ++ cs := by
    rintro a b kind ha hb hf ⟨rest, hr⟩
    have htake := congrArg (List.takeWhile isWord) hr
    rw [takeWhile_word (name_words hb) (name_rest ha hf), List.append_assoc,
      takeWhile_word (fun x hx => Text.isWord_of_isAlpha (hkl x hx)) (fun x hx => by cases hx; exact hd)] at htake
    exact (names_apart hb).2 (htake ▸ hk)
  have hhead : ∀ {c : Char} {s : List Char}, c.isAlpha = false → ¬ k ++ d :: v <+: c :: s := by
    rintro c s hc ⟨rest, hr⟩
    cases k with
    | nil => exact hk0 rfl
    | cons x k =>
      rw [← (List.cons.inj hr).1, hkl x (by simp)] at hc
      cases hc
  cases h with
  | colour ha hb => exact hname (List.mem_append_left _ ha) (List.mem_append_left _ hb) hf
  | mesh ha hb => exact hname (List.mem_append_right _ ha) (List.mem_append_right _ hb) hf
  | @count n m s _ _ hm0 hm _ =>
    cases m with
    | nil => exact absurd rfl hm0
    | cons c m => exact hhead (Text.not_isAlpha_of_isDigit (hm c (by simp)))
  | @number s sign whole fraction _ hsign hw0 hw _ =>
    cases whole with
    | nil => exact absurd rfl hw0
    | cons c whole =>
      rcases hsign with rfl | ⟨rfl, -⟩
      · exact hhead (Text.not_isAlpha_of_isDigit (hw c (by simp)))
      · exact hhead (c := '-') (by decide)

/-- A respelled token does not close what the tokens in front leave open. -/
theorem Respelled.not_encloses {before : List Token} {t u : Token} (h : Respelled t u) {cs : List Char}
    (hold : Apart entries before (t.text ++ cs)) (ht : t.text ≠ []) {back : List Token} (hne : back ≠ [])
    (hb : back <:+ before) {v : List Char} (hp : v <+: u.text ++ cs) : ¬ Encloses (emit back) v := by
  intro hv
  cases hv with
  | @line a b hs hv ha _ =>
    subst hv
    refine hold.line hne hb hs ha ?_
    have hm : '\n' ∈ u.text ++ cs := hp.subset (by simp)
    rwa [List.mem_append, ← h.plain.1, ← List.mem_append]
  | @paren a m n ha hs hv hm hn =>
    subst hv
    rcases prefix_append_cases hp with hp | ⟨r, hr0, hr, he⟩
    · exact h.plain.2 (hp.subset (by simp))
    · rcases List.eq_nil_or_concat r with rfl | ⟨r, x, rfl⟩
      · exact hr0 rfl
      · rw [List.concat_eq_append] at hr he
        rw [← List.append_assoc] at he
        obtain ⟨rfl, hx⟩ := List.append_inj' he rfl
        cases hx
        simp only [List.mem_append, not_or] at hn
        exact hold.paren ht (fun hm => hn.1 (h.plain.1.2 hm)) hne hb ha hs hm hn.2 hr

theorem takesDigit_of_shape {before back : List Token} (hne : back ≠ []) (hb : back <:+ before)
    (h : ∀ d : Char, d.isDigit → Shape (emit back ++ [d])) : TakesDigit before :=
  ⟨back, hne, hb, accepted_of_shape (h '0' (by decide))⟩

/-- The tokens in front stay apart from a respelled token unless they take its first digit. -/
theorem Respelled.apart {before : List Token} {t u : Token} (h : Respelled t u) {cs : List Char}
    (hbefore : Splits entries (emit before) before) (hf : Finds entries (t.text ++ cs) t)
    (hold : Apart entries before (t.text ++ cs)) (hd : ¬ (TakesDigit before ∧ ∃ d ∈ u.text.head?, d.isDigit)) :
    Apart entries before (u.text ++ cs) := by
  intro back hne hb w hw hp e he ha
  have hs0 := emit_ne_nil hbefore hne hb
  cases w with
  | nil => exact hw rfl
  | cons c w =>
    have hcut := cut_of_shape hs0 (shape_of_accepts e he ha)
    have hopen := h.not_encloses hold hf.ne_nil hne hb hp
    have hbegin := h.begin
    generalize hts : t.text = ts at hbegin
    generalize hus : u.text = us at hbegin
    -- what stood behind the tokens in front
    have hfirst : ∀ {c₀ : Char} {s : List Char}, ts = c₀ :: s → [c₀] <+: t.text ++ cs := by
      rintro c₀ s rfl
      rw [hts]
      exact ⟨s ++ cs, rfl⟩
    have hc : ∀ {d : Char} {v : List Char}, us = d :: v → c = d := by
      rintro d v rfl
      rw [hus] at hp
      obtain ⟨r, hr⟩ := hp
      exact (List.cons.inj hr).1
    cases hbegin with
    | letters hc₀ hd₀ =>
      obtain rfl := hc rfl
      have hword := Text.isWord_of_isAlpha hc₀
      rcases hcut.letter hd₀ with henc | hall | ⟨x, hx, hxa⟩ | ⟨k, v, d, hk, hkw, hkd⟩
      · exact hopen henc
      · exact hold.not_shape hne hb (List.cons_ne_nil _ _) (hfirst rfl) (hall _ hword)
      · exact hold.letter hbefore hb hx hxa hword (hfirst rfl)
      · exact h.not_keyword hf hk hkd (hkw ▸ hp)
    | digits hc₀ hd₀ =>
      obtain rfl := hc rfl
      rcases hcut.digit hd₀ with henc | hall
      · exact hopen henc
      · exact hold.not_shape hne hb (List.cons_ne_nil _ _) (hfirst rfl) (hall _ hc₀)
    | @minus d s v hd₀ =>
      obtain rfl := hc rfl
      rcases hcut.minus with henc | ⟨-, hshape⟩ | ⟨d', v', rfl, hd'⟩
      · exact hopen henc
      · exact hold.not_shape hne hb (List.cons_ne_nil _ _) (hfirst rfl) hshape
      · rw [hus] at hp
        obtain ⟨r, hr⟩ := hp
        rw [(List.cons.inj (List.cons.inj hr).2).1, hd₀] at hd'
        cases hd'
    | sign _ hd₀ =>
      obtain rfl := hc rfl
      rcases hcut.digit hd₀ with henc | hall
      · exact hopen henc
      · exact hd ⟨takesDigit_of_shape hne hb hall, c, by rw [hus]; rfl, hd₀⟩

/-- Tokens that take a digit are not apart from one. -/
theorem not_apart_of_takesDigit {before : List Token} (hbefore : Splits entries (emit before) before)
    (h : TakesDigit before) {d : Char} (hd : d.isDigit) (cs : List Char) : ¬ Apart entries before (d :: cs) := by
  intro hapart
  obtain ⟨back, hne, hb, ha⟩ := h
  have hcut := cut_of_shape (emit_ne_nil hbefore hne hb) (accepted_iff.1 ha)
  rcases hcut.digit (by decide) with henc | hall
  · have hlast : ∀ {p : List Char} {x : Char}, ['0'] = p ++ [x] → x = '0' := by
      intro p x he
      obtain ⟨-, hx⟩ := List.append_inj' (show [] ++ ['0'] = p ++ [x] from he) rfl
      exact (List.cons.inj hx).1.symm
    cases henc with
    | line _ hv _ _ => exact absurd (hlast hv) (by decide)
    | paren _ _ hv _ _ => exact absurd (hlast hv) (by decide)
  · exact hapart.not_shape hne hb (List.cons_ne_nil d []) ⟨cs, rfl⟩ (hall d hd)

theorem splits_cons {es : List Entry} {t : Token} {ts : List Token} :
    Splits es (emit (t :: ts)) (t :: ts) ↔ Finds es (t.text ++ emit ts) t ∧ Splits es (emit ts) ts := by
  rw [emit_cons]
  constructor
  · intro h
    generalize hcs : t.text ++ emit ts = cs at h
    cases h with
    | cons hf hs =>
      obtain rfl := List.append_cancel_left hcs
      exact ⟨hf, hs⟩
  · exact fun h => .cons h.1 h.2

/-- A text with one token respelled splits as before, except for this token, just if the tokens in front of it
do not take the digit with which it begins. -/
theorem splits_respelled {before after : List Token} {t u : Token} (hr : Respelled t u)
    (h : Splits entries (emit (before ++ t :: after)) (before ++ t :: after)) :
    Splits entries (emit (before ++ u :: after)) (before ++ u :: after) ↔
      ¬ (TakesDigit before ∧ ∃ d ∈ u.text.head?, d.isDigit) := by
  rw [emit_append, splits_append, splits_cons, emit_cons] at h ⊢
  obtain ⟨hbefore, ⟨hf, hafter⟩, hapart⟩ := h
  constructor
  · rintro ⟨-, -, hnew⟩ ⟨htakes, d, hd, hdigit⟩
    cases hu : u.text with
    | nil =>
      rw [hu] at hd
      cases hd
    | cons c v =>
      rw [hu] at hd hnew
      cases hd
      exact not_apart_of_takesDigit hbefore htakes hdigit _ hnew
  · exact fun hd => ⟨hbefore, ⟨hr.finds hf, hafter⟩, hr.apart hbefore hf hapart hd⟩

end LiveSketch.Autocoder

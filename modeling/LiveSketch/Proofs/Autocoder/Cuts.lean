import LiveSketch.Proofs.Autocoder.Shapes

/-!
# Cutting tokens

`Cut s c w` says what can be known of a text `s ++ c :: w` that the table accepts (`cut_of_shape`): which kind of
character stands behind the cut, and what else could stand there so that the table still accepts a text that
goes beyond the cut.
-/
namespace LiveSketch.Autocoder

open Text (isWord isBlank)

/-- Words that stand in front of something else than a word character inside of longer tokens. -/
def keywords : List (List Char) := ["tutorial", "times", "doOnce"].map String.toList

/-- A cut where any character of a line could stand. -/
inductive Encloses (s v : List Char) : Prop where
  /-- Inside a comment. -/
  | line {a b : List Char} : s = "//".toList ++ a → v = b ++ ['\n'] → '\n' ∉ a → '\n' ∉ b → Encloses s v
  /-- Inside the parentheses of a colour. -/
  | paren {a m n : List Char} : (∀ x ∈ a, isBlank x) → s = "color".toList ++ a ++ '(' :: m → v = n ++ [')'] →
      '\n' ∉ m → '\n' ∉ n → Encloses s v

/-- A text that the table accepts is cut in front of a character. -/
inductive Cut (s : List Char) (c : Char) (w : List Char) : Prop where
  | enclosed : Encloses s (c :: w) → Cut s c w
  /-- Where any word character can go on. -/
  | word : isWord c → (∀ d, isWord d → Shape (s ++ [d])) → Cut s c w
  /-- Where any digit can go on. -/
  | number : c.isDigit → (∀ d : Char, d.isDigit → Shape (s ++ [d])) → Cut s c w
  /-- Between two letters of a keyword. -/
  | inside {x : Char} : s.getLast? = some x → x.isAlpha → c.isAlpha → Cut s c w
  /-- In front of a keyword. -/
  | keyword {k v : List Char} {d : Char} : k ∈ keywords → c :: w = k ++ d :: v → isWord d = false → Cut s c w
  /-- In front of a last minus sign. -/
  | dash : c = '-' → w = [] → Shape (s ++ ['-']) → Cut s c w
  /-- In front of another minus sign. -/
  | hyphen {d : Char} {v : List Char} : c = '-' → w = d :: v → d.isDigit = false → Cut s c w
  | apart : isWord c = false → c ≠ '-' → Cut s c w

/-- Two texts are cut in the first or in the second one. -/
theorem cut_append {p v s w : List Char} {c : Char} (h : p ++ v = s ++ c :: w) :
    (∃ p', p = s ++ c :: p' ∧ w = p' ++ v) ∨ ∃ s', s = p ++ s' ∧ v = s' ++ c :: w := by
  rcases List.append_eq_append_iff.1 h with ⟨s', hs, hv⟩ | ⟨p', hp, hw⟩
  · exact .inr ⟨s', hs, hv⟩
  · cases p' with
    | nil => exact .inr ⟨[], by rw [hp, List.append_nil, List.append_nil], hw.symm⟩
    | cons d p' =>
      obtain ⟨rfl, rfl⟩ := List.cons.inj hw
      exact .inl ⟨p', hp, rfl⟩

variable {s w : List Char} {c : Char}

/-- A cut at one of these characters. -/
theorem cut_of_mem {p : List Char} (hp : ∀ x ∈ p, isWord x = false ∧ x ≠ '-') (hc : c ∈ p) : Cut s c w :=
  .apart (hp c hc).1 (hp c hc).2

theorem mem_cut {p p' : List Char} (h : p = s ++ c :: p') : c ∈ p := by
  rw [h]
  simp

theorem apart_of_isBlank {x : Char} (h : isBlank x) : isWord x = false ∧ x ≠ '-' := by
  refine ⟨Text.isWord_of_isBlank h, ?_⟩
  rintro rfl
  exact absurd h (by decide)

/-- A cut inside a word with which a token starts. -/
theorem cut_in_word {p p' : List Char} (hp : ∀ x ∈ p, isWord x) (h : p = s ++ c :: p') : Cut s c w := by
  subst h
  refine .word (hp c (by simp)) fun d hd => .word (by simp) fun x hx => ?_
  rcases List.mem_append.1 hx with hx | hx
  · exact hp x (by simp [hx])
  · rw [List.mem_singleton.1 hx]
    exact hd

/-- A cut at or inside a keyword. -/
theorem cut_keyword {p k v p' s' : List Char} {d : Char} (hk : k ∈ keywords) (hd : isWord d = false)
    (hs : s = p ++ s') (h : k = s' ++ c :: p') (hw : w = p' ++ d :: v) : Cut s c w := by
  have hletters : ∀ k ∈ keywords, ∀ x ∈ k, x.isAlpha := by decide
  rcases List.eq_nil_or_concat s' with rfl | ⟨s₁, x, rfl⟩
  · exact .keyword hk (by rw [hw, h]; rfl) hd
  · rw [List.concat_eq_append] at hs h
    refine .inside (x := x) (by rw [hs, ← List.append_assoc, List.getLast?_concat]) (hletters k hk x ?_)
      (hletters k hk c ?_)
    · rw [h]
      simp
    · rw [h]
      simp

/-- A cut in a run of word characters with which a token ends. -/
theorem cut_run {p v s' : List Char} (hp : ∀ u : List Char, u ≠ [] → (∀ x ∈ u, isWord x) → Shape (p ++ u))
    (hv : ∀ x ∈ v, isWord x) (hs : s = p ++ s') (h : v = s' ++ c :: w) : Cut s c w := by
  subst hs h
  refine .word (hv c (by simp)) fun d hd => ?_
  rw [List.append_assoc]
  refine hp _ (by simp) fun x hx => ?_
  rcases List.mem_append.1 hx with hx | hx
  · exact hv x (by simp [hx])
  · rw [List.mem_singleton.1 hx]
    exact hd

theorem cut_number (hs : s ≠ []) (h : IsNumber (s ++ c :: w)) : Cut s c w := by
  obtain ⟨sign, body, he, hsign, -, hb, hp⟩ := h
  rcases cut_append he.symm with ⟨p', hp', -⟩ | ⟨s', rfl, rfl⟩
  · have hlen := congrArg List.length hp'
    have hpos := List.length_pos_iff.2 hs
    simp only [List.length_append, List.length_cons] at hlen
    rcases hsign with rfl | rfl
    · simp only [List.length_nil] at hlen
      omega
    · simp only [List.length_singleton] at hlen
      omega
  · rcases hb c (by simp) with hc | rfl
    · refine .number hc fun d hd => .number ⟨sign, s' ++ [d], List.append_assoc _ _ _, hsign, by simp, ?_, ?_⟩
      · intro x hx
        rcases List.mem_append.1 hx with hx | hx
        · exact hb x (by simp [hx])
        · exact .inl (List.mem_singleton.1 hx ▸ hd)
      · have hd0 : [d].count '.' = 0 := count_point_digits fun x hx => List.mem_singleton.1 hx ▸ hd
        rw [List.count_append] at hp ⊢
        omega
    · exact .apart (by decide) (by decide)

theorem cut_tutorial {v : List Char} (hv : ∀ x ∈ v, isWord x)
    (h : "next-tutorial:".toList ++ v = s ++ c :: w) : Cut s c w := by
  have hrun : ∀ u : List Char, u ≠ [] → (∀ x ∈ u, isWord x) → Shape ("next-tutorial:".toList ++ u) :=
    fun u => .tutorial
  have hparts : "next-tutorial:".toList ++ v = "next".toList ++ '-' :: ("tutorial".toList ++ ':' :: v) := rfl
  rcases cut_append (hparts ▸ h) with ⟨p', hp, -⟩ | ⟨s₁, hs₁, h₁⟩
  · exact cut_in_word (by decide) hp
  cases s₁ with
  | nil =>
    obtain ⟨rfl, rfl⟩ := List.cons.inj h₁
    exact .hyphen rfl (d := 't') rfl (by decide)
  | cons x s₁ =>
    obtain ⟨rfl, h₂⟩ := List.cons.inj h₁
    rcases cut_append h₂ with ⟨p', hp, hw⟩ | ⟨s₂, rfl, h₃⟩
    · exact cut_keyword (p := "next-".toList) (by decide) (by decide) hs₁ hp hw
    cases s₂ with
    | nil =>
      obtain ⟨rfl, -⟩ := List.cons.inj h₃
      exact .apart (by decide) (by decide)
    | cons x s₂ =>
      obtain ⟨rfl, h₄⟩ := List.cons.inj h₃
      exact cut_run hrun hv hs₁ h₄

theorem cut_iteration {n a b : List Char} (hn : ∀ x ∈ n, Text.isDigit x) (ha : ∀ x ∈ a, isBlank x)
    (hb0 : b ≠ []) (hb : ∀ x ∈ b, isBlank x)
    (h : n ++ (a ++ ("times".toList ++ (b ++ "->".toList))) = s ++ c :: w) : Cut s c w := by
  rcases cut_append h with ⟨p', hp, -⟩ | ⟨s₁, hs₁, h₁⟩
  · exact cut_in_word (fun x hx => Text.isWord_of_isDigit (hn x hx)) hp
  rcases cut_append h₁ with ⟨p', hp, -⟩ | ⟨s₂, hs₂, h₂⟩
  · exact cut_of_mem (fun x hx => apart_of_isBlank (ha x hx)) (mem_cut hp)
  rcases cut_append h₂ with ⟨p', hp, hw⟩ | ⟨s₃, -, h₃⟩
  · cases b with
    | nil => exact absurd rfl hb0
    | cons x b =>
      exact cut_keyword (p := n ++ a) (by decide) (apart_of_isBlank (hb x (by simp))).1
        (by rw [hs₁, hs₂, List.append_assoc]) hp hw
  rcases cut_append h₃ with ⟨p', hp, -⟩ | ⟨s₄, -, h₄⟩
  · exact cut_of_mem (fun x hx => apart_of_isBlank (hb x hx)) (mem_cut hp)
  cases s₄ with
  | nil =>
    have harrow : "->".toList = ['-', '>'] := rfl
    rw [harrow] at h₄
    obtain ⟨rfl, rfl⟩ := List.cons.inj h₄
    exact .hyphen rfl rfl (by decide)
  | cons x s₄ =>
    obtain ⟨-, h₄⟩ := List.cons.inj h₄
    exact cut_of_mem (p := ['>']) (by decide) (mem_cut h₄)

theorem cut_doOnce {tick a arrow : List Char} (htick : tick = [] ∨ tick = ['✓']) (ha0 : a ≠ [])
    (ha : ∀ x ∈ a, isBlank x) (harrow : arrow = ['-'] ∨ arrow = ['-', '>']) (hs : s ≠ [])
    (h : tick ++ ("doOnce".toList ++ (a ++ arrow)) = s ++ c :: w) : Cut s c w := by
  rcases cut_append h with ⟨p', hp, -⟩ | ⟨s₁, hs₁, h₁⟩
  · rcases htick with rfl | rfl
    · cases s <;> cases hp
    · cases s with
      | nil => exact absurd rfl hs
      | cons x s => cases s <;> cases (List.cons.inj hp).2
  rcases cut_append h₁ with ⟨p', hp, hw⟩ | ⟨s₂, hs₂, h₂⟩
  · cases a with
    | nil => exact absurd rfl ha0
    | cons x a => exact cut_keyword (by decide) (apart_of_isBlank (ha x (by simp))).1 hs₁ hp hw
  rcases cut_append h₂ with ⟨p', hp, -⟩ | ⟨s₃, hs₃, h₃⟩
  · exact cut_of_mem (fun x hx => apart_of_isBlank (ha x hx)) (mem_cut hp)
  cases s₃ with
  | nil =>
    rcases harrow with rfl | rfl
    · obtain ⟨rfl, rfl⟩ := List.cons.inj h₃
      refine .dash rfl rfl ?_
      rw [hs₁, hs₂, hs₃]
      simpa only [List.append_assoc, List.append_nil] using Shape.doOnce htick ha0 ha (.inl rfl)
    · obtain ⟨rfl, rfl⟩ := List.cons.inj h₃
      exact .hyphen rfl rfl (by decide)
  | cons x s₃ =>
    rcases harrow with rfl | rfl
    · cases s₃ <;> cases (List.cons.inj h₃).2
    · obtain ⟨-, h₃⟩ := List.cons.inj h₃
      exact cut_of_mem (p := ['>']) (by decide) (mem_cut h₃)

theorem cut_colour {a m : List Char} (ha : ∀ x ∈ a, isBlank x) (hm : '\n' ∉ m)
    (h : "color".toList ++ (a ++ ('(' :: (m ++ [')']))) = s ++ c :: w) : Cut s c w := by
  rcases cut_append h with ⟨p', hp, -⟩ | ⟨s₁, hs₁, h₁⟩
  · exact cut_in_word (by decide) hp
  rcases cut_append h₁ with ⟨p', hp, -⟩ | ⟨s₂, hs₂, h₂⟩
  · exact cut_of_mem (fun x hx => apart_of_isBlank (ha x hx)) (mem_cut hp)
  cases s₂ with
  | nil =>
    obtain ⟨rfl, -⟩ := List.cons.inj h₂
    exact .apart (by decide) (by decide)
  | cons x s₂ =>
    obtain ⟨rfl, h₃⟩ := List.cons.inj h₂
    rcases cut_append h₃ with ⟨p', rfl, hw⟩ | ⟨s₃, -, h₄⟩
    · refine .enclosed (.paren ha (m := s₂) (n := c :: p') (by rw [hs₁, hs₂, List.append_assoc]) (by rw [hw]; rfl) ?_ ?_)
      · exact fun hx => hm (by simp [hx])
      · exact fun hx => hm (List.mem_append_right _ hx)
    · exact cut_of_mem (p := [')']) (by decide) (mem_cut h₄)

theorem cut_comment {a : List Char} (ha : '\n' ∉ a) (h : "//".toList ++ (a ++ ['\n']) = s ++ c :: w) :
    Cut s c w := by
  rcases cut_append h with ⟨p', hp, -⟩ | ⟨s', hs', hr⟩
  · exact cut_of_mem (p := "//".toList) (by decide) (mem_cut hp)
  · rcases cut_append hr with ⟨p', rfl, hw⟩ | ⟨s'', -, hn⟩
    · refine .enclosed (.line hs' (b := c :: p') (by rw [hw]; rfl) ?_ ?_)
      · exact fun hx => ha (by simp [hx])
      · exact fun hx => ha (List.mem_append_right _ hx)
    · exact cut_of_mem (p := ['\n']) (by decide) (mem_cut hn)

/-- What is known of a text that the table accepts and that is cut somewhere. -/
theorem cut_of_shape (hs : s ≠ []) (h : Shape (s ++ c :: w)) : Cut s c w := by
  generalize ht : s ++ c :: w = text at h
  cases h with
  | comment ha => exact cut_comment ha (by rw [ht, List.append_assoc])
  | number hn => exact cut_number hs (ht ▸ hn)
  | sign _ =>
    have hpos := List.length_pos_iff.2 hs
    have hlen := congrArg List.length ht
    simp only [List.length_append, List.length_cons, List.length_nil] at hlen
    omega
  | equals => exact cut_of_mem (p := "==".toList) (by decide) (mem_cut ht.symm)
  | newline _ _ hc =>
    refine cut_of_mem (p := ['\n', '\r']) (by decide) ?_
    simpa using hc c (mem_cut ht.symm)
  | spaces _ hc =>
    refine cut_of_mem (p := [' ']) (by decide) ?_
    simpa using hc c (mem_cut ht.symm)
  | word _ hc => exact cut_in_word hc ht.symm
  | @style b v hb hne hv =>
    rcases cut_append ht.symm with ⟨p', hp, -⟩ | ⟨s', hs', hr⟩
    · exact cut_in_word (by decide) hp
    · cases s' with
      | nil =>
        obtain ⟨rfl, rfl⟩ := List.cons.inj hr
        exact .apart (apart_of_isBlank hb).1 (apart_of_isBlank hb).2
      | cons x s' =>
        obtain ⟨hx, hr⟩ := List.cons.inj hr
        refine cut_run (p := "animationStyle".toList ++ [b]) (fun u hu0 hu => ?_) hv ?_ hr
        · rw [List.append_assoc]
          exact .style hb hu0 hu
        · rw [hs', ← hx, List.append_assoc]
          rfl
  | tutorial _ hv => exact cut_tutorial hv ht.symm
  | iteration _ hn _ ha hb0 hb => exact cut_iteration hn ha hb0 hb (by simpa only [List.append_assoc] using ht.symm)
  | doOnce htick ha0 ha harrow =>
    exact cut_doOnce htick ha0 ha harrow hs (by simpa only [List.append_assoc] using ht.symm)
  | colour ha _ hm =>
    exact cut_colour ha hm (by simpa only [List.append_assoc, List.cons_append] using ht.symm)

/-! ## Cuts at a letter, a digit or a minus sign -/

theorem Cut.letter (h : Cut s c w) (hc : c.isAlpha) : Encloses s (c :: w) ∨ (∀ d, isWord d → Shape (s ++ [d])) ∨
    (∃ x, s.getLast? = some x ∧ x.isAlpha) ∨
    ∃ k v d, k ∈ keywords ∧ c :: w = k ++ d :: v ∧ isWord d = false := by
  cases h with
  | enclosed h => exact .inl h
  | word _ h => exact .inr (.inl h)
  | number hd _ =>
    have := Text.not_isDigit_of_isAlpha hc
    rw [Text.isDigit_of_ascii hd] at this
    cases this
  | inside hx hxa _ => exact .inr (.inr (.inl ⟨_, hx, hxa⟩))
  | keyword hk hw hd => exact .inr (.inr (.inr ⟨_, _, _, hk, hw, hd⟩))
  | dash hm _ _ => exact absurd hc (by rw [hm]; decide)
  | hyphen hm _ _ => exact absurd hc (by rw [hm]; decide)
  | apart hw _ =>
    rw [Text.isWord_of_isAlpha hc] at hw
    cases hw

theorem Cut.digit (h : Cut s c w) (hc : c.isDigit) :
    Encloses s (c :: w) ∨ ∀ d : Char, d.isDigit → Shape (s ++ [d]) := by
  have hword : ∀ {d : Char}, d.isDigit → isWord d := fun hd => Text.isWord_of_isDigit (Text.isDigit_of_ascii hd)
  have hletter : c.isAlpha = false := Text.not_isAlpha_of_isDigit hc
  cases h with
  | enclosed h => exact .inl h
  | word _ h => exact .inr fun d hd => h d (hword hd)
  | number _ h => exact .inr h
  | inside _ _ ha =>
    rw [hletter] at ha
    cases ha
  | @keyword k v d hk hw hd =>
    have hheads : ∀ k ∈ keywords, k.head?.any Char.isAlpha := by decide
    obtain ⟨x, hx, ha⟩ := (Option.any_eq_true _ _).1 (hheads k hk)
    cases k with
    | nil => cases hx
    | cons y k =>
      cases hx
      rw [← (List.cons.inj hw).1, hletter] at ha
      cases ha
  | dash hm _ _ => exact absurd hc (by rw [hm]; decide)
  | hyphen hm _ _ => exact absurd hc (by rw [hm]; decide)
  | apart hw _ =>
    rw [hword hc] at hw
    cases hw

theorem Cut.minus (h : Cut s '-' w) : Encloses s ('-' :: w) ∨ (w = [] ∧ Shape (s ++ ['-'])) ∨
    ∃ d v, w = d :: v ∧ d.isDigit = false := by
  cases h with
  | enclosed h => exact .inl h
  | word hc _ => exact absurd hc (by decide)
  | number hc _ => exact absurd hc (by decide)
  | inside _ _ hc => exact absurd hc (by decide)
  | @keyword k v d hk hw hd =>
    have hheads : ∀ k ∈ keywords, k ≠ [] ∧ k.head? ≠ some '-' := by decide
    obtain ⟨hk0, hhead⟩ := hheads k hk
    cases k with
    | nil => exact absurd rfl hk0
    | cons y k => exact absurd (by rw [(List.cons.inj hw).1]; rfl) hhead
  | dash _ hw h => exact .inr (.inl ⟨hw, h⟩)
  | hyphen _ hw hd => exact .inr (.inr ⟨_, _, hw, hd⟩)
  | apart _ hc => exact absurd rfl hc

end LiveSketch.Autocoder

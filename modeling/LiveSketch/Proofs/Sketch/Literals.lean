import LiveSketch.Proofs.Sketch.Comments

/-!
# Text literals

`literals` lists the complete text literals of a text, and `dropLiterals` gives what stands between them. In a
`Clean` text every quote belongs to a complete literal and no comment begins between the literals, so whatever
follows such a text is read by itself (`Clean.dropLiterals_append`, `Clean.literals_append`).
-/
namespace LiveSketch.Sketch

open Text

/-- A complete text literal and nothing else. -/
def IsLiteral (l : List Char) : Prop := literal? l = some (l, [])

instance (l : List Char) : Decidable (IsLiteral l) := inferInstanceAs (Decidable (_ = _))

/-- The complete text literals; each step takes a character off the text. -/
def literalsWithin : (fuel : Nat) → List Char → List (List Char)
  | 0, _ => []
  | _ + 1, [] => []
  | fuel + 1, c :: cs =>
    match literal? (c :: cs) with
    | some (literal, rest) => literal :: literalsWithin fuel rest
    | none => literalsWithin fuel cs

/-- The complete text literals of a text, in their order. -/
def literals (cs : List Char) : List (List Char) := literalsWithin cs.length cs

/-! ## Literals at the front of a text -/

theorem closeLiteral?_append {q : Char} {cs inside rest : List Char} (h : closeLiteral? q cs = some (inside, rest))
    (more : List Char) : closeLiteral? q (cs ++ more) = some (inside, rest ++ more) ∧
      closeLiteral? q inside = some (inside, []) := by
  fun_induction closeLiteral? q cs generalizing inside with
  | case1 | case2 | case3 | case6 => cases h
  | case4 d cs hd ih =>
    obtain ⟨found, hf, he⟩ := Option.map_eq_some_iff.1 h
    cases he
    obtain ⟨hmore, hself⟩ := ih hf
    simp [closeLiteral?, hd, hmore, hself]
  | case5 c cs h1 h2 hc =>
    cases h
    have hb := ne_backslash h1 h2
    obtain rfl := eq_of_beq hc
    simp [closeLiteral?_cons hb]
  | case7 c cs h1 h2 hc hn ih =>
    obtain ⟨found, hf, he⟩ := Option.map_eq_some_iff.1 h
    cases he
    obtain ⟨hmore, hself⟩ := ih hf
    have hb := ne_backslash h1 h2
    have hc' : c ≠ q := by simpa using hc
    have hn' : c ≠ '\n' := by simpa using hn
    simp [closeLiteral?_cons hb, hc', hn', hmore, hself]

/-- What a literal is does not hang on what follows it. -/
theorem literal?_append {cs l rest : List Char} (h : literal? cs = some (l, rest)) (more : List Char) :
    literal? (cs ++ more) = some (l, rest ++ more) ∧ IsLiteral l := by
  cases cs with
  | nil => cases h
  | cons c cs =>
    rw [literal?] at h
    split at h
    · rename_i hq
      obtain ⟨found, hf, he⟩ := Option.map_eq_some_iff.1 h
      cases he
      obtain ⟨hmore, hself⟩ := closeLiteral?_append hf more
      exact ⟨by simp [literal?, hq, hmore], by simp [IsLiteral, literal?, hq, hself]⟩
    · cases h

theorem literal?_of_not_quote {c : Char} (h : isQuote c = false) (cs : List Char) : literal? (c :: cs) = none := by
  simp [literal?, h]

namespace IsLiteral

variable {l : List Char}

theorem literal? (h : IsLiteral l) (cs : List Char) : Text.literal? (l ++ cs) = some (l, cs) :=
  (literal?_append h cs).1

/-- A literal begins with its quote. -/
theorem exists_cons (h : IsLiteral l) : ∃ q cs, l = q :: cs ∧ isQuote q ∧ closeLiteral? q cs = some (cs, []) := by
  cases l with
  | nil => cases h
  | cons q cs =>
    rw [IsLiteral, Text.literal?] at h
    split at h
    · rename_i hq
      obtain ⟨⟨inside, rest⟩, hf, he⟩ := Option.map_eq_some_iff.1 h
      cases he
      exact ⟨q, cs, rfl, hq, hf⟩
    · cases h

theorem ne_nil (h : IsLiteral l) : l ≠ [] := (literal?_eq_some h).2.2

theorem newline_notMem (h : IsLiteral l) : '\n' ∉ l := (literal?_eq_some h).2.1

end IsLiteral

/-! ## One step -/

theorem literal?_length {cs l rest : List Char} (h : literal? cs = some (l, rest)) : rest.length < cs.length := by
  obtain ⟨rfl, -, hne⟩ := literal?_eq_some h
  have := List.length_pos_iff.2 hne
  rw [List.length_append]
  omega

theorem dropLiteralsWithin_eq {fuel fuel' : Nat} {cs : List Char} (h : cs.length ≤ fuel) (h' : cs.length ≤ fuel') :
    dropLiteralsWithin fuel cs = dropLiteralsWithin fuel' cs := by
  induction fuel generalizing fuel' cs with
  | zero =>
    obtain rfl := List.length_eq_zero_iff.1 (Nat.le_zero.1 h)
    cases fuel' <;> rfl
  | succ fuel ih =>
    cases cs with
    | nil => cases fuel' <;> rfl
    | cons c cs =>
      rw [List.length_cons] at h h'
      obtain ⟨fuel', rfl⟩ : ∃ n, fuel' = n + 1 := ⟨fuel' - 1, by omega⟩
      simp only [dropLiteralsWithin]
      split
      · rename_i l rest hl
        have := literal?_length hl
        rw [List.length_cons] at this
        exact ih (by omega) (by omega)
      · exact congrArg (c :: ·) (ih (by omega) (by omega))

theorem literalsWithin_eq {fuel fuel' : Nat} {cs : List Char} (h : cs.length ≤ fuel) (h' : cs.length ≤ fuel') :
    literalsWithin fuel cs = literalsWithin fuel' cs := by
  induction fuel generalizing fuel' cs with
  | zero =>
    obtain rfl := List.length_eq_zero_iff.1 (Nat.le_zero.1 h)
    cases fuel' <;> rfl
  | succ fuel ih =>
    cases cs with
    | nil => cases fuel' <;> rfl
    | cons c cs =>
      rw [List.length_cons] at h h'
      obtain ⟨fuel', rfl⟩ : ∃ n, fuel' = n + 1 := ⟨fuel' - 1, by omega⟩
      simp only [literalsWithin]
      split
      · rename_i l rest hl
        have := literal?_length hl
        rw [List.length_cons] at this
        exact congrArg (l :: ·) (ih (by omega) (by omega))
      · exact ih (by omega) (by omega)

theorem dropLiterals_of_none {c : Char} {cs : List Char} (h : literal? (c :: cs) = none) :
    dropLiterals (c :: cs) = c :: dropLiterals cs := by
  simp [dropLiterals, dropLiteralsWithin, h]

theorem dropLiterals_of_some {cs l rest : List Char} (h : literal? cs = some (l, rest)) :
    dropLiterals cs = dropLiterals rest := by
  cases cs with
  | nil => cases h
  | cons c cs =>
    have hlen := literal?_length h
    rw [List.length_cons] at hlen
    rw [dropLiterals, List.length_cons, dropLiteralsWithin, h]
    exact dropLiteralsWithin_eq (by omega) (Nat.le_refl _)

theorem literals_of_none {c : Char} {cs : List Char} (h : literal? (c :: cs) = none) :
    literals (c :: cs) = literals cs := by
  simp [literals, literalsWithin, h]

theorem literals_of_some {cs l rest : List Char} (h : literal? cs = some (l, rest)) :
    literals cs = l :: literals rest := by
  cases cs with
  | nil => cases h
  | cons c cs =>
    have hlen := literal?_length h
    rw [List.length_cons] at hlen
    rw [literals, List.length_cons, literalsWithin, h]
    exact congrArg (l :: ·) (literalsWithin_eq (by omega) (Nat.le_refl _))

/-- There are no literals without quotes. -/
theorem literals_unquoted {cs : List Char} (h : ∀ c ∈ cs, isQuote c = false) (bs : List Char) :
    literals (cs ++ bs) = literals bs := by
  induction cs with
  | nil => rfl
  | cons c cs ih =>
    rw [List.forall_mem_cons] at h
    rw [List.cons_append, literals_of_none (literal?_of_not_quote h.1 _), ih h.2]

theorem literals_eq_nil {cs : List Char} (h : ∀ c ∈ cs, isQuote c = false) : literals cs = [] := by
  have hall := literals_unquoted h []
  rwa [List.append_nil] at hall

/-- Texts are gone through character by character, and a complete literal is taken off as a whole. -/
@[elab_as_elim]
theorem literalInduction {motive : List Char → Prop} (nil : motive [])
    (char : ∀ c cs, literal? (c :: cs) = none → motive cs → motive (c :: cs))
    (literal : ∀ cs l rest, literal? cs = some (l, rest) → motive rest → motive cs) (cs : List Char) : motive cs := by
  generalize hn : cs.length = n
  induction n using Nat.strongRecOn generalizing cs with
  | ind n ih =>
    cases hl : literal? cs with
    | some found =>
      have hlen := literal?_length hl
      exact literal cs found.1 found.2 hl (ih found.2.length (by omega) found.2 rfl)
    | none =>
      cases cs with
      | nil => exact nil
      | cons c cs => exact char c cs hl (ih cs.length (by simp [← hn]) cs rfl)

theorem mem_dropLiterals {cs : List Char} {d : Char} (h : d ∈ dropLiterals cs) : d ∈ cs := by
  induction cs using literalInduction with
  | nil => exact h
  | char c cs hl ih =>
    rw [dropLiterals_of_none hl, List.mem_cons] at h
    exact List.mem_cons.2 (h.imp_right ih)
  | literal cs l rest hl ih =>
    rw [dropLiterals_of_some hl] at h
    rw [(literal?_eq_some hl).1]
    exact List.mem_append_right _ (ih h)

/-! ## Lines -/

/-- A literal ends on its line, so lines are read by themselves. -/
theorem dropLiterals_newline (as bs : List Char) :
    dropLiterals (as ++ '\n' :: bs) = dropLiterals as ++ '\n' :: dropLiterals bs := by
  induction as using literalInduction with
  | nil => exact dropLiterals_of_none (literal?_of_not_quote (by decide) bs)
  | char c cs hl ih =>
    have hnl : literal? (c :: (cs ++ '\n' :: bs)) = none := by
      simpa [hl] using literal?_newline (c :: cs) bs (List.cons_ne_nil c cs)
    rw [List.cons_append, dropLiterals_of_none hl, dropLiterals_of_none hnl, ih, List.cons_append]
  | literal cs l rest hl ih =>
    rw [dropLiterals_of_some hl, dropLiterals_of_some (literal?_append hl _).1, ih]

/-! ## Clean texts -/

/-- In this text, behind which `rest` stands, every quote belongs to a complete literal. Between the literals no
hash sign stands, and behind a slash none of the characters `stops`. -/
inductive Clean (stops rest : List Char) : List Char → Prop where
  | nil : Clean stops rest []
  | char {c : Char} {cs : List Char} : isQuote c = false → c ≠ '#' →
      (c = '/' → ∀ d ∈ (cs ++ rest).head?, d ∉ stops) → Clean stops rest cs → Clean stops rest (c :: cs)
  | literal {l cs : List Char} : IsLiteral l → Clean stops rest cs → Clean stops rest (l ++ cs)

namespace Clean

variable {stops rest as bs : List Char}

theorem dropLiterals_append (h : Clean stops rest as) (bs : List Char) :
    dropLiterals (as ++ bs) = dropLiterals as ++ dropLiterals bs := by
  induction h with
  | nil => rfl
  | char hq _ _ _ ih =>
    rw [List.cons_append, dropLiterals_of_none (literal?_of_not_quote hq _),
      dropLiterals_of_none (literal?_of_not_quote hq _), ih, List.cons_append]
  | @literal l cs hl _ ih =>
    rw [List.append_assoc, dropLiterals_of_some (hl.literal? _), dropLiterals_of_some (hl.literal? _), ih]

theorem literals_append (h : Clean stops rest as) (bs : List Char) :
    literals (as ++ bs) = literals as ++ literals bs := by
  induction h with
  | nil => rfl
  | char hq _ _ _ ih =>
    rw [List.cons_append, literals_of_none (literal?_of_not_quote hq _),
      literals_of_none (literal?_of_not_quote hq _), ih]
  | @literal l cs hl _ ih =>
    rw [List.append_assoc, literals_of_some (hl.literal? _), literals_of_some (hl.literal? _), ih,
      List.cons_append]

/-- No comment begins between the literals. -/
theorem commentStep_char {c : Char} {cs : List Char} (hq : isQuote c = false)
    (hs : c = '/' → ∀ d ∈ cs.head?, d ∉ ['/', '*']) : commentStep c cs = ([c], cs) := by
  by_cases hc : c = '/'
  · subst hc
    cases cs with
    | nil => rfl
    | cons d ds =>
      have hd := hs rfl d rfl
      simp only [List.mem_cons, List.not_mem_nil, or_false, not_or] at hd
      exact commentStep_slash hd.1 hd.2 ds
  · exact commentStep_of_plain (literal?_of_not_quote hq _) hc

/-- No comment begins in a clean text. -/
theorem stripComments_append (h : Clean ['/', '*'] rest as) :
    stripComments (as ++ rest) = as ++ stripComments rest := by
  induction h with
  | nil => rfl
  | @char c cs hq _ hs _ ih =>
    rw [List.cons_append, stripComments_cons, commentStep_char hq hs, ih]
    rfl
  | @literal l cs hl _ ih =>
    obtain ⟨q, ds, rfl, -, -⟩ := hl.exists_cons
    have hstep : commentStep q (ds ++ (cs ++ rest)) = (q :: ds, cs ++ rest) :=
      commentStep_of_literal (hl.literal? _)
    rw [List.append_assoc, List.cons_append, stripComments_cons, hstep, ih, ← List.append_assoc]

end Clean

end LiveSketch.Sketch

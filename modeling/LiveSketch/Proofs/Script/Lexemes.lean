import LiveSketch.Proofs.Number.Plain

/-!
# Lexemes

What stands at the front of a line is read as a token: a symbol (`scans_single`, `scans_pair`), a name
(`scans_name`) or a number (`scans_number`). What may stand behind it so that it ends there is a condition of
each lemma.
-/
namespace LiveSketch.Script

open Lexer

/-- The word in front of this rest is read as its token. `afterName` tells whether a name stands right
before it. -/
def Scans (afterName : Bool) (kind : TokenKind) (text rest : List Char) : Prop :=
  ∃ c cs, text = c :: cs ∧ isIndent c = false ∧ startsComment (c :: (cs ++ rest)) = false ∧
    ∀ pos, scanToken pos afterName c (cs ++ rest) = .ok ⟨kind, text, rest⟩

/-! ## Operators and delimiters -/

theorem startsNumber_cons {c : Char} (h : c ≠ '.') (cs : List Char) :
    startsNumber (c :: cs) = c.isDigit := by
  unfold startsNumber
  split
  · rename_i e
    exact absurd (List.cons.inj e).1 h
  · rename_i e
    rw [(List.cons.inj e).1]
  · rename_i e
    cases e

/-- The characters that operators and delimiters begin with. -/
def symbols : List Char := ['(', ')', ',', ';', '+', '-', '*', '/', '%', '!', '=', '<', '>', '&', '|']

/-- A symbol begins neither a number nor a name nor a text. -/
theorem symbols_plain : ∀ c ∈ symbols, isIndent c = false ∧ c.isDigit = false ∧ c ≠ '.' ∧ c ≠ '#' ∧
    isNameStart c = false ∧ (c == '"' || c == '\x27') = false := by
  simp only [symbols, List.mem_cons, List.not_mem_nil, or_false, forall_eq_or_imp, forall_eq]
  and_intros <;> decide

theorem mem_symbols_of_operator? {c : Char} {kind : TokenKind} (h : operator? c = some kind) :
    c ∈ symbols := by
  unfold operator? at h
  split at h
  all_goals first | decide | cases h

theorem mem_symbols_of_pairOperator? {c d : Char} {kind : TokenKind}
    (h : pairOperator? c d = some kind) : c ∈ symbols := by
  unfold pairOperator? at h
  split at h
  all_goals first | decide | cases h

/-- A word that begins with a symbol is read as an operator. -/
theorem scans_symbol {c : Char} {cs rest : List Char} {afterName : Bool} {kind : TokenKind}
    (hc : c ∈ symbols) (hs : startsComment (c :: (cs ++ rest)) = false)
    (h : scanOperator afterName (c :: (cs ++ rest)) = some ⟨kind, c :: cs, rest⟩) :
    Scans afterName kind (c :: cs) rest := by
  obtain ⟨hi, hd, hp, -, hn, hq⟩ := symbols_plain c hc
  refine ⟨c, cs, rfl, hi, hs, fun pos => ?_⟩
  simp only [scanToken, startsNumber_cons hp, hd, hn, hq, h, Bool.false_eq_true, if_false]

/-- A symbol of one character, in front of a rest that does not make it a longer one. -/
theorem scans_single {c : Char} {kind : TokenKind} (hk : operator? c = some kind) {afterName : Bool}
    {rest : List Char} (h : ∀ d ∈ rest.head?, pairOperator? c d = none ∧
      (afterName → stepOperator? c d = none) ∧ (c = '/' → d ≠ '/')) :
    Scans afterName kind [c] rest := by
  have hc := mem_symbols_of_operator? hk
  have hcomment : startsComment (c :: ([] ++ rest)) = false := by
    unfold startsComment
    split
    · rename_i e
      exact absurd (List.cons.inj e).1 (symbols_plain c hc).2.2.2.1
    · rename_i cs e
      obtain ⟨rfl, rfl⟩ := List.cons.inj e
      exact absurd rfl ((h '/' rfl).2.2 rfl)
    · rfl
  refine scans_symbol hc hcomment ?_
  cases rest with
  | nil => simp [scanOperator, hk]
  | cons d ds =>
    obtain ⟨hp, hstep, -⟩ := h d rfl
    cases afterName <;> simp [scanOperator, hk, hp, hstep]

/-- A symbol of two characters. -/
theorem scans_pair {c d : Char} {kind : TokenKind} (hk : pairOperator? c d = some kind)
    (rest : List Char) : Scans false kind [c, d] rest := by
  have hc := mem_symbols_of_pairOperator? hk
  have hcomment : startsComment (c :: ([d] ++ rest)) = false := by
    unfold startsComment
    split
    · rename_i e
      exact absurd (List.cons.inj e).1 (symbols_plain c hc).2.2.2.1
    · rename_i cs e
      rw [(List.cons.inj e).1, (List.cons.inj (List.cons.inj e).2).1] at hk
      cases hk
    · rfl
  exact scans_symbol hc hcomment (by simp [scanOperator, hk])

/-! ## Names and constants -/

theorem isDigit_of_isNameStart {c : Char} (h : isNameStart c) : c.isDigit = false := by
  refine Bool.eq_false_iff.2 fun hd => ?_
  have h9 : c.val.toNat ≤ 57 := (of_decide_eq_true (Bool.and_eq_true _ _ ▸ hd).2 :)
  have hor : ((c.isUpper || c.isLower) || c == '_') = true := h
  simp only [Bool.or_eq_true, beq_iff_eq] at hor
  rcases hor with (hu | hl) | rfl
  · have hA : 65 ≤ c.val.toNat := (of_decide_eq_true hu).1
    omega
  · have hand : (decide (c.val ≥ 'a'.val) && decide (c.val ≤ 'z'.val)) = true := hl
    have ha : 97 ≤ c.val.toNat := (of_decide_eq_true (Bool.and_eq_true _ _ ▸ hand).1 :)
    omega
  · exact absurd h9 (by decide)

theorem isNamePart_of_isNameStart {c : Char} (h : isNameStart c) : isNamePart c := by
  simp only [isNameStart, isNamePart, Char.isAlphanum, Bool.or_eq_true] at h ⊢
  exact h.imp_left .inl

/-- A name is read up to a character that does not continue it. -/
theorem scans_name {name : String} {c : Char} {cs : List Char} (hn : name.toList = c :: cs)
    (hc : isNameStart c) (hcs : cs.all isNamePart) {afterName : Bool} {rest : List Char}
    (hr : ∀ d ∈ rest.head?, isNamePart d = false) :
    Scans afterName (.ident name) name.toList rest := by
  have hne : ∀ d, isNameStart d = false → c ≠ d := fun d hd e => by
    rw [e, hd] at hc
    cases hc
  have hall : ∀ d ∈ c :: cs, isNamePart d := by
    rw [← List.all_eq_true, List.all_cons, isNamePart_of_isNameStart hc, hcs]
    rfl
  have hi : isIndent c = false := by
    simp [isIndent, hne ' ' rfl, hne '\t' rfl]
  have hs : startsComment (c :: (cs ++ rest)) = false := by
    unfold startsComment
    split
    · rename_i e
      exact absurd (List.cons.inj e).1 (hne '#' rfl)
    · rename_i e
      exact absurd (List.cons.inj e).1 (hne '/' rfl)
    · rfl
  refine ⟨c, cs, hn, hi, hs, fun pos => ?_⟩
  have ht := Text.takeWhile_append hall hr
  have hd := Text.dropWhile_append hall hr
  rw [List.cons_append] at ht hd
  simp only [scanToken, startsNumber_cons (hne '.' rfl), isDigit_of_isNameStart hc, hc, ht, hd,
    Bool.false_eq_true, if_false, if_true, ← hn, String.ofList_toList]

/-- A number is read up to a character that cannot belong to it. -/
theorem scans_number {x : Float} {text whole tail : List Char}
    (h : Number.IsNumeral text whole tail) (hx : Number.read? text = some x) {afterName : Bool}
    {rest : List Char} (hr : ∀ d ∈ rest.head?, isNamePart d = false ∧ d ≠ '.') :
    Scans afterName (.number x) text rest := by
  obtain ⟨c, cs, rfl, hc⟩ := h.first
  have hvalue : Number.IsNumeral.value whole tail = x := by
    rw [h.read?_eq] at hx
    exact Option.some.inj hx
  have hne : ∀ d, d.isDigit = false → c ≠ d := fun d hd e => by
    rw [e, hd] at hc
    cases hc
  have hrest : ∀ d ∈ rest.head?, d.isDigit = false ∧ d ≠ '.' ∧ d ≠ 'e' ∧ d ≠ 'E' := by
    intro d hd
    obtain ⟨hp, hpoint⟩ := hr d hd
    refine ⟨?_, hpoint, ?_, ?_⟩
    · refine Bool.eq_false_iff.2 fun hdigit => ?_
      simp [isNamePart, Char.isAlphanum, hdigit] at hp
    · rintro rfl
      cases hp
    · rintro rfl
      cases hp
  have hs : startsComment (c :: (cs ++ rest)) = false := by
    unfold startsComment
    split
    · rename_i e
      exact absurd (List.cons.inj e).1 (hne '#' rfl)
    · rename_i e
      exact absurd (List.cons.inj e).1 (hne '/' rfl)
    · rfl
  refine ⟨c, cs, rfl, by simp [isIndent, hne ' ' rfl, hne '\t' rfl], hs, fun pos => ?_⟩
  have hscan := h.scanNumber_eq hrest
  rw [List.cons_append, hvalue] at hscan
  simp only [scanToken, startsNumber_cons (hne '.' rfl), hc, hscan, if_true]

end LiveSketch.Script

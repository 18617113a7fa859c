import LiveSketch.Number.Notation
import LiveSketch.Proofs.Text.Match
import LiveSketch.Script.Lexer

/-!
# The plain form of numbers

`plain_isNumeral`: a finite number without a sign is written with digits and at most one point, which has
a digit before it. `IsNumeral.read?_eq` says what is read from such a text. What is written with two places is always
read as a number again (`read?_twoPlaces`).
-/
namespace LiveSketch.Number

/-- The text consists of the digits `whole` and, unless `tail` is empty, a point and more digits. -/
structure IsNumeral (text whole tail : List Char) : Prop where
  text_eq : text = whole ++ tail
  whole_ne : whole ≠ []
  whole_digits : ∀ c ∈ whole, c.isDigit
  tail_digits : tail = [] ∨ ∃ fraction, tail = '.' :: fraction ∧ ∀ c ∈ fraction, c.isDigit

/-! ## Writing -/

theorem isDigit_of_mem_digitsOf {n : Nat} {c : Char} (h : c ∈ digitsOf n) : c.isDigit :=
  Nat.isDigit_of_mem_toDigits (by decide) (by decide) h

theorem digitsOf_ne_nil (n : Nat) : digitsOf n ≠ [] := Nat.toDigits_ne_nil

theorem isDigit_of_mem_zeros {n : Nat} {c : Char} (h : c ∈ zeros n) : c.isDigit := by
  rw [List.eq_of_mem_replicate h]
  decide

/-- Digits with a point somewhere are a numeral. -/
theorem positional_isNumeral {digits : List Char} (hne : digits ≠ []) (hd : ∀ c ∈ digits, c.isDigit)
    (point : Int) : ∃ whole tail, IsNumeral (positional digits point) whole tail := by
  unfold positional
  split
  · refine ⟨['0'], _, rfl, by simp, by simp, .inr ⟨_, rfl, fun c hc => ?_⟩⟩
    exact (List.mem_append.1 hc).elim isDigit_of_mem_zeros (hd c)
  · rename_i hp
    split
    · refine ⟨digits ++ zeros (point.toNat - digits.length), [], by simp, by simp [hne],
        fun c hc => ?_, .inl rfl⟩
      exact (List.mem_append.1 hc).elim (hd c) isDigit_of_mem_zeros
    · refine ⟨_, _, rfl, ?_, fun c hc => hd c (List.mem_of_mem_take hc),
        .inr ⟨_, rfl, fun c hc => hd c (List.mem_of_mem_drop hc)⟩⟩
      have h0 : point.toNat ≠ 0 := by omega
      simp [hne, h0]

/-- A finite number without a sign is written as a numeral. -/
theorem plain_isNumeral {x : Float} {b : Binary} (h : Binary.ofFloat? x = some b)
    (hs : b.negative = false) : ∃ whole tail, IsNumeral (plain x).toList whole tail := by
  simp only [plain, h, signed, hs]
  split
  · exact ⟨['0'], [], by simp, by simp, by simp, .inl rfl⟩
  · simp only [Bool.false_eq_true, if_false, String.toList_ofList]
    exact positional_isNumeral (digitsOf_ne_nil _) (fun _ => isDigit_of_mem_digitsOf) _

/-- A finite number is written with two places as digits, a point and more digits, behind the minus sign if it has
one. -/
theorem twoPlaces_of_finite {x : Float} {b : Binary} (h : Binary.ofFloat? x = some b) :
    ∃ whole fraction, (twoPlaces x).toList = (if b.negative then ['-'] else []) ++ (whole ++ '.' :: fraction) ∧
      whole ≠ [] ∧ (∀ c ∈ whole, c.isDigit) ∧ ∀ c ∈ fraction, c.isDigit := by
  have hpositional : ∀ n, ∃ whole fraction, positional (zeros (3 - (digitsOf n).length) ++ digitsOf n)
      ((zeros (3 - (digitsOf n).length) ++ digitsOf n).length - 2) = whole ++ '.' :: fraction ∧
      whole ≠ [] ∧ (∀ c ∈ whole, c.isDigit) ∧ ∀ c ∈ fraction, c.isDigit := by
    intro n
    obtain ⟨padded, hp⟩ : ∃ padded, padded = zeros (3 - (digitsOf n).length) ++ digitsOf n := ⟨_, rfl⟩
    have hdigits : ∀ c ∈ padded, c.isDigit := fun c hc =>
      (List.mem_append.1 (hp ▸ hc)).elim isDigit_of_mem_zeros isDigit_of_mem_digitsOf
    have hlong : 3 ≤ padded.length := by
      rw [hp, List.length_append, zeros, List.length_replicate]
      omega
    refine ⟨padded.take (padded.length - 2), padded.drop (padded.length - 2), ?_, ?_,
      fun c hc => hdigits c (List.mem_of_mem_take hc), fun c hc => hdigits c (List.mem_of_mem_drop hc)⟩
    · have hpoint : ((padded.length : Int) - 2).toNat = padded.length - 2 := by omega
      rw [← hp, positional, if_neg (by omega), hpoint, if_neg (by omega)]
    · rw [ne_eq, List.take_eq_nil_iff, not_or]
      exact ⟨by omega, List.ne_nil_of_length_pos (by omega)⟩
  obtain ⟨whole, fraction, hw, hrest⟩ := hpositional (roundHalfEven (Decimal.ratio b.mantissa b.exponent (-2)).1
    (Decimal.ratio b.mantissa b.exponent (-2)).2)
  refine ⟨whole, fraction, ?_, hrest⟩
  simp only [twoPlaces, h, signed, hw, String.toList_ofList]
  split <;> rfl

/-- The texts of what is no number, and of the infinities. -/
theorem special_mem (x : Float) : special x ∈ ["NaN", "inf", "-inf"] := by
  unfold special
  split
  · decide
  · split <;> decide

/-! ## Reading -/

namespace IsNumeral

variable {text whole tail : List Char}

/-- What the numeral denotes. -/
def value (whole tail : List Char) : Float := Numeral.toFloat ⟨whole, tail.drop 1, 0⟩

theorem first (h : IsNumeral text whole tail) : ∃ c cs, text = c :: cs ∧ c.isDigit := by
  obtain ⟨rfl, hne, hw, -⟩ := h
  cases whole with
  | nil => exact absurd rfl hne
  | cons c cs => exact ⟨c, cs ++ tail, rfl, hw c List.mem_cons_self⟩

/-- The two runs of digits of a numeral in front of something else. -/
theorem split_append (h : IsNumeral text whole tail) (rest : List Char)
    (hr : ∀ c ∈ rest.head?, c.isDigit = false ∧ c ≠ '.') :
    (text ++ rest).takeWhile Char.isDigit = whole ∧
      (text ++ rest).dropWhile Char.isDigit = tail ++ rest ∧
      (tail.drop 1 ++ rest).takeWhile Char.isDigit = tail.drop 1 ∧
      (tail.drop 1 ++ rest).dropWhile Char.isDigit = rest := by
  obtain ⟨rfl, -, hw, ht⟩ := h
  have hrest : ∀ c ∈ rest.head?, c.isDigit = false := fun c hc => (hr c hc).1
  have htail : ∀ c ∈ (tail ++ rest).head?, c.isDigit = false := by
    rcases ht with rfl | ⟨fraction, rfl, -⟩
    · exact hrest
    · simp
  have hfraction : ∀ c ∈ tail.drop 1, c.isDigit := by
    rcases ht with rfl | ⟨fraction, rfl, hf⟩
    · simp
    · exact hf
  rw [List.append_assoc]
  exact ⟨Text.takeWhile_append hw htail, Text.dropWhile_append hw htail,
    Text.takeWhile_append hfraction hrest, Text.dropWhile_append hfraction hrest⟩

theorem toLower_eq_of_isDigit {c : Char} (h : c.isDigit) : c.toLower = c := by
  simp only [Char.isDigit, Bool.and_eq_true, decide_eq_true_eq] at h
  refine dif_neg fun hu => ?_
  have h9 : c.val.toNat ≤ 57 := h.2
  have hA : 65 ≤ c.val.toNat := hu.1
  omega

theorem readUnsigned?_eq (h : IsNumeral text whole tail) : readUnsigned? text = some (value whole tail) := by
  obtain ⟨c, cs, ht, hc⟩ := h.first
  have hnumeral : Numeral.read? text = some ⟨whole, tail.drop 1, 0⟩ := by
    obtain ⟨hw, hd, hf, hr⟩ := h.split_append [] (by simp)
    simp only [List.append_nil] at hw hd hf hr
    simp only [Numeral.read?, hw, hd]
    rcases h.tail_digits with rfl | ⟨fraction, rfl, -⟩
    · simp [Numeral.exponent?, h.whole_ne]
    · simp only [List.drop_one, List.tail_cons] at hf hr
      simp [Numeral.exponent?, h.whole_ne, hf, hr]
  -- no word for an infinity or for what is no number begins with a digit
  have hword : ∀ w : Char, w.isDigit = false → ∀ ws : List Char,
      String.ofList (text.map Char.toLower) ≠ String.ofList (w :: ws) := by
    intro w hw ws e
    rw [String.ofList_inj, ht, List.map_cons, List.cons.injEq, toLower_eq_of_isDigit hc] at e
    rw [e.1, hw] at hc
    cases hc
  unfold readUnsigned?
  split
  · rename_i e; exact absurd e (hword 'i' rfl _)
  · rename_i e; exact absurd e (hword 'i' rfl _)
  · rename_i e; exact absurd e (hword 'n' rfl _)
  · rw [hnumeral]
    rfl

/-- A numeral reads as what it denotes. -/
theorem read?_eq (h : IsNumeral text whole tail) : read? text = some (value whole tail) := by
  obtain ⟨c, cs, ht, hc⟩ := h.first
  unfold read?
  split
  · rw [List.cons.injEq] at ht
    rw [← ht.1] at hc
    cases hc
  · rw [List.cons.injEq] at ht
    rw [← ht.1] at hc
    cases hc
  · exact h.readUnsigned?_eq

/-- The lexer reads a numeral in the same way, up to what cannot belong to it. -/
theorem scanNumber_eq (h : IsNumeral text whole tail) {rest : List Char}
    (hr : ∀ c ∈ rest.head?, c.isDigit = false ∧ c ≠ '.' ∧ c ≠ 'e' ∧ c ≠ 'E') :
    Script.Lexer.scanNumber (text ++ rest) = .ok ⟨value whole tail, text, rest⟩ := by
  have hexponent : Script.Lexer.scanExponent rest = .ok ⟨0, [], rest⟩ := by
    cases rest with
    | nil => rfl
    | cons c cs =>
      obtain ⟨-, -, he, hE⟩ := hr c rfl
      simp [Script.Lexer.scanExponent, he, hE]
  obtain ⟨hw, ht, hf, hd⟩ := h.split_append rest fun c hc => ⟨(hr c hc).1, (hr c hc).2.1⟩
  have htext := h.text_eq
  simp only [Script.Lexer.scanNumber, hw, ht]
  rcases h.tail_digits with rfl | ⟨fraction, rfl, -⟩
  · cases rest with
    | nil => simp [hexponent, value, htext]
    | cons c cs =>
      have hpoint : c ≠ '.' := (hr c rfl).2.1
      simp [hpoint, hexponent, value, htext]
  · simp only [List.drop_one, List.tail_cons] at hf hd
    simp [hf, hd, hexponent, value, htext]

end IsNumeral

/-- Whatever is written with two places is read as a number. -/
theorem read?_twoPlaces (x : Float) : (read? (twoPlaces x).toList).isSome := by
  cases hb : Binary.ofFloat? x with
  | none =>
    have hspecial : ∀ w ∈ ["NaN", "inf", "-inf"], (read? w.toList).isSome := by decide
    simpa only [twoPlaces, hb] using hspecial _ (special_mem x)
  | some b =>
    obtain ⟨whole, fraction, htext, hw0, hw, hf⟩ := twoPlaces_of_finite hb
    have hnumeral : IsNumeral (whole ++ '.' :: fraction) whole ('.' :: fraction) :=
      ⟨rfl, hw0, hw, .inr ⟨fraction, rfl, hf⟩⟩
    rw [htext]
    cases b.negative with
    | false => simp [hnumeral.read?_eq]
    | true => simp [read?, hnumeral.readUnsigned?_eq]

end LiveSketch.Number

import LiveSketch.Text.Blank
import LiveSketch.Text.Digit
import LiveSketch.Text.Word

/-!
# Classes of characters

How the classes of characters lie to each other: decimal digits are word characters (`isWord_of_isDigit`), and
white space is neither (`isWord_of_isBlank`, `isBlank_of_isDigit`).
-/
namespace LiveSketch.Text

/-- What is said of all characters of a text is decided along the text, not over all characters. -/
instance (priority := high) decidableBAll (cs : List Char) (p : Char → Prop) [DecidablePred p] :
    Decidable (∀ c ∈ cs, p c) := List.decidableBAll p cs

namespace Range

/-- Whether the first range lies in the second. -/
def Within (r s : Range) : Prop := s.first ≤ r.first ∧ r.last ≤ s.last

/-- Whether the ranges have no code point in common. -/
def Apart (r s : Range) : Prop := r.last < s.first ∨ s.last < r.first

instance (r s : Range) : Decidable (r.Within s) := inferInstanceAs (Decidable (_ ∧ _))

instance (r s : Range) : Decidable (r.Apart s) := inferInstanceAs (Decidable (_ ∨ _))

theorem contains_iff {r : Range} {c : Char} : r.contains c ↔ r.first ≤ c.toNat ∧ c.toNat ≤ r.last := by
  simp [contains]

theorem Within.contains {r s : Range} (h : r.Within s) {c : Char} (hc : r.contains c) : s.contains c := by
  have hc := contains_iff.1 hc
  exact contains_iff.2 ⟨Nat.le_trans h.1 hc.1, Nat.le_trans hc.2 h.2⟩

theorem Apart.contains {r s : Range} (h : r.Apart s) {c : Char} (hc : r.contains c) : s.contains c = false := by
  have hc := contains_iff.1 hc
  refine Bool.eq_false_iff.2 fun hs => ?_
  have hs := contains_iff.1 hs
  unfold Apart at h
  omega

end Range

/-- Apart tables have no character in common. -/
theorem not_any_of_apart {rs ss : List Range} (h : ∀ r ∈ rs, ∀ s ∈ ss, r.Apart s) {c : Char}
    (hc : rs.any (·.contains c)) : ss.any (·.contains c) = false := by
  obtain ⟨r, hr, hc⟩ := List.any_eq_true.1 hc
  refine List.any_eq_false.2 fun s hs => ?_
  rw [(h r hr s hs).contains hc]
  decide

/-- The code points of the letters. -/
theorem code_of_isAlpha {c : Char} (h : c.isAlpha) :
    (65 ≤ c.toNat ∧ c.toNat ≤ 90) ∨ (97 ≤ c.toNat ∧ c.toNat ≤ 122) := by
  have h : (decide (c.val ≥ 'A'.val ∧ c.val ≤ 'Z'.val) || (c.val ≥ 'a'.val && c.val ≤ 'z'.val)) = true := h
  simp only [Bool.or_eq_true, Bool.and_eq_true, decide_eq_true_eq] at h
  exact h

/-- The code points of the decimal digits. -/
theorem code_of_isDigit {c : Char} (h : c.isDigit) : 48 ≤ c.toNat ∧ c.toNat ≤ 57 := by
  simp only [Char.isDigit, Bool.and_eq_true, decide_eq_true_eq] at h
  exact h

theorem isWord_of_isAlphanum {c : Char} (h : c.isAlphanum) : isWord c := by
  have hlow : c.toNat < 0x80 := by
    rcases Bool.or_eq_true_iff.1 h with h | h
    · have := code_of_isAlpha h
      omega
    · have := code_of_isDigit h
      omega
  simp only [isWord, hlow, if_true, h, Bool.true_or]

theorem isWord_of_isAlpha {c : Char} (h : c.isAlpha) : isWord c := isWord_of_isAlphanum (by simp [Char.isAlphanum, h])

theorem isDigit_of_ascii {c : Char} (h : c.isDigit) : isDigit c := by
  have hlow : c.toNat < 0x80 := by
    have := code_of_isDigit h
    omega
  rw [isDigit, if_pos hlow, h]

theorem not_isDigit_of_isAlpha {c : Char} (h : c.isAlpha) : isDigit c = false := by
  have hcode := code_of_isAlpha h
  rw [isDigit, if_pos (by omega)]
  refine Bool.eq_false_iff.2 fun hd => ?_
  have := code_of_isDigit hd
  omega

theorem not_isAlpha_of_isDigit {c : Char} (h : c.isDigit) : c.isAlpha = false := by
  refine Bool.eq_false_iff.2 fun ha => ?_
  have := not_isDigit_of_isAlpha ha
  rw [isDigit_of_ascii h] at this
  cases this

theorem isWord_of_isBlank {c : Char} (h : isBlank c) : isWord c = false := by
  have hlow : ∀ b ∈ blankRanges, ∀ r ∈ wordRangesLow, b.Apart r := by decide +kernel
  have hmiddle : ∀ b ∈ blankRanges, ∀ r ∈ wordRangesMiddle, b.Apart r := by decide
  have hhigh : ∀ b ∈ blankRanges, ∀ r ∈ wordRangesHigh, b.Apart r := by decide +kernel
  simp only [isWord]
  split
  · -- an ASCII character
    rename_i hc
    have hascii : ∀ n < 0x80, blankRanges.any (fun r => r.first ≤ n && n ≤ r.last) →
        ((Char.ofNat n).isAlphanum || Char.ofNat n == '_') = false := by decide
    have hchar := hascii c.toNat hc h
    rwa [Char.ofNat_toNat] at hchar
  · split
    · exact not_any_of_apart hlow h
    · split
      · exact not_any_of_apart hmiddle h
      · exact not_any_of_apart hhigh h

theorem isWord_of_isDigit {c : Char} (h : isDigit c) : isWord c := by
  have hlow : ∀ d ∈ digitRanges, d.first < 0x3000 → ∃ r ∈ wordRangesLow, d.Within r := by decide +kernel
  have hmiddle : ∀ d ∈ digitRanges, 0x3000 ≤ d.last → d.first < 0x10000 → ∃ r ∈ wordRangesMiddle, d.Within r := by
    decide +kernel
  have hhigh : ∀ d ∈ digitRanges, 0x10000 ≤ d.last → ∃ r ∈ wordRangesHigh, d.Within r := by decide +kernel
  by_cases hc : c.toNat < 0x80
  · rw [isDigit, if_pos hc] at h
    exact isWord_of_isAlphanum (by simp [Char.isAlphanum, h])
  · rw [isDigit, if_neg hc] at h
    obtain ⟨d, hd, hdc⟩ := List.any_eq_true.1 h
    have hrange := Range.contains_iff.1 hdc
    simp only [isWord, if_neg hc]
    split
    · obtain ⟨r, hr, hw⟩ := hlow d hd (by omega)
      exact List.any_eq_true.2 ⟨r, hr, hw.contains hdc⟩
    · split
      · obtain ⟨r, hr, hw⟩ := hmiddle d hd (by omega) (by omega)
        exact List.any_eq_true.2 ⟨r, hr, hw.contains hdc⟩
      · obtain ⟨r, hr, hw⟩ := hhigh d hd (by omega)
        exact List.any_eq_true.2 ⟨r, hr, hw.contains hdc⟩

theorem isBlank_of_isDigit {c : Char} (h : isDigit c) : isBlank c = false := by
  refine Bool.eq_false_iff.2 fun hb => ?_
  have hw := isWord_of_isDigit h
  rw [isWord_of_isBlank hb] at hw
  cases hw

end LiveSketch.Text

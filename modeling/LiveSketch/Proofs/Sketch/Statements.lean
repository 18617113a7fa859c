import LiveSketch.Proofs.Script.Lexemes
import LiveSketch.Proofs.Sketch.Reports

/-!
# Reports and statements

Calling single words and separating commands leaves the calls of the marker alone, so what holds of an
instrumented text holds of the script (`reporting_toScript`). `flatMap_pieces` and `Delimited` say that the
statements of a line make up the line; `Separated` says that a text has got nothing but semicolons in front
of letters.
-/
namespace LiveSketch.Sketch

open Text
open Number (digitsOf)

variable {lines : Nat → Prop}

/-! ## Single words -/

/-- The text of a piece. -/
def Piece.text (p : Piece) : List Char := p.1 ++ p.2

/-- All statements but the last are followed by a semicolon or an arrow. -/
def Delimited : List Piece → Prop
  | [] => True
  | [p] => p.2 = []
  | p :: ps => (p.2 = [';'] ∨ p.2 = ['-', '>']) ∧ Delimited ps

theorem consPiece_cases (c : Char) (ps : List Piece) :
    (ps = [] ∧ consPiece c ps = [([c], [])]) ∨
      ∃ p rest, ps = p :: rest ∧ consPiece c ps = (c :: p.1, p.2) :: rest := by
  cases ps with
  | nil => exact .inl ⟨rfl, rfl⟩
  | cons p rest => exact .inr ⟨p, rest, rfl, rfl⟩

theorem flatMap_consPiece (c : Char) (ps : List Piece) :
    (consPiece c ps).flatMap Piece.text = c :: ps.flatMap Piece.text := by
  rcases consPiece_cases c ps with ⟨rfl, h⟩ | ⟨p, rest, rfl, h⟩ <;> rw [h] <;> rfl

theorem Delimited.consPiece {ps : List Piece} (h : Delimited ps) (c : Char) :
    Delimited (consPiece c ps) := by
  rcases consPiece_cases c ps with ⟨rfl, he⟩ | ⟨p, rest, rfl, he⟩ <;> rw [he]
  · rfl
  · cases rest <;> exact h

theorem consPiece_ne_nil (c : Char) (ps : List Piece) : consPiece c ps ≠ [] := by
  rcases consPiece_cases c ps with ⟨rfl, he⟩ | ⟨p, rest, rfl, he⟩ <;> simp [he]

theorem Delimited.cons {p : Piece} {ps : List Piece} (hp : p.2 = [';'] ∨ p.2 = ['-', '>'])
    (h : Delimited ps) (hne : ps ≠ []) : Delimited (p :: ps) := by
  cases ps with
  | nil => exact absurd rfl hne
  | cons q qs => exact ⟨hp, h⟩

/-- The statements of a line and the separators behind them make up the line. -/
theorem pieces_text (quote : Option Char) (cs : List Char) :
    (pieces quote cs).flatMap Piece.text = cs ∧ Delimited (pieces quote cs) ∧ pieces quote cs ≠ [] := by
  fun_induction pieces quote cs with
  | case1 => exact ⟨rfl, rfl, List.cons_ne_nil _ _⟩
  | case2 q d cs ih =>
    exact ⟨by rw [flatMap_consPiece, flatMap_consPiece, ih.1], (ih.2.1.consPiece d).consPiece _,
      consPiece_ne_nil _ _⟩
  | case3 q c cs h ih =>
    exact ⟨by rw [flatMap_consPiece, ih.1], ih.2.1.consPiece c, consPiece_ne_nil _ _⟩
  | case4 cs ih =>
    exact ⟨by rw [List.flatMap_cons, ih.1]; rfl, ih.2.1.cons (.inr rfl) ih.2.2, List.cons_ne_nil _ _⟩
  | case5 c cs h hc ih =>
    have hc : c = ';' := by simpa using hc
    exact ⟨by rw [List.flatMap_cons, ih.1]; rfl, ih.2.1.cons (.inl (by rw [hc])) ih.2.2,
      List.cons_ne_nil _ _⟩
  | case6 c cs h hc ih =>
    exact ⟨by rw [flatMap_consPiece, ih.1], ih.2.1.consPiece c, consPiece_ne_nil _ _⟩

theorem trimEnd_append_blankEnd (cs : List Char) : trimEnd cs ++ blankEnd cs = cs := by
  rw [trimEnd, blankEnd, ← List.reverse_append, List.takeWhile_append_dropWhile, List.reverse_reverse]

theorem isBlank_of_mem_blankEnd {cs : List Char} {c : Char} (h : c ∈ blankEnd cs) : isBlank c :=
  List.all_eq_true.1 List.all_takeWhile c (List.mem_reverse.1 h)

theorem isDigit_of_isBlank {c : Char} (h : isBlank c) : c.isDigit = false := by
  refine Bool.eq_false_iff.2 fun hd => ?_
  have h0 : 48 ≤ c.toNat := (of_decide_eq_true (Bool.and_eq_true _ _ ▸ hd).1 :)
  have h9 : c.toNat ≤ 57 := (of_decide_eq_true (Bool.and_eq_true _ _ ▸ hd).2 :)
  simp [isBlank, blankRanges, Range.contains] at h
  omega

/-- The parentheses of a new call stand behind a whole statement, so they part no call of the marker. -/
theorem reporting_callBareword {statement : List Char} (h : Reporting lines statement) :
    Reporting lines (callBareword statement) := by
  unfold callBareword
  split
  · have hback : 'a' ∉ ')' :: blankEnd statement := by
      rw [List.mem_cons, not_or]
      exact ⟨by decide, fun m => by cases isBlank_of_mem_blankEnd m⟩
    have hfront : Reporting lines (trimEnd statement) := by
      have hsplit := trimEnd_append_blankEnd statement
      cases hb : blankEnd statement with
      | nil =>
        rw [hb, List.append_nil] at hsplit
        rwa [hsplit]
      | cons c blanks =>
        have hc : isBlank c := isBlank_of_mem_blankEnd (hb ▸ List.mem_cons_self)
        rw [← hsplit, hb] at h
        refine h.of_append_cons ⟨?_, ?_, ?_⟩
        · rintro rfl
          cases hc
        · rintro rfl
          cases hc
        · exact isDigit_of_isBlank hc
    rw [List.append_assoc]
    exact hfront.append_cons (by decide) (.of_notMem hback)
  · exact h

theorem reporting_pieces {ps : List Piece} (hd : Delimited ps)
    (h : Reporting lines (ps.flatMap Piece.text)) :
    Reporting lines (ps.flatMap fun p => callBareword p.1 ++ p.2) := by
  induction ps with
  | nil => exact h
  | cons p ps ih =>
    obtain ⟨statement, separator⟩ := p
    cases ps with
    | nil =>
      obtain rfl : separator = [] := hd
      simpa [Piece.text] using reporting_callBareword (by simpa [Piece.text] using h)
    | cons q qs =>
      have hrest : Reporting lines ((q :: qs).flatMap Piece.text) := h.suffix ⟨_, rfl⟩
      obtain ⟨hs, hd⟩ := hd
      obtain ⟨c, tail, rfl, hc, hm, ht⟩ : ∃ c tail, separator = c :: tail ∧
          (c ≠ '(' ∧ c ≠ ')' ∧ c.isDigit = false) ∧ c ∉ markerWord ∧ 'a' ∉ tail := by
        rcases hs with rfl | rfl
        · exact ⟨_, _, rfl, by decide, by decide, by decide⟩
        · exact ⟨_, _, rfl, by decide, by decide, by decide⟩
      have hstatement : Reporting lines statement := by
        rw [List.flatMap_cons, Piece.text, List.append_assoc, List.cons_append] at h
        exact h.of_append_cons hc
      rw [List.flatMap_cons, List.append_assoc, List.cons_append]
      exact (reporting_callBareword hstatement).append_cons hm (.append_left ht (ih hd hrest))

theorem reporting_callBarewords {cs : List Char} (h : Reporting lines cs) :
    Reporting lines (callBarewords cs) := by
  refine reporting_joinLines fun line hm => ?_
  obtain ⟨l, hl, rfl⟩ := List.mem_map.1 hm
  obtain ⟨ht, hd, -⟩ := pieces_text none l
  exact reporting_pieces hd (ht.symm ▸ reporting_lines h l hl)

/-! ## Separated commands -/

/-- The second text is the first one with semicolons in front of letters. -/
inductive Separated : List Char → List Char → Prop where
  | nil : Separated [] []
  | keep (c : Char) {cs out : List Char} : Separated cs out → Separated (c :: cs) (c :: out)
  | put {c : Char} {cs out : List Char} : c.isAlpha → Separated (c :: cs) out →
    Separated (c :: cs) (';' :: out)

namespace Separated

theorem append_left (word : List Char) {cs out : List Char} (h : Separated cs out) :
    Separated (word ++ cs) (word ++ out) := by
  induction word with
  | nil => exact h
  | cons c word ih => exact .keep c ih

/-- What stands at the end of the second text comes from the end of the first. -/
theorem suffix {cs out back : List Char} (h : Separated cs out) (hs : back <:+ out) :
    ∃ tail, tail <:+ cs ∧ Separated tail back := by
  induction h with
  | nil =>
    obtain rfl := List.suffix_nil.1 hs
    exact ⟨[], List.suffix_rfl, .nil⟩
  | keep c h ih =>
    rcases List.suffix_cons_iff.1 hs with rfl | hs
    · exact ⟨_, List.suffix_rfl, .keep c h⟩
    · obtain ⟨tail, ht, hb⟩ := ih hs
      exact ⟨tail, ht.trans (List.suffix_cons c _), hb⟩
  | put hc h ih =>
    rcases List.suffix_cons_iff.1 hs with rfl | hs
    · exact ⟨_, List.suffix_rfl, .put hc h⟩
    · exact ih hs

/-- A word without semicolons at the front of the second text stands at the front of the first. -/
theorem of_append {word cs back : List Char} (hw : ';' ∉ word) (h : Separated cs (word ++ back)) :
    ∃ tail, cs = word ++ tail ∧ Separated tail back := by
  induction word generalizing cs with
  | nil => exact ⟨cs, rfl, h⟩
  | cons w word ih =>
    rw [List.mem_cons, not_or] at hw
    cases h with
    | keep _ h =>
      obtain ⟨tail, rfl, ht⟩ := ih hw.2 h
      exact ⟨tail, rfl, ht⟩
    | put _ _ => exact absurd rfl hw.1

/-- A word without letters at the front of the first text stands at the front of the second. -/
theorem append_of {word tail out : List Char} (hw : ∀ c ∈ word, c.isAlpha = false)
    (h : Separated (word ++ tail) out) : ∃ back, out = word ++ back := by
  induction word generalizing out with
  | nil => exact ⟨out, rfl⟩
  | cons w word ih =>
    cases h with
    | keep _ h =>
      obtain ⟨back, rfl⟩ := ih (fun c hc => hw c (List.mem_cons_of_mem _ hc)) h
      exact ⟨back, rfl⟩
    | put hc _ =>
      rw [hw w List.mem_cons_self] at hc
      cases hc

/-- No call of the marker is parted. -/
theorem reporting {cs out : List Char} (h : Separated cs out) (hr : Reporting lines cs) :
    Reporting lines out := by
  intro back hb
  obtain ⟨tail, ht, hs⟩ := h.suffix hb
  obtain ⟨call, rfl, hcall⟩ := hs.of_append (by decide)
  obtain ⟨i, rest, hi, rfl⟩ := hr call ht
  have hdigits : ∀ c ∈ digitsOf i, c.isAlpha = false := fun c hc => by
    refine Bool.eq_false_iff.2 fun ha => ?_
    have hd := Script.isDigit_of_isNameStart (c := c) (by simp [Script.Lexer.isNameStart, ha])
    rw [Number.isDigit_of_mem_digitsOf hc] at hd
    cases hd
  have hplain : ∀ c ∈ '(' :: (digitsOf i ++ [')']), c.isAlpha = false := by
    intro c hc
    simp only [List.mem_cons, List.mem_append, List.not_mem_nil, or_false] at hc
    rcases hc with rfl | hc | rfl
    · rfl
    · exact hdigits c hc
    · rfl
  have hcall' : Separated ('(' :: (digitsOf i ++ [')']) ++ rest) back := by simpa using hcall
  obtain ⟨back', rfl⟩ := append_of hplain hcall'
  exact ⟨i, back', hi, by simp⟩

end Separated

/-- Separating commands puts semicolons in front of letters. -/
theorem separateWithin_separated {fuel : Nat} {quote before : Option Char} {cs : List Char}
    (h : cs.length ≤ fuel) : Separated cs (separateWithin fuel quote before cs) := by
  fun_induction separateWithin fuel quote before cs with
  | case1 quote before cs =>
    obtain rfl := List.length_eq_zero_iff.1 (Nat.le_zero.1 h)
    exact .nil
  | case2 => exact .nil
  | case3 => exact .keep _ .nil
  | case4 before fuel q c hc d cs ih =>
    rw [List.length_cons, List.length_cons] at h
    exact .keep _ (.keep _ (ih (by omega)))
  | case5 before fuel q c cs hc ih => exact .keep _ (ih (Nat.le_of_succ_le_succ h))
  | case6 fuel before c cs hc ih => exact .keep _ (ih (Nat.le_of_succ_le_succ h))
  | case7 fuel before c cs hq hc word rest apart followed front ih =>
    have hname : Script.Lexer.isNamePart c := by
      simp [Script.Lexer.isNamePart, Char.isAlphanum, hc]
    have hrest := ih (Nat.le_trans (dropWhile_length hname cs) (Nat.le_of_succ_le_succ h))
    have hword := hrest.append_left word
    rw [List.takeWhile_append_dropWhile] at hword
    by_cases hf : (apart && followed && Script.startsStatement (String.ofList word)) = true
    · simp only [front, hf, if_true]
      exact .put hc hword
    · simp only [front, hf]
      exact hword
  | case8 fuel before c cs hq hc ih => exact .keep _ (ih (Nat.le_of_succ_le_succ h))

/-- **Only headers are reported.** In the script of a sketch that does not name the marker, the marker
stands only in calls with the number of a header. -/
theorem reporting_toScript {cs script : List Char} (hm : occurs markerWord (prepare cs) = false)
    (h : toScript cs = .ok script) : Reporting (IsHeader cs) script := by
  rw [toScript_eq_ok h]
  exact (separateWithin_separated (Nat.le_refl _)).reporting
    (reporting_callBarewords (reporting_instrument hm))

end LiveSketch.Sketch

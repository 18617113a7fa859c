import LiveSketch.Text.Match

/-!
# What the front of a text is
-/
namespace LiveSketch.Text

/-- Characters of one kind and a rest that does not go on with them. -/
theorem takeWhile_append {p : Char → Bool} {cs rest : List Char} (h : ∀ c ∈ cs, p c)
    (hr : ∀ c ∈ rest.head?, p c = false) : (cs ++ rest).takeWhile p = cs := by
  rw [List.takeWhile_append_of_pos h]
  cases rest with
  | nil => simp
  | cons c rest => simp [hr c rfl]

theorem takeWhile_of_all {p : Char → Bool} {cs : List Char} (h : ∀ c ∈ cs, p c) :
    cs.takeWhile p = cs := by
  simpa using takeWhile_append h (by simp : ∀ c ∈ ([] : List Char).head?, p c = false)

theorem dropWhile_append {p : Char → Bool} {cs rest : List Char} (h : ∀ c ∈ cs, p c)
    (hr : ∀ c ∈ rest.head?, p c = false) : (cs ++ rest).dropWhile p = rest := by
  rw [List.dropWhile_append_of_pos h]
  cases rest with
  | nil => simp
  | cons c rest => simp [hr c rfl]

theorem dropWhile_of_all {p : Char → Bool} {cs : List Char} (h : ∀ c ∈ cs, p c) :
    cs.dropWhile p = [] := by
  simpa using dropWhile_append h (by simp : ∀ c ∈ ([] : List Char).head?, p c = false)

theorem all_of_dropWhile_eq_nil {p : Char → Bool} {cs : List Char} (h : cs.dropWhile p = []) :
    ∀ c ∈ cs, p c := by
  have hs := List.takeWhile_append_dropWhile (p := p) (l := cs)
  rw [h, List.append_nil] at hs
  rw [← hs]
  exact List.all_eq_true.1 List.all_takeWhile

/-- A character that is missing in the first part of a text stands in the second. -/
theorem append_eq_append_cons {as bs front back : List Char} {c : Char} (hc : c ∉ as)
    (h : as ++ bs = front ++ c :: back) : ∃ between, front = as ++ between ∧ bs = between ++ c :: back := by
  rcases List.append_eq_append_iff.1 h with ⟨between, hf, hb⟩ | ⟨between, ha, hb⟩
  · exact ⟨between, hf, hb⟩
  · cases between with
    | nil => exact ⟨[], by simpa using ha.symm, by simpa using hb.symm⟩
    | cons d ds =>
      rw [List.cons_append, List.cons.injEq] at hb
      exact absurd (by simp [ha, hb.1]) hc

theorem after?_eq_some {word cs rest : List Char} : after? word cs = some rest ↔ cs = word ++ rest := by
  induction word generalizing cs with
  | nil => simp [after?, eq_comm]
  | cons w word ih =>
    cases cs with
    | nil => simp [after?]
    | cons c cs =>
      by_cases h : w = c
      · simp [after?, h, ih]
      · simp [after?, h, Ne.symm h]

@[simp] theorem after?_append (word rest : List Char) : after? word (word ++ rest) = some rest :=
  after?_eq_some.2 rfl

end LiveSketch.Text

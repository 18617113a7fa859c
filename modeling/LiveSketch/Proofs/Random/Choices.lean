import LiveSketch.Random.Draw

/-!
# Drawn elements

What is drawn from a list is one of its elements, and something is drawn from every list that is not empty: the element at
an index below its length (`exists_choose?`), or, in one pass through the list, the first element until another one takes
its place (`exists_chooseLast?`).
-/
namespace LiveSketch.Random.Generator

variable {α : Type} {x : α} {xs : List α}

/-! ## One index -/

theorem belowWithin_lt {n : Nat} (hn : 0 < n) : ∀ (tries : Nat) (g : Generator), (belowWithin tries n g).1 < n := by
  intro tries
  induction tries with
  | zero => exact fun _ => hn
  | succ tries ih =>
    intro g
    simp only [belowWithin]
    split
    · have hw := (g.word.1).toNat_lt
      exact Nat.div_lt_of_lt_mul (Nat.mul_lt_mul_of_pos_right hw hn)
    · exact ih g.word.2

theorem below_lt {n : Nat} (hn : 0 < n) (g : Generator) : (g.below n).1 < n := belowWithin_lt hn attempts g

/-- Something is drawn from every list that is not empty. -/
theorem exists_choose? (hne : xs ≠ []) (g : Generator) : ∃ x ∈ xs, (g.choose? xs).1 = some x := by
  have hlt : (g.below xs.length).1 < xs.length := below_lt (List.length_pos_iff.2 hne) g
  refine ⟨xs[(g.below xs.length).1], List.getElem_mem hlt, ?_⟩
  cases xs with
  | nil => exact absurd rfl hne
  | cons x xs => exact List.getElem?_eq_getElem hlt

/-! ## One pass -/

theorem mem_of_chooseLastFrom : ∀ {k : Nat} {chosen : Option α} {g : Generator},
    (g.chooseLastFrom k chosen xs).1 = some x → chosen = some x ∨ x ∈ xs := by
  induction xs with
  | nil => exact fun h => .inl h
  | cons y ys ih =>
    intro k chosen g h
    rcases ih h with hc | hm
    · split at hc
      · cases hc
        exact .inr List.mem_cons_self
      · exact .inl hc
    · exact .inr (List.mem_cons_of_mem y hm)

theorem mem_of_chooseLast? {g : Generator} (h : (g.chooseLast? xs).1 = some x) : x ∈ xs :=
  (mem_of_chooseLastFrom h).resolve_left (Option.some_ne_none x).symm

/-- What is chosen may be replaced, and something stays chosen. -/
theorem isSome_chooseLastFrom : ∀ {k : Nat} {chosen : Option α} {g : Generator},
    chosen.isSome → (g.chooseLastFrom k chosen xs).1.isSome := by
  induction xs with
  | nil => exact fun h => h
  | cons y ys ih =>
    intro k chosen g h
    refine ih ?_
    split
    · rfl
    · exact h

/-- Something is drawn in one pass through every list that is not empty. -/
theorem exists_chooseLast? (hne : xs ≠ []) (g : Generator) : ∃ x ∈ xs, (g.chooseLast? xs).1 = some x := by
  cases xs with
  | nil => exact absurd rfl hne
  | cons y ys =>
    -- the only index below one is zero, so the first element is chosen for a start
    have hfirst : (g.below 1).1 = 0 := Nat.lt_one_iff.1 (below_lt Nat.one_pos g)
    have hsome : (g.chooseLast? (y :: ys)).1.isSome := by
      simp only [chooseLast?, chooseLastFrom, hfirst]
      exact isSome_chooseLastFrom rfl
    obtain ⟨x, hx⟩ := Option.isSome_iff_exists.1 hsome
    exact ⟨x, mem_of_chooseLast? hx, hx⟩

end LiveSketch.Random.Generator

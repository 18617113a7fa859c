import LiveSketch.Proofs.Sketch.Postfix
import LiveSketch.Sketch.Statements

/-!
# Calls of the sketch itself

A call of `draw` is looked for behind white space, and there may be white space in front of its parenthesis. So
white space next to other white space makes no call and hides none (`hasDraw_blanks`).
-/
namespace LiveSketch.Sketch

open Text

/-- Whether the first character of the text that is not blank opens a parenthesis. -/
def opensParen (cs : List Char) : Bool := (after? ['('] (cs.dropWhile isBlank)).isSome

@[simp] theorem opensParen_cons (c : Char) (cs : List Char) :
    opensParen (c :: cs) = if isBlank c then opensParen cs else c == '(' := by
  unfold opensParen
  by_cases hc : isBlank c
  · simp [hc]
  · by_cases hp : c = '('
    · subst hp
      rfl
    · simp [hc, hp, after?, Ne.symm hp]

theorem opensParen_append {bs bs' : List Char} (h : opensParen bs = opensParen bs') (as : List Char) :
    opensParen (as ++ bs) = opensParen (as ++ bs') := by
  induction as with
  | nil => exact h
  | cons c as ih => simp [ih]

theorem opensParen_blanks {blanks : List Char} (hb : ∀ c ∈ blanks, isBlank c) (cs : List Char) :
    opensParen (blanks ++ cs) = opensParen cs := by
  induction blanks with
  | nil => rfl
  | cons c blanks ih =>
    rw [List.forall_mem_cons] at hb
    rw [List.cons_append, opensParen_cons, if_pos hb.1, ih hb.2]

/-- Two texts are alike behind any text in which calls of `draw` are looked for. -/
structure DrawsAlike (bs bs' : List Char) : Prop where
  blank : ∀ c ∈ bs.head?, isBlank c
  blank' : ∀ c ∈ bs'.head?, isBlank c
  paren : opensParen bs = opensParen bs'
  draw : ∀ boundary, hasDraw boundary bs = hasDraw boundary bs'

namespace DrawsAlike

variable {bs bs' : List Char}

theorem startsDraw (h : DrawsAlike bs bs') (as : List Char) :
    Sketch.startsDraw (as ++ bs) = Sketch.startsDraw (as ++ bs') := by
  have hword : ∀ {cs : List Char}, (∀ c ∈ cs.head?, isBlank c) →
      after? "draw".toList (as ++ cs) = (after? "draw".toList as).map (· ++ cs) := by
    intro cs hb
    cases cs with
    | nil => simp
    | cons c cs =>
      refine after?_stop (fun hm => ?_) as cs
      have hall : ∀ d ∈ "draw".toList, isBlank d = false := by decide
      have hblank := hb c rfl
      rw [hall c hm] at hblank
      cases hblank
  unfold Sketch.startsDraw
  rw [hword h.blank, hword h.blank']
  cases after? "draw".toList as with
  | none => rfl
  | some rest => exact opensParen_append h.paren rest

/-- Behind the same text, the same calls of `draw` are found. -/
theorem append (h : DrawsAlike bs bs') (as : List Char) (boundary : Bool) :
    hasDraw boundary (as ++ bs) = hasDraw boundary (as ++ bs') := by
  induction as generalizing boundary with
  | nil => exact h.draw boundary
  | cons c as ih =>
    have hstart := h.startsDraw (c :: as)
    rw [List.cons_append, List.cons_append] at hstart ⊢
    rw [hasDraw, hasDraw, hstart, ih]

theorem symm (h : DrawsAlike bs bs') : DrawsAlike bs' bs :=
  ⟨h.blank', h.blank, h.paren.symm, fun boundary => (h.draw boundary).symm⟩

theorem trans {bs'' : List Char} (h : DrawsAlike bs bs') (h' : DrawsAlike bs' bs'') : DrawsAlike bs bs'' :=
  ⟨h.blank, h'.blank', h.paren.trans h'.paren, fun boundary => (h.draw boundary).trans (h'.draw boundary)⟩

/-- Texts behind the same text that begins with white space are alike. -/
theorem append_left (h : DrawsAlike bs bs') {as : List Char} (hne : as ≠ []) (ha : ∀ c ∈ as.head?, isBlank c) :
    DrawsAlike (as ++ bs) (as ++ bs') := by
  obtain ⟨c, as, rfl⟩ := List.exists_cons_of_ne_nil hne
  exact ⟨ha, ha, opensParen_append h.paren _, h.append _⟩

end DrawsAlike

/-- No call of `draw` begins with white space, so it does not matter what stands in front of it. -/
theorem hasDraw_blank {c : Char} (hc : isBlank c) (boundary : Bool) (cs : List Char) :
    hasDraw boundary (c :: cs) = hasDraw true cs := by
  have hne : 'd' ≠ c := by
    rintro rfl
    cases hc
  have hstart : startsDraw (c :: cs) = false := by simp [startsDraw, after?, hne]
  rw [hasDraw, hstart, hc, Bool.and_false, Bool.false_or, Bool.true_or, Bool.true_or]

/-- White space that ends in white space or at the end of the text does not matter to a call of `draw`. -/
theorem drawsAlike_blanks {blanks : List Char} (hb : ∀ c ∈ blanks, isBlank c) {cs : List Char}
    (hc : ∀ c ∈ cs.head?, isBlank c) : DrawsAlike (blanks ++ cs) cs := by
  have hcs : ∀ boundary, hasDraw true cs = hasDraw boundary cs := fun boundary => by
    cases cs with
    | nil => rfl
    | cons c cs => rw [hasDraw_blank (hc c rfl), hasDraw_blank (hc c rfl)]
  have hdraw : ∀ boundary, hasDraw boundary (blanks ++ cs) = hasDraw boundary cs := fun boundary => by
    induction blanks generalizing boundary with
    | nil => rfl
    | cons c blanks ih =>
      rw [List.forall_mem_cons] at hb
      rw [List.cons_append, hasDraw_blank hb.1, ih hb.2, hcs boundary]
  refine ⟨fun c hm => ?_, hc, opensParen_blanks hb cs, hdraw⟩
  cases blanks with
  | nil => exact hc c hm
  | cons _ blanks =>
    cases hm
    exact hb c List.mem_cons_self

/-- White space next to other white space or at the end of the text makes no call of `draw` and hides none. -/
theorem hasDraw_blanks {blanks : List Char} (hb : ∀ c ∈ blanks, isBlank c) {cs : List Char}
    (hc : ∀ c ∈ cs.head?, isBlank c) (as : List Char) (boundary : Bool) :
    hasDraw boundary (as ++ (blanks ++ cs)) = hasDraw boundary (as ++ cs) :=
  (drawsAlike_blanks hb hc).append as boundary

end LiveSketch.Sketch

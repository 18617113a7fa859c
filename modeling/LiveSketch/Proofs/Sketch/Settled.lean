import LiveSketch.Proofs.Sketch.Literals

/-!
# Texts that close their block comments

A text is `settled` if each block comment that begins in it ends in it. Removing the comments from such a text
does not hang on the lines behind it (`stripComments_settled`), and from another text it does not if no block
comment ends in those lines (`stripComments_apart`).
-/
namespace LiveSketch.Sketch

open Text

/-- Whether a block comment begins at the front of the text that does not end in it. -/
def opensComment : List Char → Bool
  | '/' :: '*' :: cs => (closeComment? cs).isNone
  | _ => false

/-- Whether all block comments are closed; each step takes a character off the text. -/
def settledWithin : (fuel : Nat) → List Char → Bool
  | 0, _ => true
  | _ + 1, [] => true
  | fuel + 1, c :: cs => !opensComment (c :: cs) && settledWithin fuel (commentStep c cs).2

/-- Whether each block comment of the text ends in it. -/
def settled (cs : List Char) : Bool := settledWithin cs.length cs

/-- Comments are removed step by step, and so are texts gone through for their comments. -/
@[elab_as_elim]
theorem commentInduction {motive : List Char → Prop} (nil : motive [])
    (step : ∀ c cs, motive (commentStep c cs).2 → motive (c :: cs)) (cs : List Char) : motive cs := by
  generalize hn : cs.length = n
  induction n using Nat.strongRecOn generalizing cs with
  | ind n ih =>
    cases cs with
    | nil => exact nil
    | cons c cs =>
      have hl := commentStep_length c cs
      rw [List.length_cons] at hn
      exact step c cs (ih _ (by omega) _ rfl)

theorem settledWithin_eq {fuel fuel' : Nat} {cs : List Char} (h : cs.length ≤ fuel) (h' : cs.length ≤ fuel') :
    settledWithin fuel cs = settledWithin fuel' cs := by
  induction cs using commentInduction generalizing fuel fuel' with
  | nil => cases fuel <;> cases fuel' <;> rfl
  | step c cs ih =>
    have hl := commentStep_length c cs
    rw [List.length_cons] at h h'
    obtain ⟨fuel, rfl⟩ : ∃ n, fuel = n + 1 := ⟨fuel - 1, by omega⟩
    obtain ⟨fuel', rfl⟩ : ∃ n, fuel' = n + 1 := ⟨fuel' - 1, by omega⟩
    rw [settledWithin, settledWithin, @ih fuel fuel' (by omega) (by omega)]

theorem settled_cons (c : Char) (cs : List Char) :
    settled (c :: cs) = (!opensComment (c :: cs) && settled (commentStep c cs).2) := by
  rw [settled, List.length_cons, settledWithin, settledWithin_eq (commentStep_length c cs) (Nat.le_refl _), settled]

/-- A step stays in front of a newline unless it opens a comment that ends behind it. -/
theorem commentStep_apart {c : Char} {cs bs : List Char}
    (h : opensComment (c :: cs) = false ∨ closeComment? bs = none) :
    commentStep c (cs ++ '\n' :: bs) = ((commentStep c cs).1, (commentStep c cs).2 ++ '\n' :: bs) := by
  have hnl := literal?_newline (c :: cs) bs (List.cons_ne_nil c cs)
  cases hl : literal? (c :: cs) with
  | some found =>
    rw [hl] at hnl
    rw [commentStep_of_literal hl]
    exact commentStep_of_literal hnl
  | none =>
    rw [hl] at hnl
    by_cases hc : c = '/'
    · subst hc
      cases cs with
      | nil => exact commentStep_slash (by decide) (by decide) bs
      | cons d ds =>
        by_cases hs : d = '/'
        · subst hs
          exact congrArg (Prod.mk []) (dropWhile_newline ds bs).1
        · by_cases hb : d = '*'
          · subst hb
            have hstep : commentStep '/' ('*' :: ds) = (closeComment? ds).getD (['/'], '*' :: ds) := rfl
            have hstep' : commentStep '/' ('*' :: ds ++ '\n' :: bs) =
                (closeComment? (ds ++ '\n' :: bs)).getD (['/'], '*' :: ds ++ '\n' :: bs) := rfl
            rw [hstep, hstep']
            rcases closeComment?_newline ds bs with ⟨found, hf, hn⟩ | ⟨hf, hn⟩
            · rw [hf, hn]
              rfl
            · have hbs : closeComment? bs = none := h.resolve_left (by simp [opensComment, hf])
              rw [hf, hn, hbs]
              rfl
          · rw [List.cons_append, commentStep_slash hs hb, commentStep_slash hs hb]
            rfl
    · rw [commentStep_of_plain hl hc]
      exact commentStep_of_plain hnl hc

/-- Comments are removed line by line where no block comment goes over the end of the line. -/
theorem stripComments_apart {as bs : List Char} (h : settled as ∨ closeComment? bs = none) :
    stripComments (as ++ '\n' :: bs) = stripComments as ++ '\n' :: stripComments bs := by
  induction as using commentInduction with
  | nil =>
    rw [List.nil_append, stripComments_cons, commentStep_of_plain rfl (by decide)]
    rfl
  | step c cs ih =>
    rw [settled_cons, Bool.and_eq_true, Bool.not_eq_true'] at h
    rw [List.cons_append, stripComments_cons, stripComments_cons, commentStep_apart (h.imp_left And.left),
      ih (h.imp_left And.right), List.append_assoc]

/-- The comments of a settled text are removed for themselves. -/
theorem stripComments_settled {as : List Char} (h : settled as) (bs : List Char) :
    stripComments (as ++ '\n' :: bs) = stripComments as ++ '\n' :: stripComments bs :=
  stripComments_apart (.inl h)

/-- What is still to be looked at is the end of the text. -/
theorem commentStep_suffix (c : Char) (cs : List Char) : (commentStep c cs).2 <:+ c :: cs := by
  unfold commentStep
  split
  · rename_i literal rest h
    exact ⟨literal, (literal?_eq_some h).1.symm⟩
  · split
    · rename_i cs _
      exact (List.dropWhile_suffix _).trans ((List.suffix_cons '/' cs).trans (List.suffix_cons '/' ('/' :: cs)))
    · rename_i rest _
      cases hc : closeComment? rest with
      | none => exact List.suffix_cons '/' ('*' :: rest)
      | some found =>
        obtain ⟨inside, rfl, -⟩ := closeComment?_eq_some hc
        exact ⟨'/' :: '*' :: inside ++ ['*', '/'], by simp⟩
    · exact List.suffix_cons c cs

/-- No block comment begins in a text without its opening mark. -/
theorem settled_of_unopened {cs : List Char} (h : ∀ back, ¬ '/' :: '*' :: back <:+ cs) : settled cs := by
  induction cs using commentInduction with
  | nil => rfl
  | step c cs ih =>
    rw [settled_cons, Bool.and_eq_true, Bool.not_eq_true']
    refine ⟨?_, ih fun back hb => h back (hb.trans (commentStep_suffix c cs))⟩
    unfold opensComment
    split
    · rename_i e
      exact absurd (List.suffix_refl _) (e ▸ h _)
    · rfl

theorem Clean.settled_append {as rest : List Char} (h : Clean ['/', '*'] rest as) :
    settled (as ++ rest) = settled rest := by
  induction h with
  | nil => rfl
  | @char c cs hq _ hs _ ih =>
    have ho : opensComment (c :: (cs ++ rest)) = false := by
      unfold opensComment
      split
      · rename_i e
        obtain ⟨rfl, he⟩ := List.cons.inj e
        exact absurd (by simp) (hs rfl '*' (by simp [he]))
      · rfl
    rw [List.cons_append, settled_cons, ho, commentStep_char hq hs, ih]
    rfl
  | @literal l cs hl _ ih =>
    obtain ⟨q, ds, rfl, hq, -⟩ := hl.exists_cons
    have hstep : commentStep q (ds ++ (cs ++ rest)) = (q :: ds, cs ++ rest) :=
      commentStep_of_literal (hl.literal? _)
    have ho : opensComment (q :: (ds ++ (cs ++ rest))) = false := by
      unfold opensComment
      split
      · rename_i e
        rw [(List.cons.inj e).1] at hq
        cases hq
      · rfl
    rw [List.append_assoc, List.cons_append, settled_cons, ho, hstep, ih]
    rfl

end LiveSketch.Sketch

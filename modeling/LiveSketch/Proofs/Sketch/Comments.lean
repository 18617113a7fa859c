import LiveSketch.Proofs.Text.Lines
import LiveSketch.Sketch.Comments

/-!
# Comments and lines

`line_stripComments`: what becomes of a line when the comments of a text are removed. A line that begins
outside block comments is stripped by itself; one that begins inside a block comment keeps nothing of
what stands before the end of that comment. `stripComments_cons` is the step behind it.
-/
namespace LiveSketch.Sketch

open Text

/-! ## Text literals -/

theorem quote_ne_newline {q : Char} (h : isQuote q) : q ≠ '\n' := by
  rintro rfl
  cases h

theorem closeLiteral?_cons {q c : Char} (hc : c ≠ '\\') (cs : List Char) :
    closeLiteral? q (c :: cs) = if c = q then some ([c], cs) else if c = '\n' then none
      else (closeLiteral? q cs).map fun found => (c :: found.1, found.2) := by
  rw [closeLiteral?] <;> simp [hc]

theorem ne_backslash {c : Char} {cs : List Char} (h : c = '\\' → cs = [] → False)
    (h' : ∀ d ds, c = '\\' → cs = d :: ds → False) : c ≠ '\\' := by
  intro e
  cases cs with
  | nil => exact h e rfl
  | cons d ds => exact h' d ds e rfl

/-- A text literal ends on its line, so it does not matter what stands behind the newline. -/
theorem closeLiteral?_newline {q : Char} (hq : q ≠ '\n') (as bs : List Char) :
    closeLiteral? q (as ++ '\n' :: bs) =
      (closeLiteral? q as).map fun found => (found.1, found.2 ++ '\n' :: bs) := by
  fun_induction closeLiteral? q as with
  | case1 => simp [closeLiteral?, hq.symm]
  | case2 => simp [closeLiteral?]
  | case3 d cs hd => simp_all [closeLiteral?]
  | case4 d cs hd ih =>
    simp_all [closeLiteral?]
    rfl
  | case5 c cs h1 h2 hc =>
    rw [List.cons_append, closeLiteral?_cons (ne_backslash h1 h2), if_pos (by simpa using hc)]
    rfl
  | case6 c cs h1 h2 hc hn =>
    rw [List.cons_append, closeLiteral?_cons (ne_backslash h1 h2), if_neg (by simpa using hc),
      if_pos (by simpa using hn)]
    rfl
  | case7 c cs h1 h2 hc hn ih =>
    rw [List.cons_append, closeLiteral?_cons (ne_backslash h1 h2), if_neg (by simpa using hc),
      if_neg (by simpa using hn), ih, Option.map_map, Option.map_map]
    rfl

/-- A literal is the front of the text, without a newline. -/
theorem closeLiteral?_eq_some {q : Char} {cs inside rest : List Char} (hq : q ≠ '\n')
    (h : closeLiteral? q cs = some (inside, rest)) : cs = inside ++ rest ∧ '\n' ∉ inside := by
  fun_induction closeLiteral? q cs generalizing inside with
  | case1 | case2 | case3 | case6 => cases h
  | case4 d cs hd ih =>
    obtain ⟨found, hf, he⟩ := Option.map_eq_some_iff.1 h
    cases he
    obtain ⟨rfl, hn⟩ := ih hf
    have hd' : '\n' ≠ d := fun e => hd (by simp [← e])
    exact ⟨rfl, by simp [hd', hn]⟩
  | case5 c cs h1 h2 hc =>
    cases h
    have hcq : c = q := by simpa using hc
    exact ⟨rfl, by simpa [hcq] using hq.symm⟩
  | case7 c cs h1 h2 hc hn ih =>
    obtain ⟨found, hf, he⟩ := Option.map_eq_some_iff.1 h
    cases he
    obtain ⟨rfl, hn'⟩ := ih hf
    have hc' : '\n' ≠ c := fun e => hn (by simp [← e])
    exact ⟨rfl, by simp [hc', hn']⟩

theorem literal?_newline (as bs : List Char) (h : as ≠ []) :
    literal? (as ++ '\n' :: bs) = (literal? as).map fun found => (found.1, found.2 ++ '\n' :: bs) := by
  cases as with
  | nil => exact absurd rfl h
  | cons c cs =>
    by_cases hc : isQuote c
    · simp [literal?, hc, closeLiteral?_newline (quote_ne_newline hc)]
      rfl
    · simp [literal?, hc]

theorem literal?_eq_some {cs literal rest : List Char} (h : literal? cs = some (literal, rest)) :
    cs = literal ++ rest ∧ '\n' ∉ literal ∧ literal ≠ [] := by
  cases cs with
  | nil => cases h
  | cons c cs =>
    by_cases hc : isQuote c
    · rw [literal?, if_pos hc] at h
      obtain ⟨found, hf, he⟩ := Option.map_eq_some_iff.1 h
      cases he
      obtain ⟨rfl, hn⟩ := closeLiteral?_eq_some (quote_ne_newline hc) hf
      simp [hn, (quote_ne_newline hc).symm]
    · simp [literal?, hc] at h

/-! ## Block comments -/

theorem closeComment?_cons {c : Char} {cs : List Char} (h : ∀ ds, c = '*' → cs = '/' :: ds → False) :
    closeComment? (c :: cs) =
      (closeComment? cs).map fun found => ([c].filter (· == '\n') ++ found.1, found.2) := by
  rw [closeComment?]
  · congr 1
    funext found
    by_cases hc : c = '\n' <;> simp [hc]
  · exact h

/-- A block comment that ends before a newline ends there whatever follows, and one that does not ends
where it would end if it began behind the newline. -/
theorem closeComment?_newline (as bs : List Char) :
    (∃ found, closeComment? as = some found ∧
      closeComment? (as ++ '\n' :: bs) = some (found.1, found.2 ++ '\n' :: bs)) ∨
    (closeComment? as = none ∧ closeComment? (as ++ '\n' :: bs) =
      (closeComment? bs).map fun found => (as.filter (· == '\n') ++ '\n' :: found.1, found.2)) := by
  fun_induction closeComment? as with
  | case1 => exact .inr ⟨rfl, by simp [closeComment?]⟩
  | case2 cs => exact .inl ⟨_, rfl, rfl⟩
  | case3 c cs hc ih =>
    have hstep : closeComment? (c :: cs ++ '\n' :: bs) = (closeComment? (cs ++ '\n' :: bs)).map
        fun found => ([c].filter (· == '\n') ++ found.1, found.2) := by
      refine closeComment?_cons fun ds he hd => ?_
      cases cs with
      | nil => cases hd
      | cons d cs => exact hc cs he (by rw [(List.cons.inj hd).1])
    rcases ih with ⟨found, hf, ih⟩ | ⟨hf, ih⟩
    · exact .inl ⟨_, by rw [hf]; rfl, by rw [hstep, ih]; by_cases hn : c = '\n' <;> simp [hn]⟩
    · refine .inr ⟨by rw [hf]; rfl, ?_⟩
      rw [hstep, ih, Option.map_map]
      congr 1
      funext found
      simp [← List.append_assoc, ← List.filter_append]

/-- What a block comment leaves is its newlines. -/
theorem closeComment?_eq_some {cs newlines rest : List Char}
    (h : closeComment? cs = some (newlines, rest)) :
    ∃ inside, cs = inside ++ '*' :: '/' :: rest ∧ newlines = inside.filter (· == '\n') := by
  fun_induction closeComment? cs generalizing newlines with
  | case1 => cases h
  | case2 cs =>
    cases h
    exact ⟨[], rfl, rfl⟩
  | case3 c cs hc ih =>
    obtain ⟨found, hf, he⟩ := Option.map_eq_some_iff.1 h
    cases he
    obtain ⟨inside, rfl, hi⟩ := ih hf
    refine ⟨c :: inside, rfl, ?_⟩
    by_cases hn : c = '\n' <;> simp [hn, hi]

/-! ## Removing comments -/

theorem commentStep_length (c : Char) (cs : List Char) : (commentStep c cs).2.length ≤ cs.length := by
  unfold commentStep
  split
  · rename_i literal rest h
    obtain ⟨he, -, hne⟩ := literal?_eq_some h
    have hl := congrArg List.length he
    have hpos := List.length_pos_iff.2 hne
    simp only [List.length_cons, List.length_append] at hl ⊢
    omega
  · split
    · rename_i cs _
      have hl := (List.dropWhile_sublist (· != '\n') (l := cs)).length_le
      simp only [List.length_cons]
      omega
    · rename_i rest _
      cases hc : closeComment? rest with
      | none => exact Nat.le_refl _
      | some found =>
        obtain ⟨inside, hi, -⟩ := closeComment?_eq_some hc
        simp [hi]
        omega
    · exact Nat.le_refl _

theorem stripCommentsWithin_cons (fuel : Nat) (c : Char) (cs : List Char) :
    stripCommentsWithin (fuel + 1) (c :: cs) =
      (commentStep c cs).1 ++ stripCommentsWithin fuel (commentStep c cs).2 := rfl

theorem stripCommentsWithin_eq {fuel fuel' : Nat} {cs : List Char} (h : cs.length ≤ fuel)
    (h' : cs.length ≤ fuel') : stripCommentsWithin fuel cs = stripCommentsWithin fuel' cs := by
  induction fuel generalizing fuel' cs with
  | zero =>
    obtain rfl := List.length_eq_zero_iff.1 (Nat.le_zero.1 h)
    cases fuel' <;> rfl
  | succ fuel ih =>
    cases cs with
    | nil => cases fuel' <;> rfl
    | cons c cs =>
      rw [List.length_cons] at h h'
      obtain ⟨fuel', rfl⟩ : ∃ n, fuel' = n + 1 := ⟨fuel' - 1, by omega⟩
      have hl := commentStep_length c cs
      rw [stripCommentsWithin_cons, stripCommentsWithin_cons, @ih fuel' _ (by omega) (by omega)]

/-- One step of removing comments. -/
theorem stripComments_cons (c : Char) (cs : List Char) :
    stripComments (c :: cs) = (commentStep c cs).1 ++ stripComments (commentStep c cs).2 := by
  have hl := commentStep_length c cs
  rw [stripComments, List.length_cons, stripCommentsWithin_cons, stripComments,
    stripCommentsWithin_eq hl (Nat.le_refl _)]

theorem commentStep_of_literal {c : Char} {cs : List Char} {found : List Char × List Char}
    (h : literal? (c :: cs) = some found) : commentStep c cs = found := by
  simp [commentStep, h]

theorem commentStep_of_plain {c : Char} {cs : List Char} (h : literal? (c :: cs) = none)
    (hc : c ≠ '/') : commentStep c cs = ([c], cs) := by
  simp [commentStep, h, hc]

theorem commentStep_slash {c : Char} (hs : c ≠ '/') (hb : c ≠ '*') (cs : List Char) :
    commentStep '/' (c :: cs) = (['/'], c :: cs) := by
  have h : literal? ('/' :: c :: cs) = none := rfl
  simp [commentStep, h, hs, hb]

theorem dropWhile_newline (as bs : List Char) :
    (as ++ '\n' :: bs).dropWhile (· != '\n') = as.dropWhile (· != '\n') ++ '\n' :: bs ∧
      (as.dropWhile (· != '\n')).count '\n' = as.count '\n' := by
  induction as with
  | nil => exact ⟨rfl, rfl⟩
  | cons c cs ih => by_cases hc : c = '\n' <;> simp [hc, ih]

/-- A step in front of a newline either stays in front of it or is a block comment that ends behind it. -/
theorem commentStep_newline (c : Char) (cs bs : List Char) :
    (∃ kept rest, commentStep c (cs ++ '\n' :: bs) = (kept, rest ++ '\n' :: bs) ∧
      rest.length ≤ cs.length ∧ kept.count '\n' + rest.count '\n' = (c :: cs).count '\n' ∧
      (∀ d ∈ kept, d ∈ c :: cs) ∧ ∀ d ∈ rest, d ∈ c :: cs) ∨
    ∃ kept newlines rest, closeComment? bs = some (newlines, rest) ∧
      commentStep c (cs ++ '\n' :: bs) = (kept ++ '\n' :: newlines, rest) ∧
      kept.count '\n' = (c :: cs).count '\n' ∧ ∀ d ∈ kept, d ∈ c :: cs := by
  have plain : ∀ {c : Char} {cs : List Char}, commentStep c (cs ++ '\n' :: bs) = ([c], cs ++ '\n' :: bs) →
      ∃ kept rest, commentStep c (cs ++ '\n' :: bs) = (kept, rest ++ '\n' :: bs) ∧
        rest.length ≤ cs.length ∧ kept.count '\n' + rest.count '\n' = (c :: cs).count '\n' ∧
        (∀ d ∈ kept, d ∈ c :: cs) ∧ ∀ d ∈ rest, d ∈ c :: cs := fun h =>
    ⟨_, _, h, Nat.le_refl _, by rw [← List.count_append]; rfl, by simp,
      fun d hd => List.mem_cons_of_mem _ hd⟩
  have hliteral := literal?_newline (c :: cs) bs (List.cons_ne_nil c cs)
  cases hl : literal? (c :: cs) with
  | some found =>
    obtain ⟨literal, rest⟩ := found
    obtain ⟨he, hn, hne⟩ := literal?_eq_some hl
    rw [hl] at hliteral
    refine .inl ⟨literal, rest, commentStep_of_literal hliteral, ?_, ?_, ?_, ?_⟩
    · have hlength := congrArg List.length he
      have hpos := List.length_pos_iff.2 hne
      simp only [List.length_cons, List.length_append] at hlength
      omega
    · rw [he, List.count_append]
    · exact fun d hd => he ▸ List.mem_append_left _ hd
    · exact fun d hd => he ▸ List.mem_append_right _ hd
  | none =>
    rw [hl] at hliteral
    by_cases hc : c = '/'
    · subst hc
      cases cs with
      | nil => exact .inl (plain (commentStep_slash (by decide) (by decide) bs))
      | cons d ds =>
        by_cases hs : d = '/'
        · subst hs
          obtain ⟨hd, hcount⟩ := dropWhile_newline ds bs
          have hsub := List.dropWhile_sublist (· != '\n') (l := ds)
          refine .inl ⟨[], _, congrArg (Prod.mk []) hd, ?_, by simpa using hcount, by simp, ?_⟩
          · exact Nat.le_succ_of_le hsub.length_le
          · exact fun e he => by simp [hsub.subset he]
        · by_cases hb : d = '*'
          · subst hb
            have hstep : commentStep '/' ('*' :: ds ++ '\n' :: bs) =
                (closeComment? (ds ++ '\n' :: bs)).getD (['/'], '*' :: ds ++ '\n' :: bs) := rfl
            rcases closeComment?_newline ds bs with ⟨⟨newlines, rest⟩, hf, hn⟩ | ⟨-, hn⟩
            · obtain ⟨inside, rfl, rfl⟩ := closeComment?_eq_some hf
              refine .inl ⟨_, rest, by rw [hstep, hn]; rfl, ?_, ?_, ?_, ?_⟩
              · simp
                omega
              · simp [List.count_filter]
              · exact fun d hd => by simp [(List.mem_filter.1 hd).1]
              · exact fun d hd => by simp [hd]
            · cases hf : closeComment? bs with
              | none =>
                rw [hf] at hn
                exact .inl (plain (by rw [hstep, hn]; rfl))
              | some found =>
                rw [hf] at hn
                refine .inr ⟨_, found.1, found.2, rfl, by rw [hstep, hn]; rfl, ?_, ?_⟩
                · simp [List.count_filter]
                · exact fun d hd => by simp [(List.mem_filter.1 hd).1]
          · exact .inl (plain (commentStep_slash hs hb _))
    · exact .inl (plain (commentStep_of_plain hliteral hc))

/-- What can stand behind a newline when the comments are gone: the text behind it without its comments,
or, if the newline was inside a block comment, what is left behind the end of that comment. -/
def Resumes (cs stripped : List Char) : Prop :=
  stripped = stripComments cs ∨
    ∃ newlines rest, closeComment? cs = some (newlines, rest) ∧
      stripped = newlines ++ stripComments rest

/-- Removing comments keeps every newline where it was. -/
theorem stripComments_newline (as bs : List Char) :
    ∃ front back, stripComments (as ++ '\n' :: bs) = front ++ '\n' :: back ∧
      front.count '\n' = as.count '\n' ∧ (∀ c ∈ front, c ∈ as) ∧ Resumes bs back := by
  -- the induction is on the length, since a step can take off more than one character
  generalize hn : as.length = n
  induction n using Nat.strongRecOn generalizing as with
  | ind n ih =>
    cases as with
    | nil =>
      have hl : literal? ('\n' :: bs) = none := rfl
      refine ⟨[], stripComments bs, ?_, rfl, by simp, .inl rfl⟩
      rw [List.nil_append, stripComments_cons, commentStep_of_plain hl (by decide)]
      rfl
    | cons c cs =>
      rw [List.length_cons] at hn
      rcases commentStep_newline c cs bs with
        ⟨kept, rest, hstep, hlen, hcount, hkept, hrest⟩ | ⟨kept, newlines, rest, hclose, hstep, hcount, hkept⟩
      · obtain ⟨front, back, hs, hc, hf, hr⟩ := ih rest.length (by omega) rest rfl
        refine ⟨kept ++ front, back, ?_, ?_, ?_, hr⟩
        · rw [List.cons_append, stripComments_cons, hstep, hs, List.append_assoc]
        · rw [List.count_append, hc, hcount]
        · exact fun d hd => (List.mem_append.1 hd).elim (hkept d) fun h => hrest d (hf d h)
      · refine ⟨kept, newlines ++ stripComments rest, ?_, hcount, hkept, .inr ⟨_, _, hclose, rfl⟩⟩
        rw [List.cons_append, stripComments_cons, hstep, List.append_assoc]
        rfl

theorem commentStep_subset (c : Char) (cs : List Char) :
    (∀ d ∈ (commentStep c cs).1, d ∈ c :: cs) ∧ ∀ d ∈ (commentStep c cs).2, d ∈ c :: cs := by
  unfold commentStep
  split
  · rename_i literal rest h
    rw [(literal?_eq_some h).1]
    exact ⟨fun d hd => List.mem_append_left _ hd, fun d hd => List.mem_append_right _ hd⟩
  · split
    · rename_i cs _
      have hsub := (List.dropWhile_sublist (· != '\n') (l := cs)).subset
      exact ⟨by simp, fun d hd => by simp [hsub hd]⟩
    · rename_i rest _
      cases hc : closeComment? rest with
      | none => exact ⟨by simp, fun d hd => List.mem_cons_of_mem _ hd⟩
      | some found =>
        obtain ⟨inside, rfl, hi⟩ := closeComment?_eq_some hc
        refine ⟨fun d hd => ?_, fun d hd => by simp [Option.getD_some ▸ hd]⟩
        have hd' : d ∈ found.1 := hd
        rw [hi] at hd'
        simp [(List.mem_filter.1 hd').1]
    · exact ⟨by simp, fun d hd => List.mem_cons_of_mem _ hd⟩

/-- Removing comments adds no characters. -/
theorem mem_stripComments {cs : List Char} {c : Char} (h : c ∈ stripComments cs) : c ∈ cs := by
  generalize hn : cs.length = n
  induction n using Nat.strongRecOn generalizing cs with
  | ind n ih =>
    cases cs with
    | nil => exact h
    | cons d ds =>
      have hl := commentStep_length d ds
      obtain ⟨hkept, hrest⟩ := commentStep_subset d ds
      rw [List.length_cons] at hn
      rw [stripComments_cons, List.mem_append] at h
      rcases h with h | h
      · exact hkept c h
      · exact hrest c (ih _ (by omega) h rfl)

/-! ## Lines -/

theorem mem_firstLine_stripComments {cs : List Char} {c : Char}
    (h : c ∈ (stripComments cs).takeWhile (· != '\n')) : c ∈ cs.takeWhile (· != '\n') := by
  rcases firstLine_cases cs with hline | ⟨rest, hline⟩
  · rw [← hline]
    exact mem_stripComments ((List.takeWhile_sublist _).subset h)
  · obtain ⟨front, back, hs, hcount, hf, -⟩ :=
      stripComments_newline (cs.takeWhile (· != '\n')) rest
    rw [← hline] at hs
    rw [List.count_eq_zero.2 (newline_notMem_firstLine cs)] at hcount
    rw [hs, takeWhile_append (ne_newline_of_notMem (List.count_eq_zero.1 hcount)) (by simp)] at h
    exact hf c h

/-- What is left of a line: -/
theorem line_stripComments {cs line : List Char} {i : Nat} (h : (splitLines cs)[i]? = some line) :
    ∃ rest back, line = rest.takeWhile (· != '\n') ∧ Resumes rest back ∧
      (splitLines (stripComments cs))[i]? = some (back.takeWhile (· != '\n')) := by
  obtain ⟨rest, hline, ⟨rfl, rfl⟩ | ⟨front, rfl, rfl⟩⟩ := exists_of_getElem?_splitLines h
  · obtain ⟨lines, hl⟩ := splitLines_eq_cons (stripComments cs)
    exact ⟨cs, stripComments cs, hline, .inl rfl, by rw [hl]; rfl⟩
  · obtain ⟨front', back, hs, hcount, -, hr⟩ := stripComments_newline front rest
    obtain ⟨lines, hl⟩ := splitLines_eq_cons back
    refine ⟨rest, back, hline, hr, ?_⟩
    have hlength : (splitLines front').length = front.count '\n' + 1 := by
      rw [length_splitLines, hcount]
    rw [hs, splitLines_append_newline, List.getElem?_append_right (by omega), hlength, Nat.sub_self,
      hl, List.getElem?_cons_zero]

/-- Of a line with a comment behind its indentation only the indentation stays. -/
theorem firstLine_stripComments {cs indent comment : List Char}
    (h : cs.takeWhile (· != '\n') = indent ++ '/' :: '/' :: comment)
    (hi : ∀ c ∈ indent, isQuote c = false ∧ c ≠ '/') :
    (stripComments cs).takeWhile (· != '\n') = indent := by
  have hskip : ∀ rest, stripComments (indent ++ '/' :: '/' :: rest) =
      indent ++ stripComments (rest.dropWhile (· != '\n')) := by
    intro rest
    clear h
    induction indent with
    | nil =>
      rw [List.nil_append, stripComments_cons]
      rfl
    | cons c indent ih =>
      have hl : literal? (c :: (indent ++ '/' :: '/' :: rest)) = none := by
        simp [literal?, (hi c List.mem_cons_self).1]
      rw [List.cons_append, stripComments_cons, commentStep_of_plain hl (hi c List.mem_cons_self).2,
        ih fun d hd => hi d (List.mem_cons_of_mem _ hd)]
      rfl
  have hn := newline_notMem_firstLine cs
  rw [h] at hn
  have hindent := ne_newline_of_notMem fun m => hn (List.mem_append_left _ m)
  have hcomment := ne_newline_of_notMem fun m : '\n' ∈ comment => hn (by simp [m])
  rcases firstLine_cases cs with hline | ⟨rest, hline⟩
  · rw [hline, h, hskip, dropWhile_of_all hcomment]
    exact (congrArg _ (List.append_nil indent)).trans (takeWhile_of_all hindent)
  · rw [hline, h, List.append_assoc, List.cons_append, List.cons_append, hskip,
      dropWhile_append hcomment (by simp), stripComments_cons,
      commentStep_of_plain rfl (by decide)]
    exact takeWhile_append hindent (by simp)

/-- A character that is missing in a line without its comment, and behind the end of a block comment on
it, is missing in what is left of the line. -/
theorem notMem_stripComments {cs line stripped : List Char} {i : Nat} {c : Char}
    (h : (splitLines cs)[i]? = some line) (hs : (splitLines (stripComments cs))[i]? = some stripped)
    (hline : c ∉ line ∨ ∃ indent comment, line = indent ++ '/' :: '/' :: comment ∧
      (∀ d ∈ indent, isQuote d = false ∧ d ≠ '/') ∧ c ∉ indent)
    (hclose : ∀ front back, line = front ++ '*' :: '/' :: back → c ∉ back) : c ∉ stripped := by
  obtain ⟨rest, back, rfl, hr, hi⟩ := line_stripComments h
  obtain rfl := Option.some.inj (hs.symm.trans hi)
  rcases hr with rfl | ⟨newlines, rest', hf, rfl⟩
  · rcases hline with hc | ⟨indent, comment, he, hindent, hc⟩
    · exact mt mem_firstLine_stripComments hc
    · rwa [firstLine_stripComments he hindent]
  · obtain ⟨inside, rfl, rfl⟩ := closeComment?_eq_some hf
    by_cases hn : '\n' ∈ inside
    · cases hfilter : inside.filter (· == '\n') with
      | nil => simpa using List.filter_eq_nil_iff.1 hfilter _ hn
      | cons d ds =>
        have hd : d = '\n' := by
          have hmem : d ∈ inside.filter (· == '\n') := hfilter ▸ List.mem_cons_self
          simpa using (List.mem_filter.1 hmem).2
        simp [hd]
    · have hnone : inside.filter (· == '\n') = [] := by
        simpa using fun d (hd : d ∈ inside) (e : d = '\n') => hn (e ▸ hd)
      rw [hnone]
      refine mt mem_firstLine_stripComments (hclose inside _ ?_)
      rw [List.takeWhile_append_of_pos (ne_newline_of_notMem hn)]
      rfl

end LiveSketch.Sketch

import LiveSketch.Proofs.Script.Semicolons

/-!
# Semicolons taken away

The semicolons in front of statements may be taken away again: what the grammar derives from the glyphs with them it
derives from the glyphs without them (`DerivesProgram.of_parted`). A semicolon that has been put there is one in front of
a line of statements, where the grammar passes over it.
-/
namespace LiveSketch.Script

open LiveSketch.Script.Parser

variable {prev kind : TokenKind} {apart : Bool} {gs gs' words rest rest' : List Glyph}

theorem Look.symm (h : Look gs gs') : Look gs' gs :=
  ⟨h.front.symm, h.isApart.symm, h.follows.symm, h.touches.symm⟩

namespace Parted

/-- A token that is no semicolon has not been put there. -/
theorem of_cons (h : Parted prev gs (.token kind apart :: gs')) (hk : kind ≠ .semicolon) :
    ∃ gs'', gs = .token kind apart :: gs'' ∧ Parted kind gs'' gs' := by
  cases h with
  | keep h => exact ⟨_, rfl, h⟩
  | put => exact absurd rfl hk

theorem front_of_ne (h : Parted prev gs gs') (hk : front gs' ≠ .semicolon) : front gs = front gs' :=
  (h.front_cases.resolve_right fun he => hk he.1).symm

/-- Nothing has been put into an expression. -/
theorem of_inner (hw : IsInner words) (h : Parted prev gs (words ++ rest')) :
    ∃ k rest, gs = words ++ rest ∧ Parted k rest rest' ∧ (prev.leads = false ∨ words ≠ [] → k.leads = false) := by
  induction words generalizing prev gs with
  | nil => exact ⟨prev, gs, rfl, h, fun hl => hl.resolve_right (· rfl)⟩
  | cons g words ih =>
    cases g with
    | opening | closing => cases h
    | token kind apart =>
      obtain ⟨hk, hw⟩ := isInner_cons.1 hw
      obtain ⟨gs'', rfl, hgs⟩ := h.of_cons (by rintro rfl; cases hk.1)
      obtain ⟨k, rest, rfl, hrest, hl⟩ := ih hw hgs
      exact ⟨k, rest, rfl, hrest, fun _ => hl (.inl hk.1)⟩

end Parted

/-- An expression stays, and behind it no statement begins. -/
theorem Derives.of_parted {p : Phrase} (h : Derives p words rest') (hg : Parted prev gs (words ++ rest')) :
    ∃ k rest, k.leads = false ∧ gs = words ++ rest ∧ Parted k rest rest' ∧ Derives p words rest := by
  obtain ⟨k, rest, rfl, hrest, hk⟩ := hg.of_inner h.isInner
  have hk := hk (.inr h.shaped.ne_nil)
  exact ⟨k, rest, hk, rfl, hrest, h.of_look (hrest.look hk).symm⟩

/-! ## Statements -/

theorem leads_of_stepOp? {op : AssignOp} (h : stepOp? kind = some op) : kind.leads = false := by
  unfold stepOp? at h
  split at h <;> first | rfl | cases h

/-- Behind its first token a statement sees of both texts the same. -/
theorem IsBare.of_look (hb : IsBare (.token kind apart :: (words ++ rest))) (h : Look rest rest') :
    IsBare (.token kind apart :: (words ++ rest')) := by
  have h := h.append words
  cases kind with
  | ident word => rwa [IsBare, h.front, h.follows]
  | _ => trivial

/-- A line of statements that begins with a name may stand apart from what is in front of it or touch it. -/
theorem DerivesClause.setApart_line {items : List Item} {word : String} (h : DerivesClause (.line items) words rest)
    (hword : front (words ++ rest) = .ident word) (apart : Bool) :
    words ≠ [] ∧ DerivesClause (.line items) (Script.setApart apart words) rest := by
  cases h with
  | semicolon | newline => cases hword
  | noLine he =>
    rw [List.nil_append] at hword
    rw [hword] at he
    rcases he with he | he <;> cases he
  | lineDone h => exact ⟨h.ne_nil, .lineDone (h.setApart apart)⟩
  | nextItem h hend hl =>
    rw [setApart_append h.ne_nil]
    exact ⟨fun he => h.ne_nil (List.append_eq_nil_iff.1 he).1, .nextItem (h.setApart apart) hend hl⟩

/-- The same clause in front of what has been taken out of the glyphs behind it. If a statement does not end here, none
begins behind it. -/
def UnpartedClause (c : Clause) (gs rest' : List Glyph) : Prop :=
  ∃ k words rest, gs = words ++ rest ∧ Parted k rest rest' ∧ DerivesClause c words rest ∧ (c.isOpen → k.leads = false)

theorem not_isOpen_done (item : Item) : ¬ (Clause.statement item true).isOpen := Bool.false_ne_true ∘ Eq.symm

/-- From the glyphs without semicolons the grammar derives the same, whatever stands behind the clause. -/
theorem DerivesClause.of_parted {c : Clause} (h : DerivesClause c words rest') :
    ∀ {prev gs}, Parted prev gs (words ++ rest') → UnpartedClause c gs rest' := by
  induction h with
  | done he =>
    intro prev gs hg
    refine ⟨prev, [], gs, rfl, hg, .done ?_, False.elim⟩
    rwa [hg.front_of_ne (by rcases he with he | he <;> simp [he])]
  | blank _ ih =>
    intro prev gs hg
    obtain ⟨gs, rfl, hg'⟩ := hg.of_cons (by simp)
    obtain ⟨k, words, rest, rfl, hr, h, -⟩ := ih hg'
    exact ⟨k, _ :: words, rest, rfl, hr, .blank h, False.elim⟩
  | row hw _ hattach _ ih ih' =>
    intro prev gs hg
    rw [List.append_assoc] at hg
    have hword : (front gs).isWord := by
      rcases hg.front_cases with he | ⟨-, word, he, -⟩
      · rwa [← he]
      · rw [he]
        rfl
    obtain ⟨k, words, gs, rfl, hr, h, -⟩ := ih hg
    obtain ⟨k', words', rest, rfl, hr', h', -⟩ := ih' hr
    exact ⟨k', words ++ words', rest, (List.append_assoc ..).symm, hr', .row hword h hattach h', False.elim⟩
  | @semicolon apart items words rest' _ ih =>
    intro prev gs hg
    rw [List.cons_append] at hg
    generalize hgs : words ++ rest' = gs' at hg
    cases hg with
    | keep h =>
      subst hgs
      obtain ⟨k, words, rest, rfl, hr, h, -⟩ := ih h
      exact ⟨k, _ :: words, rest, rfl, hr, .semicolon h, False.elim⟩
    | @put _ word _ gs _ _ _ h =>
      -- the semicolon goes, and the name behind it stands apart as the semicolon did
      have hg : Parted .semicolon (.token (.ident word) false :: gs) (words ++ rest') := hgs ▸ .keep h
      obtain ⟨k, words, rest, he, hr, h, -⟩ := ih hg
      obtain ⟨hne, h⟩ := h.setApart_line (by rw [← he]; rfl) apart
      refine ⟨k, Script.setApart apart words, rest, ?_, hr, h, False.elim⟩
      rw [← setApart_append hne, ← he, Script.setApart]
  | newline =>
    intro prev gs hg
    obtain ⟨gs, rfl, hg'⟩ := hg.of_cons (by simp)
    exact ⟨_, [_], gs, rfl, hg', .newline, False.elim⟩
  | noLine he =>
    intro prev gs hg
    refine ⟨prev, [], gs, rfl, hg, .noLine ?_, False.elim⟩
    rwa [hg.front_of_ne (by rcases he with he | he <;> simp [he])]
  | lineDone _ ih =>
    intro prev gs hg
    obtain ⟨k, words, rest, rfl, hr, h, -⟩ := ih hg
    exact ⟨k, words, rest, rfl, hr, .lineDone h, False.elim⟩
  | nextItem _ hend _ ih ih' =>
    intro prev gs hg
    rw [List.append_assoc] at hg
    obtain ⟨k, words, gs, rfl, hr, h, hk⟩ := ih hg
    rw [(hr.look (hk rfl)).front] at hend
    obtain ⟨k', words', rest, rfl, hr', h', -⟩ := ih' hr
    exact ⟨k', words ++ words', rest, (List.append_assoc ..).symm, hr', .nextItem h hend h', False.elim⟩
  | @loop apart apart' count b words words' rest' h _ ih =>
    intro prev gs hg
    rw [List.cons_append, List.append_assoc, List.cons_append] at hg
    obtain ⟨gs, rfl, hg'⟩ := hg.of_cons (by simp)
    obtain ⟨k, gs, -, rfl, hr, h⟩ := h.of_parted hg'
    obtain ⟨gs, rfl, hr'⟩ := hr.of_cons (by simp)
    obtain ⟨k, words', rest, rfl, hr, hb, -⟩ := ih hr'
    refine ⟨k, .token (.ident "repeat") apart :: (words ++ .token .arrow apart' :: words'), rest, ?_, hr, .loop h hb,
      (absurd · (not_isOpen_done _))⟩
    rw [List.cons_append, List.append_assoc, List.cons_append]
  | branch _ ih =>
    intro prev gs hg
    obtain ⟨gs, rfl, hg'⟩ := hg.of_cons (by simp)
    obtain ⟨k, words, rest, rfl, hr, h, -⟩ := ih hg'
    exact ⟨k, _ :: words, rest, rfl, hr, .branch h, (absurd · (not_isOpen_done _))⟩
  | otherwiseIf _ ih =>
    intro prev gs hg
    obtain ⟨gs, rfl, hg'⟩ := hg.of_cons (by simp)
    obtain ⟨gs, rfl, hg''⟩ := hg'.of_cons (by simp)
    obtain ⟨k, words, rest, rfl, hr, h, -⟩ := ih hg''
    exact ⟨k, _ :: _ :: words, rest, rfl, hr, .otherwiseIf h, (absurd · (not_isOpen_done _))⟩
  | otherwise hif harrow _ ih =>
    intro prev gs hg
    obtain ⟨gs, rfl, hg'⟩ := hg.of_cons (by simp)
    have hfront : front gs ≠ .ident "if" ∧ front gs ≠ .arrow := by
      rcases hg'.front_cases with he | ⟨-, word, he, hword⟩
      · rw [← he]
        exact ⟨hif, harrow⟩
      · rw [he]
        exact ⟨by simpa using hword, by simp⟩
    obtain ⟨k, words, rest, rfl, hr, h, -⟩ := ih hg'
    exact ⟨k, _ :: words, rest, rfl, hr, .otherwise hfront.1 hfront.2 h, (absurd · (not_isOpen_done _))⟩
  | otherwiseArrow _ ih =>
    intro prev gs hg
    obtain ⟨gs, rfl, hg'⟩ := hg.of_cons (by simp)
    obtain ⟨gs, rfl, hg''⟩ := hg'.of_cons (by simp)
    obtain ⟨k, words, rest, rfl, hr, h, -⟩ := ih hg''
    exact ⟨k, _ :: _ :: words, rest, rfl, hr, .otherwiseArrow h, (absurd · (not_isOpen_done _))⟩
  | assign hkey hop h hs =>
    intro prev gs hg
    obtain ⟨gs, rfl, hg'⟩ := hg.of_cons (by simp)
    obtain ⟨gs, rfl, hg''⟩ := hg'.of_cons (by rintro rfl; cases hop)
    obtain ⟨k, rest, hk, rfl, hr, h⟩ := h.of_parted hg''
    exact ⟨k, _, rest, rfl, hr, .assign hkey hop h ((hr.look hk).symm.stops hs), fun _ => hk⟩
  | step hkey hop =>
    intro prev gs hg
    obtain ⟨gs, rfl, hg'⟩ := hg.of_cons (by simp)
    obtain ⟨gs, rfl, hg''⟩ := hg'.of_cons (by rintro rfl; cases hop)
    exact ⟨_, _, gs, rfl, hg'', .step hkey hop, fun _ => leads_of_stepOp? hop⟩
  | command hkey hf h =>
    intro prev gs hg
    obtain ⟨gs, rfl, hg'⟩ := hg.of_cons (by simp)
    have hf' := (hg'.look (isInner_name hkey).1).follows.symm.trans hf
    obtain ⟨k, rest, hk, rfl, hr, h⟩ := h.of_parted hg'
    exact ⟨k, _, rest, rfl, hr, .command hkey hf' h, fun _ => hk⟩
  | @bare e words rest' hb h hs =>
    intro prev gs hg
    have hne := h.shaped.ne_nil
    obtain ⟨k, rest, hk, rfl, hr, h⟩ := h.of_parted hg
    have hlook := (hr.look hk).symm
    refine ⟨k, words, rest, rfl, hr, .bare ?_ h (hlook.stops hs), fun _ => hk⟩
    cases words with
    | nil => exact absurd rfl hne
    | cons g words =>
      cases g with
      | opening | closing => cases hg
      | token kind apart => exact IsBare.of_look hb hlook
  | arrow h _ ih =>
    intro prev gs hg
    rw [List.append_assoc, List.cons_append] at hg
    obtain ⟨k, gs, -, rfl, hr, h⟩ := h.of_parted hg
    obtain ⟨gs, rfl, hr'⟩ := hr.of_cons (by simp)
    obtain ⟨k, words', rest, rfl, hr, hb, -⟩ := ih hr'
    refine ⟨k, _, rest, ?_, hr, .arrow h hb, False.elim⟩
    rw [List.append_assoc, List.cons_append]
  | noArrow h hend _ ih =>
    intro prev gs hg
    rw [List.append_assoc] at hg
    obtain ⟨k, gs, hk, rfl, hr, h⟩ := h.of_parted hg
    rw [(hr.look hk).front] at hend
    obtain ⟨k, words', rest, rfl, hr, hb, -⟩ := ih hr
    exact ⟨k, _, rest, (List.append_assoc ..).symm, hr, .noArrow h hend hb, False.elim⟩
  | inline hend _ hattach ih =>
    intro prev gs hg
    have hend' : ¬endsLine (front gs) := by
      rcases hg.front_cases with he | ⟨-, word, he, -⟩
      · rwa [← he]
      · rw [he]
        rintro (h | h | h) <;> cases h
    obtain ⟨k, words, rest, rfl, hr, h, -⟩ := ih hg
    exact ⟨k, words, rest, rfl, hr, .inline hend' h hattach, False.elim⟩
  | noBody he =>
    intro prev gs hg
    refine ⟨prev, [], gs, rfl, hg, .noBody ?_, False.elim⟩
    rwa [hg.front_of_ne (by rcases he with he | he <;> simp [he])]
  | noBlock hindent =>
    intro prev gs hg
    obtain ⟨gs, rfl, hg'⟩ := hg.of_cons (by simp)
    refine ⟨_, [_], gs, rfl, hg', .noBlock ?_, False.elim⟩
    rcases hg'.front_cases with he | ⟨-, word, he, -⟩
    · rwa [← he]
    · simp [he]
  | @block apart apart' apart'' b words rest' _ ih =>
    intro prev gs hg
    rw [List.cons_append, List.cons_append, List.append_assoc] at hg
    obtain ⟨gs, rfl, hg'⟩ := hg.of_cons (by simp)
    obtain ⟨gs, rfl, hg''⟩ := hg'.of_cons (by simp)
    obtain ⟨k, words, gs, rfl, hr, h, -⟩ := ih hg''
    obtain ⟨rest, rfl, hr'⟩ := hr.of_cons (by simp)
    refine ⟨_, .token .newline apart :: .token .indent apart' :: (words ++ [.token .dedent apart'']), rest, ?_, hr',
      .block h, False.elim⟩
    rw [List.cons_append, List.cons_append, List.append_assoc, List.singleton_append]
  | openBlock _ he ih =>
    intro prev gs hg
    obtain ⟨gs, rfl, hg'⟩ := hg.of_cons (by simp)
    obtain ⟨gs, rfl, hg''⟩ := hg'.of_cons (by simp)
    obtain ⟨k, words, rest, rfl, hr, h, -⟩ := ih hg''
    exact ⟨k, _, rest, rfl, hr, .openBlock h ((hr.front_of_ne (by simp [he])).trans he), False.elim⟩

/-- **Semicolons in front of statements may be taken away**: the grammar derives the same script. -/
theorem DerivesProgram.of_parted {stmts : List Stmt} (h : DerivesProgram gs' stmts) (hg : Parted .newline gs gs') :
    DerivesProgram gs stmts := by
  obtain ⟨words, apart, rfl, h⟩ := h
  obtain ⟨k, words, rest, rfl, hr, h, -⟩ := h.of_parted hg
  obtain ⟨gs, rfl, hr'⟩ := hr.of_cons (by simp)
  cases hr'
  exact ⟨words, apart, rfl, h⟩

end LiveSketch.Script

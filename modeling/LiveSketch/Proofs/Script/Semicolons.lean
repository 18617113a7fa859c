import LiveSketch.Proofs.Script.Brackets

/-!
# Semicolons in front of statements

Where a statement begins, a semicolon may be put in front of its first word: the grammar derives the same from the
glyphs with such semicolons (`DerivesProgram.parted`). No expression goes over such a place, and an expression in front
of one sees the same of what stands behind it (`Look`).
-/
namespace LiveSketch.Script

open LiveSketch.Script.Parser

/-- If a statement stands behind a token of this kind, it may begin there. -/
def TokenKind.leads : TokenKind → Bool
  | .newline | .indent | .dedent | .eof | .semicolon | .arrow => true
  | .ident word => word == "else"
  | _ => false

/-- The second glyphs are the first, with semicolons in front of names at which a statement may begin. In front of them
stands a token of the kind `prev`. -/
inductive Parted : (prev : TokenKind) → List Glyph → List Glyph → Prop where
  | nil {prev : TokenKind} : Parted prev [] []
  | keep {prev kind : TokenKind} {apart : Bool} {gs gs' : List Glyph} : Parted kind gs gs' →
      Parted prev (.token kind apart :: gs) (.token kind apart :: gs')
  | put {prev : TokenKind} {word : String} {apart : Bool} {gs gs' : List Glyph} : prev.leads → word ≠ "if" →
      Parted (.ident word) gs gs' →
      Parted prev (.token (.ident word) apart :: gs)
        (.token .semicolon apart :: .token (.ident word) false :: gs')

variable {prev kind : TokenKind} {apart : Bool} {gs gs' words rest rest' : List Glyph}

/-- In front of the glyphs a statement may begin too. -/
theorem Parted.of_leads (h : Parted prev gs gs') {k : TokenKind} (hk : k.leads) : Parted k gs gs' := by
  cases h with
  | nil => exact .nil
  | keep h => exact .keep h
  | put _ hw h => exact .put hk hw h

/-! ## Expressions -/

/-- Of both texts an expression in front of them sees the same. -/
structure Look (gs gs' : List Glyph) : Prop where
  front : front gs' = front gs
  isApart : isApart gs' = isApart gs
  follows : follows gs' = follows gs
  touches : touches gs' = touches gs

namespace Look

theorem refl (gs : List Glyph) : Look gs gs := ⟨rfl, rfl, rfl, rfl⟩

theorem cons (g : Glyph) (h : Look gs gs') : Look (g :: gs) (g :: gs') := by
  cases g with
  | opening | closing => exact ⟨h.front, h.isApart, h.follows, h.touches⟩
  | token kind apart =>
    refine ⟨rfl, rfl, ?_, rfl⟩
    cases kind <;> simp [Script.follows, h.isApart]

theorem append (h : Look gs gs') : ∀ words : List Glyph, Look (words ++ gs) (words ++ gs')
  | [] => h
  | g :: words => (h.append words).cons g

theorem stops {level : Nat} (h : Look gs gs') (hs : Stops level gs) : Stops level gs' := by
  cases level with
  | zero => trivial
  | succ level => rwa [Stops, h.front]

end Look

theorem Derives.of_look {p : Phrase} (h : Derives p words rest) :
    ∀ {rest'}, Look rest rest' → Derives p words rest' := by
  induction h with
  | literal hl => exact fun _ => .literal hl
  | name hkey ht hf => exact fun hr => .name hkey (hr.touches.trans ht) (by rw [hr.follows, hf])
  | emptyCall hkey => exact fun _ => .emptyCall hkey
  | call hkey _ ih => exact fun hr => .call hkey (ih (hr.cons _))
  | command hkey hcall hf _ ih => exact fun hr => .command hkey hcall ((hr.append _).follows.trans hf) (ih hr)
  | parens _ hno ih =>
    exact fun hr => .parens (ih (hr.cons _)) fun word he => by rw [((hr.cons _).append _).follows, hno word he]
  | parensCommand _ hcall hf _ ih ih' =>
    exact fun hr => .parensCommand (ih ((hr.append _).cons _)) hcall
      ((((hr.append _).cons _).append _).follows.trans hf) (ih' hr)
  | sign hf _ ih => exact fun hr => .sign hf (ih hr)
  | lift _ hs ih => exact fun hr => .lift (ih hr) (hr.stops hs)
  | binary _ hop _ hs ih ih' => exact fun hr => .binary (ih ((hr.append _).cons _)) hop (ih' hr) (hr.stops hs)
  | marked _ ih => exact fun hr => .marked (ih (hr.cons _))
  | last _ hs hc ih => exact fun hr => .last (ih hr) (hr.stops hs) (by rwa [hr.front])
  | more _ _ ih ih' => exact fun hr => .more (ih ((hr.append _).cons _)) (ih' hr)

/-- A token within an expression: no statement begins behind it, and it is no step. -/
def TokenKind.isInner (kind : TokenKind) : Prop := kind.leads = false ∧ stepOp? kind = none

theorem isInner_of_literal? {value : Literal} (h : literal? kind = some value) : kind.isInner := by
  unfold literal? at h
  split at h <;> first | exact ⟨rfl, rfl⟩ | cases h

theorem isInner_of_prefixOp? {f : Expr → Expr} (h : prefixOp? kind = some f) : kind.isInner := by
  unfold prefixOp? at h
  split at h <;> first | exact ⟨rfl, rfl⟩ | cases h

theorem isInner_of_binaryOp? {level : Nat} {op : BinaryOp} (h : binaryOp? level kind = some op) : kind.isInner := by
  unfold binaryOp? at h
  split at h <;> first | exact ⟨rfl, rfl⟩ | cases h

theorem isInner_of_assignOp? {op : AssignOp} (h : assignOp? kind = some op) : kind.isInner := by
  unfold assignOp? at h
  split at h <;> first | exact ⟨rfl, rfl⟩ | cases h

theorem isInner_name {word : String} (h : isKeyword word = false) : (TokenKind.ident word).isInner := by
  refine ⟨beq_false_of_ne ?_, rfl⟩
  rintro rfl
  cases h

/-- Every token of the glyphs is one within an expression. -/
def IsInner (words : List Glyph) : Prop := ∀ kind apart, Glyph.token kind apart ∈ words → kind.isInner

theorem isInner_cons : IsInner (.token kind apart :: gs) ↔ kind.isInner ∧ IsInner gs := by
  simp only [IsInner, List.mem_cons, Glyph.token.injEq]
  constructor
  · exact fun h => ⟨h _ _ (.inl ⟨rfl, rfl⟩), fun k a hm => h k a (.inr hm)⟩
  · rintro ⟨h, h'⟩ k a (⟨rfl, rfl⟩ | hm)
    · exact h
    · exact h' k a hm

theorem IsInner.append (h : IsInner words) (h' : IsInner rest) : IsInner (words ++ rest) := fun k a hm =>
  (List.mem_append.1 hm).elim (h k a) (h' k a)

theorem isInner_singleton (h : kind.isInner) : IsInner [.token kind apart] := isInner_cons.2 ⟨h, nofun⟩

theorem Derives.isInner {p : Phrase} (h : Derives p words rest) : IsInner words := by
  have hleft : TokenKind.leftParen.isInner := ⟨rfl, rfl⟩
  have hright : TokenKind.rightParen.isInner := ⟨rfl, rfl⟩
  induction h with
  | literal hl => exact isInner_singleton (isInner_of_literal? hl)
  | name hkey => exact isInner_singleton (isInner_name hkey)
  | emptyCall hkey => exact isInner_cons.2 ⟨isInner_name hkey, isInner_cons.2 ⟨hleft, isInner_singleton hright⟩⟩
  | call hkey _ ih =>
    exact isInner_cons.2 ⟨isInner_name hkey, isInner_cons.2 ⟨hleft, ih.append (isInner_singleton hright)⟩⟩
  | command hkey _ _ _ ih => exact isInner_cons.2 ⟨isInner_name hkey, ih⟩
  | parens _ _ ih => exact isInner_cons.2 ⟨hleft, ih.append (isInner_singleton hright)⟩
  | parensCommand _ _ _ _ ih ih' => exact isInner_cons.2 ⟨hleft, ih.append (isInner_cons.2 ⟨hright, ih'⟩)⟩
  | sign hf _ ih => exact isInner_cons.2 ⟨isInner_of_prefixOp? hf, ih⟩
  | lift _ _ ih | last _ _ _ ih => exact ih
  | binary _ hop _ _ ih ih' => exact ih.append (isInner_cons.2 ⟨isInner_of_binaryOp? hop, ih'⟩)
  | marked _ ih =>
    intro k a hm
    simp only [List.mem_cons, List.mem_append, List.not_mem_nil, or_false, reduceCtorEq, false_or] at hm
    exact ih k a hm
  | more _ _ ih ih' => exact ih.append (isInner_cons.2 ⟨⟨rfl, rfl⟩, ih'⟩)

namespace Parted

/-- Behind a token behind which no statement begins nothing is put. -/
theorem cons (hprev : prev.leads = false) (h : Parted prev (.token kind apart :: gs) gs') :
    ∃ gs'', gs' = .token kind apart :: gs'' ∧ Parted kind gs gs'' := by
  cases h with
  | keep h => exact ⟨_, rfl, h⟩
  | put hl => rw [hprev] at hl; cases hl

/-- Nothing is put in front of a token that is no name, nor in front of an `if`. -/
theorem cons_plain (h : Parted prev (.token kind apart :: gs) gs') (hk : ∀ word, kind = .ident word → word = "if") :
    ∃ gs'', gs' = .token kind apart :: gs'' ∧ Parted kind gs gs'' := by
  cases h with
  | keep h => exact ⟨_, rfl, h⟩
  | put _ hw => exact absurd (hk _ rfl) hw

theorem look (hprev : prev.leads = false) (h : Parted prev gs gs') : Look gs gs' := by
  cases h with
  | nil => exact .refl _
  | put hl => rw [hprev] at hl; cases hl
  | @keep _ kind apart gs gs' h =>
    refine ⟨rfl, rfl, ?_, rfl⟩
    have hapart : kind.leads = false → isApart gs' = isApart gs := by
      intro hk
      cases h with
      | nil | keep => rfl
      | put hl => rw [hk] at hl; cases hl
    cases kind with
    | minus | plus => rw [follows, follows, hapart rfl]
    | _ => rfl

theorem front_cases (h : Parted prev gs gs') : front gs' = front gs ∨
    front gs' = .semicolon ∧ ∃ word, front gs = .ident word ∧ word ≠ "if" := by
  cases h with
  | nil | keep => exact .inl rfl
  | put _ hw => exact .inr ⟨rfl, _, rfl, hw⟩

theorem front_eq (h : Parted prev gs gs') (hk : ∀ word, front gs ≠ .ident word) : front gs' = front gs :=
  h.front_cases.resolve_right fun ⟨_, word, hw, _⟩ => hk word hw

/-- Where nothing can be put, nothing is. -/
theorem inner (hw : IsInner words) (hprev : prev.leads = false) (h : Parted prev (words ++ rest) gs') :
    ∃ k rest', k.leads = false ∧ gs' = words ++ rest' ∧ Parted k rest rest' := by
  induction words generalizing prev gs' with
  | nil => exact ⟨_, _, hprev, rfl, h⟩
  | cons g words ih =>
    cases g with
    | opening | closing => cases h
    | token kind apart =>
      obtain ⟨hk, hw⟩ := isInner_cons.1 hw
      obtain ⟨gs'', rfl, hgs⟩ := h.cons hprev
      obtain ⟨k, rest', hl, rfl, hrest⟩ := ih hw hk.1 hgs
      exact ⟨k, rest', hl, rfl, hrest⟩

end Parted

/-- Behind a token behind which no statement begins the expression stays, and what stands behind it looks the same. -/
theorem Derives.parted {p : Phrase} (h : Derives p words rest) (hprev : prev.leads = false)
    (hg : Parted prev (words ++ rest) gs') :
    ∃ k rest', k.leads = false ∧ gs' = words ++ rest' ∧ Parted k rest rest' ∧ Derives p words rest' := by
  obtain ⟨k, rest', hk, rfl, hrest⟩ := hg.inner h.isInner hprev
  exact ⟨k, rest', hk, rfl, hrest, h.of_look (hrest.look hk)⟩

/-! ## The first word of a statement -/

/-- The glyphs, the first of which stands apart from what is in front of it or touches it. -/
def setApart (apart : Bool) : List Glyph → List Glyph
  | .token kind _ :: gs => .token kind apart :: gs
  | gs => gs

theorem setApart_append (h : words ≠ []) (gs : List Glyph) : setApart apart (words ++ gs) = setApart apart words ++ gs := by
  cases words with
  | nil => exact absurd rfl h
  | cons g words => cases g <;> rfl

theorem Derives.setApart {p : Phrase} (h : Derives p words rest) (apart : Bool) : Derives p (setApart apart words) rest := by
  induction h with
  | literal hl => exact .literal hl
  | name hkey ht hf => exact .name hkey ht hf
  | emptyCall hkey => exact .emptyCall hkey
  | call hkey h => exact .call hkey h
  | command hkey hcall hf h => exact .command hkey hcall hf h
  | parens h hno => exact .parens h hno
  | parensCommand h hcall hf h' => exact .parensCommand h hcall hf h'
  | sign hf h => exact .sign hf h
  | lift _ hs ih => exact .lift ih hs
  | binary h hop h' hs ih =>
    rw [setApart_append h.shaped.ne_nil]
    exact .binary ih hop h' hs
  | marked h => exact .marked h
  | last _ hs hc ih => exact .last ih hs hc
  | more h h' ih =>
    rw [setApart_append h.shaped.ne_nil]
    exact .more ih h'

theorem isBare_setApart (h : IsBare gs) : IsBare (setApart apart gs) := by
  cases gs with
  | nil => trivial
  | cons g gs =>
    cases g with
    | opening | closing => exact h
    | token kind apart => cases kind <;> exact h

/-- A statement is the same whether or not it touches what stands in front of it. -/
theorem DerivesClause.setApart {item : Item} {done : Bool} (h : DerivesClause (.statement item done) words rest)
    (apart : Bool) : DerivesClause (.statement item done) (setApart apart words) rest := by
  cases h with
  | loop h hb => exact .loop h hb
  | branch h => exact .branch h
  | otherwiseIf h => exact .otherwiseIf h
  | otherwise hif harrow h => exact .otherwise hif harrow h
  | otherwiseArrow h => exact .otherwiseArrow h
  | assign hkey hop h hs => exact .assign hkey hop h hs
  | step hkey hop => exact .step hkey hop
  | command hkey hf h => exact .command hkey hf h
  | bare hb h hs =>
    refine .bare ?_ (h.setApart apart) hs
    rw [← setApart_append h.shaped.ne_nil]
    exact isBare_setApart hb

/-! ## Statements -/

/-- Whether what this stands for begins where no statement does, or with the first word of one. -/
def Clause.isInner : Clause → Prop
  | .statement _ _ | .conditional _ _ => True
  | .block _ _ | .line _ | .body _ => False

/-- The same clause in front of what has been put into the glyphs behind it. -/
def PartedClause (c : Clause) (rest gs' : List Glyph) : Prop :=
  ∃ k words' rest', gs' = words' ++ rest' ∧ Parted k rest rest' ∧ DerivesClause c words' rest'

theorem Parted.start (h : Parted prev gs gs') :
    (∀ k, Parted k gs gs') ∨ ∃ word apart more more', gs = .token (.ident word) apart :: more ∧
      gs' = .token .semicolon apart :: .token (.ident word) false :: more' ∧
      ∀ k, Parted k gs (.token (.ident word) apart :: more') := by
  cases h with
  | nil => exact .inl fun _ => .nil
  | keep h => exact .inl fun _ => .keep h
  | put _ _ h => exact .inr ⟨_, _, _, _, rfl, rfl, fun _ => .keep h⟩

theorem ne_ident_of_endsLine (h : endsLine kind ∨ kind = .semicolon) (word : String) : kind ≠ .ident word := by
  rintro rfl
  rcases h with (h | h | h) | h <;> cases h

theorem isBare_of_parted (hprev : prev.leads = false) (h : Parted prev gs gs') (hb : IsBare gs) : IsBare gs' := by
  cases h with
  | nil => trivial
  | put hl => rw [hprev] at hl; cases hl
  | @keep _ kind apart gs gs' h =>
    cases kind with
    | ident word =>
      obtain ⟨hassign, hstep, hf⟩ := hb
      by_cases hword : isKeyword word
      · have hfront : assignOp? (front gs') = none ∧ stepOp? (front gs') = none := by
          rcases h.front_cases with he | ⟨he, -⟩ <;> rw [he]
          · exact ⟨hassign, hstep⟩
          · exact ⟨rfl, rfl⟩
        exact ⟨hfront.1, hfront.2, by rw [hword]; rfl⟩
      · have hl := h.look (isInner_name (Bool.eq_false_iff.2 hword)).1
        rw [IsBare, hl.front, hl.follows]
        exact ⟨hassign, hstep, hf⟩
    | _ => trivial

theorem DerivesClause.ne_nil {item : Item} {done : Bool} (h : DerivesClause (.statement item done) words rest) :
    words ≠ [] := by
  cases h with
  | bare _ h => exact h.shaped.ne_nil
  | _ => simp

/-- A statement at the start of a line, perhaps with a semicolon in front of it. -/
theorem Parted.statement {item : Item} {done : Bool} (hg : Parted prev gs gs')
    (ih : ∀ {gs'}, Parted .comma gs gs' → PartedClause (.statement item done) rest gs') :
    ∃ k words' rest', Parted k rest rest' ∧ DerivesClause (.statement item done) words' rest' ∧
      (gs' = words' ++ rest' ∨ ∃ apart, gs' = .token .semicolon apart :: (words' ++ rest')) := by
  rcases hg.start with hstart | ⟨word, apart, more, more', rfl, rfl, hstart⟩
  · obtain ⟨k, words', rest', rfl, hr, h⟩ := ih (hstart _)
    exact ⟨k, words', rest', hr, h, .inl rfl⟩
  · obtain ⟨k, words', rest', he, hr, h⟩ := ih (hstart _)
    refine ⟨k, Script.setApart false words', rest', hr, h.setApart false, .inr ⟨apart, ?_⟩⟩
    rw [← setApart_append h.ne_nil, ← he, Script.setApart]

/-- From the glyphs with semicolons the grammar derives the same, whatever stands behind the clause. -/
theorem DerivesClause.parted {c : Clause} (h : DerivesClause c words rest) :
    ∀ {prev gs'}, (c.isInner → prev.leads = false) → Parted prev (words ++ rest) gs' → PartedClause c rest gs' := by
  induction h with
  | done he =>
    intro prev gs' _ hg
    refine ⟨prev, [], gs', rfl, hg, .done ?_⟩
    rwa [hg.front_eq (by rcases he with he | he <;> simp [he])]
  | blank _ ih =>
    intro prev gs' _ hg
    obtain ⟨gs'', rfl, hg'⟩ := hg.cons_plain nofun
    obtain ⟨k, words', rest', rfl, hr, h⟩ := ih nofun hg'
    exact ⟨k, _ :: words', rest', rfl, hr, .blank h⟩
  | row hw _ hattach _ ih ih' =>
    intro prev gs' _ hg
    rw [List.append_assoc] at hg
    have hword : (front gs').isWord := by
      rcases hg.front_cases with he | ⟨he, -⟩ <;> rw [he]
      · exact hw
      · rfl
    obtain ⟨k, words', gs'', rfl, hr, h⟩ := ih nofun hg
    obtain ⟨k', words'', rest', rfl, hr', h'⟩ := ih' nofun hr
    exact ⟨k', words' ++ words'', rest', (List.append_assoc ..).symm, hr', .row hword h hattach h'⟩
  | semicolon _ ih =>
    intro prev gs' _ hg
    obtain ⟨gs'', rfl, hg'⟩ := hg.cons_plain nofun
    obtain ⟨k, words', rest', rfl, hr, h⟩ := ih nofun hg'
    exact ⟨k, _ :: words', rest', rfl, hr, .semicolon h⟩
  | newline =>
    intro prev gs' _ hg
    obtain ⟨gs'', rfl, hg'⟩ := hg.cons_plain nofun
    exact ⟨_, [_], gs'', rfl, hg', .newline⟩
  | noLine he =>
    intro prev gs' _ hg
    refine ⟨prev, [], gs', rfl, hg, .noLine ?_⟩
    rwa [hg.front_eq (by rcases he with he | he <;> simp [he])]
  | lineDone _ ih =>
    intro prev gs' _ hg
    obtain ⟨k, words', rest', hr, h, rfl | ⟨apart, rfl⟩⟩ := hg.statement fun hg => ih (fun _ => rfl) hg
    · exact ⟨k, words', rest', rfl, hr, .lineDone h⟩
    · exact ⟨k, _ :: words', rest', rfl, hr, .semicolon (.lineDone h)⟩
  | nextItem _ hend _ ih ih' =>
    intro prev gs' _ hg
    rw [List.append_assoc] at hg
    obtain ⟨k, words', gs'', hr, h, hgs⟩ := hg.statement fun hg => ih (fun _ => rfl) hg
    have hend' := hend
    rw [← hr.front_eq (ne_ident_of_endsLine hend)] at hend'
    obtain ⟨k', words'', rest', rfl, hr', h'⟩ := ih' nofun hr
    have hline := DerivesClause.nextItem h hend' h'
    rcases hgs with rfl | ⟨apart, rfl⟩
    · exact ⟨k', words' ++ words'', rest', (List.append_assoc ..).symm, hr', hline⟩
    · refine ⟨k', .token .semicolon apart :: (words' ++ words''), rest', ?_, hr', .semicolon hline⟩
      rw [List.cons_append, List.append_assoc]
  | @loop apart apart' count b words words' rest h _ ih =>
    intro prev gs' hi hg
    rw [List.cons_append, List.append_assoc, List.cons_append] at hg
    obtain ⟨gs'', rfl, hg'⟩ := hg.cons (hi trivial)
    obtain ⟨k, gs'', -, rfl, hr, h⟩ := h.parted rfl hg'
    obtain ⟨gs'', rfl, hr'⟩ := hr.cons_plain nofun
    obtain ⟨k', words'', rest', rfl, hr'', hb⟩ := ih nofun hr'
    refine ⟨k', .token (.ident "repeat") apart :: (words ++ .token .arrow apart' :: words''), rest', ?_, hr'',
      .loop h hb⟩
    rw [List.cons_append, List.append_assoc, List.cons_append]
  | branch _ ih =>
    intro prev gs' hi hg
    obtain ⟨gs'', rfl, hg'⟩ := hg.cons (hi trivial)
    obtain ⟨k, words', rest', rfl, hr, h⟩ := ih (fun _ => rfl) hg'
    exact ⟨k, _ :: words', rest', rfl, hr, .branch h⟩
  | otherwiseIf _ ih =>
    intro prev gs' hi hg
    obtain ⟨gs'', rfl, hg'⟩ := hg.cons (hi trivial)
    obtain ⟨gs'', rfl, hg''⟩ := hg'.cons_plain fun word he => by cases he; rfl
    obtain ⟨k, words', rest', rfl, hr, h⟩ := ih (fun _ => rfl) hg''
    exact ⟨k, _ :: _ :: words', rest', rfl, hr, .otherwiseIf h⟩
  | otherwise hif harrow _ ih =>
    intro prev gs' hi hg
    obtain ⟨gs'', rfl, hg'⟩ := hg.cons (hi trivial)
    have hfront : front gs'' ≠ .ident "if" ∧ front gs'' ≠ .arrow := by
      rcases hg'.front_cases with he | ⟨he, -⟩ <;> rw [he]
      · exact ⟨hif, harrow⟩
      · exact ⟨by simp, by simp⟩
    obtain ⟨k, words', rest', rfl, hr, h⟩ := ih nofun hg'
    exact ⟨k, _ :: words', rest', rfl, hr, .otherwise hfront.1 hfront.2 h⟩
  | otherwiseArrow _ ih =>
    intro prev gs' hi hg
    obtain ⟨gs'', rfl, hg'⟩ := hg.cons (hi trivial)
    obtain ⟨gs'', rfl, hg''⟩ := hg'.cons_plain nofun
    obtain ⟨k, words', rest', rfl, hr, h⟩ := ih nofun hg''
    exact ⟨k, _ :: _ :: words', rest', rfl, hr, .otherwiseArrow h⟩
  | assign hkey hop h hs =>
    intro prev gs' hi hg
    obtain ⟨gs'', rfl, hg'⟩ := hg.cons (hi trivial)
    obtain ⟨gs'', rfl, hg''⟩ := hg'.cons (isInner_name hkey).1
    obtain ⟨k, rest', hk, rfl, hr, h⟩ := h.parted (isInner_of_assignOp? hop).1 hg''
    exact ⟨k, _, rest', rfl, hr, .assign hkey hop h ((hr.look hk).stops hs)⟩
  | step hkey hop =>
    intro prev gs' hi hg
    obtain ⟨gs'', rfl, hg'⟩ := hg.cons (hi trivial)
    obtain ⟨gs'', rfl, hg''⟩ := hg'.cons (isInner_name hkey).1
    exact ⟨_, _, gs'', rfl, hg'', .step hkey hop⟩
  | command hkey hf h =>
    intro prev gs' hi hg
    have hname := (isInner_name hkey).1
    obtain ⟨gs'', rfl, hg'⟩ := hg.cons (hi trivial)
    have hf' := (hg'.look hname).follows.trans hf
    obtain ⟨k, rest', -, rfl, hr, h⟩ := h.parted hname hg'
    exact ⟨k, _, rest', rfl, hr, .command hkey hf' h⟩
  | bare hb h hs =>
    intro prev gs' hi hg
    have hb' := isBare_of_parted (hi trivial) hg hb
    obtain ⟨k, rest', hk, rfl, hr, h⟩ := h.parted (hi trivial) hg
    exact ⟨k, _, rest', rfl, hr, .bare hb' h ((hr.look hk).stops hs)⟩
  | arrow h _ ih =>
    intro prev gs' hi hg
    rw [List.append_assoc, List.cons_append] at hg
    obtain ⟨k, gs'', -, rfl, hr, h⟩ := h.parted (hi trivial) hg
    obtain ⟨gs'', rfl, hr'⟩ := hr.cons_plain nofun
    obtain ⟨k', words', rest', rfl, hr'', hb⟩ := ih nofun hr'
    refine ⟨k', _, rest', ?_, hr'', .arrow h hb⟩
    rw [List.append_assoc, List.cons_append]
  | noArrow h hend _ ih =>
    intro prev gs' hi hg
    rw [List.append_assoc] at hg
    obtain ⟨k, gs'', -, rfl, hr, h⟩ := h.parted (hi trivial) hg
    have hend' := hend
    rw [← hr.front_eq (ne_ident_of_endsLine (.inl hend))] at hend'
    obtain ⟨k', words', rest', rfl, hr', hb⟩ := ih nofun hr
    exact ⟨k', _, rest', (List.append_assoc ..).symm, hr', .noArrow h hend' hb⟩
  | inline hend _ hattach ih =>
    intro prev gs' _ hg
    have hend' : ¬endsLine (front gs') := by
      rcases hg.front_cases with he | ⟨he, -⟩ <;> rw [he]
      · exact hend
      · rintro (h | h | h) <;> cases h
    obtain ⟨k, words', rest', rfl, hr, h⟩ := ih nofun hg
    exact ⟨k, words', rest', rfl, hr, .inline hend' h hattach⟩
  | noBody he =>
    intro prev gs' _ hg
    refine ⟨prev, [], gs', rfl, hg, .noBody ?_⟩
    rwa [hg.front_eq (by rcases he with he | he <;> simp [he])]
  | noBlock hindent =>
    intro prev gs' _ hg
    obtain ⟨gs'', rfl, hg'⟩ := hg.cons_plain nofun
    refine ⟨_, [_], gs'', rfl, hg', .noBlock ?_⟩
    rcases hg'.front_cases with he | ⟨he, -⟩ <;> rw [he]
    · exact hindent
    · simp
  | @block apart apart' apart'' b words rest _ ih =>
    intro prev gs' _ hg
    rw [List.cons_append, List.cons_append, List.append_assoc] at hg
    obtain ⟨gs'', rfl, hg'⟩ := hg.cons_plain nofun
    obtain ⟨gs'', rfl, hg''⟩ := hg'.cons_plain nofun
    obtain ⟨k, words', gs'', rfl, hr, h⟩ := ih nofun hg''
    obtain ⟨rest', rfl, hr'⟩ := hr.cons_plain nofun
    refine ⟨_, .token .newline apart :: .token .indent apart' :: (words' ++ [.token .dedent apart'']), rest', ?_, hr',
      .block h⟩
    rw [List.cons_append, List.cons_append, List.append_assoc, List.singleton_append]
  | openBlock _ he ih =>
    intro prev gs' _ hg
    obtain ⟨gs'', rfl, hg'⟩ := hg.cons_plain nofun
    obtain ⟨gs'', rfl, hg''⟩ := hg'.cons_plain nofun
    obtain ⟨k, words', rest', rfl, hr, h⟩ := ih nofun hg''
    refine ⟨k, _, rest', rfl, hr, .openBlock h ?_⟩
    rw [hr.front_eq (by simp [he]), he]

/-- **Semicolons in front of statements change nothing**: the grammar derives the same script. -/
theorem DerivesProgram.parted {stmts : List Stmt} (h : DerivesProgram gs stmts) (hg : Parted .newline gs gs') :
    DerivesProgram gs' stmts := by
  obtain ⟨words, apart, rfl, h⟩ := h
  obtain ⟨k, words', rest', rfl, hr, h'⟩ := h.parted nofun hg
  obtain ⟨gs'', rfl, hr'⟩ := hr.cons_plain nofun
  cases hr'
  exact ⟨words', apart, rfl, h'⟩

/-! ## Steps -/

/-- Behind a step nothing stands but the end of the statement. -/
def EndsStep (kind kind' : TokenKind) : Prop := stepOp? kind ≠ none → endsLine kind' ∨ kind' = .semicolon

/-- The kinds of the tokens in these glyphs, and of the token behind them. -/
def kindsUpTo (words rest : List Glyph) : List TokenKind := words.filterMap Glyph.kind? ++ [front rest]

theorem head?_kindsUpTo (words rest : List Glyph) : (kindsUpTo words rest).head? = some (front (words ++ rest)) := by
  induction words with
  | nil => rfl
  | cons g words ih => cases g <;> first | rfl | exact ih

theorem isChain_append (h : (kindsUpTo words (gs ++ rest)).IsChain EndsStep) (h' : (kindsUpTo gs rest).IsChain EndsStep) :
    (kindsUpTo (words ++ gs) rest).IsChain EndsStep := by
  rw [kindsUpTo, List.filterMap_append, List.append_assoc]
  obtain ⟨hwords, -, hlast⟩ := List.isChain_append.1 h
  refine List.isChain_append.2 ⟨hwords, h', fun k hk k' hk' => hlast k hk k' ?_⟩
  rwa [← kindsUpTo, head?_kindsUpTo] at hk'

theorem isChain_cons (hk : stepOp? kind = none) (h : (kindsUpTo words rest).IsChain EndsStep) :
    (kindsUpTo (.token kind apart :: words) rest).IsChain EndsStep :=
  List.isChain_cons.2 ⟨fun _ _ hstep => absurd hk hstep, h⟩

theorem isChain_nil (rest : List Glyph) : (kindsUpTo [] rest).IsChain EndsStep := .singleton _

theorem IsInner.isChain (h : IsInner words) (rest : List Glyph) : (kindsUpTo words rest).IsChain EndsStep := by
  induction words with
  | nil => exact isChain_nil rest
  | cons g words ih =>
    cases g with
    | opening | closing => exact ih fun k a hm => h k a (List.mem_cons_of_mem _ hm)
    | token kind apart => exact isChain_cons (isInner_cons.1 h).1.2 (ih (isInner_cons.1 h).2)

/-- What the grammar takes for a statement without the end of it. -/
def Clause.isOpen : Clause → Prop
  | .statement _ done => done = false
  | _ => False

theorem DerivesClause.isChain {c : Clause} (h : DerivesClause c words rest) :
    (c.isOpen → endsLine (front rest) ∨ front rest = .semicolon) → (kindsUpTo words rest).IsChain EndsStep := by
  induction h with
  | done | noLine | noBody => exact fun _ => isChain_nil _
  | newline | noBlock => exact fun _ => isChain_cons rfl (isChain_nil _)
  | blank _ ih | semicolon _ ih | branch _ ih | otherwise _ _ _ ih => exact fun _ => isChain_cons rfl (ih nofun)
  | otherwiseIf _ ih | otherwiseArrow _ ih => exact fun _ => isChain_cons rfl (isChain_cons rfl (ih nofun))
  | row _ _ _ _ ih ih' => exact fun _ => isChain_append (ih nofun) (ih' nofun)
  | lineDone _ ih => exact fun _ => ih nofun
  | nextItem _ hend _ ih ih' => exact fun _ => isChain_append (ih fun _ => hend) (ih' nofun)
  | loop h _ ih =>
    exact fun _ => isChain_cons rfl (isChain_append (h.isInner.isChain _) (isChain_cons rfl (ih nofun)))
  | assign _ hop h _ =>
    exact fun _ => isChain_cons rfl (isChain_cons (isInner_of_assignOp? hop).2 (h.isInner.isChain _))
  | step =>
    intro hend
    exact isChain_cons rfl (List.isChain_pair.2 fun _ => hend rfl)
  | command _ _ h => exact fun _ => isChain_cons rfl (h.isInner.isChain _)
  | bare _ h _ => exact fun _ => h.isInner.isChain _
  | arrow h _ ih => exact fun _ => isChain_append (h.isInner.isChain _) (isChain_cons rfl (ih nofun))
  | noArrow h _ _ ih => exact fun _ => isChain_append (h.isInner.isChain _) (ih nofun)
  | inline _ _ _ ih => exact fun _ => ih nofun
  | block _ ih =>
    exact fun _ => isChain_cons rfl (isChain_cons rfl (isChain_append (ih nofun) (isChain_cons rfl (isChain_nil _))))
  | openBlock _ _ ih => exact fun _ => isChain_cons rfl (isChain_cons rfl (ih nofun))

theorem filterMap_kind?_glyphs (before : Nat) (ts : List Token) :
    (glyphs before ts).filterMap Glyph.kind? = ts.map Token.kind := by
  induction ts generalizing before with
  | nil => rfl
  | cons t ts ih =>
    rw [glyphs, List.map_cons, ← ih t.stop]
    rfl

/-- In a script behind each step its statement ends. -/
theorem DerivesProgram.isChain {before : Nat} {ts : List Token} {stmts : List Stmt}
    (h : DerivesProgram (glyphs before ts) stmts) : (ts.map Token.kind).IsChain EndsStep := by
  obtain ⟨words, apart, hgs, h⟩ := h
  rw [← filterMap_kind?_glyphs before, hgs, List.filterMap_append]
  exact h.isChain nofun

end LiveSketch.Script

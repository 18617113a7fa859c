import LiveSketch.Proofs.Script.Accepted
import LiveSketch.Proofs.Script.Brackets
import LiveSketch.Proofs.Script.Delimiting

/-!
# Parentheses around an expression

A complete expression in a script is one around which the grammar allows marks (`IsExpr`). What the grammar derives
from statements with marks it derives without the marks, and with parentheses in their place (`Rewriting`, one
induction for both). So parentheses around an expression change nothing but the places (`parse_wrapped`), if no name
stands in front of it, of which it would become the arguments, and it is not a lone callable name: the parser takes
such a name in parentheses for a call without parentheses, because it looks for the arguments behind the opening
parenthesis (`parse_wrapped_callable`).
-/
namespace LiveSketch.Script

open LiveSketch.Script.Parser

/-! ## Statements -/

variable {words rest gs : List Glyph}

theorem stepOp?_of_assignOp? {kind : TokenKind} {op : AssignOp} (h : assignOp? kind = some op) : stepOp? kind = none := by
  unfold assignOp? at h
  split at h <;> first | rfl | cases h

/-- Within statements the marks fit. -/
theorem DerivesClause.settled {c : Clause} (h : DerivesClause c words rest) : Settled words := by
  induction h with
  | done | noLine | noBody => exact settled_nil
  | blank _ ih | semicolon _ ih | branch _ ih | otherwise _ _ _ ih => exact ih.cons rfl
  | row _ _ _ _ ih ih' | nextItem _ _ _ ih ih' => exact ih.append ih'
  | newline | noBlock => exact settled_token rfl
  | lineDone _ ih => exact ih
  | loop hd _ ih => exact .cons rfl (hd.shaped.toSettled.append (ih.cons rfl))
  | otherwiseIf _ ih | otherwiseArrow _ ih => exact (ih.cons rfl).cons rfl
  | assign _ hop hd _ => exact .cons rfl (hd.shaped.toSettled.cons (stepOp?_of_assignOp? hop))
  | step _ hop =>
    refine ⟨?_, by simp [Glyph.isStep, stepOp?], by simp⟩
    rw [List.isChain_pair]
    constructor <;> intro h <;> cases h
  | command _ _ hd => exact hd.shaped.toSettled.cons rfl
  | bare _ hd _ => exact hd.shaped.toSettled
  | arrow hd _ ih => exact hd.shaped.toSettled.append (ih.cons rfl)
  | noArrow hd _ _ ih => exact hd.shaped.toSettled.append ih
  | inline _ _ _ ih => exact ih
  | block _ ih => exact ((ih.append (settled_token rfl)).cons rfl).cons rfl
  | openBlock _ _ ih => exact (ih.cons rfl).cons rfl

/-- A change of the glyphs with which the grammar derives the same expressions, and which keeps what tells statements
apart. -/
structure Rewriting (f : List Glyph → List Glyph) (Good : List Glyph → Prop) : Prop where
  nil : f [] = []
  token : ∀ kind apart gs, f (.token kind apart :: gs) = .token kind apart :: f gs
  append : ∀ {words}, Settled words → ∀ gs, f (words ++ gs) = f words ++ f gs
  suffix : ∀ {gs gs'}, Good gs → gs' <:+ gs → Good gs'
  derives : ∀ {p words rest}, Derives p words rest → Good (words ++ rest) → Derives p (f words) (f rest)
  stops : ∀ {level gs}, Stops level gs → Stops level (f gs)
  front : ∀ gs, front (f gs) = front gs ∨ front (f gs) = .leftParen ∨ front (f gs) = .rightParen
  ends : ∀ {gs}, Good gs → gs.head? ≠ some .closing → endsLine (Script.front gs) ∨ Script.front gs = .semicolon →
    Script.front (f gs) = Script.front gs
  follows : ∀ {word apart words rest}, isKeyword word = false → Good (.token (.ident word) apart :: (words ++ rest)) →
    Shaped words → follows (words ++ rest) → follows (f words ++ f rest)
  bare : ∀ {gs}, Good gs → IsBare gs → IsBare (f gs)

/-- Marks can be left out. -/
theorem rewriting_unmark : Rewriting unmark fun _ => True where
  nil := rfl
  token _ _ _ := rfl
  append _ gs := unmark_append _ gs
  suffix _ _ := trivial
  derives h _ := h.unmark
  stops := stops_unmark.2
  front gs := .inl (front_unmark gs)
  ends _ _ _ := front_unmark _
  follows _ _ _ hf := by rwa [← unmark_append, follows_unmark]
  bare {gs} _ hb := by
    induction gs with
    | nil => exact hb
    | cons g gs ih =>
      cases g with
      | opening | closing => exact ih hb
      | token kind apart =>
        cases kind with
        | ident word =>
          simp only [unmark, IsBare, front_unmark, follows_unmark]
          exact hb
        | _ => trivial

theorem not_endsLine_of_isWord {kind : TokenKind} (h : kind.isWord) : ¬endsLine kind := by
  rintro (rfl | rfl | rfl) <;> cases h

/-- An expression stands behind a mark. -/
theorem Clear.front_opening (h : Clear (.opening :: gs)) : ¬endsLine (front gs) ∧ front gs ≠ .semicolon := by
  induction gs with
  | nil => exact absurd rfl (h.last _ rfl)
  | cons g gs ih =>
    have hs := (List.isChain_cons_cons.1 h.chain).1.opening rfl
    cases g with
    | token kind apart => exact ⟨not_endsLine_of_isWord hs.1, hs.2.1⟩
    | opening => exact ih (h.suffix (List.suffix_cons _ _))
    | closing => cases hs

/-- Parentheses can be put in place of marks. -/
theorem rewriting_bracket : Rewriting (bracket false) Clear where
  nil := rfl
  token := bracket_token
  append h gs := h.bracket_append gs
  suffix h hs := h.suffix hs
  derives h hc := h.bracket false hc
  stops hs := stops_bracket hs false
  front := front_bracket false
  ends {gs} hc hne hend := by
    cases gs with
    | nil => rfl
    | cons g gs =>
      cases g with
      | token kind apart => rfl
      | opening => exact absurd hend (not_or.2 hc.front_opening)
      | closing => exact absurd rfl hne
  follows hkey hc hw hf := by rwa [hw.follows_bracket (hc.head_ne hkey) (hc.suffix (List.suffix_cons _ _))]
  bare {gs} hc hb := by
    cases gs with
    | nil => trivial
    | cons g gs =>
      cases g with
      | opening | closing => trivial
      | token kind apart =>
        cases kind with
        | ident word =>
          obtain ⟨hassign, hstep, hf⟩ := hb
          have hfront : assignOp? (front (bracket false gs)) = none ∧ stepOp? (front (bracket false gs)) = none := by
            rcases front_bracket false gs with h | h | h <;> rw [h]
            · exact ⟨hassign, hstep⟩
            · exact ⟨rfl, rfl⟩
            · exact ⟨rfl, rfl⟩
          rw [bracket_token]
          refine ⟨hfront.1, hfront.2, ?_⟩
          rw [Bool.and_eq_false_iff, or_iff_not_imp_left, Bool.not_eq_false, Bool.not_eq_true'] at hf ⊢
          exact fun hkey => not_follows_bracket hkey hc (hf hkey)
        | _ => trivial

theorem head_append_ne (h : Settled words) (hr : rest.head? ≠ some .closing) : (words ++ rest).head? ≠ some .closing := by
  cases words with
  | nil => exact hr
  | cons g words =>
    intro hg
    exact (h.head g rfl).1 (Option.some_inj.1 hg)

namespace Rewriting

variable {f : List Glyph → List Glyph} {Good : List Glyph → Prop}

/-- What tells that nothing of a kind is in front. -/
theorem front_ne (r : Rewriting f Good) {P : TokenKind → Prop} (hl : P .leftParen) (hr : P .rightParen)
    (h : P (Script.front gs)) : P (Script.front (f gs)) := by
  rcases r.front gs with hf | hf | hf <;> rw [hf] <;> assumption

theorem front_end (r : Rewriting f Good) (hg : Good gs) (hne : gs.head? ≠ some .closing)
    (h : Script.front gs = .eof ∨ Script.front gs = .dedent) :
    Script.front (f gs) = .eof ∨ Script.front (f gs) = .dedent := by
  rwa [r.ends hg hne (.inl (.inr h))]

/-- The grammar derives the same statements. -/
theorem derivesClause (r : Rewriting f Good) {c : Clause} (h : DerivesClause c words rest) :
    rest.head? ≠ some .closing → Good (words ++ rest) → DerivesClause c (f words) (f rest) := by
  induction h with
  | done hend =>
    intro hne hg
    rw [r.nil]
    exact .done (r.front_end hg hne hend)
  | blank h ih =>
    intro hne hg
    rw [r.token]
    exact .blank (ih hne (r.suffix hg (List.suffix_cons _ _)))
  | row hw h ha h' ih ih' =>
    intro hne hg
    rw [List.append_assoc] at hg
    have hnext := ih' hne (r.suffix hg (List.suffix_append _ _))
    have hline := ih (head_append_ne h'.settled hne) hg
    rw [r.append h'.settled] at hline
    rw [r.append h.settled]
    refine .row ?_ hline ha hnext
    rw [← r.append h'.settled, ← r.append h.settled]
    exact r.front_ne (P := fun kind => kind.isWord) rfl rfl hw
  | semicolon h ih =>
    intro hne hg
    rw [r.token]
    exact .semicolon (ih hne (r.suffix hg (List.suffix_cons _ _)))
  | newline =>
    intro hne hg
    rw [r.token, r.nil]
    exact .newline
  | noLine hend =>
    intro hne hg
    rw [r.nil]
    exact .noLine (r.front_end hg hne hend)
  | lineDone h ih => exact fun hne hg => .lineDone (ih hne hg)
  | nextItem h hend h' ih ih' =>
    intro hne hg
    rw [List.append_assoc] at hg
    have hgood := r.suffix hg (List.suffix_append _ _)
    have hmore := head_append_ne h'.settled hne
    have hfirst := ih hmore hg
    rw [r.append h'.settled] at hfirst
    rw [r.append h.settled]
    refine .nextItem hfirst ?_ (ih' hne hgood)
    rwa [← r.append h'.settled, r.ends hgood hmore hend]
  | loop hd h ih =>
    intro hne hg
    simp only [List.cons_append, List.append_assoc] at hg
    have hin := r.suffix hg (List.suffix_cons _ _)
    have hcount := r.derives hd hin
    rw [r.token, r.append h.settled] at hcount
    rw [r.token, r.append hd.shaped.toSettled, r.token]
    exact .loop hcount (ih hne (r.suffix hin ((List.suffix_cons _ _).trans (List.suffix_append _ _))))
  | branch h ih =>
    intro hne hg
    rw [r.token]
    exact .branch (ih hne (r.suffix hg (List.suffix_cons _ _)))
  | otherwiseIf h ih =>
    intro hne hg
    rw [r.token, r.token]
    exact .otherwiseIf (ih hne (r.suffix hg ((List.suffix_cons _ _).trans (List.suffix_cons _ _))))
  | otherwise hi ha h ih =>
    intro hne hg
    rw [r.token]
    refine .otherwise ?_ ?_ (ih hne (r.suffix hg (List.suffix_cons _ _)))
    · rw [← r.append h.settled]
      exact r.front_ne (P := (· ≠ TokenKind.ident "if")) (by simp) (by simp) hi
    · rw [← r.append h.settled]
      exact r.front_ne (P := (· ≠ TokenKind.arrow)) (by simp) (by simp) ha
  | otherwiseArrow h ih =>
    intro hne hg
    rw [r.token, r.token]
    exact .otherwiseArrow (ih hne (r.suffix hg ((List.suffix_cons _ _).trans (List.suffix_cons _ _))))
  | assign hkey hop hd hs =>
    intro hne hg
    rw [r.token, r.token]
    exact .assign hkey hop (r.derives hd (r.suffix hg ((List.suffix_cons _ _).trans (List.suffix_cons _ _)))) (r.stops hs)
  | step hkey hop =>
    intro hne hg
    rw [r.token, r.token, r.nil]
    exact .step hkey hop
  | command hkey hf hd =>
    intro hne hg
    rw [r.token]
    exact .command hkey (r.follows hkey hg hd.shaped hf) (r.derives hd (r.suffix hg (List.suffix_cons _ _)))
  | bare hb hd hs =>
    intro hne hg
    refine .bare ?_ (r.derives hd hg) (r.stops hs)
    rw [← r.append hd.shaped.toSettled]
    exact r.bare hg hb
  | arrow hd h ih =>
    intro hne hg
    simp only [List.cons_append, List.append_assoc] at hg
    have hcondition := r.derives hd hg
    rw [r.token, r.append h.settled] at hcondition
    rw [r.append hd.shaped.toSettled, r.token]
    exact .arrow hcondition (ih hne (r.suffix hg ((List.suffix_cons _ _).trans (List.suffix_append _ _))))
  | noArrow hd hend h ih =>
    intro hne hg
    rw [List.append_assoc] at hg
    have hgood := r.suffix hg (List.suffix_append _ _)
    have hcondition := r.derives hd hg
    rw [r.append h.settled] at hcondition
    rw [r.append hd.shaped.toSettled]
    refine .noArrow hcondition ?_ (ih hne hgood)
    rwa [← r.append h.settled, r.ends hgood (head_append_ne h.settled hne) (.inl hend)]
  | inline hend h ha ih =>
    intro hne hg
    refine .inline ?_ (ih hne hg) ha
    rw [← r.append h.settled]
    exact r.front_ne (P := fun kind => ¬endsLine kind) (by simp [endsLine]) (by simp [endsLine]) hend
  | noBody hend =>
    intro hne hg
    rw [r.nil]
    exact .noBody (r.front_end hg hne hend)
  | noBlock hi =>
    intro hne hg
    rw [r.token, r.nil]
    exact .noBlock (r.front_ne (P := (· ≠ TokenKind.indent)) (by simp) (by simp) hi)
  | block h ih =>
    intro hne hg
    simp only [List.cons_append, List.append_assoc] at hg
    have hinner := ih (by simp) (r.suffix hg ((List.suffix_cons _ _).trans (List.suffix_cons _ _)))
    rw [r.token] at hinner
    rw [r.token, r.token, r.append h.settled, r.token, r.nil]
    exact .block hinner
  | openBlock h heof ih =>
    intro hne hg
    have hin := r.suffix hg ((List.suffix_cons _ _).trans (List.suffix_cons _ _))
    rw [r.token, r.token]
    refine .openBlock (ih hne hin) ?_
    rwa [r.ends (r.suffix hin (List.suffix_append _ _)) hne (.inl (.inr (.inl heof)))]

/-- The grammar derives the same program. -/
theorem derivesProgram (r : Rewriting f Good) {stmts : List Stmt} (h : DerivesProgram gs stmts) (hg : Good gs) :
    DerivesProgram (f gs) stmts := by
  obtain ⟨words, apart, rfl, hd⟩ := h
  refine ⟨f words, apart, ?_, ?_⟩
  · rw [r.append hd.settled, r.token, r.nil]
  · have hclause := r.derivesClause hd (by simp) hg
    rwa [r.token, r.nil] at hclause

end Rewriting

/-! ## Tokens -/

/-- The glyphs of tokens with a mark behind `ws`. -/
def markedBehind : (before : Nat) → (ws vs : List Token) → List Glyph
  | before, [], vs => .closing :: glyphs before vs
  | before, w :: ws, vs => .token w.kind (decide (before < w.start)) :: markedBehind w.stop ws vs

/-- The glyphs of tokens with marks around `ws`. -/
def marked : (before : Nat) → (us ws vs : List Token) → List Glyph
  | before, [], ws, vs => .opening :: markedBehind before ws vs
  | before, u :: us, ws, vs => .token u.kind (decide (before < u.start)) :: marked u.stop us ws vs

/-- Among the tokens of a script `ws` is a complete expression: the grammar still derives the script when there are
marks around it. -/
def IsExpr (us ws vs : List Token) : Prop := ∃ stmts, DerivesProgram (marked 0 us ws vs) stmts

section

variable {before : Nat} {us ws vs : List Token}

theorem unmark_glyphs (before : Nat) (ts : List Token) : unmark (glyphs before ts) = glyphs before ts := by
  induction ts generalizing before with
  | nil => rfl
  | cons t ts ih => exact congrArg _ (ih t.stop)

theorem unmark_marked (before : Nat) (us ws vs : List Token) :
    unmark (marked before us ws vs) = glyphs before (us ++ (ws ++ vs)) := by
  induction us generalizing before with
  | cons u us ih => exact congrArg _ (ih u.stop)
  | nil =>
    show unmark (markedBehind before ws vs) = glyphs before (ws ++ vs)
    induction ws generalizing before with
    | nil => exact unmark_glyphs before vs
    | cons w ws ih => exact congrArg _ (ih w.stop)

theorem bracket_glyphs (before : Nat) (ts : List Token) : bracket false (glyphs before ts) = glyphs before ts := by
  induction ts generalizing before with
  | nil => rfl
  | cons t ts ih => rw [glyphs, bracket_token, ih]

/-- The closing parenthesis, one byte behind the opening one and one behind the tokens. -/
theorem bracket_markedBehind {q : Nat} : ∀ {before : Nat} {ws : List Token},
    (ws.getLast?.map Token.stop).getD before + 1 = q →
      bracket false (markedBehind before ws vs) = glyphs (before + 1)
        (ws.map (Token.moved 1) ++ ⟨.rightParen, q, q + 1⟩ :: (vs.map (Token.moved 1)).map (Token.moved 1))
  | before, [], rfl => by
    rw [markedBehind, bracket, bracket_glyphs, List.map_nil, List.nil_append, glyphs]
    simp only [List.getLast?_nil, Option.map_none, Option.getD_none, Nat.lt_irrefl, decide_false, glyphs_moved]
  | before, w :: ws, hq => by
    have hlast : (ws.getLast?.map Token.stop).getD w.stop + 1 = q := by
      rw [← hq, List.getLast?_cons]
      cases ws.getLast? <;> rfl
    rw [markedBehind, bracket_token, bracket_markedBehind hlast, List.map_cons, List.cons_append, glyphs]
    simp [Token.moved]

/-- Parentheses around some of the tokens. -/
theorem bracket_marked {p q : Nat} (hne : ws ≠ []) (hp : ∀ w ∈ ws.head?, w.start = p)
    (hq : ∀ w ∈ ws.getLast?, w.stop + 1 = q) : ∀ {before : Nat} {us : List Token},
    bracket false (marked before us ws vs) = glyphs before (us ++ ⟨.leftParen, p, p + 1⟩ ::
      (ws.map (Token.moved 1) ++ ⟨.rightParen, q, q + 1⟩ :: (vs.map (Token.moved 1)).map (Token.moved 1)))
  | before, u :: us => by
    rw [marked, bracket_token, bracket_marked hne hp hq, List.cons_append, glyphs]
  | before, [] => by
    cases ws with
    | nil => exact absurd rfl hne
    | cons w ws =>
      obtain rfl := hp w rfl
      have hlast : (ws.getLast?.map Token.stop).getD w.stop + 1 = q := by
        rw [List.getLast?_cons] at hq
        have hw := hq _ rfl
        cases hl : ws.getLast? <;> simpa [hl] using hw
      rw [marked, markedBehind, bracket, bracket, bracket_markedBehind hlast, List.map_cons, List.nil_append, List.cons_append, glyphs, glyphs]
      simp [Token.moved, isApart]

theorem kind?_glyphs (before : Nat) (ts : List Token) :
    (glyphs before ts).filterMap Glyph.kind? = ts.map Token.kind ∧ ∀ g ∈ glyphs before ts, g.kind?.isSome := by
  induction ts generalizing before with
  | nil => exact ⟨rfl, nofun⟩
  | cons t ts ih =>
    obtain ⟨hkinds, hsome⟩ := ih t.stop
    exact ⟨congrArg _ hkinds, List.forall_mem_cons.2 ⟨rfl, hsome⟩⟩

theorem markedBehind_eq (before : Nat) (ws vs : List Token) : ∃ gs gs' : List Glyph,
    markedBehind before ws vs = gs ++ .closing :: gs' ∧ gs.filterMap Glyph.kind? = ws.map Token.kind ∧
      gs'.filterMap Glyph.kind? = vs.map Token.kind ∧ ∀ g ∈ gs ++ gs', g.kind?.isSome := by
  induction ws generalizing before with
  | nil => exact ⟨[], _, rfl, rfl, kind?_glyphs before vs⟩
  | cons w ws ih =>
    obtain ⟨gs, gs', he, hkinds, hkinds', hsome⟩ := ih w.stop
    refine ⟨.token w.kind _ :: gs, gs', congrArg _ he, congrArg _ hkinds, hkinds', ?_⟩
    exact List.forall_mem_cons.2 ⟨rfl, hsome⟩

/-- The marks and the glyphs of the tokens in front of them, between them and behind them. -/
theorem marked_eq (before : Nat) (us ws vs : List Token) : ∃ gs gs' gs'' : List Glyph,
    marked before us ws vs = gs ++ .opening :: (gs' ++ .closing :: gs'') ∧
      gs.filterMap Glyph.kind? = us.map Token.kind ∧ gs'.filterMap Glyph.kind? = ws.map Token.kind ∧
        gs''.filterMap Glyph.kind? = vs.map Token.kind ∧ ∀ g ∈ gs ++ (gs' ++ gs''), g.kind?.isSome := by
  induction us generalizing before with
  | nil =>
    obtain ⟨gs', gs'', he, hkinds', hkinds'', hsome⟩ := markedBehind_eq before ws vs
    exact ⟨[], gs', gs'', congrArg _ he, rfl, hkinds', hkinds'', hsome⟩
  | cons u us ih =>
    obtain ⟨gs, gs', gs'', he, hkinds, hkinds', hkinds'', hsome⟩ := ih u.stop
    refine ⟨.token u.kind _ :: gs, gs', gs'', congrArg _ he, congrArg _ hkinds, hkinds', hkinds'', ?_⟩
    exact List.forall_mem_cons.2 ⟨rfl, hsome⟩

/-- The marks fit into a script. -/
theorem DerivesProgram.chain {stmts : List Stmt} (h : DerivesProgram gs stmts) :
    gs.IsChain Fits ∧ ∀ g ∈ gs.getLast?, g ≠ .opening := by
  obtain ⟨words, apart, rfl, hd⟩ := h
  have heof : Settled [.token .eof apart] := settled_token rfl
  have hwhole := hd.settled.append heof
  exact ⟨hwhole.chain, hwhole.last⟩

theorem exists_token_of_isSome {g : Glyph} (h : g.kind?.isSome) : ∃ kind apart, g = .token kind apart := by
  cases g with
  | token kind apart => exact ⟨kind, apart, rfl⟩
  | opening | closing => cases h

theorem kind_of_head? {gs : List Glyph} {ts : List Token} {kind : TokenKind} {apart : Bool} {t : Token}
    (h : (Glyph.token kind apart :: gs).filterMap Glyph.kind? = ts.map Token.kind) (ht : t ∈ ts.head?) : t.kind = kind := by
  cases ts with
  | nil => cases ht
  | cons u us =>
    cases ht
    exact (List.cons.inj h).1.symm

theorem kind_of_getLast? {gs : List Glyph} {ts : List Token} {kind : TokenKind} {apart : Bool}
    (h : (gs ++ [Glyph.token kind apart]).filterMap Glyph.kind? = ts.map Token.kind) :
    ∃ t, ts.getLast? = some t ∧ t.kind = kind := by
  rw [List.filterMap_append] at h
  have hlast : (gs.filterMap Glyph.kind? ++ [kind]).getLast? = (ts.map Token.kind).getLast? := congrArg List.getLast? h
  rw [List.getLast?_concat, List.getLast?_map] at hlast
  obtain ⟨t, ht, hk⟩ := Option.map_eq_some_iff.1 hlast.symm
  exact ⟨t, ht, hk⟩

/-- Between the marks stands an expression. -/
theorem IsExpr.shaped (h : IsExpr us ws vs) : ws ≠ [] ∧
    (∀ w ∈ ws.head?, w.kind.isWord ∧ stepOp? w.kind = none) ∧ (∀ w ∈ ws.getLast?, w.kind.isWord) ∧
      ∀ v ∈ vs.head?, stepOp? v.kind = none := by
  obtain ⟨stmts, hd⟩ := h
  obtain ⟨gs, gs', gs'', he, -, hkinds', hkinds'', hsome⟩ := marked_eq 0 us ws vs
  have hchain := hd.chain.1
  rw [he] at hchain
  have hin := List.isChain_cons.1 hchain.right_of_append
  have hclosing := List.isChain_append.1 hin.2
  obtain ⟨g, rest, rfl⟩ : ∃ g rest, gs' = g :: rest := by
    cases gs' with
    | nil => cases (hin.1 _ rfl).opening rfl
    | cons g rest => exact ⟨g, rest, rfl⟩
  have hne : ws ≠ [] := by
    rintro rfl
    obtain ⟨kind, apart, rfl⟩ := exists_token_of_isSome (hsome g (by simp))
    cases hkinds'
  refine ⟨hne, fun w hw => ?_, fun w hw => ?_, fun v hv => ?_⟩
  · obtain ⟨kind, apart, rfl⟩ := exists_token_of_isSome (hsome g (by simp))
    have hs := (hin.1 _ rfl).opening rfl
    rw [kind_of_head? hkinds' hw]
    exact ⟨hs.1, hs.2.2⟩
  · obtain ⟨init, last, hlast⟩ := List.eq_nil_or_concat (g :: rest) |>.resolve_left (by simp)
    rw [List.concat_eq_append] at hlast
    rw [hlast] at hkinds' hclosing hsome
    obtain ⟨kind, apart, rfl⟩ := exists_token_of_isSome (hsome last (by simp))
    have hfits := hclosing.2.2 _ (by rw [List.getLast?_concat]; rfl) _ rfl
    obtain ⟨t, ht, hk⟩ := kind_of_getLast? hkinds'
    obtain rfl := Option.mem_unique hw ht
    rw [hk]
    exact (hfits.closing rfl).1
  · cases gs'' with
    | nil =>
      cases vs with
      | nil => cases hv
      | cons v vs => cases hkinds''
    | cons g' gs'' =>
      obtain ⟨kind, apart, rfl⟩ := exists_token_of_isSome (hsome g' (by simp))
      have hfits := (List.isChain_cons.1 hclosing.2.1).1 _ rfl
      rw [kind_of_head? hkinds'' hv]
      exact not_not.1 (hfits.step rfl)

/-- Parentheses can be put around an expression that is not a lone callable name and has no name in front. -/
theorem IsExpr.clear (h : IsExpr us ws vs) (hprev : ∀ u ∈ us.getLast?, ∀ word, u.kind = .ident word → isKeyword word)
    (hlone : ∀ word, isCallable word → ¬LoneName word (ws.map Token.kind)) : Clear (marked 0 us ws vs) := by
  obtain ⟨stmts, hd⟩ := h
  obtain ⟨gs, gs', gs'', he, hkinds, hkinds', -, hsome⟩ := marked_eq 0 us ws vs
  have hopening : Glyph.opening ∉ gs ∧ Glyph.opening ∉ gs' ++ .closing :: gs'' := by
    constructor
    · exact fun hm => by cases hsome _ (List.mem_append_left _ hm)
    · intro hm
      have hsome := hsome .opening
      simp at hm
      simp [hm, Glyph.kind?] at hsome
  have hclosing : Glyph.closing ∉ gs' ∧ Glyph.closing ∉ gs'' := by
    constructor <;> exact fun hm => by cases hsome .closing (by simp [hm])
  refine ⟨hd.chain.1, hd.chain.2, fun word apart more hkey hm => ?_, fun word inner more hcall hl hm => ?_⟩
  · obtain ⟨front, hfront⟩ := hm
    rw [he, ← List.singleton_append, ← List.append_assoc] at hfront
    obtain ⟨rfl, -⟩ := (List.append_cons_inj_of_notMem hopening.1 hopening.2).1 hfront.symm
    obtain ⟨u, hu, hk⟩ := kind_of_getLast? hkinds
    rw [hprev u hu word hk] at hkey
    cases hkey
  · obtain ⟨front, hfront⟩ := hm
    rw [he] at hfront
    obtain ⟨-, -, hin⟩ := (List.append_cons_inj_of_notMem hopening.1 hopening.2).1 hfront.symm
    obtain ⟨rfl, -⟩ := (List.append_cons_inj_of_notMem hclosing.1 hclosing.2).1 hin
    exact hlone word hcall (hkinds' ▸ hl)

/-! ## Texts -/

open Text (byteLength byteLength_append byteLength_cons)

/-- Parentheses put into a text where the tokens `ws` start and stop. -/
theorem lex_wrapped {front inner back : List Char} (hlex : lex (front ++ (inner ++ back)) = .ok (us ++ (ws ++ vs)))
    (hstart : ∀ w ∈ ws.head?, w.start = byteLength front)
    (hstop : ∀ w ∈ ws.getLast?, w.stop = byteLength front + byteLength inner) (h : IsExpr us ws vs) :
    ∃ ts, lex (front ++ '(' :: (inner ++ ')' :: back)) = .ok ts ∧ glyphs 0 ts = bracket false (marked 0 us ws vs) := by
  obtain ⟨hne, hhead, hlast, hnext⟩ := h.shaped
  obtain ⟨w, ws', rfl⟩ := List.exists_cons_of_ne_nil hne
  obtain ⟨l, hl⟩ : ∃ l, (w :: ws').getLast? = some l := ⟨_, List.getLast?_cons⟩
  have hopen := lex_delimited .opening hlex ⟨w, (hhead w rfl).1, .inr ⟨rfl, hstart w rfl⟩⟩ fun t ht => by
    cases ht
    exact (hhead w rfl).2
  have hinner : byteLength (front ++ '(' :: inner) = byteLength front + byteLength inner + 1 := by
    rw [byteLength_append, byteLength_cons, show '('.utf8Size = 1 from rfl]
    omega
  have hmoved : (us ++ ⟨.leftParen, byteLength front, byteLength front + 1⟩ :: (w :: ws').map (Token.moved 1)).getLast? =
      some (l.moved 1) := by
    rw [List.getLast?_append, List.getLast?_cons, List.getLast?_map, hl]
    rfl
  have hopened : lex ((front ++ '(' :: inner) ++ back) = .ok ((us ++ ⟨.leftParen, byteLength front, byteLength front + 1⟩ ::
      (w :: ws').map (Token.moved 1)) ++ vs.map (Token.moved 1)) := by
    simpa using hopen
  have hclose := lex_delimited .closing hopened
    ⟨l.moved 1, hlast l hl, .inl ⟨hmoved, by rw [hinner, ← hstop l hl]; rfl⟩⟩ fun t ht => by
      rw [List.head?_map, Option.mem_map] at ht
      obtain ⟨v, hv, rfl⟩ := ht
      exact hnext v hv
  refine ⟨_, by simpa using hclose, ?_⟩
  rw [bracket_marked (q := byteLength front + byteLength inner + 1) hne hstart fun t ht => by rw [hstop t ht]]
  simp [hinner]

/-- Redundant parentheses are harmless. The text `inner` holds the tokens `ws`, which are a complete expression of the
script: behind no name, other than a keyword, and not just a callable name, with parentheses and plus signs around it
perhaps. Then the text with parentheses around `inner` is accepted and gives the same tree up to places. -/
theorem parse_wrapped {front inner back : List Char} {us ws vs : List Token} {stmts : List Stmt}
    (hlex : lex (front ++ (inner ++ back)) = .ok (us ++ (ws ++ vs)))
    (hstart : ∀ w ∈ ws.head?, w.start = byteLength front)
    (hstop : ∀ w ∈ ws.getLast?, w.stop = byteLength front + byteLength inner)
    (hparse : parse (front ++ (inner ++ back)) = .ok stmts) (h : IsExpr us ws vs)
    (hprev : ∀ u ∈ us.getLast?, ∀ word, u.kind = .ident word → isKeyword word)
    (hlone : ∀ word, isCallable word → ¬LoneName word (ws.map Token.kind)) :
    ∃ stmts', parse (front ++ '(' :: (inner ++ ')' :: back)) = .ok stmts' ∧ eraseBlock stmts' = eraseBlock stmts := by
  have hclear := h.clear hprev hlone
  obtain ⟨ts, hlex', hglyphs⟩ := lex_wrapped hlex hstart hstop h
  obtain ⟨read, hd⟩ := h
  have hplain := rewriting_unmark.derivesProgram hd trivial
  rw [unmark_marked] at hplain
  obtain ⟨stmts₁, hprogram, rfl⟩ := program_of_derivesProgram (nested_lex hlex) (ordered_lex hlex) hplain
  have hwrapped := rewriting_bracket.derivesProgram hd hclear
  rw [← hglyphs] at hwrapped
  obtain ⟨stmts', hprogram', he⟩ := program_of_derivesProgram (nested_lex hlex') (ordered_lex hlex') hwrapped
  refine ⟨stmts', by rw [parse, hlex', ok_bind, hprogram'], ?_⟩
  rw [parse, hlex, ok_bind, hprogram] at hparse
  rw [he, Except.ok.inj hparse]

end

/-- A line that assigns this value, and the end of the script. -/
theorem derivesProgram_assign {word : String} {value : Expr} {words : List Glyph} {level : Nat} (hl : level ≤ levels)
    (hkey : isKeyword word = false)
    (h : Derives (.expression level value) words [.token .newline false, .token .eof false]) :
    DerivesProgram (.token (.ident word) false :: .token .assign true :: (words ++ [.token .newline false, .token .eof false]))
      [.assign word .set value 0] := by
  have hstops : ∀ k, Stops k [Glyph.token .newline false, .token .eof false] := fun k => by
    rcases k with _ | _ | _ | _ | _ | _ | _ | k <;> trivial
  have hline : DerivesClause (.line [.stmt (.assign word .set value 0)])
      ((.token (.ident word) false :: .token .assign true :: words) ++ [.token .newline false]) [.token .eof false] :=
    .nextItem (.assign hkey rfl (h.lift_to hl fun k _ _ => hstops k) rfl) (.inl (.inl rfl)) .newline
  have hdone : DerivesClause (.block [.assign word .set value 0] [.assign word .set value 0]) [] [.token .eof false] :=
    .done (.inl rfl)
  have hblock : DerivesClause (.block [] _) _ _ := .row rfl hline rfl hdone
  refine ⟨.token (.ident word) false :: .token .assign true :: (words ++ [.token .newline false]), false, by simp, ?_⟩
  simpa using hblock

/-- A prefix operator with its operand, in front of an operator that binds less tightly. -/
theorem parse_wrapped_operand :
    ∃ us ws vs, lex ("x = ".toList ++ ("not a".toList ++ " and b".toList)) = .ok (us ++ (ws ++ vs)) ∧ IsExpr us ws vs ∧
      ∃ stmts, parse ("x = ".toList ++ ("not a".toList ++ " and b".toList)) = .ok stmts ∧
        ∃ stmts', parse ("x = ".toList ++ '(' :: ("not a".toList ++ ')' :: " and b".toList)) = .ok stmts' ∧
          eraseBlock stmts' = eraseBlock stmts := by
  have hleft : Derives (.expression 5 (.unary .not (.ident "a" 0)))
      [.opening, .token (.ident "not") true, .token (.ident "a") true, .closing]
      [.token (.ident "and") true, .token (.ident "b") true, .token .newline false, .token .eof false] :=
    (Derives.marked (.sign (f := .unary .not) rfl (.name rfl rfl rfl))).lift_to (by decide) fun k _ hk => by
      interval_cases k <;> trivial
  have hright : Derives (.expression 4 (.ident "b" 0)) [.token (.ident "b") true]
      [.token .newline false, .token .eof false] :=
    (Derives.name rfl rfl rfl).lift_to (by decide) fun k _ hk => by interval_cases k <;> trivial
  have hvalue : Derives (.expression 5 (.binary .and (.unary .not (.ident "a" 0)) (.ident "b" 0)))
      ([.opening, .token (.ident "not") true, .token (.ident "a") true, .closing] ++
        .token (.ident "and") true :: [.token (.ident "b") true]) [.token .newline false, .token .eof false] :=
    .binary hleft rfl hright rfl
  have hexpr : IsExpr [⟨.ident "x", 0, 1⟩, ⟨.assign, 2, 3⟩] [⟨.ident "not", 4, 7⟩, ⟨.ident "a", 8, 9⟩]
      [⟨.ident "and", 10, 13⟩, ⟨.ident "b", 14, 15⟩, ⟨.newline, 15, 15⟩, ⟨.eof, 15, 15⟩] :=
    ⟨_, derivesProgram_assign (by decide) (rfl : isKeyword "x" = false) hvalue⟩
  have hlex : lex ("x = ".toList ++ ("not a".toList ++ " and b".toList)) =
      .ok ([⟨.ident "x", 0, 1⟩, ⟨.assign, 2, 3⟩] ++ ([⟨.ident "not", 4, 7⟩, ⟨.ident "a", 8, 9⟩] ++
        [⟨.ident "and", 10, 13⟩, ⟨.ident "b", 14, 15⟩, ⟨.newline, 15, 15⟩, ⟨.eof, 15, 15⟩])) := rfl
  have hparse : parse ("x = ".toList ++ ("not a".toList ++ " and b".toList)) =
      .ok [.assign "x" .set (.binary .and (.unary .not (.ident "a" 8)) (.ident "b" 14)) 0] := by cbv
  have hlone : ∀ word, isCallable word → ¬LoneName word [.ident "not", .ident "a"] := by
    rintro word - ⟨⟩
  exact ⟨_, _, _, hlex, hexpr, _, hparse,
    parse_wrapped hlex (by decide) (by decide) hparse hexpr (by simp) hlone⟩

/-- A callable name that is a value, and not in parentheses. -/
theorem parse_wrapped_callable :
    IsExpr [⟨.ident "x", 0, 1⟩, ⟨.assign, 2, 3⟩] [⟨.ident "box", 4, 7⟩] [⟨.newline, 7, 7⟩, ⟨.eof, 7, 7⟩] ∧
      parse "x = box".toList = .ok [.assign "x" .set (.ident "box" 4) 0] ∧
        parse "x = (box)".toList = .error ⟨9, .expected "expression" "end of line"⟩ := by
  have hbox : Derives (.expression 0 (.ident "box" 0)) [.opening, .token (.ident "box") true, .closing]
      [.token .newline false, .token .eof false] := .marked (.name rfl rfl rfl)
  exact ⟨⟨_, derivesProgram_assign (by decide) (rfl : isKeyword "x" = false) hbox⟩, by cbv, by decide +kernel⟩

end LiveSketch.Script

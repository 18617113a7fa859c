import LiveSketch.Proofs.Script.Derivations
import Mathlib.Data.List.Chain

/-!
# Marks and parentheses

Marks in the glyphs of a script stand around complete expressions. They can be left out (`unmark`), and parentheses
can be put in their place (`bracket`): the grammar derives the same from the glyphs without the marks, and from those
with the parentheses unless a marked expression is a lone callable name, or touches a name in front of it.
-/
namespace LiveSketch.Script

open LiveSketch.Script.Parser

/-! ## Which glyphs stand side by side -/

/-- Whether an expression may begin with this glyph. -/
def Glyph.startsExpr : Glyph → Prop
  | .token kind _ => kind.isWord ∧ kind ≠ .semicolon ∧ stepOp? kind = none
  | .opening => True
  | .closing => False

/-- Whether an expression may end with this glyph. -/
def Glyph.endsExpr : Glyph → Prop
  | .token kind _ => kind.isWord ∧ kind ≠ .plus ∧ kind ≠ .minus
  | .opening => False
  | .closing => True

/-- Whether this glyph steps a variable. -/
def Glyph.isStep : Glyph → Prop
  | .token kind _ => stepOp? kind ≠ none
  | .opening | .closing => False

/-- Marks fit around expressions, and no step stands behind one. -/
structure Fits (g h : Glyph) : Prop where
  opening : g = .opening → h.startsExpr
  closing : h = .closing → g.endsExpr
  step : g = .closing → ¬h.isStep

/-- Nothing here leaves a mark open or closes one that stands in front. -/
structure Settled (words : List Glyph) : Prop where
  chain : words.IsChain Fits
  head : ∀ g ∈ words.head?, g ≠ .closing ∧ ¬g.isStep
  last : ∀ g ∈ words.getLast?, g ≠ .opening

/-- The glyphs of an expression. -/
structure Shaped (words : List Glyph) : Prop extends Settled words where
  head_starts : ∃ g ∈ words.head?, g.startsExpr
  last_ends : ∃ g ∈ words.getLast?, g.endsExpr

section

variable {words words' : List Glyph} {kind : TokenKind} {apart : Bool}

theorem Settled.append (h : Settled words) (h' : Settled words') : Settled (words ++ words') where
  chain := List.isChain_append.2 ⟨h.chain, h'.chain, fun g hg g' hg' =>
    ⟨fun ho => absurd ho (h.last g hg), fun hc => absurd hc (h'.head g' hg').1, fun _ => (h'.head g' hg').2⟩⟩
  head g hg := by
    cases words with
    | nil => exact h'.head g hg
    | cons g' words => exact h.head g hg
  last g hg := by
    rw [List.getLast?_append] at hg
    rcases Option.or_eq_some_iff.1 hg with hl | ⟨-, hl⟩
    · exact h'.last g hl
    · exact h.last g hl

theorem settled_nil : Settled [] := ⟨.nil, nofun, nofun⟩

theorem settled_token (hk : stepOp? kind = none) : Settled [.token kind apart] where
  chain := .singleton _
  head := by simp [Glyph.isStep, hk]
  last := by simp

theorem Settled.cons (hk : stepOp? kind = none) (h : Settled words) : Settled (.token kind apart :: words) :=
  (settled_token hk).append h

theorem Shaped.ne_nil (h : Shaped words) : words ≠ [] := by
  rintro rfl
  obtain ⟨g, hg, -⟩ := h.head_starts
  cases hg

theorem shaped_token (hs : Glyph.startsExpr (.token kind apart)) (he : Glyph.endsExpr (.token kind apart)) :
    Shaped [.token kind apart] where
  toSettled := settled_token hs.2.2
  head_starts := ⟨_, rfl, hs⟩
  last_ends := ⟨_, rfl, he⟩

/-- An expression with something in front of it. -/
theorem Shaped.prepend (h : Shaped words) (h' : Settled words') (hs : ∃ g ∈ words'.head?, g.startsExpr) :
    Shaped (words' ++ words) where
  toSettled := h'.append h.toSettled
  head_starts := by
    obtain ⟨g, hg, hs⟩ := hs
    exact ⟨g, List.mem_head?_append_of_mem_head? hg, hs⟩
  last_ends := by
    obtain ⟨g, hg, he⟩ := h.last_ends
    exact ⟨g, by rw [List.getLast?_append, hg]; rfl, he⟩

/-- An expression with something behind it. -/
theorem Shaped.append (h : Shaped words) (h' : Settled words') (he : ∃ g ∈ words'.getLast?, g.endsExpr) :
    Shaped (words ++ words') where
  toSettled := h.toSettled.append h'
  head_starts := by
    obtain ⟨g, hg, hs⟩ := h.head_starts
    exact ⟨g, List.mem_head?_append_of_mem_head? hg, hs⟩
  last_ends := by
    obtain ⟨g, hg, he⟩ := he
    exact ⟨g, by rw [List.getLast?_append, hg]; rfl, he⟩

theorem Shaped.cons (hs : Glyph.startsExpr (.token kind apart)) (h : Shaped words) : Shaped (.token kind apart :: words) :=
  h.prepend (settled_token hs.2.2) ⟨_, rfl, hs⟩

/-- Two expressions with a token between them. -/
theorem Shaped.join (h : Shaped words) (hk : stepOp? kind = none) (h' : Shaped words') :
    Shaped (words ++ .token kind apart :: words') :=
  h.append (h'.toSettled.cons hk) (by
    obtain ⟨g, hg, he⟩ := h'.last_ends
    exact ⟨g, by rw [List.getLast?_cons, hg]; rfl, he⟩)

theorem getLast?_marked (words : List Glyph) :
    (Glyph.opening :: (words ++ [Glyph.closing])).getLast? = some .closing := by
  rw [← List.cons_append, List.getLast?_concat]

theorem Shaped.marked (h : Shaped words) : Shaped (.opening :: (words ++ [.closing])) where
  chain := by
    rw [List.isChain_cons, List.isChain_append]
    refine ⟨fun g hg => ⟨fun _ => ?_, ?_, nofun⟩, h.chain, .singleton _, ?_⟩
    · obtain ⟨g', hg', hs⟩ := h.head_starts
      rwa [Option.mem_unique hg (List.mem_head?_append_of_mem_head? hg')]
    · rintro rfl
      obtain ⟨g', hg', hs⟩ := h.head_starts
      rw [Option.mem_unique (List.mem_head?_append_of_mem_head? hg') hg] at hs
      cases hs
    · rintro g hg _ ⟨⟩
      obtain ⟨g', hg', he⟩ := h.last_ends
      obtain rfl := Option.mem_unique hg hg'
      exact ⟨fun ho => absurd ho (h.last g hg), fun _ => he, fun _ => id⟩
  head := by simp [Glyph.isStep]
  last := by simp [getLast?_marked]
  head_starts := ⟨_, rfl, trivial⟩
  last_ends := ⟨.closing, getLast?_marked words, trivial⟩

end

theorem startsExpr_ident (word : String) (apart : Bool) : Glyph.startsExpr (.token (.ident word) apart) :=
  ⟨rfl, by simp, rfl⟩

theorem startsExpr_leftParen (apart : Bool) : Glyph.startsExpr (.token .leftParen apart) :=
  ⟨rfl, by simp, rfl⟩

theorem endsExpr_rightParen (apart : Bool) : Glyph.endsExpr (.token .rightParen apart) := ⟨rfl, by simp, by simp⟩

theorem startsExpr_of_prefixOp? {kind : TokenKind} {f : Expr → Expr} (h : prefixOp? kind = some f) (apart : Bool) :
    Glyph.startsExpr (.token kind apart) := by
  unfold prefixOp? at h
  split at h
  · exact ⟨rfl, by simp, rfl⟩
  · exact ⟨rfl, by simp, rfl⟩
  · exact ⟨rfl, by simp, rfl⟩
  · exact startsExpr_ident _ _
  · cases h

theorem shaped_literal {kind : TokenKind} {value : Literal} (h : literal? kind = some value) (apart : Bool) :
    Shaped [.token kind apart] := by
  unfold literal? at h
  split at h
  · exact shaped_token ⟨rfl, by simp, rfl⟩ ⟨rfl, by simp, by simp⟩
  · exact shaped_token ⟨rfl, by simp, rfl⟩ ⟨rfl, by simp, by simp⟩
  · exact shaped_token (startsExpr_ident _ _) ⟨rfl, by simp, by simp⟩
  · exact shaped_token (startsExpr_ident _ _) ⟨rfl, by simp, by simp⟩
  · cases h

theorem stepOp?_of_binaryOp? {level : Nat} {kind : TokenKind} {op : BinaryOp} (h : binaryOp? level kind = some op) :
    stepOp? kind = none := by
  unfold binaryOp? at h
  split at h <;> first | rfl | cases h

/-- Around an expression the marks fit. -/
theorem Derives.shaped {p : Phrase} {words rest : List Glyph} (h : Derives p words rest) : Shaped words := by
  induction h with
  | literal hl => exact shaped_literal hl _
  | name => exact shaped_token (startsExpr_ident _ _) ⟨rfl, by simp, by simp⟩
  | emptyCall =>
    exact (shaped_token (startsExpr_ident _ _) ⟨rfl, by simp, by simp⟩).append
      ((settled_token rfl).cons rfl) ⟨_, rfl, endsExpr_rightParen _⟩
  | call _ _ ih =>
    exact .cons (startsExpr_ident _ _) (.cons (startsExpr_leftParen _)
      (ih.append (settled_token rfl) ⟨_, rfl, endsExpr_rightParen _⟩))
  | command _ _ _ _ ih => exact .cons (startsExpr_ident _ _) ih
  | parens _ _ ih =>
    exact .cons (startsExpr_leftParen _) (ih.append (settled_token rfl) ⟨_, rfl, endsExpr_rightParen _⟩)
  | parensCommand _ _ _ _ ih ih' => exact .cons (startsExpr_leftParen _) (ih.join rfl ih')
  | sign hf _ ih => exact .cons (startsExpr_of_prefixOp? hf _) ih
  | lift _ _ ih => exact ih
  | binary _ hop _ _ ih ih' => exact ih.join (stepOp?_of_binaryOp? hop) ih'
  | marked _ ih => exact ih.marked
  | last _ _ _ ih => exact ih
  | more _ _ ih ih' => exact ih.join rfl ih'

/-! ## Lone names -/

/-- These tokens are a name, perhaps with parentheses and plus signs around it. -/
inductive LoneName (word : String) : List TokenKind → Prop where
  | name : LoneName word [.ident word]
  | plus {kinds : List TokenKind} : LoneName word kinds → LoneName word (.plus :: kinds)
  | parens {kinds : List TokenKind} : LoneName word kinds → LoneName word (.leftParen :: (kinds ++ [.rightParen]))

/-- The kind of a token; a mark has none. -/
def Glyph.kind? : Glyph → Option TokenKind
  | .token kind _ => some kind
  | .opening | .closing => none

/-- What stands for a name is a name. -/
theorem loneName_of_derives {p : Phrase} {words rest : List Glyph} (h : Derives p words rest) :
    ∀ {level : Nat} {word : String}, p = .expression level (.ident word 0) → LoneName word (words.filterMap Glyph.kind?) := by
  induction h with
  | literal | emptyCall | call | command | parensCommand | binary | last | more => exact fun hp => by cases hp
  | name =>
    intro _ _ hp
    cases hp
    exact .name
  | parens _ _ ih =>
    intro _ _ hp
    cases hp
    have hparens := LoneName.parens (ih rfl)
    simpa [Glyph.kind?] using hparens
  | @sign kind _ f e words rest hf _ ih =>
    intro level word hp
    have hplus : kind = .plus ∧ f = id := by
      unfold prefixOp? at hf
      split at hf <;> cases hf <;> first | exact ⟨rfl, rfl⟩ | cases hp
    obtain ⟨rfl, rfl⟩ := hplus
    cases hp
    exact .plus (ih rfl)
  | lift _ _ ih =>
    intro _ _ hp
    cases hp
    exact ih rfl
  | marked _ ih =>
    intro _ _ hp
    cases hp
    rw [List.filterMap_cons_none rfl, List.filterMap_append, List.filterMap_cons_none rfl, List.filterMap_nil,
      List.append_nil]
    exact ih rfl

/-! ## Parentheses for marks -/

/-- Parentheses in place of the marks. `behind` says that one has just been put in front. -/
def bracket : (behind : Bool) → List Glyph → List Glyph
  | _, [] => []
  | behind, .opening :: gs => .token .leftParen (isApart gs && !behind) :: bracket true gs
  | _, .closing :: gs => .token .rightParen false :: bracket false gs
  | behind, .token kind apart :: gs => .token kind (apart && !behind) :: bracket false gs

theorem bracket_token (kind : TokenKind) (apart : Bool) (gs : List Glyph) :
    bracket false (.token kind apart :: gs) = .token kind apart :: bracket false gs := by
  rw [bracket, Bool.not_false, Bool.and_true]

/-- Parentheses can be put in place of the marks: none touches a name in front of it, and none stands around a lone
callable name. -/
structure Clear (gs : List Glyph) : Prop where
  chain : gs.IsChain Fits
  last : ∀ g ∈ gs.getLast?, g ≠ .opening
  name : ∀ word apart gs', isKeyword word = false → ¬.token (.ident word) apart :: .opening :: gs' <:+ gs
  lone : ∀ word inner gs', isCallable word → LoneName word (inner.filterMap Glyph.kind?) →
    ¬.opening :: (inner ++ .closing :: gs') <:+ gs

section

variable {gs gs' words rest : List Glyph}

theorem Clear.suffix (h : Clear gs) (hs : gs' <:+ gs) : Clear gs' where
  chain := h.chain.suffix hs
  last g hg := by
    obtain ⟨front, rfl⟩ := hs
    exact h.last g (by rw [List.getLast?_append, hg]; rfl)
  name word apart more hw hm := h.name word apart more hw (hm.trans hs)
  lone word inner more hw hl hm := h.lone word inner more hw hl (hm.trans hs)

theorem isApart_append (hc : words.IsChain Fits) (hl : ∀ g ∈ words.getLast?, g ≠ .opening)
    (hs : ∃ g ∈ words.head?, g.startsExpr) (gs : List Glyph) : isApart (words ++ gs) = isApart words := by
  induction words with
  | nil =>
    obtain ⟨g, hg, -⟩ := hs
    cases hg
  | cons g words ih =>
    cases g with
    | token kind apart => rfl
    | closing =>
      obtain ⟨g, hg, hs⟩ := hs
      cases hg
      cases hs
    | opening =>
      cases words with
      | nil => exact absurd rfl (hl _ rfl)
      | cons g words =>
        rw [List.isChain_cons_cons] at hc
        exact ih hc.2 (by rwa [List.getLast?_cons_cons] at hl) ⟨g, rfl, hc.1.opening rfl⟩

theorem bracket_append (hc : words.IsChain Fits) (hl : ∀ g ∈ words.getLast?, g ≠ .opening) (hne : words ≠ [])
    (gs : List Glyph) (b : Bool) : bracket b (words ++ gs) = bracket b words ++ bracket false gs := by
  induction words generalizing b with
  | nil => exact absurd rfl hne
  | cons g words ih =>
    cases words with
    | nil =>
      cases g with
      | opening => exact absurd rfl (hl _ rfl)
      | token kind apart => rfl
      | closing => rfl
    | cons g' words =>
      rw [List.isChain_cons_cons] at hc
      rw [List.getLast?_cons_cons] at hl
      have ih := ih hc.2 hl (by simp)
      cases g with
      | token kind apart => rw [List.cons_append, bracket, ih, bracket, List.cons_append]
      | closing => rw [List.cons_append, bracket, ih, bracket, List.cons_append]
      | opening =>
        have hapart := isApart_append hc.2 hl ⟨g', rfl, hc.1.opening rfl⟩ gs
        rw [List.cons_append, bracket, ih, hapart, bracket, List.cons_append]

theorem Settled.bracket_append (h : Settled words) (gs : List Glyph) :
    bracket false (words ++ gs) = bracket false words ++ bracket false gs := by
  cases words with
  | nil => rfl
  | cons g words => exact LiveSketch.Script.bracket_append h.chain h.last (by simp) gs false

theorem front_bracket (b : Bool) (gs : List Glyph) :
    front (bracket b gs) = front gs ∨ front (bracket b gs) = .leftParen ∨ front (bracket b gs) = .rightParen := by
  cases gs with
  | nil => exact .inl rfl
  | cons g gs =>
    cases g with
    | token kind apart => exact .inl rfl
    | opening => exact .inr (.inl rfl)
    | closing => exact .inr (.inr rfl)

theorem binaryOp?_parens (level : Nat) : binaryOp? level .leftParen = none ∧ binaryOp? level .rightParen = none := by
  rcases level with _ | _ | _ | _ | _ | _ | level <;> exact ⟨rfl, rfl⟩

theorem stops_bracket {level : Nat} (h : Stops level gs) (b : Bool) : Stops level (bracket b gs) := by
  cases level with
  | zero => trivial
  | succ level =>
    rcases front_bracket b gs with hf | hf | hf <;> rw [Stops, hf]
    · exact h
    · exact (binaryOp?_parens level).1
    · exact (binaryOp?_parens level).2

/-- What follows a name the parentheses do not change. -/
theorem follows_bracket {kind : TokenKind} {apart : Bool} (h : Clear (.token kind apart :: gs)) :
    follows (bracket false (.token kind apart :: gs)) = follows (.token kind apart :: gs) := by
  have hapart : kind = .plus ∨ kind = .minus → isApart (bracket false gs) = isApart gs := by
    intro hk
    cases gs with
    | nil => rfl
    | cons g gs =>
      cases g with
      | token kind apart => simp [bracket, isApart]
      | opening => simp [bracket, isApart]
      | closing =>
        have he := (List.isChain_cons_cons.1 h.chain).1.closing rfl
        rcases hk with rfl | rfl
        · exact absurd rfl he.2.1
        · exact absurd rfl he.2.2
  rw [bracket_token]
  cases kind <;> simp [follows, hapart]

theorem not_follows_bracket {word : String} {apart : Bool} (hkey : isKeyword word = false)
    (h : Clear (.token (.ident word) apart :: rest)) (hf : follows rest = false) : follows (bracket false rest) = false := by
  cases rest with
  | nil => rfl
  | cons g rest =>
    cases g with
    | token kind apart' => rw [follows_bracket (h.suffix (List.suffix_cons _ _)), hf]
    | opening => exact absurd List.suffix_rfl (h.name _ _ _ hkey)
    | closing => rfl

theorem not_touches_bracket {word : String} {apart : Bool} (hkey : isKeyword word = false)
    (h : Clear (.token (.ident word) apart :: rest)) (ht : touches rest = false) : touches (bracket false rest) = false := by
  cases rest with
  | nil => rfl
  | cons g rest =>
    cases g with
    | token kind apart' => simpa [bracket, touches] using ht
    | opening => exact absurd List.suffix_rfl (h.name _ _ _ hkey)
    | closing => rfl

theorem stops_closing (level : Nat) (gs : List Glyph) : Stops level (.closing :: gs) ↔ Stops level gs := by
  cases level <;> exact Iff.rfl

/-- What stands behind an expression does not go on with it at a lower level. -/
theorem Derives.stops {p : Phrase} (h : Derives p words rest) :
    ∀ {level : Nat} {e : Expr}, p = .expression level e → ∀ k < level, Stops k rest := by
  induction h with
  | last | more => exact fun hp => by cases hp
  | literal | name | emptyCall | call | command | parens | parensCommand | sign =>
    intro _ _ hp k hk
    cases hp
    exact absurd hk (Nat.not_lt_zero k)
  | lift _ hs ih | binary _ _ _ hs _ ih =>
    intro _ _ hp k hk
    cases hp
    rcases Nat.lt_succ_iff_lt_or_eq.1 hk with hk | rfl
    · exact ih rfl k hk
    · exact hs
  | marked _ ih =>
    intro _ _ hp k hk
    cases hp
    exact (stops_closing k _).1 (ih rfl k hk)

/-- An expression is one at every higher level, if nothing goes on with it. -/
theorem Derives.lift_to {e : Expr} {level level' : Nat} (h : Derives (.expression level e) words rest)
    (hle : level ≤ level') (hs : ∀ k, level ≤ k → k < level' → Stops k rest) : Derives (.expression level' e) words rest := by
  induction level', hle using Nat.le_induction with
  | base => exact h
  | succ level' hle ih =>
    exact .lift (ih fun k hk hlt => hs k hk (Nat.lt_succ_of_lt hlt)) (hs level' hle (Nat.lt_succ_self _))

/-- There are no operators above the highest level. -/
theorem Derives.lower {p : Phrase} (h : Derives p words rest) : ∀ {level : Nat} {e : Expr}, p = .expression level e →
    levels < level → Derives (.expression levels e) words rest := by
  induction h with
  | last | more => exact fun hp => by cases hp
  | literal | name | emptyCall | call | command | parens | parensCommand | sign =>
    intro _ _ hp hlt
    cases hp
    exact absurd hlt (Nat.not_lt_zero _)
  | @lift level _ _ _ h _ ih =>
    intro _ _ hp hlt
    cases hp
    rcases Nat.lt_succ_iff_lt_or_eq.1 hlt with hlt | rfl
    · exact ih rfl hlt
    · exact h
  | @binary level kind _ op _ _ _ _ _ _ hop =>
    intro _ _ hp hlt
    cases hp
    obtain ⟨n, rfl⟩ := Nat.exists_eq_add_of_le' (Nat.le_of_lt_succ hlt)
    cases hop
  | marked _ ih =>
    intro _ _ hp hlt
    cases hp
    exact .marked (ih rfl hlt)

/-- An expression is one at the highest level, if nothing goes on with it. -/
theorem Derives.at_levels {level : Nat} {e : Expr} (h : Derives (.expression level e) words rest)
    (hs : ∀ k, Stops k rest) : Derives (.expression levels e) words rest := by
  rcases Nat.lt_or_ge levels level with hlt | hle
  · exact h.lower rfl hlt
  · exact h.lift_to hle fun k _ _ => hs k

/-- What follows a name the parentheses do not change, if it is an expression without a mark in front. -/
theorem Shaped.follows_bracket (h : Shaped words) (ho : words.head? ≠ some .opening) (hc : Clear (words ++ rest)) :
    follows (bracket false words ++ bracket false rest) = follows (words ++ rest) := by
  rw [← h.bracket_append]
  cases words with
  | nil => exact absurd rfl h.ne_nil
  | cons g words =>
    cases g with
    | token kind apart => exact Script.follows_bracket hc
    | opening => exact absurd rfl ho
    | closing => exact absurd rfl (h.head _ rfl).1

/-- No mark stands right behind a name. -/
theorem Clear.head_ne {word : String} {apart : Bool} (hkey : isKeyword word = false)
    (h : Clear (.token (.ident word) apart :: (words ++ rest))) : words.head? ≠ some .opening := by
  cases words with
  | nil => simp
  | cons g words =>
    intro ho
    cases ho
    exact h.name _ _ _ hkey List.suffix_rfl

/-- A lone callable name has no mark in front. -/
theorem Derives.head_ne {p : Phrase} (h : Derives p words rest) : ∀ {level : Nat} {word : String},
    p = .expression level (.ident word 0) → isCallable word → Clear (words ++ rest) → words.head? ≠ some .opening := by
  induction h with
  | literal | emptyCall | call | command | parensCommand | binary | last | more => exact fun hp => by cases hp
  | name | parens | sign => exact fun _ _ _ => by simp
  | lift _ _ ih =>
    intro _ _ hp
    cases hp
    exact ih rfl
  | @marked _ _ words rest h _ =>
    intro _ _ hp hcall hc
    cases hp
    refine absurd ?_ (hc.lone _ words rest hcall (loneName_of_derives h rfl))
    simp

theorem front_bracket_eq {kind : TokenKind} (hk : kind ≠ .leftParen ∧ kind ≠ .rightParen) {b : Bool}
    (h : front (bracket b gs) = kind) : front gs = kind := by
  rcases front_bracket b gs with hf | hf | hf
  · rw [← hf, h]
  · exact absurd (h.symm.trans hf) hk.1
  · exact absurd (h.symm.trans hf) hk.2

/-- With parentheses for the marks the grammar derives the same. -/
theorem Derives.bracket {p : Phrase} (h : Derives p words rest) : ∀ b, Clear (words ++ rest) →
    Derives p (Script.bracket b words) (Script.bracket false rest) := by
  induction h with
  | literal hl => exact fun b _ => .literal hl
  | name hkey ht hf =>
    intro b hc
    refine .name hkey (not_touches_bracket hkey hc ht) ?_
    rw [Bool.and_eq_false_iff] at hf ⊢
    exact hf.imp_right (not_follows_bracket hkey hc)
  | emptyCall hkey => exact fun b _ => .emptyCall hkey
  | call hkey h ih =>
    intro b hc
    rw [List.cons_append, List.cons_append, List.append_assoc] at hc
    have hargs := ih false (hc.suffix ((List.suffix_cons _ _).trans (List.suffix_cons _ _)))
    rw [Script.bracket, Script.bracket, h.shaped.bracket_append]
    exact .call hkey hargs
  | command hkey hcall hf h ih =>
    intro b hc
    have hargs := hc.suffix (List.suffix_cons _ _)
    refine .command hkey hcall ?_ (ih false hargs)
    rwa [h.shaped.follows_bracket (hc.head_ne hkey) hargs]
  | parens h hlone ih =>
    intro b hc
    rw [List.cons_append, List.append_assoc] at hc
    have hin := hc.suffix (List.suffix_cons _ _)
    rw [Script.bracket, h.shaped.bracket_append]
    refine .parens (ih false hin) fun word he => ?_
    rw [Bool.and_eq_false_iff, or_iff_not_imp_left, Bool.not_eq_false]
    intro hcall
    have hf := hlone word he
    rw [hcall, Bool.true_and] at hf
    exact (h.shaped.follows_bracket (h.head_ne (by rw [he]) hcall hin) hin).trans hf
  | parensCommand h hcall hf h' ih ih' =>
    intro b hc
    rw [List.cons_append, List.append_assoc, List.cons_append] at hc
    have hin := hc.suffix (List.suffix_cons _ _)
    have hargs := hin.suffix ((List.suffix_cons _ _).trans (List.suffix_append _ _))
    have hname := ih false hin
    have hfollows := h.shaped.follows_bracket (h.head_ne rfl hcall hin) hin
    rw [bracket_token, h'.shaped.bracket_append] at hname hfollows
    rw [Script.bracket, h.shaped.bracket_append, bracket_token]
    exact .parensCommand hname hcall (hfollows.trans hf) (ih' false hargs)
  | sign hf h ih => exact fun b hc => .sign hf (ih false (hc.suffix (List.suffix_cons _ _)))
  | lift h hs ih => exact fun b hc => .lift (ih b hc) (stops_bracket hs false)
  | binary h hop h' hs ih ih' =>
    intro b hc
    rw [List.append_assoc] at hc
    have hright := hc.suffix ((List.suffix_cons _ _).trans (List.suffix_append _ _))
    have hleft := ih b hc
    rw [bracket_token, h'.shaped.bracket_append] at hleft
    rw [Script.bracket_append h.shaped.chain h.shaped.last h.shaped.ne_nil, bracket_token]
    exact .binary hleft hop (ih' false hright) (stops_bracket hs false)
  | @marked level e words rest h ih =>
    intro b hc
    rw [List.cons_append, List.append_assoc] at hc
    have hin : Derives (.expression level e) (Script.bracket true words)
        (.token .rightParen false :: Script.bracket false rest) := ih true (hc.suffix (List.suffix_cons _ _))
    rw [Script.bracket, Script.bracket_append h.shaped.chain h.shaped.last h.shaped.ne_nil]
    refine (Derives.parens (hin.at_levels fun k => ?_) fun word he => ?_).lift_to (Nat.zero_le level) fun k _ hk => ?_
    · cases k with
      | zero => trivial
      | succ k => exact (binaryOp?_parens k).2
    · rw [Bool.and_eq_false_iff, or_iff_not_imp_left, Bool.not_eq_false]
      exact fun hcall => absurd List.suffix_rfl (hc.lone word words rest hcall (loneName_of_derives h (by rw [he])))
    · exact stops_bracket ((stops_closing k rest).1 (h.stops rfl k hk)) false
  | last h hs hcomma ih =>
    exact fun b hc => .last (ih b hc) (stops_bracket hs false) fun hf => hcomma (front_bracket_eq (by simp) hf)
  | more h h' ih ih' =>
    intro b hc
    rw [List.append_assoc] at hc
    have hmore := hc.suffix ((List.suffix_cons _ _).trans (List.suffix_append _ _))
    have hfirst := ih b hc
    rw [bracket_token, h'.shaped.bracket_append] at hfirst
    rw [Script.bracket_append h.shaped.chain h.shaped.last h.shaped.ne_nil, bracket_token]
    exact .more hfirst (ih' false hmore)

end

/-! ## No marks -/

/-- The glyphs without the marks. -/
def unmark : List Glyph → List Glyph
  | [] => []
  | .token kind apart :: gs => .token kind apart :: unmark gs
  | .opening :: gs | .closing :: gs => unmark gs

section

variable {words rest : List Glyph}

theorem unmark_append (gs gs' : List Glyph) : unmark (gs ++ gs') = unmark gs ++ unmark gs' := by
  fun_induction unmark gs with
  | case1 => rfl
  | case2 kind apart gs ih => exact congrArg _ ih
  | case3 gs ih | case4 gs ih => exact ih

theorem front_unmark (gs : List Glyph) : front (unmark gs) = front gs := by
  fun_induction unmark gs <;> first | rfl | assumption

theorem isApart_unmark (gs : List Glyph) : isApart (unmark gs) = isApart gs := by
  fun_induction unmark gs <;> first | rfl | assumption

theorem follows_unmark (gs : List Glyph) : follows (unmark gs) = follows gs := by
  fun_induction unmark gs with
  | case1 => rfl
  | case2 kind apart gs => cases kind <;> simp [follows, isApart_unmark]
  | case3 gs ih | case4 gs ih => exact ih

theorem touches_unmark (gs : List Glyph) : touches (unmark gs) = touches gs := by
  fun_induction unmark gs <;> first | rfl | assumption

theorem stops_unmark {level : Nat} {gs : List Glyph} : Stops level (unmark gs) ↔ Stops level gs := by
  cases level with
  | zero => exact Iff.rfl
  | succ level => rw [Stops, Stops, front_unmark]

/-- Without the marks the grammar derives the same. -/
theorem Derives.unmark {p : Phrase} (h : Derives p words rest) : Derives p (Script.unmark words) (Script.unmark rest) := by
  induction h with
  | literal hl => exact .literal hl
  | name hkey ht hf => exact .name hkey (by rwa [touches_unmark]) (by rwa [follows_unmark])
  | emptyCall hkey => exact .emptyCall hkey
  | call hkey _ ih =>
    simp only [Script.unmark, unmark_append]
    exact .call hkey ih
  | command hkey hcall hf _ ih =>
    exact .command hkey hcall (by rwa [← unmark_append, follows_unmark]) ih
  | parens _ hlone ih =>
    simp only [Script.unmark, unmark_append]
    refine .parens ih fun word he => ?_
    have hf := hlone word he
    rwa [← follows_unmark, unmark_append] at hf
  | parensCommand _ hcall hf _ ih ih' =>
    simp only [Script.unmark, unmark_append] at ih ⊢
    rw [← follows_unmark] at hf
    simp only [Script.unmark, unmark_append] at hf
    exact .parensCommand ih hcall hf ih'
  | sign hf _ ih => exact .sign hf ih
  | lift _ hs ih => exact .lift ih (stops_unmark.2 hs)
  | binary _ hop _ hs ih ih' =>
    simp only [Script.unmark, unmark_append] at ih ⊢
    exact .binary ih hop ih' (stops_unmark.2 hs)
  | marked _ ih =>
    simp only [Script.unmark, unmark_append, List.append_nil]
    exact ih
  | last _ hs hcomma ih => exact .last ih (stops_unmark.2 hs) (by rwa [front_unmark])
  | more _ _ ih ih' =>
    simp only [Script.unmark, unmark_append] at ih ⊢
    exact .more ih ih'

end

end LiveSketch.Script

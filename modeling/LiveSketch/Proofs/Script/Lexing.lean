import LiveSketch.Proofs.Outcome
import LiveSketch.Proofs.Script.Lexemes
import LiveSketch.Proofs.Script.Printing

/-!
# Printed words are read as their tokens

`reads_pieces`: the pieces of an expression are read one by one as their tokens. `Reads` says so of pieces,
which for each of them depends on what stands behind it; it is derived along the tree. `scanLine_render` is
what it means for the scanner of a line.
-/
namespace LiveSketch.Script

open Lexer

/-! ## Words on a line -/

/-- Each word is read as its token. -/
def Reads : (afterName : Bool) → List Piece → Prop
  | _, [] => True
  | _, .blank :: ps => Reads false ps
  | afterName, .word kind text :: ps =>
    Scans afterName kind text (Piece.render ps) ∧ Reads (isName kind) ps

@[simp] theorem Piece.render_nil : Piece.render [] = [] := rfl

@[simp] theorem Piece.render_blank (ps : List Piece) :
    Piece.render (.blank :: ps) = ' ' :: Piece.render ps := rfl

@[simp] theorem Piece.render_word (kind : TokenKind) (text : List Char) (ps : List Piece) :
    Piece.render (.word kind text :: ps) = text ++ Piece.render ps := rfl

@[simp] theorem Piece.render_append (ps qs : List Piece) :
    Piece.render (ps ++ qs) = Piece.render ps ++ Piece.render qs := List.flatMap_append

/-- The scanner finds the tokens of the pieces at their places. -/
theorem scanLine_render {ps : List Piece} {fuel pos : Nat} {afterName : Bool}
    (h : Reads afterName ps) (hf : (Piece.render ps).length ≤ fuel) :
    scanLine fuel pos afterName (Piece.render ps) = .ok (Piece.place pos ps) := by
  induction ps generalizing fuel pos afterName with
  | nil => cases fuel <;> rfl
  | cons p ps ih =>
    cases p with
    | blank =>
      simp only [Piece.render_blank, List.length_cons] at hf ⊢
      obtain ⟨fuel, rfl⟩ : ∃ n, fuel = n + 1 := ⟨fuel - 1, by omega⟩
      rw [scanLine, if_pos (by decide)]
      exact ih h (by omega)
    | word kind text =>
      obtain ⟨⟨c, cs, rfl, hc, hs, ht⟩, h⟩ := h
      simp only [Piece.render_word, List.cons_append, List.length_cons, List.length_append] at hf ⊢
      obtain ⟨fuel, rfl⟩ : ∃ n, fuel = n + 1 := ⟨fuel - 1, by omega⟩
      have hrest := @ih fuel (pos + Text.byteLength (c :: cs)) _ h (by omega)
      simp only [scanLine, hc, hs, ht pos, ok_bind, hrest, Bool.false_eq_true, if_false]
      rfl

/-! ## Text literals -/

/-- What a string literal says is read back. -/
theorem scanString_escape (cs rest : List Char) :
    scanString '"' (escape cs ++ '"' :: rest) = some ⟨cs, escape cs ++ ['"'], rest⟩ := by
  induction cs with
  | nil => simp [escape, scanString]
  | cons c cs ih =>
    rw [escape]
    split
    · rename_i e
      simp [scanString, ih, unescape, e]
    split
    · rename_i e
      simp [scanString, ih, unescape, e]
    split
    · rename_i e
      rcases e with rfl | rfl <;> simp [scanString, ih, unescape]
    · rename_i e
      rw [not_or] at e
      simp [scanString, ih, e.1, e.2]

theorem scans_string (s : String) (afterName : Bool) (rest : List Char) :
    Scans afterName (.string s) ('"' :: escape s.toList ++ ['"']) rest := by
  refine ⟨'"', escape s.toList ++ ['"'], rfl, rfl, rfl, fun pos => ?_⟩
  have hscan := scanString_escape s.toList rest
  have he : escape s.toList ++ ['"'] ++ rest = escape s.toList ++ '"' :: rest := by simp
  rw [he]
  have hnumber : startsNumber ('"' :: (escape s.toList ++ '"' :: rest)) = false :=
    startsNumber_cons (by decide) _
  have hname : isNameStart '"' = false := rfl
  simp [scanToken, hnumber, hname, hscan]

/-! ## Expressions -/

/-- The word has the form of a name; keywords have it too. -/
def IsWord (name : String) : Prop :=
  ∃ c cs, name.toList = c :: cs ∧ isNameStart c ∧ cs.all isNamePart

theorem isWord_of_isPlainName {name : String} (h : isPlainName name) :
    IsWord name ∧ isKeyword name = false := by
  unfold isPlainName at h
  split at h
  · cases h
  · rename_i c cs hn
    simp only [Bool.and_eq_true, Bool.not_eq_true'] at h
    exact ⟨⟨c, cs, hn, h.1.1, h.1.2⟩, h.2⟩

theorem isWord_keywords : ∀ word ∈ keywords, IsWord word := by
  intro word h
  simp only [keywords, List.mem_cons, List.not_mem_nil, or_false] at h
  rcases h with rfl | rfl | rfl | rfl | rfl | rfl | rfl | rfl
  all_goals exact ⟨_, _, rfl, by decide, by decide⟩

/-- The number is read back from its plain form. -/
def ReadsBack (x : Float) : Prop := Number.read? (Number.plain x).toList = some x

/-- Pieces that may stand behind an expression. -/
structure Follows (ps : List Piece) : Prop where
  stops : ∀ d ∈ (Piece.render ps).head?, d = ' ' ∨ d = ')' ∨ d = ','
  reads : ∀ afterName, Reads afterName ps

theorem Follows.apart {ps : List Piece} (h : Follows ps) :
    ∀ d ∈ (Piece.render ps).head?, isNamePart d = false ∧ d ≠ '.' := by
  intro d hd
  rcases h.stops d hd with rfl | rfl | rfl <;> decide

theorem follows_nil : Follows [] := ⟨by simp, fun _ => trivial⟩

theorem follows_blank {ps : List Piece} (h : Reads false ps) : Follows (.blank :: ps) :=
  ⟨by simp, fun _ => h⟩

theorem follows_rightParen {ps : List Piece} (h : Follows ps) : Follows (.rightParen :: ps) where
  stops := by simp [Piece.rightParen]
  reads afterName := ⟨scans_single rfl fun _ _ => by simp [pairOperator?, stepOperator?], h.reads false⟩

theorem follows_comma {ps : List Piece} (h : Reads false ps) : Follows (.comma :: .blank :: ps) where
  stops := by simp [Piece.comma]
  reads afterName := ⟨scans_single rfl fun _ _ => by simp [pairOperator?, stepOperator?], h⟩

/-- What an operand begins with. -/
def TokenKind.StartsOperand : TokenKind → Prop
  | .number _ | .string _ | .leftParen | .minus | .bang => True
  | .ident word => word = "true" ∨ word = "false" ∨ isKeyword word = false
  | _ => False

theorem enclose_cases (condition : Bool) (ps : List Piece) :
    (condition = false ∧ enclose condition ps = ps) ∨
      (condition = true ∧ enclose condition ps = .leftParen :: (ps ++ [.rightParen])) := by
  cases condition <;> simp [enclose]

/-- A name begins an operand. -/
theorem name_first {name : String} (h : isPlainName name) :
    (TokenKind.ident name).StartsOperand ∧ ∃ c cs, name.toList = c :: cs ∧ c ≠ '>' ∧ c ≠ '=' := by
  obtain ⟨⟨c, cs, hn, hc, -⟩, hk⟩ := isWord_of_isPlainName h
  refine ⟨.inr (.inr hk), c, cs, hn, ?_, ?_⟩
  · rintro rfl
    cases hc
  · rintro rfl
    cases hc

/-- The first piece of an expression begins an operand. -/
theorem pieces_first (words : Bool) : ∀ {e : Expr}, e.isPrintable →
    ∃ kind text ps, e.pieces words = .word kind text :: ps ∧ kind.StartsOperand ∧
      ∃ c cs, text = c :: cs ∧ c ≠ '>' ∧ c ≠ '='
  | .literal (.number x), h => by
    simp only [Expr.isPrintable, Literal.isPrintable, Option.any_eq_true, Bool.not_eq_true'] at h
    obtain ⟨b, hb, hs⟩ := h
    obtain ⟨whole, tail, hnum⟩ := Number.plain_isNumeral hb hs
    obtain ⟨c, cs, ht, hc⟩ := hnum.first
    refine ⟨_, _, _, rfl, trivial, c, cs, ht, ?_, ?_⟩
    · rintro rfl
      cases hc
    · rintro rfl
      cases hc
  | .literal (.bool true), _ => ⟨_, _, _, rfl, .inl rfl, 't', _, rfl, by decide, by decide⟩
  | .literal (.bool false), _ => ⟨_, _, _, rfl, .inr (.inl rfl), 'f', _, rfl, by decide, by decide⟩
  | .literal (.string s), _ => ⟨_, _, _, rfl, trivial, '"', _, rfl, by decide, by decide⟩
  | .ident _ _, h => ⟨_, _, _, rfl, name_first h⟩
  | .unary .neg _, _ => ⟨_, _, _, rfl, trivial, '-', _, rfl, by decide, by decide⟩
  | .unary .not _, _ => ⟨_, _, _, rfl, trivial, '!', _, rfl, by decide, by decide⟩
  | .binary op left right, h => by
    simp only [Expr.isPrintable, Bool.and_eq_true] at h
    rw [Expr.pieces]
    rcases enclose_cases (op.level + 1 < left.rank) (left.pieces words) with ⟨-, he⟩ | ⟨-, he⟩
    · obtain ⟨kind, text, ps, hp, hk, hc⟩ := pieces_first words h.1
      exact ⟨kind, text, _, by rw [he, hp]; rfl, hk, hc⟩
    · exact ⟨.leftParen, _, _, by rw [he]; rfl, trivial, '(', _, rfl, by decide, by decide⟩
  | .call _ _ _, h => by
    simp only [Expr.isPrintable, Bool.and_eq_true] at h
    exact ⟨_, _, _, rfl, name_first h.1⟩

theorem reads_name {name : String} (hn : IsWord name) {afterName : Bool} {ps : List Piece}
    (h : Follows ps) : Reads afterName (.name name :: ps) := by
  obtain ⟨c, cs, hn, hc, hcs⟩ := hn
  exact ⟨scans_name hn hc hcs fun d hd => (h.apart d hd).1, h.reads true⟩

theorem reads_literal {v : Literal} (hv : v.isPrintable) (hn : ∀ x, v = .number x → ReadsBack x)
    {ps : List Piece} (h : Follows ps) : Reads false (v.piece :: ps) := by
  cases v with
  | number x =>
    simp only [Literal.isPrintable, Option.any_eq_true, Bool.not_eq_true'] at hv
    obtain ⟨b, hb, hs⟩ := hv
    obtain ⟨whole, tail, hnum⟩ := Number.plain_isNumeral hb hs
    exact ⟨scans_number hnum (hn x rfl) h.apart, h.reads false⟩
  | bool b =>
    cases b
    · exact reads_name (isWord_keywords "false" (by decide)) h
    · exact reads_name (isWord_keywords "true" (by decide)) h
  | string s => exact ⟨scans_string s false _, h.reads false⟩

theorem reads_leftParen {ps : List Piece} (h : Reads false ps) (afterName : Bool) :
    Reads afterName (.leftParen :: ps) :=
  ⟨scans_single rfl fun _ _ => by simp [pairOperator?, stepOperator?], h⟩

/-- A prefix operator touches its operand. -/
theorem reads_unary {op : UnaryOp} {ps : List Piece} (h : Reads false ps)
    (hc : ∀ c ∈ (Piece.render ps).head?, c ≠ '>' ∧ c ≠ '=') : Reads false (op.piece :: ps) := by
  cases op
  · refine ⟨scans_single rfl fun d hd => ?_, h⟩
    simp [pairOperator?, (hc d hd).1, (hc d hd).2]
  · refine ⟨scans_single rfl fun d hd => ?_, h⟩
    simp [pairOperator?, (hc d hd).2]

/-- An operator of one character in front of a blank. -/
theorem reads_single {c : Char} {kind : TokenKind} (hk : operator? c = some kind)
    (hp : pairOperator? c ' ' = none) {ps : List Piece} (h : Reads false ps) :
    Reads false (.word kind [c] :: .blank :: ps) := by
  refine ⟨scans_single hk fun d hd => ?_, h⟩
  obtain rfl : ' ' = d := by simpa using hd
  exact ⟨hp, by simp, by simp⟩

theorem reads_pair {c d : Char} {kind : TokenKind} (hk : pairOperator? c d = some kind)
    {ps : List Piece} (h : Reads false ps) : Reads false (.word kind [c, d] :: .blank :: ps) :=
  ⟨scans_pair hk _, h⟩

/-- A binary operator stands between blanks. -/
theorem reads_binary (op : BinaryOp) (words : Bool) {ps : List Piece} (h : Reads false ps) :
    Reads false (op.piece words :: .blank :: ps) := by
  have hw := follows_blank h
  cases op with
  | add => exact reads_single rfl rfl h
  | sub => exact reads_single rfl rfl h
  | mul => exact reads_single rfl rfl h
  | div => exact reads_single rfl rfl h
  | mod => exact reads_single rfl rfl h
  | eq => exact reads_pair rfl h
  | ne => exact reads_pair rfl h
  | lt => exact reads_single rfl rfl h
  | le => exact reads_pair rfl h
  | gt => exact reads_single rfl rfl h
  | ge => exact reads_pair rfl h
  | and =>
    cases words
    · exact reads_pair rfl h
    · exact reads_name (isWord_keywords "and" (by decide)) hw
  | or =>
    cases words
    · exact reads_pair rfl h
    · exact reads_name (isWord_keywords "or" (by decide)) hw

theorem reads_assign (op : AssignOp) {ps : List Piece} (h : Reads false ps) :
    Reads false (op.piece :: .blank :: ps) := by
  cases op with
  | set => exact reads_single rfl rfl h
  | add => exact reads_pair rfl h
  | sub => exact reads_pair rfl h
  | mul => exact reads_pair rfl h
  | div => exact reads_pair rfl h

/-- The characters in front of which a prefix operator stays alone. -/
theorem pieces_head {words condition : Bool} {e : Expr} (h : e.isPrintable) (ps : List Piece) :
    ∀ c ∈ (Piece.render (enclose condition (e.pieces words) ++ ps)).head?, c ≠ '>' ∧ c ≠ '=' := by
  rcases enclose_cases condition (e.pieces words) with ⟨-, he⟩ | ⟨-, he⟩
  · obtain ⟨kind, text, qs, hp, -, c, cs, ht, hc⟩ := pieces_first words h
    rw [he, hp, ht]
    intro d hd
    simp only [List.cons_append, Piece.render_word, List.head?_cons, Option.mem_def,
      Option.some.injEq] at hd
    exact hd ▸ hc
  · rw [he]
    intro d hd
    simp only [List.cons_append, Piece.leftParen, Piece.render_word, List.nil_append, List.head?_cons,
      Option.mem_def, Option.some.injEq] at hd
    subst hd
    decide

theorem reads_enclose {condition : Bool} {ps qs : List Piece}
    (h : ∀ rs, Follows rs → Reads false (ps ++ rs)) (hq : Follows qs) :
    Reads false (enclose condition ps ++ qs) := by
  rcases enclose_cases condition ps with ⟨-, he⟩ | ⟨-, he⟩
  · rw [he]
    exact h qs hq
  · rw [he, List.cons_append, List.append_assoc]
    exact reads_leftParen (h _ (follows_rightParen hq)) false

mutual

/-- The words of an expression are read as its tokens. -/
theorem reads_pieces {words : Bool} : ∀ {e : Expr}, e.isPrintable → (∀ x ∈ e.numbers, ReadsBack x) →
    ∀ {ps}, Follows ps → Reads false (e.pieces words ++ ps)
  | .literal v, h, hn, ps, hp => by
    refine reads_literal h (fun x hx => hn x ?_) hp
    simp [hx, Expr.numbers]
  | .ident _ _, h, _, _, hp => reads_name (isWord_of_isPlainName h).1 hp
  | .unary op arg, h, hn, ps, hp => by
    have harg : arg.isPrintable := h
    exact reads_unary (reads_enclose (fun _ hr => reads_pieces harg hn hr) hp) (pieces_head harg ps)
  | .binary op left right, h, hn, ps, hp => by
    simp only [Expr.isPrintable, Bool.and_eq_true] at h
    simp only [Expr.numbers, List.mem_append] at hn
    have hright : Reads false (enclose (op.level < right.rank) (right.pieces words) ++ ps) :=
      reads_enclose (fun _ hr => reads_pieces h.2 (fun x hx => hn x (.inr hx)) hr) hp
    have hleft : Reads false (enclose (op.level + 1 < left.rank) (left.pieces words) ++
        .blank :: op.piece words :: .blank :: (enclose (op.level < right.rank) (right.pieces words) ++ ps)) :=
      reads_enclose (fun _ hr => reads_pieces h.1 (fun x hx => hn x (.inl hx)) hr)
        (follows_blank (reads_binary op words hright))
    simpa [Expr.pieces] using hleft
  | .call function args _, h, hn, ps, hp => by
    simp only [Expr.isPrintable, Bool.and_eq_true] at h
    obtain ⟨⟨c, cs, hf, hc, hcs⟩, -⟩ := isWord_of_isPlainName h.1
    have hargs : Reads false (argPieces words args ++ .rightParen :: ps) :=
      reads_argPieces h.2 hn (follows_rightParen hp)
    have hparen : Reads (isName (.ident function)) (.leftParen :: (argPieces words args ++ .rightParen :: ps)) :=
      reads_leftParen hargs true
    refine ⟨scans_name hf hc hcs fun d hd => ?_, by simpa [Piece.name] using hparen⟩
    obtain rfl : '(' = d := by simpa [Piece.leftParen] using hd
    decide

theorem reads_argPieces {words : Bool} : ∀ {es : List Expr}, printableArgs es →
    (∀ x ∈ numbersInArgs es, ReadsBack x) → ∀ {ps}, Follows ps → Reads false (argPieces words es ++ ps)
  | [], _, _, _, hp => hp.reads false
  | e :: es, h, hn, ps, hp => by
    simp only [printableArgs, Bool.and_eq_true] at h
    simp only [numbersInArgs, List.mem_append] at hn
    rw [argPieces, List.append_assoc]
    refine reads_pieces h.1 (fun x hx => hn x (.inl hx)) ?_
    split
    · exact hp
    · exact follows_comma (reads_argPieces h.2 (fun x hx => hn x (.inr hx)) hp)

end

end LiveSketch.Script

import LiveSketch.Proofs.Script.Layout

/-!
# The parser reads what was printed: expressions

`ParsesAt` says that pieces are read as an expression at a level, whatever stands behind them as long as it
`Closes` the expression, and that the fuel for their tokens is enough. An operator groups to the left, so the
left operand is not read as an expression of its own but as the beginning of a chain (`ChainsAt`).
Places differ between the printed and the read expression; `Expr.erase` forgets them.
-/
namespace LiveSketch.Script

open LiveSketch.Script.Parser

namespace Piece

@[simp] theorem count_append (ps qs : List Piece) : count (ps ++ qs) = count ps + count qs := by
  induction ps with
  | nil => simp [count]
  | cons p ps ih => cases p <;> simp [count, ih] <;> omega

@[simp] theorem count_nil : count [] = 0 := rfl

@[simp] theorem count_blank (ps : List Piece) : count (.blank :: ps) = count ps := rfl

@[simp] theorem count_word (kind : TokenKind) (text : List Char) (ps : List Piece) :
    count (.word kind text :: ps) = count ps + 1 := rfl

@[simp] theorem length_place (pos : Nat) (ps : List Piece) : (place pos ps).length = count ps := by
  induction ps generalizing pos with
  | nil => rfl
  | cons p ps ih => cases p <;> simp [place, ih]

end Piece

/-! ## What may stand behind an expression -/

/-- The tokens do not go on with an expression of this level: there is no operator of a tighter level,
nothing that a name in front would take as arguments, and no assignment. -/
structure Ends (level : Nat) (ts : List Token) : Prop where
  operator : ∀ l < level, binaryOp? l (peekKind ts) = none
  arguments : ∀ name, argumentsFollow (name :: ts) = false
  paren : peekKind ts ≠ .leftParen
  assign : assignOp? (peekKind ts) = none ∧ stepOp? (peekKind ts) = none

theorem Ends.mono {level level' : Nat} {ts : List Token} (h : Ends level ts) (hl : level' ≤ level) :
    Ends level' ts :=
  { h with operator := fun l hl' => h.operator l (Nat.lt_of_lt_of_le hl' hl) }

/-- The pieces and the tokens behind them do not go on with an expression, wherever they stand. -/
def Closes (level : Nat) (ps : List Piece) (ts : List Token) : Prop :=
  ∀ pos, Ends level (Piece.place pos ps ++ ts)

theorem Closes.mono {level level' : Nat} {ps : List Piece} {ts : List Token} (h : Closes level ps ts)
    (hl : level' ≤ level) : Closes level' ps ts := fun pos => (h pos).mono hl

theorem ends_of_kind {level : Nat} {t : Token} {ts : List Token}
    (h : t.kind ∈ [TokenKind.rightParen, .comma, .arrow, .newline]) : Ends level (t :: ts) := by
  obtain ⟨kind, start, stop⟩ := t
  simp only [List.mem_cons, List.not_mem_nil, or_false] at h
  rcases h with rfl | rfl | rfl | rfl
  all_goals
    refine ⟨fun l _ => ?_, fun _ => rfl, by simp [peekKind, peek], rfl, rfl⟩
    simp only [peekKind, peek]
    unfold binaryOp?
    split <;> simp_all

theorem BinaryOp.level_lt (op : BinaryOp) : op.level < levels := by cases op <;> decide

theorem Expr.rank_le (e : Expr) : e.rank ≤ levels := by
  cases e with
  | binary op _ _ => exact op.level_lt
  | _ => exact Nat.zero_le _

/-- What the parser makes of a binary operator between blanks. -/
structure OperatorToken (op : BinaryOp) (kind : TokenKind) : Prop where
  found : binaryOp? op.level kind = some op
  tighter : ∀ l < op.level, binaryOp? l kind = none
  paren : kind ≠ .leftParen
  assign : assignOp? kind = none ∧ stepOp? kind = none
  arguments : ∀ {name next : Token} {start stop : Nat} {rest : List Token}, next.start ≠ stop →
    argumentsFollow (name :: ⟨kind, start, stop⟩ :: next :: rest) = false

theorem operator_piece (op : BinaryOp) (words : Bool) :
    ∃ kind text, op.piece words = .word kind text ∧ OperatorToken op kind := by
  have sign : ∀ {name next t : Token} {rest : List Token}, next.start ≠ t.stop →
      (t.kind = .minus ∨ t.kind = .plus) → argumentsFollow (name :: t :: next :: rest) = false := by
    rintro name next ⟨kind, start, stop⟩ rest hn (rfl | rfl) <;> simp [argumentsFollow, hn]
  cases op with
  | add => exact ⟨_, _, rfl, rfl, by decide, by decide, ⟨rfl, rfl⟩, fun hn => sign hn (.inr rfl)⟩
  | sub => exact ⟨_, _, rfl, rfl, by decide, by decide, ⟨rfl, rfl⟩, fun hn => sign hn (.inl rfl)⟩
  | and =>
    cases words
    · exact ⟨_, _, rfl, rfl, by decide, by decide, ⟨rfl, rfl⟩, fun _ => rfl⟩
    · exact ⟨_, _, rfl, rfl, by decide, by decide, ⟨rfl, rfl⟩, fun _ => rfl⟩
  | or =>
    cases words
    · exact ⟨_, _, rfl, rfl, by decide, by decide, ⟨rfl, rfl⟩, fun _ => rfl⟩
    · exact ⟨_, _, rfl, rfl, by decide, by decide, ⟨rfl, rfl⟩, fun _ => rfl⟩
  | mul | div | mod | eq | ne | lt | le | gt | ge =>
    exact ⟨_, _, rfl, rfl, by decide, by decide, ⟨rfl, rfl⟩, fun _ => rfl⟩

/-- The first piece of an operand, in parentheses or not. -/
theorem enclose_first (words condition : Bool) {e : Expr} (h : e.isPrintable) :
    ∃ kind text ps, enclose condition (e.pieces words) = .word kind text :: ps ∧ kind.StartsOperand := by
  rcases enclose_cases condition (e.pieces words) with ⟨-, he⟩ | ⟨-, he⟩
  · obtain ⟨kind, text, ps, hp, hk, -⟩ := pieces_first words h
    exact ⟨kind, text, ps, he.trans hp, hk⟩
  · exact ⟨.leftParen, _, _, he, trivial⟩

/-- A binary operator closes the expression on its left, up to its own level. -/
theorem closes_operator (op : BinaryOp) (words condition : Bool) {e : Expr} (he : e.isPrintable)
    (ps : List Piece) (ts : List Token) :
    Closes op.level
      (.blank :: op.piece words :: .blank :: (enclose condition (e.pieces words) ++ ps)) ts := by
  intro pos
  obtain ⟨kind, text, ho, hop⟩ := operator_piece op words
  obtain ⟨kind', text', qs, hq, -⟩ := enclose_first words condition he
  rw [ho, hq]
  refine ⟨hop.tighter, fun name => hop.arguments ?_, hop.paren, hop.assign⟩
  simp

/-! ## Reading pieces -/

/-- The pieces are read as this expression at a level, up to its places. -/
def ParsesAt (ps : List Piece) (e : Expr) (level : Nat) : Prop :=
  ∀ (fuel pos : Nat) (qs : List Piece) (ts : List Token), Closes level qs ts →
    16 * Piece.count ps + level < fuel →
      ∃ e' pos', e'.erase = e.erase ∧
        expression fuel level (Piece.place pos (ps ++ qs) ++ ts) = .ok (e', Piece.place pos' qs ++ ts)

/-- The pieces are read as this expression and the beginning of a chain of operators of this level. -/
def ChainsAt (ps : List Piece) (e : Expr) (level : Nat) : Prop :=
  ∀ (fuel pos : Nat) (qs : List Piece) (ts : List Token), Closes level qs ts →
    16 * Piece.count ps + level + 1 < fuel →
      ∃ e' pos' fuel', e'.erase = e.erase ∧ fuel ≤ fuel' + 16 * Piece.count ps ∧
        expression fuel (level + 1) (Piece.place pos (ps ++ qs) ++ ts) =
          chain fuel' level e' (Piece.place pos' qs ++ ts)

theorem ParsesAt.chains {ps : List Piece} {e : Expr} {level : Nat} (h : ParsesAt ps e level)
    (hc : 0 < Piece.count ps) : ChainsAt ps e level := by
  intro fuel pos qs ts hq hf
  obtain ⟨fuel, rfl⟩ : ∃ n, fuel = n + 1 := ⟨fuel - 1, by omega⟩
  obtain ⟨e', pos', he, hp⟩ := h fuel pos qs ts hq (by omega)
  refine ⟨e', pos', fuel, he, by omega, ?_⟩
  rw [expression, hp]
  rfl

theorem ChainsAt.parses {ps : List Piece} {e : Expr} {level : Nat} (h : ChainsAt ps e level) :
    ParsesAt ps e (level + 1) := by
  intro fuel pos qs ts hq hf
  obtain ⟨e', pos', fuel', he, hle, hp⟩ := h fuel pos qs ts (hq.mono (Nat.le_succ level)) (by omega)
  obtain ⟨fuel', rfl⟩ : ∃ n, fuel' = n + 1 := ⟨fuel' - 1, by omega⟩
  refine ⟨e', pos', he, ?_⟩
  rw [hp, chain, (hq pos').operator level (Nat.lt_succ_self level)]

/-- What is read at a level is read at every looser one. -/
theorem ParsesAt.mono {ps : List Piece} {e : Expr} {level level' : Nat} (h : ParsesAt ps e level)
    (hc : 0 < Piece.count ps) (hl : level ≤ level') : ParsesAt ps e level' := by
  induction hl with
  | refl => exact h
  | step _ ih => exact ChainsAt.parses (ParsesAt.chains ih hc)

/-- A binary expression continues the chain of its left operand. -/
theorem ChainsAt.binary {op : BinaryOp} {words condition : Bool} {ps : List Piece} {left right : Expr}
    (hright : right.isPrintable) (hl : ChainsAt ps left op.level)
    (hr : ParsesAt (enclose condition (right.pieces words)) right op.level) :
    ChainsAt (ps ++ .blank :: op.piece words :: .blank :: enclose condition (right.pieces words))
      (.binary op left right) op.level := by
  intro fuel pos qs ts hq hf
  obtain ⟨kind, text, ho, hop⟩ := operator_piece op words
  have hclose := closes_operator op words condition hright qs ts
  rw [ho] at hclose hf ⊢
  simp only [Piece.count_append, Piece.count_blank, Piece.count_word] at hf ⊢
  obtain ⟨l', pos₁, fuel₁, hle, hfuel, hp⟩ := hl fuel pos _ ts hclose (by omega)
  obtain ⟨fuel₁, rfl⟩ : ∃ n, fuel₁ = n + 1 := ⟨fuel₁ - 1, by omega⟩
  obtain ⟨r', pos₂, hre, hp₂⟩ := hr fuel₁ (pos₁ + 1 + Text.byteLength text + 1) qs ts hq (by omega)
  refine ⟨.binary op l' r', pos₂, fuel₁, by simp [Expr.erase, hle, hre], by omega, ?_⟩
  rw [List.append_assoc, List.cons_append, List.cons_append, List.cons_append, hp, chain]
  simp only [Piece.place, List.cons_append, peekKind, peek, hop.found, List.tail_cons, hp₂]
  rfl

/-! ## Operands -/

/-- Descends to a primary expression that cannot be called. -/
theorem expression_primary {fuel : Nat} {ts ts' : List Token} {e : Expr}
    (hp : prefixOp? (peekKind ts) = none) (h : primary fuel ts = .ok (e, ts'))
    (he : ∀ name offset, e ≠ .ident name offset) : expression (fuel + 3) 0 ts = .ok (e, ts') := by
  rw [expression, operand, hp]
  simp only [postfixed, h, ok_bind]
  rfl

theorem erase_eq_binary {e : Expr} {op : BinaryOp} {left right : Expr}
    (h : e.erase = .binary op left right) : ∀ name offset, e ≠ .ident name offset := by
  rintro name offset rfl
  cases h

theorem parses_literal (v : Literal) : ParsesAt [v.piece] (.literal v) 0 := by
  have hcount : Piece.count [v.piece] = 1 := by cases v <;> rfl
  intro fuel pos qs ts hq hf
  obtain ⟨fuel, rfl⟩ : ∃ n, fuel = n + 4 := ⟨fuel - 4, by omega⟩
  cases v with
  | number x => exact ⟨_, _, rfl, expression_primary rfl rfl (by simp)⟩
  | bool b => cases b <;> exact ⟨_, _, rfl, expression_primary rfl rfl (by simp)⟩
  | string s => exact ⟨_, _, rfl, expression_primary rfl rfl (by simp)⟩

theorem parses_parens {e : Expr} {ps : List Piece} (he : 0 < e.rank) (h : ParsesAt ps e levels) :
    ParsesAt (.leftParen :: (ps ++ [.rightParen])) e 0 := by
  intro fuel pos qs ts hq hf
  simp only [Piece.leftParen, Piece.rightParen, Piece.count_word, Piece.count_append,
    Piece.count_nil] at hf
  obtain ⟨fuel, rfl⟩ : ∃ n, fuel = n + 4 := ⟨fuel - 4, by omega⟩
  have hclose : Closes levels (.rightParen :: qs) ts := fun pos => ends_of_kind (by simp)
  obtain ⟨e', pos', hee, hp⟩ := h fuel (pos + 1) _ ts hclose (by simp [levels]; omega)
  have hprimary : primary (fuel + 1) (⟨.leftParen, pos, pos + 1⟩ ::
      (Piece.place (pos + 1) (ps ++ .rightParen :: qs) ++ ts)) =
        .ok (e', Piece.place (pos' + 1) qs ++ ts) := by
    rw [primary]
    simp only [peek, List.tail_cons, hp]
    rfl
  refine ⟨e', pos' + 1, hee, ?_⟩
  rw [List.cons_append, List.append_assoc]
  refine expression_primary rfl hprimary ?_
  cases e with
  | binary op left right => exact erase_eq_binary hee
  | _ => simp [Expr.rank] at he

theorem ne_of_not_isKeyword {name word : String} (h : isKeyword name = false) (hw : word ∈ keywords) :
    name ≠ word := by
  rintro rfl
  simp [isKeyword, hw] at h

theorem prefixOp?_name {name : String} (h : isKeyword name = false) :
    prefixOp? (.ident name) = none := by
  have hnot : name ≠ "not" := ne_of_not_isKeyword h (by decide)
  simp [prefixOp?, hnot]

/-- A name is a primary expression. -/
theorem primary_name {name : String} (h : isKeyword name = false) (fuel start stop : Nat)
    (ts : List Token) :
    primary (fuel + 1) (⟨.ident name, start, stop⟩ :: ts) = .ok (.ident name start, ts) := by
  have ht : name ≠ "true" := ne_of_not_isKeyword h (by decide)
  have hf : name ≠ "false" := ne_of_not_isKeyword h (by decide)
  simp [primary, peek, ht, hf, h]

/-- A name with nothing behind it that it could be applied to. -/
theorem postfixed_name {name : String} (h : isKeyword name = false) {fuel start stop : Nat}
    {ts : List Token} (hends : Ends 0 ts) :
    postfixed (fuel + 2) (⟨.ident name, start, stop⟩ :: ts) = .ok (.ident name start, ts) := by
  simp only [postfixed, primary_name h, ok_bind, hends.paren, hends.arguments, false_and, if_false,
    Bool.and_false, Bool.false_eq_true]
  rfl

theorem parses_ident {name : String} {offset : Nat} (h : isPlainName name) :
    ParsesAt [.name name] (.ident name offset) 0 := by
  intro fuel pos qs ts hq hf
  obtain ⟨-, hk⟩ := isWord_of_isPlainName h
  simp only [Piece.name, Piece.count_word, Piece.count_nil] at hf
  obtain ⟨fuel, rfl⟩ : ∃ n, fuel = n + 4 := ⟨fuel - 4, by omega⟩
  refine ⟨.ident name pos, pos + Text.byteLength name.toList, rfl, ?_⟩
  rw [expression, operand]
  simp only [Piece.name, List.cons_append, List.nil_append, Piece.place, peekKind, peek,
    prefixOp?_name hk]
  exact postfixed_name hk (hq _)

/-- A prefix operator touches its operand. -/
theorem parses_unary {op : UnaryOp} {e : Expr} {ps : List Piece} (h : ParsesAt ps e 0) :
    ParsesAt (op.piece :: ps) (.unary op e) 0 := by
  intro fuel pos qs ts hq hf
  have hcount : Piece.count (op.piece :: ps) = Piece.count ps + 1 := by cases op <;> rfl
  obtain ⟨fuel, rfl⟩ : ∃ n, fuel = n + 2 := ⟨fuel - 2, by omega⟩
  obtain ⟨e', pos', he, hp⟩ := h (fuel + 1) (pos + 1) qs ts hq (by omega)
  rw [expression] at hp
  have hprefix : prefixOp? (peekKind (Piece.place pos (op.piece :: ps ++ qs) ++ ts)) =
      some (.unary op) := by cases op <;> rfl
  have htail : (Piece.place pos (op.piece :: ps ++ qs) ++ ts).tail =
      Piece.place (pos + 1) (ps ++ qs) ++ ts := by cases op <;> rfl
  refine ⟨.unary op e', pos', by simp [Expr.erase, he], ?_⟩
  simp only [expression, operand, hprefix, htail, hp, ok_bind]
  rfl

/-- An operand is read at every level, in parentheses if its operators are looser. -/
theorem parses_enclose {words : Bool} {e : Expr}
    (h : ∀ level, e.rank ≤ level → level ≤ levels → ParsesAt (e.pieces words) e level)
    (level : Nat) (hl : level ≤ levels) :
    ParsesAt (enclose (level < e.rank) (e.pieces words)) e level := by
  by_cases hr : level < e.rank
  · simp only [hr, decide_true, enclose, if_true]
    exact (parses_parens (by omega) (h levels e.rank_le (Nat.le_refl _))).mono (by simp [Piece.leftParen])
      (Nat.zero_le level)
  · simp only [hr, decide_false, enclose, Bool.false_eq_true, if_false]
    exact h level (by omega) hl

/-! ## Arguments and calls -/

/-- Each of the expressions is read at the loosest level. -/
def ArgsParse (words : Bool) (es : List Expr) : Prop :=
  ∀ e ∈ es, ParsesAt (e.pieces words) e levels

theorem argPieces_cons_cons (words : Bool) (e d : Expr) (es : List Expr) :
    argPieces words (e :: d :: es) =
      e.pieces words ++ .comma :: .blank :: argPieces words (d :: es) := by
  rw [argPieces]
  rfl

theorem argPieces_singleton (words : Bool) (e : Expr) : argPieces words [e] = e.pieces words := by
  simp [argPieces]

theorem closes_comma (ps : List Piece) (ts : List Token) : Closes levels (.comma :: ps) ts :=
  fun _ => ends_of_kind (by simp)

theorem closes_rightParen (ps : List Piece) (ts : List Token) :
    Closes levels (.rightParen :: ps) ts :=
  fun _ => ends_of_kind (by simp)

/-- Arguments in parentheses are read up to the closing one. -/
theorem moreArguments_argPieces {words : Bool} (qs : List Piece) (ts : List Token) :
    ∀ (e : Expr) (es : List Expr), ArgsParse words (e :: es) → ∀ fuel pos,
      16 * Piece.count (argPieces words (e :: es)) + 8 < fuel →
        ∃ es' pos', eraseArgs es' = eraseArgs (e :: es) ∧
          moreArguments fuel (Piece.place pos (argPieces words (e :: es) ++ .rightParen :: qs) ++ ts) =
            .ok (es', Piece.place pos' qs ++ ts) := by
  intro e es
  induction es generalizing e with
  | nil =>
    intro h fuel pos hf
    rw [argPieces_singleton] at hf ⊢
    obtain ⟨fuel, rfl⟩ : ∃ n, fuel = n + 1 := ⟨fuel - 1, by omega⟩
    obtain ⟨e', pos', he, hp⟩ := h e List.mem_cons_self fuel pos _ ts (closes_rightParen qs ts)
      (by simp only [levels]; omega)
    refine ⟨[e'], pos' + 1, by simp [eraseArgs, he], ?_⟩
    rw [moreArguments, hp]
    rfl
  | cons d es ih =>
    intro h fuel pos hf
    rw [argPieces_cons_cons] at hf ⊢
    simp only [Piece.count_append, Piece.comma, Piece.count_word, Piece.count_blank] at hf
    obtain ⟨fuel, rfl⟩ : ∃ n, fuel = n + 1 := ⟨fuel - 1, by omega⟩
    obtain ⟨e', pos₁, he, hp⟩ := h e List.mem_cons_self fuel pos _ ts
      (closes_comma (.blank :: (argPieces words (d :: es) ++ .rightParen :: qs)) ts)
      (by simp only [levels]; omega)
    obtain ⟨es', pos₂, hes, hp₂⟩ := ih d (fun x hx => h x (List.mem_cons_of_mem _ hx)) fuel
      (pos₁ + 2) (by omega)
    refine ⟨e' :: es', pos₂, by rw [eraseArgs, he, hes]; rfl, ?_⟩
    have hcomma : consume? .comma (Piece.place pos₁ (.comma :: .blank ::
        (argPieces words (d :: es) ++ .rightParen :: qs)) ++ ts) =
          some (Piece.place (pos₁ + 2) (argPieces words (d :: es) ++ .rightParen :: qs) ++ ts) := rfl
    rw [List.append_assoc, List.cons_append, List.cons_append]
    simp only [moreArguments, hp, ok_bind, hcomma, hp₂]
    rfl

/-- Arguments without parentheses are read up to what closes them. -/
theorem arguments_argPieces {words : Bool} {qs : List Piece} {ts : List Token}
    (hq : Closes levels qs ts) (hcomma : ∀ pos, consume? .comma (Piece.place pos qs ++ ts) = none) :
    ∀ (e : Expr) (es : List Expr), ArgsParse words (e :: es) → ∀ fuel pos,
      16 * Piece.count (argPieces words (e :: es)) + 8 < fuel →
        ∃ es' pos', eraseArgs es' = eraseArgs (e :: es) ∧
          arguments fuel (Piece.place pos (argPieces words (e :: es) ++ qs) ++ ts) =
            .ok (es', Piece.place pos' qs ++ ts) := by
  intro e es
  induction es generalizing e with
  | nil =>
    intro h fuel pos hf
    rw [argPieces_singleton] at hf ⊢
    obtain ⟨fuel, rfl⟩ : ∃ n, fuel = n + 1 := ⟨fuel - 1, by omega⟩
    obtain ⟨e', pos', he, hp⟩ := h e List.mem_cons_self fuel pos _ ts hq
      (by simp only [levels]; omega)
    refine ⟨[e'], pos', by simp [eraseArgs, he], ?_⟩
    simp only [arguments, hp, ok_bind, hcomma]
    rfl
  | cons d es ih =>
    intro h fuel pos hf
    rw [argPieces_cons_cons] at hf ⊢
    simp only [Piece.count_append, Piece.comma, Piece.count_word, Piece.count_blank] at hf
    obtain ⟨fuel, rfl⟩ : ∃ n, fuel = n + 1 := ⟨fuel - 1, by omega⟩
    obtain ⟨e', pos₁, he, hp⟩ := h e List.mem_cons_self fuel pos _ ts
      (closes_comma (.blank :: (argPieces words (d :: es) ++ qs)) ts)
      (by simp only [levels]; omega)
    obtain ⟨es', pos₂, hes, hp₂⟩ := ih d (fun x hx => h x (List.mem_cons_of_mem _ hx)) fuel
      (pos₁ + 2) (by omega)
    refine ⟨e' :: es', pos₂, by rw [eraseArgs, he, hes]; rfl, ?_⟩
    have hsome : consume? .comma (Piece.place pos₁ (.comma :: .blank ::
        (argPieces words (d :: es) ++ qs)) ++ ts) =
          some (Piece.place (pos₁ + 2) (argPieces words (d :: es) ++ qs) ++ ts) := rfl
    rw [List.append_assoc, List.cons_append, List.cons_append]
    simp only [arguments, hp, ok_bind, hsome, hp₂]
    rfl

/-- The first piece of arguments. -/
theorem argPieces_first (words : Bool) {e : Expr} (h : e.isPrintable) (es : List Expr) :
    ∃ kind text ps, argPieces words (e :: es) = .word kind text :: ps ∧ kind.StartsOperand := by
  obtain ⟨kind, text, ps, hp, hk, -⟩ := pieces_first words h
  exact ⟨kind, text, _, by rw [argPieces, hp]; rfl, hk⟩

/-- The arguments of a call and the closing parenthesis. -/
theorem parenthesized_argPieces {words : Bool} {args : List Expr} (hp : printableArgs args)
    (h : ArgsParse words args) (fuel : Nat) (hf : 16 * Piece.count (argPieces words args) + 9 < fuel)
    (pos : Nat) (qs : List Piece) (ts : List Token) :
    ∃ args' pos', eraseArgs args' = eraseArgs args ∧
      parenthesized fuel (Piece.place pos (argPieces words args ++ .rightParen :: qs) ++ ts) =
        .ok (args', Piece.place pos' qs ++ ts) := by
  obtain ⟨fuel, rfl⟩ : ∃ n, fuel = n + 1 := ⟨fuel - 1, by omega⟩
  cases args with
  | nil => exact ⟨[], pos + 1, rfl, rfl⟩
  | cons e es =>
    simp only [printableArgs, Bool.and_eq_true] at hp
    obtain ⟨args', pos', ha, hm⟩ := moreArguments_argPieces qs ts e es h fuel pos (by omega)
    refine ⟨args', pos', ha, ?_⟩
    obtain ⟨kind, text, ps, hfirst, hk⟩ := argPieces_first words hp.1 es
    have hne : kind ≠ .rightParen := by
      rintro rfl
      exact hk
    rw [parenthesized, ← hm, hfirst]
    simp [Piece.place, consume?, hne]

/-- A parenthesis right behind a name makes a call. -/
theorem parses_call {words : Bool} {function : String} {args : List Expr} (offset : Nat)
    (hf : isPlainName function) (hp : printableArgs args) (h : ArgsParse words args) :
    ParsesAt ((Expr.call function args offset).pieces words) (.call function args offset) 0 := by
  intro fuel pos qs ts hq hfuel
  obtain ⟨-, hk⟩ := isWord_of_isPlainName hf
  simp only [Expr.pieces, Piece.name, Piece.leftParen, Piece.rightParen, Piece.count_word,
    Piece.count_append, Piece.count_nil] at hfuel
  obtain ⟨fuel, rfl⟩ : ∃ n, fuel = n + 4 := ⟨fuel - 4, by omega⟩
  let stop := pos + Text.byteLength function.toList
  obtain ⟨args', pos', ha, hargs⟩ := parenthesized_argPieces hp h (fuel + 1) (by omega) (stop + 1)
    qs ts
  refine ⟨.call function args' pos, pos', by simp [Expr.erase, ha], ?_⟩
  have htokens : Piece.place pos ((Expr.call function args offset).pieces words ++ qs) ++ ts =
      ⟨.ident function, pos, stop⟩ :: ⟨.leftParen, stop, stop + 1⟩ ::
        (Piece.place (stop + 1) (argPieces words args ++ .rightParen :: qs) ++ ts) := by
    rw [Expr.pieces, List.cons_append, List.cons_append, List.append_assoc]
    rfl
  rw [htokens, expression, operand]
  simp only [peekKind, peek, prefixOp?_name hk, postfixed, primary_name hk, ok_bind, and_self,
    if_true, List.tail_cons, hargs]
  rfl

/-! ## All expressions -/

theorem count_pieces_pos (words : Bool) {e : Expr} (h : e.isPrintable) :
    0 < Piece.count (e.pieces words) := by
  obtain ⟨kind, text, ps, hp, -⟩ := pieces_first words h
  simp [hp]

theorem count_enclose_pos (words condition : Bool) {e : Expr} (h : e.isPrintable) :
    0 < Piece.count (enclose condition (e.pieces words)) := by
  obtain ⟨kind, text, ps, hp, -⟩ := enclose_first words condition h
  simp [hp]

/-- The left operand of an operator begins a chain of its level. -/
theorem chains_left {words : Bool} {e : Expr} {level : Nat} (hl : level < levels) (hp : e.isPrintable)
    (h : ∀ level, e.rank ≤ level → level ≤ levels → ParsesAt (e.pieces words) e level)
    (hc : e.rank = level + 1 → ChainsAt (e.pieces words) e level) :
    ChainsAt (enclose (level + 1 < e.rank) (e.pieces words)) e level := by
  rcases Nat.lt_trichotomy e.rank (level + 1) with hr | hr | hr
  · rw [decide_eq_false (by omega)]
    exact (h level (by omega) (by omega)).chains (count_pieces_pos words hp)
  · rw [decide_eq_false (by omega)]
    exact hc hr
  · have he := parses_enclose h level (by omega)
    rw [decide_eq_true (by omega)] at he ⊢
    exact he.chains (count_enclose_pos words true hp)

mutual

/-- An expression is read at every level of its own operators and looser ones, and as the beginning of a
chain of its own operators. -/
theorem parses_pieces (words : Bool) : ∀ {e : Expr}, e.isPrintable →
    (∀ level, e.rank ≤ level → level ≤ levels → ParsesAt (e.pieces words) e level) ∧
      ∀ level, e.rank = level + 1 → ChainsAt (e.pieces words) e level
  | .literal v, h => by
    refine ⟨fun level hr _ => (parses_literal v).mono ?_ hr, fun _ hr => nomatch hr⟩
    cases v <;> exact Nat.one_pos
  | .ident _ _, h =>
    ⟨fun level hr _ => (parses_ident h).mono Nat.one_pos hr, fun _ hr => nomatch hr⟩
  | .unary op arg, h => by
    have harg : arg.isPrintable := h
    have hp : ParsesAt ((Expr.unary op arg).pieces words) (.unary op arg) 0 :=
      parses_unary (parses_enclose (parses_pieces words harg).1 0 (Nat.zero_le levels))
    exact ⟨fun level hr _ => hp.mono (count_pieces_pos words h) hr, fun _ hr => nomatch hr⟩
  | .binary op left right, h => by
    have h' := h
    simp only [Expr.isPrintable, Bool.and_eq_true] at h'
    have hleft := parses_pieces words h'.1
    have hright := parses_pieces words h'.2
    have hchain : ChainsAt ((Expr.binary op left right).pieces words) (.binary op left right) op.level :=
      (chains_left op.level_lt h'.1 hleft.1 (hleft.2 op.level)).binary h'.2
        (parses_enclose hright.1 op.level (Nat.le_of_lt op.level_lt))
    refine ⟨fun level hr _ => hchain.parses.mono (count_pieces_pos words h) hr, fun level hr => ?_⟩
    obtain rfl : op.level = level := Nat.succ.inj hr
    exact hchain
  | .call function args offset, h => by
    have h' := h
    simp only [Expr.isPrintable, Bool.and_eq_true] at h'
    have hp := parses_call offset h'.1 h'.2 (parses_args words h'.2)
    exact ⟨fun level hr _ => hp.mono (count_pieces_pos words h) hr, fun _ hr => nomatch hr⟩

theorem parses_args (words : Bool) : ∀ {es : List Expr}, printableArgs es → ArgsParse words es
  | [], _ => fun _ hm => nomatch hm
  | e :: es, h => by
    simp only [printableArgs, Bool.and_eq_true] at h
    rintro d (_ | ⟨_, hm⟩)
    · exact (parses_pieces words h.1).1 levels e.rank_le (Nat.le_refl levels)
    · exact parses_args words h.2 d hm

end

end LiveSketch.Script

import LiveSketch.Proofs.Script.Descent

/-!
# The parser undoes the printer

The lines of a printed block are read one after another. `BlockReads` says what reading a block leaves
behind, with fuel for each token that is still to be read. An `else` is read behind the conditional that it
belongs to, and is put at the end of its chain; `OpenChain` says that a chain still has room there.
-/
namespace LiveSketch.Script

open LiveSketch.Script.Parser

/-! ## The first tokens of a statement -/

/-- The tokens that a statement begins with. -/
def TokenKind.StartsStatement : TokenKind → Prop
  | .newline | .indent | .dedent | .semicolon | .eof => False
  | _ => True

theorem startsStatement_ident (word : String) : (TokenKind.ident word).StartsStatement := trivial

theorem TokenKind.StartsOperand.statement {kind : TokenKind} (h : kind.StartsOperand) :
    kind.StartsStatement := by
  cases kind <;> trivial

/-- What follows a name at the front does not make an assignment of it, nor a call without parentheses. -/
def KeepsName (ts : List Token) : Prop :=
  ∀ name start stop rest, ts = ⟨.ident name, start, stop⟩ :: rest →
    assignOp? (peekKind rest) = none ∧ stepOp? (peekKind rest) = none ∧ argumentsFollow ts = false

theorem keepsName_of_kind {t : Token} {ts : List Token} (h : ∀ name, t.kind ≠ .ident name) :
    KeepsName (t :: ts) := by
  rintro name start stop rest heq
  cases heq
  exact absurd rfl (h name)

/-- A name that something closes. -/
theorem keepsName_word {name : String} {ps : List Piece} {ts : List Token} (h : Closes 0 ps ts)
    (pos : Nat) : KeepsName (Piece.place pos (.name name :: ps) ++ ts) := by
  rintro name' start stop rest heq
  simp only [Piece.name, Piece.place, List.cons_append, List.cons.injEq] at heq
  obtain ⟨-, rfl⟩ := heq
  exact ⟨(h _).assign.1, (h _).assign.2, (h _).arguments _⟩

/-- A printed expression is not read as an assignment or as a call without parentheses. -/
theorem keepsName_pieces (words : Bool) : ∀ {e : Expr}, e.isPrintable → ∀ {ps ts}, Closes 0 ps ts →
    ∀ pos, KeepsName (Piece.place pos (e.pieces words ++ ps) ++ ts)
  | .literal (.number _), _, _, _, _, _ => keepsName_of_kind (by simp)
  | .literal (.string _), _, _, _, _, _ => keepsName_of_kind (by simp)
  | .literal (.bool _), _, _, _, hq, pos => keepsName_word hq pos
  | .ident _ _, _, _, _, hq, pos => keepsName_word hq pos
  | .unary op _, _, _, _, _, _ => by
    cases op <;> exact keepsName_of_kind (by simp)
  | .binary op left right, h, ps, ts, _, pos => by
    simp only [Expr.isPrintable, Bool.and_eq_true] at h
    have hclose := closes_operator op words (op.level < right.rank) h.2 ps ts
    rw [Expr.pieces, List.append_assoc]
    rcases enclose_cases (op.level + 1 < left.rank) (left.pieces words) with ⟨-, he⟩ | ⟨-, he⟩
    · rw [he]
      exact keepsName_pieces words h.1 (hclose.mono (Nat.zero_le _)) pos
    · rw [he]
      exact keepsName_of_kind (by simp)
  | .call function args _, _, ps, ts, _, pos => by
    rintro name start stop rest heq
    simp only [Expr.pieces, Piece.name, Piece.leftParen, Piece.place, List.cons_append,
      List.cons.injEq] at heq
    obtain ⟨ht, rfl⟩ := heq
    refine ⟨rfl, rfl, ?_⟩
    simp [Expr.pieces, Piece.name, Piece.leftParen, Piece.place, argumentsFollow]

/-- A minus at the front of an expression touches its operand. -/
theorem minus_pieces {words : Bool} : ∀ {e : Expr}, e.isPrintable → ∀ {text ps},
    e.pieces words = .word .minus text :: ps → ∃ kind text' qs, ps = .word kind text' :: qs
  | .literal v, _, _, _, heq => by
    cases v with
    | bool b => cases b <;> cases heq
    | _ => cases heq
  | .ident _ _, _, _, _, heq => by cases heq
  | .unary op arg, h, _, _, heq => by
    have harg : arg.isPrintable := h
    obtain ⟨kind, text', qs, hq, -⟩ := enclose_first words (0 < arg.rank) harg
    simp only [Expr.pieces, List.cons.injEq] at heq
    exact ⟨kind, text', qs, heq.2.symm.trans hq⟩
  | .binary op left right, h, _, _, heq => by
    simp only [Expr.isPrintable, Bool.and_eq_true] at h
    rw [Expr.pieces] at heq
    rcases enclose_cases (op.level + 1 < left.rank) (left.pieces words) with ⟨-, he⟩ | ⟨-, he⟩
    · obtain ⟨kind, text', qs, hq, -⟩ := pieces_first words h.1
      rw [he, hq] at heq
      simp only [List.cons_append, List.cons.injEq, Piece.word.injEq] at heq
      obtain ⟨⟨rfl, rfl⟩, rfl⟩ := heq
      obtain ⟨kind, text', rs, rfl⟩ := minus_pieces h.1 hq
      exact ⟨kind, text', _, rfl⟩
    · rw [he] at heq
      cases heq
  | .call _ _ _, _, _, _, heq => by cases heq

/-- Arguments behind a name and a blank make a call. -/
theorem argumentsFollow_argPieces {words : Bool} {e : Expr} (h : e.isPrintable) (es : List Expr)
    (name : Token) (ts : List Token) :
    argumentsFollow (name :: (Piece.place (name.stop + 1) (argPieces words (e :: es)) ++ ts)) = true := by
  obtain ⟨kind, text, ps, hp, hk, -⟩ := pieces_first words h
  have hargs : argPieces words (e :: es) = .word kind text :: (ps ++
      if es.isEmpty then [] else .comma :: .blank :: argPieces words es) := by
    rw [argPieces, hp]
    rfl
  rw [hargs]
  cases kind with
  | number _ => rfl
  | string _ => rfl
  | bang => rfl
  | leftParen => simp [Piece.place, argumentsFollow]
  | minus =>
    obtain ⟨kind, text', qs, rfl⟩ := minus_pieces h hp
    simp [Piece.place, argumentsFollow]
  | ident word =>
    have hword : word ∉ ["and", "or", "else", "if", "repeat"] := by
      rcases hk with rfl | rfl | hk
      · decide
      · decide
      · intro hm
        have hkey : ∀ w ∈ ["and", "or", "else", "if", "repeat"], w ∈ keywords := by decide
        exact ne_of_not_isKeyword hk (hkey word hm) rfl
    simpa [Piece.place, argumentsFollow] using hword
  | _ => exact hk.elim

/-! ## Statements of one line -/

theorem closes_newline {level : Nat} {nl : Token} (hnl : nl.kind = .newline) (ts : List Token) :
    Closes level [] (nl :: ts) := fun _ => ends_of_kind (by simp [hnl])

/-- Which tokens begin a statement that is an expression. -/
theorem statement_bare {fuel : Nat} {t : Token} {ts : List Token} (hk : t.kind.StartsOperand)
    (h : KeepsName (t :: ts)) : statement (fuel + 1) (t :: ts) = bare fuel (t :: ts) := by
  obtain ⟨kind, start, stop⟩ := t
  cases kind with
  | ident name =>
    obtain ⟨ha, hs, hf⟩ := h name start stop ts rfl
    have hne : ∀ word ∈ ["repeat", "if", "else"], name ≠ word := by
      have hkey : ∀ w ∈ ["repeat", "if", "else"], w ∈ keywords ∧ w ≠ "true" ∧ w ≠ "false" := by decide
      rintro word hm rfl
      obtain ⟨hw, ht, hf⟩ := hkey _ hm
      rcases hk with hk | hk | hk
      · exact ht hk
      · exact hf hk
      · exact ne_of_not_isKeyword hk hw rfl
    have hrepeat := hne "repeat" (by decide)
    have hif := hne "if" (by decide)
    have helse := hne "else" (by decide)
    simp [statement, peek, ha, hs, hf]
  | number _ | string _ | leftParen | minus | bang => rfl
  | _ => exact hk.elim

/-- An expression that is not the bare name of something callable is a statement. -/
theorem bare_ok {fuel : Nat} {e e' : Expr} {ts rest : List Token} (hc : e.isCallableName = false)
    (he : e'.erase = e.erase) (h : expression fuel levels ts = .ok (e', rest)) :
    bare (fuel + 1) ts = .ok (.stmt (.expr e'), false, rest) := by
  rw [bare, h, ok_bind]
  cases e' with
  | ident name offset =>
    have hname : isCallable name = false := by
      cases e with
      | ident name' _ =>
        obtain rfl : name = name' := (Expr.ident.inj he).1
        exact hc
      | _ => cases he
    simp [hname]
    rfl
  | _ => rfl

/-- A printed expression is read as a statement. -/
theorem statement_pieces (words : Bool) {e : Expr} (h : e.isPrintable) (hc : e.isCallableName = false)
    (fuel : Nat) (hf : 16 * Piece.count (e.pieces words) + 9 < fuel) (pos : Nat) {nl : Token}
    (hnl : nl.kind = .newline) (ts : List Token) :
    ∃ e', e'.erase = e.erase ∧
      statement fuel (Piece.place pos (e.pieces words) ++ nl :: ts) =
        .ok (.stmt (.expr e'), false, nl :: ts) := by
  obtain ⟨fuel, rfl⟩ : ∃ n, fuel = n + 2 := ⟨fuel - 2, by omega⟩
  obtain ⟨e', pos', he, hp⟩ := (parses_pieces words h).1 levels e.rank_le (Nat.le_refl levels) fuel pos []
    (nl :: ts) (closes_newline hnl ts) (by simp only [levels]; omega)
  have hkeeps := keepsName_pieces words h (closes_newline hnl ts) pos
  rw [List.append_nil] at hp hkeeps
  obtain ⟨kind, text, ps, hfirst, hk, -⟩ := pieces_first words h
  refine ⟨e', he, ?_⟩
  rw [hfirst] at hp hkeeps ⊢
  exact (statement_bare hk hkeeps).trans (bare_ok hc he hp)

section

variable {words : Bool} {name : String} {fuel start stop : Nat} {ts rest : List Token}

theorem statement_of_assignOp (hk : isKeyword name = false) {op : AssignOp} {e : Expr}
    (ho : assignOp? (peekKind ts) = some op) (he : expression fuel levels ts.tail = .ok (e, rest)) :
    statement (fuel + 1) (⟨.ident name, start, stop⟩ :: ts) =
      .ok (.stmt (.assign name op e start), false, rest) := by
  have hrepeat : name ≠ "repeat" := ne_of_not_isKeyword hk (by decide)
  have hif : name ≠ "if" := ne_of_not_isKeyword hk (by decide)
  have helse : name ≠ "else" := ne_of_not_isKeyword hk (by decide)
  simp only [statement, peek, List.tail_cons, ho, hk, he, ok_bind]
  rfl

theorem statement_of_argumentsFollow (hk : isKeyword name = false) {args : List Expr}
    (ha : assignOp? (peekKind ts) = none) (hs : stepOp? (peekKind ts) = none)
    (hf : argumentsFollow (⟨.ident name, start, stop⟩ :: ts) = true)
    (h : arguments fuel ts = .ok (args, rest)) :
    statement (fuel + 1) (⟨.ident name, start, stop⟩ :: ts) =
      .ok (.stmt (.expr (.call name args start)), false, rest) := by
  have hrepeat : name ≠ "repeat" := ne_of_not_isKeyword hk (by decide)
  have hif : name ≠ "if" := ne_of_not_isKeyword hk (by decide)
  have helse : name ≠ "else" := ne_of_not_isKeyword hk (by decide)
  simp only [statement, peek, List.tail_cons, ha, hs, hk, hf, Bool.not_false, Bool.true_and, if_true, h,
    ok_bind]
  rfl

end

/-- A call without parentheses is read as a statement. -/
theorem statement_call (words : Bool) {function : String} {arg : Expr} {args : List Expr}
    (hname : isPlainName function) (h : printableArgs (arg :: args)) (fuel : Nat)
    (hf : 16 * Piece.count (argPieces words (arg :: args)) + 9 < fuel) (pos : Nat) {nl : Token}
    (hnl : nl.kind = .newline) (ts : List Token) :
    ∃ args', eraseArgs args' = eraseArgs (arg :: args) ∧
      statement fuel (Piece.place pos (.name function :: .blank :: argPieces words (arg :: args)) ++
        nl :: ts) = .ok (.stmt (.expr (.call function args' pos)), false, nl :: ts) := by
  obtain ⟨-, hk⟩ := isWord_of_isPlainName hname
  obtain ⟨fuel, rfl⟩ : ∃ n, fuel = n + 1 := ⟨fuel - 1, by omega⟩
  let stop := pos + Text.byteLength function.toList
  have hcomma : ∀ pos, consume? .comma (Piece.place pos [] ++ nl :: ts) = none := by
    simp [Piece.place, consume?, hnl]
  obtain ⟨args', pos', ha, hargs⟩ := arguments_argPieces (closes_newline hnl ts) hcomma
    arg args (parses_args words h) fuel (stop + 1) (by omega)
  rw [List.append_nil] at hargs
  simp only [printableArgs, Bool.and_eq_true] at h
  obtain ⟨kind, text, ps, hfirst, hfk⟩ := argPieces_first words h.1 args
  have hplain : assignOp? kind = none ∧ stepOp? kind = none := by
    cases kind <;> first | exact ⟨rfl, rfl⟩ | exact hfk.elim
  have hnext : peekKind (Piece.place (stop + 1) (argPieces words (arg :: args)) ++ nl :: ts) = kind := by
    rw [hfirst]
    rfl
  exact ⟨args', ha, statement_of_argumentsFollow hk (hnext ▸ hplain.1) (hnext ▸ hplain.2)
    (argumentsFollow_argPieces h.1 args ⟨.ident function, pos, stop⟩ (nl :: ts)) hargs⟩

/-- The expression of a line is read as a statement. -/
theorem statement_statementPieces (style : Style) {e : Expr} (h : e.isPrintable)
    (hc : e.isCallableName = false) (fuel : Nat)
    (hf : 16 * Piece.count (statementPieces style e) + 9 < fuel) (pos : Nat) {nl : Token}
    (hnl : nl.kind = .newline) (ts : List Token) :
    ∃ e', e'.erase = e.erase ∧
      statement fuel (Piece.place pos (statementPieces style e) ++ nl :: ts) =
        .ok (.stmt (.expr e'), false, nl :: ts) := by
  rcases statementPieces_cases style e with hp | ⟨function, arg, args, offset, rfl, hp⟩
  · rw [hp] at hf ⊢
    exact statement_pieces style.words h hc fuel hf pos hnl ts
  · rw [hp] at hf ⊢
    simp only [Expr.isPrintable, Bool.and_eq_true] at h
    simp only [Piece.name, Piece.count_word, Piece.count_blank] at hf
    obtain ⟨args', ha, hs⟩ := statement_call style.words h.1 h.2 fuel (by omega) pos hnl ts
    exact ⟨.call function args' pos, by simp [Expr.erase, ha], hs⟩

/-- An assignment is read. -/
theorem statement_assign (words : Bool) {target : String} (hname : isPlainName target) (op : AssignOp)
    {e : Expr} (h : e.isPrintable) (fuel : Nat) (hf : 16 * Piece.count (e.pieces words) + 9 < fuel)
    (pos : Nat) {nl : Token} (hnl : nl.kind = .newline) (ts : List Token) :
    ∃ e', e'.erase = e.erase ∧
      statement fuel (Piece.place pos (.name target :: .blank :: op.piece :: .blank :: e.pieces words) ++
        nl :: ts) = .ok (.stmt (.assign target op e' pos), false, nl :: ts) := by
  obtain ⟨-, hk⟩ := isWord_of_isPlainName hname
  obtain ⟨fuel, rfl⟩ : ∃ n, fuel = n + 1 := ⟨fuel - 1, by omega⟩
  obtain ⟨kind, text, ho, hop⟩ : ∃ kind text, op.piece = .word kind text ∧ assignOp? kind = some op := by
    cases op <;> exact ⟨_, _, rfl, rfl⟩
  let start := pos + Text.byteLength target.toList + 1 + Text.byteLength text + 1
  obtain ⟨e', pos', he, hp⟩ := (parses_pieces words h).1 levels e.rank_le (Nat.le_refl levels) fuel start
    [] (nl :: ts) (closes_newline hnl ts) (by simp only [levels]; omega)
  rw [List.append_nil] at hp
  refine ⟨e', he, ?_⟩
  rw [ho]
  exact statement_of_assignOp hk hop hp

/-! ## Statements with a body -/

section

variable {fuel : Nat} {t next : Token} {ts rest : List Token} {c : Expr} {b : List Stmt}

theorem statement_of_repeat (ht : t.kind = .ident "repeat") {arrow : Token} (ha : arrow.kind = .arrow)
    (hc : expression fuel levels ts = .ok (c, arrow :: next :: rest)) {rest' : List Token}
    (hb : body fuel (next :: rest) = .ok (b, rest')) :
    statement (fuel + 1) (t :: ts) = .ok (.stmt (.loop c b), true, rest') := by
  simp only [statement, peek, ht, List.tail_cons, hc, ok_bind, expect, consume?, ha, if_true, hb]
  rfl

theorem statement_of_if (ht : t.kind = .ident "if") (hc : conditional fuel ts = .ok (c, b, rest)) :
    statement (fuel + 1) (t :: ts) = .ok (.stmt (.branch c b none), true, rest) := by
  simp only [statement, peek, ht, List.tail_cons, hc, ok_bind]
  rfl

theorem statement_of_elseIf (ht : t.kind = .ident "else") (hn : next.kind = .ident "if")
    (hc : conditional fuel ts = .ok (c, b, rest)) :
    statement (fuel + 1) (t :: next :: ts) = .ok (.otherwise (some c) b t.start, true, rest) := by
  simp only [statement, peek, ht, List.tail_cons, consume?, hn, if_true, hc, ok_bind]
  rfl

theorem statement_of_else (ht : t.kind = .ident "else") (hn : next.kind = .newline)
    (hb : body fuel (next :: ts) = .ok (b, rest)) :
    statement (fuel + 1) (t :: next :: ts) = .ok (.otherwise none b t.start, true, rest) := by
  have hskip : skip .arrow (next :: ts) = next :: ts := by simp [skip, consume?, hn]
  simp only [statement, peek, ht, List.tail_cons, consume?, hn, reduceCtorEq, if_false, hskip, hb, ok_bind]
  rfl

/-- A block goes on behind a statement that has taken its whole line. -/
theorem block_of_statement (hk : t.kind.StartsStatement) {item : Item} {done done' : List Stmt}
    (hs : statement fuel (t :: ts) = .ok (item, true, rest)) (ha : attach done item = .ok done') :
    block (fuel + 2) done (t :: ts) = block (fuel + 1) done' rest := by
  obtain ⟨kind, start, stop⟩ := t
  have hline : line (fuel + 1) (⟨kind, start, stop⟩ :: ts) = .ok ([item], rest) := by
    rw [line]
    cases kind <;> first | exact hk.elim | simp only [peekKind, peek, hs, ok_bind] <;> rfl
  have hall : attachAll done [item] = .ok done' := by
    simp only [attachAll, List.foldlM, ha, ok_bind]
    rfl
  rw [block]
  cases kind <;> first | exact hk.elim | simp only [peekKind, peek, hline, hall, ok_bind]

/-- A block goes on behind a statement and the end of its line. -/
theorem block_of_statement_newline (hk : t.kind.StartsStatement) (hn : next.kind = .newline) {item : Item}
    {done done' : List Stmt} (hs : statement (fuel + 1) (t :: ts) = .ok (item, false, next :: rest))
    (ha : attach done item = .ok done') :
    block (fuel + 3) done (t :: ts) = block (fuel + 2) done' rest := by
  obtain ⟨kind, start, stop⟩ := t
  have hend : line (fuel + 1) (next :: rest) = .ok ([], rest) := by
    simp only [line, peekKind, peek, hn, List.tail_cons]
  have hatEnd : atLineEnd (next :: rest) = true := by simp [atLineEnd, peekKind, peek, hn]
  have hline : line (fuel + 2) (⟨kind, start, stop⟩ :: ts) = .ok ([item], rest) := by
    rw [line]
    cases kind <;> first
      | exact hk.elim
      | simp only [peekKind, peek, hs, hatEnd, hend, ok_bind, Bool.true_or, if_true,
          Bool.false_eq_true, if_false] <;> rfl
  have hall : attachAll done [item] = .ok done' := by
    simp only [attachAll, List.foldlM, ha, ok_bind]
    rfl
  rw [block]
  cases kind <;> first | exact hk.elim | simp only [peekKind, peek, hline, hall, ok_bind]

end

/-! ## The tokens of lines -/

/-- The lines do not begin deeper than this, nor with an indentation of their own. -/
def Shallow (depth : Nat) (ls : List Line) : Prop :=
  ∀ l ∈ ls.head?, l.depth ≤ depth ∧
    ∃ kind text ps, l.pieces = .word kind text :: ps ∧ kind.StartsStatement

theorem Shallow.mono {depth depth' : Nat} {ls : List Line} (h : Shallow depth ls) (hd : depth ≤ depth') :
    Shallow depth' ls := fun l hl => ⟨Nat.le_trans (h l hl).1 hd, (h l hl).2⟩

theorem shallow_nil (depth : Nat) : Shallow depth [] := by simp [Shallow]

theorem shallow_cons {depth : Nat} {kind : TokenKind} {text : List Char} {ps : List Piece}
    (hk : kind.StartsStatement) (ls : List Line) : Shallow depth (⟨depth, .word kind text :: ps⟩ :: ls) := by
  rintro l hl
  obtain rfl : _ = l := Option.some.inj hl
  exact ⟨Nat.le_refl depth, kind, text, ps, rfl, hk⟩

/-- The tokens of a line that is as deep as the line before it. -/
theorem tokens_cons (pos depth : Nat) (ps : List Piece) (ls : List Line) :
    ∃ nl pos', nl.kind = .newline ∧
      tokens pos depth (⟨depth, ps⟩ :: ls) =
        Piece.place (pos + depth) ps ++ nl :: tokens pos' depth ls := by
  let stop := pos + depth + Text.byteLength (Piece.render ps)
  refine ⟨⟨.newline, stop, stop⟩, stop + 1, rfl, ?_⟩
  simp only [tokens, Nat.lt_irrefl, if_false, Nat.sub_self, List.replicate_zero, List.nil_append, stop]

/-- Lines that are not as deep as the line before them begin with the end of a block. -/
theorem tokens_dedent {depth : Nat} {ls : List Line} (h : Shallow depth ls) (pos : Nat) :
    ∃ t, t.kind = .dedent ∧ tokens pos (depth + 1) ls = t :: tokens pos depth ls := by
  cases ls with
  | nil => exact ⟨⟨.dedent, pos - 1, pos - 1⟩, rfl, rfl⟩
  | cons l ls =>
    have hl : l.depth ≤ depth := (h l rfl).1
    refine ⟨⟨.dedent, pos + l.depth, pos + l.depth⟩, rfl, ?_⟩
    have hsub : depth + 1 - l.depth = depth - l.depth + 1 := by omega
    have hne : ¬depth < l.depth := by omega
    have hne' : ¬depth + 1 < l.depth := by omega
    simp only [tokens, hne, hne', if_false, hsub, List.replicate_succ, List.cons_append]

/-- Lines that are not deeper than the line before them do not begin a block. -/
theorem tokens_shallow {depth : Nat} {ls : List Line} (h : Shallow depth ls) (pos : Nat) :
    consume? .indent (tokens pos depth ls) = none := by
  have hrep : ∀ n (t : Token) ts, t.kind = .dedent → consume? .indent ts = none →
      consume? .indent (List.replicate n t ++ ts) = none := by
    intro n t ts ht hts
    cases n with
    | zero => simpa using hts
    | succ n => simp [List.replicate_succ, consume?, ht]
  cases ls with
  | nil => exact hrep _ _ _ rfl rfl
  | cons l ls =>
    obtain ⟨hd, kind, text, ps, hp, hk⟩ := h l rfl
    have hne : ¬depth < l.depth := by omega
    simp only [tokens, hne, if_false]
    refine hrep _ _ _ rfl ?_
    rw [hp]
    cases kind <;> first | rfl | exact hk.elim

/-- Lines that are one deeper than the line before them begin a block. -/
theorem tokens_indent (pos depth : Nat) (ps : List Piece) (ls : List Line) :
    ∃ t, t.kind = .indent ∧
      tokens pos depth (⟨depth + 1, ps⟩ :: ls) = t :: tokens pos (depth + 1) (⟨depth + 1, ps⟩ :: ls) := by
  refine ⟨⟨.indent, pos + (depth + 1), pos + (depth + 1)⟩, rfl, ?_⟩
  simp [tokens]

section

variable {style : Style} {depth : Nat}

/-- The first line of a statement. -/
theorem lines_first (style : Style) (depth : Nat) {s : Stmt} (h : s.isPrintable) (lead : List Piece) :
    ∃ kind text ps ls, s.lines style depth lead = ⟨depth, lead ++ .word kind text :: ps⟩ :: ls ∧
      kind.StartsStatement := by
  cases s with
  | expr e =>
    simp only [Stmt.isPrintable, Bool.and_eq_true] at h
    rcases statementPieces_cases style e with hp | ⟨function, arg, args, offset, rfl, hp⟩
    · obtain ⟨kind, text, ps, hfirst, hk, -⟩ := pieces_first style.words h.1
      exact ⟨kind, text, ps, [], by rw [Stmt.lines, hp, hfirst], hk.statement⟩
    · exact ⟨_, _, _, [], by rw [Stmt.lines, hp]; rfl, startsStatement_ident _⟩
  | assign target op value _ => exact ⟨_, _, _, _, rfl, startsStatement_ident _⟩
  | loop count body => exact ⟨_, _, _, _, rfl, startsStatement_ident _⟩
  | branch condition thenBody elseBody => exact ⟨_, _, _, _, rfl, startsStatement_ident _⟩

theorem shallow_blockLines {stmts : List Stmt} (h : printableBlock stmts) {ls : List Line}
    (hls : Shallow depth ls) : Shallow depth (blockLines style depth [] stmts ++ ls) := by
  cases stmts with
  | nil => exact hls
  | cons s rest =>
    simp only [printableBlock, Bool.and_eq_true] at h
    obtain ⟨kind, text, ps, ls', hl, hk⟩ := lines_first style.left depth h.1 []
    rw [blockLines, hl]
    exact shallow_cons hk _

theorem shallow_elseLines {stmts : Option (List Stmt)} (h : printableElse stmts) {ls : List Line}
    (hls : Shallow depth ls) : Shallow depth (elseLines style depth stmts ++ ls) := by
  cases stmts with
  | none => exact hls
  | some body =>
    rw [elseLines]
    split
    · cases body with
      | nil => exact hls
      | cons s rest =>
        simp only [printableElse, printableBlock, Bool.and_eq_true] at h
        obtain ⟨kind, text, ps, ls', hl, -⟩ :=
          lines_first style.left.left depth h.1 [.name "else", .blank]
        rw [blockLines, hl]
        exact shallow_cons (startsStatement_ident _) _
    · exact shallow_cons (startsStatement_ident _) _

end

/-- The tokens of lines, without indentations. -/
def weight : List Line → Nat
  | [] => 0
  | l :: ls => Piece.count l.pieces + 1 + weight ls

@[simp] theorem weight_nil : weight [] = 0 := rfl

@[simp] theorem weight_cons (l : Line) (ls : List Line) :
    weight (l :: ls) = Piece.count l.pieces + 1 + weight ls := rfl

@[simp] theorem weight_append (ls ls' : List Line) : weight (ls ++ ls') = weight ls + weight ls' := by
  induction ls with
  | nil => simp
  | cons l ls ih => simp [ih, Nat.add_assoc]

theorem weight_le_length_tokens (pos depth : Nat) (ls : List Line) :
    weight ls ≤ (tokens pos depth ls).length := by
  induction ls generalizing pos depth with
  | nil => exact Nat.zero_le _
  | cons l ls ih =>
    have hrest := ih (pos + l.depth + Text.byteLength (Piece.render l.pieces) + 1) l.depth
    simp only [tokens, weight_cons, List.length_append, List.length_cons, Piece.length_place]
    omega

/-! ## Blocks -/

/-- The printed statement is read as one more statement of a block. -/
def StmtReads (s : Stmt) : Prop :=
  ∀ (style : Style) (depth fuel pos : Nat) (done : List Stmt) (ls : List Line), Shallow depth ls →
    16 * weight (s.lines style depth []) < fuel →
      ∃ s' pos' fuel', s'.erase = s.erase ∧ fuel ≤ fuel' + 16 * weight (s.lines style depth []) ∧
        block fuel done (tokens pos depth (s.lines style depth [] ++ ls)) =
          block fuel' (s' :: done) (tokens pos' depth ls)

/-- The printed statements are read as further statements of a block. -/
def BlockReads (stmts : List Stmt) : Prop :=
  ∀ (style : Style) (depth fuel pos : Nat) (done : List Stmt) (ls : List Line), Shallow depth ls →
    16 * weight (blockLines style depth [] stmts) < fuel →
      ∃ stmts' pos' fuel', eraseBlock stmts' = eraseBlock stmts ∧
        fuel ≤ fuel' + 16 * weight (blockLines style depth [] stmts) ∧
        block fuel done (tokens pos depth (blockLines style depth [] stmts ++ ls)) =
          block fuel' (stmts'.reverse ++ done) (tokens pos' depth ls)

/-- A statement with a chain of conditionals that has room for one more `else` at its end. -/
structure OpenChain (f : Option (List Stmt) → Stmt) : Prop where
  close : ∀ tail, closeElse? tail (f none) = some (f (some tail))
  deeper : ∀ tail c t e, closeElse? tail (f (some [.branch c t e])) =
    (closeElse? tail (.branch c t e)).map fun inner => f (some [inner])

theorem openChain_branch (c : Expr) (t : List Stmt) : OpenChain (.branch c t) where
  close _ := rfl
  deeper _ _ _ _ := rfl

/-- An `else if` makes the chain longer. -/
theorem OpenChain.elseIf {f : Option (List Stmt) → Stmt} (h : OpenChain f) (c : Expr) (t : List Stmt) :
    OpenChain fun e => f (some [.branch c t e]) where
  close tail := by rw [h.deeper]; rfl
  deeper tail c' t' e' := by
    rw [h.deeper, closeElse?, Option.map_map]
    rfl

/-- The printed `else` part is read as the end of a chain of conditionals. -/
def ElseReads (stmts : Option (List Stmt)) : Prop :=
  ∀ (style : Style) (depth fuel pos : Nat) (f : Option (List Stmt) → Stmt) (done : List Stmt)
    (ls : List Line), OpenChain f → Shallow depth ls → 16 * weight (elseLines style depth stmts) < fuel →
      ∃ stmts' pos' fuel', eraseElse stmts' = eraseElse stmts ∧
        fuel ≤ fuel' + 16 * weight (elseLines style depth stmts) ∧
        block fuel (f none :: done) (tokens pos depth (elseLines style depth stmts ++ ls)) =
          block fuel' (f stmts' :: done) (tokens pos' depth ls)

/-- The printed conditional is read behind an `else`, as one more conditional of a chain. -/
def ElseIfReads (s : Stmt) : Prop :=
  ∀ (style : Style) (depth fuel pos : Nat) (f : Option (List Stmt) → Stmt) (done : List Stmt)
    (ls : List Line), OpenChain f → Shallow depth ls →
      16 * weight (s.lines style depth [.name "else", .blank]) < fuel →
        ∃ s' pos' fuel', s'.erase = s.erase ∧
          fuel ≤ fuel' + 16 * weight (s.lines style depth [.name "else", .blank]) ∧
          block fuel (f none :: done)
              (tokens pos depth (s.lines style depth [.name "else", .blank] ++ ls)) =
            block fuel' (f (some [s']) :: done) (tokens pos' depth ls)

/-- The body behind a header is read. -/
theorem body_blockLines {stmts : List Stmt} (hp : printableBlock stmts) (h : BlockReads stmts)
    (style : Style) {depth : Nat} {ls : List Line} (hls : Shallow depth ls) (fuel : Nat)
    (hf : 16 * weight (blockLines style (depth + 1) [] stmts) + 1 < fuel) (pos : Nat) {nl : Token}
    (hnl : nl.kind = .newline) :
    ∃ stmts' pos', eraseBlock stmts' = eraseBlock stmts ∧
      body fuel (nl :: tokens pos depth (blockLines style (depth + 1) [] stmts ++ ls)) =
        .ok (stmts', tokens pos' depth ls) := by
  obtain ⟨fuel, rfl⟩ : ∃ n, fuel = n + 1 := ⟨fuel - 1, by omega⟩
  have hend : atLineEnd (nl :: tokens pos depth (blockLines style (depth + 1) [] stmts ++ ls)) = true := by
    simp [atLineEnd, peekKind, peek, hnl]
  have hskip : skip .newline (nl :: tokens pos depth (blockLines style (depth + 1) [] stmts ++ ls)) =
      tokens pos depth (blockLines style (depth + 1) [] stmts ++ ls) := by
    simp [skip, consume?, hnl]
  cases stmts with
  | nil =>
    refine ⟨[], pos, rfl, ?_⟩
    rw [body, hend, if_pos rfl, hskip]
    simp only [blockLines, List.nil_append, tokens_shallow hls]
  | cons s rest =>
    obtain ⟨stmts', pos', fuel', he, hfuel, hb⟩ :=
      h style (depth + 1) fuel pos [] ls (hls.mono (Nat.le_succ depth)) (by omega)
    obtain ⟨fuel', rfl⟩ : ∃ n, fuel' = n + 1 := ⟨fuel' - 1, by omega⟩
    obtain ⟨last, hlast, hd⟩ := tokens_dedent hls pos'
    have hblock : block fuel [] (tokens pos (depth + 1) (blockLines style (depth + 1) [] (s :: rest) ++ ls)) =
        .ok (stmts', last :: tokens pos' depth ls) := by
      rw [hb, hd, block]
      simp [peekKind, peek, hlast]
    simp only [printableBlock, Bool.and_eq_true] at hp
    obtain ⟨kind, text, ps, ls', hl, -⟩ := lines_first style.left (depth + 1) hp.1 []
    obtain ⟨first, hfirst, hi⟩ := tokens_indent pos depth (.word kind text :: ps)
      (ls' ++ (blockLines style.right (depth + 1) [] rest ++ ls))
    refine ⟨stmts', pos', he, ?_⟩
    rw [body, hend, if_pos rfl, hskip]
    rw [blockLines, hl, List.nil_append, List.cons_append, List.cons_append, List.append_assoc] at hblock ⊢
    rw [hi]
    simp only [consume?, hfirst, if_true, hblock, ok_bind]
    simp [skip, consume?, hlast]
    rfl

/-- A condition and the body behind it are read. -/
theorem conditional_lines {c : Expr} (hc : c.isPrintable) {stmts : List Stmt} (hp : printableBlock stmts)
    (h : BlockReads stmts) (style : Style) {depth : Nat} {ls : List Line} (hls : Shallow depth ls)
    (fuel : Nat) (hf : 16 * Piece.count (c.pieces style.words) +
      16 * weight (blockLines style (depth + 1) [] stmts) + 8 < fuel)
    (pos pos' : Nat) {nl : Token} (hnl : nl.kind = .newline) :
    ∃ c' stmts' pos'', c'.erase = c.erase ∧ eraseBlock stmts' = eraseBlock stmts ∧
      conditional fuel (Piece.place pos (c.pieces style.words ++ [.blank, .arrow]) ++
        nl :: tokens pos' depth (blockLines style (depth + 1) [] stmts ++ ls)) =
          .ok (c', stmts', tokens pos'' depth ls) := by
  obtain ⟨fuel, rfl⟩ : ∃ n, fuel = n + 1 := ⟨fuel - 1, by omega⟩
  let rest := nl :: tokens pos' depth (blockLines style (depth + 1) [] stmts ++ ls)
  have hclose : Closes levels [.blank, .arrow] rest := fun _ => ends_of_kind (by simp)
  obtain ⟨c', q, hce, hcp⟩ := (parses_pieces style.words hc).1 levels c.rank_le (Nat.le_refl levels)
    fuel pos [.blank, .arrow] rest hclose (by simp only [levels]; omega)
  obtain ⟨stmts', pos'', hbe, hb⟩ := body_blockLines hp h style hls fuel (by omega) pos' hnl
  refine ⟨c', stmts', pos'', hce, hbe, ?_⟩
  have harrow : consume? .arrow (Piece.place q [.blank, .arrow] ++ rest) = some rest := rfl
  simp only [conditional, hcp, ok_bind, harrow, rest, hb]
  rfl

/-- A loop is read. -/
theorem statement_loop {count : Expr} (hc : count.isPrintable) {stmts : List Stmt}
    (hp : printableBlock stmts) (h : BlockReads stmts) (style : Style) {depth : Nat} {ls : List Line}
    (hls : Shallow depth ls) (fuel : Nat) (hf : 16 * Piece.count (count.pieces style.words) +
      16 * weight (blockLines style (depth + 1) [] stmts) + 8 < fuel)
    (pos pos' : Nat) {nl : Token} (hnl : nl.kind = .newline) :
    ∃ count' stmts' pos'', count'.erase = count.erase ∧ eraseBlock stmts' = eraseBlock stmts ∧
      statement fuel (Piece.place pos (headerPieces style "repeat" count) ++
        nl :: tokens pos' depth (blockLines style (depth + 1) [] stmts ++ ls)) =
          .ok (.stmt (.loop count' stmts'), true, tokens pos'' depth ls) := by
  obtain ⟨fuel, rfl⟩ : ∃ n, fuel = n + 1 := ⟨fuel - 1, by omega⟩
  let rest := nl :: tokens pos' depth (blockLines style (depth + 1) [] stmts ++ ls)
  have hclose : Closes levels [.blank, .arrow] rest := fun _ => ends_of_kind (by simp)
  obtain ⟨count', q, hce, hcp⟩ := (parses_pieces style.words hc).1 levels count.rank_le
    (Nat.le_refl levels) fuel (pos + Text.byteLength "repeat".toList + 1) [.blank, .arrow] rest hclose
    (by simp only [levels]; omega)
  obtain ⟨stmts', pos'', hbe, hb⟩ := body_blockLines hp h style hls fuel (by omega) pos' hnl
  exact ⟨count', stmts', pos'', hce, hbe, statement_of_repeat rfl rfl hcp hb⟩

/-! ## Statements of a block -/

theorem stmtReads_expr {e : Expr} (h : e.isPrintable) (hc : e.isCallableName = false) :
    StmtReads (.expr e) := by
  intro style depth fuel pos done ls _ hf
  simp only [Stmt.lines, List.nil_append, weight_cons, weight_nil] at hf ⊢
  obtain ⟨nl, pos', hnl, ht⟩ := tokens_cons pos depth (statementPieces style e) ls
  obtain ⟨fuel, rfl⟩ : ∃ n, fuel = n + 3 := ⟨fuel - 3, by omega⟩
  obtain ⟨e', he, hs⟩ := statement_statementPieces style h hc (fuel + 1) (by omega) (pos + depth) hnl
    (tokens pos' depth ls)
  obtain ⟨t, ts, hfirst, hk⟩ : ∃ t ts, Piece.place (pos + depth) (statementPieces style e) ++
      nl :: tokens pos' depth ls = t :: ts ∧ t.kind.StartsStatement := by
    rcases statementPieces_cases style e with hp | ⟨function, arg, args, offset, rfl, hp⟩
    · obtain ⟨kind, text, ps, hfirst, hk, -⟩ := pieces_first style.words h
      rw [hp, hfirst]
      exact ⟨_, _, rfl, hk.statement⟩
    · rw [hp]
      exact ⟨_, _, rfl, startsStatement_ident _⟩
  refine ⟨.expr e', pos', fuel + 2, by simp [Stmt.erase, he], by omega, ?_⟩
  rw [List.singleton_append, ht]
  rw [hfirst] at hs ⊢
  exact block_of_statement_newline hk hnl hs rfl

theorem stmtReads_assign {target : String} (hn : isPlainName target) (op : AssignOp) {e : Expr}
    (h : e.isPrintable) (offset : Nat) : StmtReads (.assign target op e offset) := by
  intro style depth fuel pos done ls _ hf
  have hcount : Piece.count (op.piece :: .blank :: e.pieces style.words) =
      Piece.count (e.pieces style.words) + 1 := by cases op <;> rfl
  simp only [Stmt.lines, List.nil_append, weight_cons, weight_nil, Piece.name, Piece.count_word,
    Piece.count_blank, hcount] at hf ⊢
  obtain ⟨nl, pos', hnl, ht⟩ := tokens_cons pos depth
    (.name target :: .blank :: op.piece :: .blank :: e.pieces style.words) ls
  obtain ⟨fuel, rfl⟩ : ∃ n, fuel = n + 3 := ⟨fuel - 3, by omega⟩
  obtain ⟨e', he, hs⟩ := statement_assign style.words hn op h (fuel + 1) (by omega) (pos + depth) hnl
    (tokens pos' depth ls)
  refine ⟨.assign target op e' (pos + depth), pos', fuel + 2, by simp [Stmt.erase, he], by omega, ?_⟩
  exact (congrArg _ ht).trans (block_of_statement_newline (startsStatement_ident _) hnl hs rfl)

theorem stmtReads_loop {count : Expr} (hc : count.isPrintable) {stmts : List Stmt}
    (hp : printableBlock stmts) (h : BlockReads stmts) : StmtReads (.loop count stmts) := by
  intro style depth fuel pos done ls hls hf
  simp only [Stmt.lines, List.nil_append, weight_cons, headerPieces, Piece.name, Piece.arrow,
    Piece.count_word, Piece.count_blank, Piece.count_append, Piece.count_nil] at hf ⊢
  obtain ⟨nl, pos₁, hnl, ht⟩ := tokens_cons pos depth (headerPieces style "repeat" count)
    (blockLines style.left (depth + 1) [] stmts ++ ls)
  obtain ⟨fuel, rfl⟩ : ∃ n, fuel = n + 2 := ⟨fuel - 2, by omega⟩
  obtain ⟨count', stmts', pos₂, hce, hbe, hs⟩ := statement_loop hc hp h style.left hls fuel
    (by simp only [Style.left]; simp only [Style.left] at hf; omega) (pos + depth) pos₁ hnl
  refine ⟨.loop count' stmts', pos₂, fuel + 1, by simp [Stmt.erase, hce, hbe], by omega, ?_⟩
  exact (congrArg _ ht).trans (block_of_statement (startsStatement_ident _) hs rfl)

theorem stmtReads_branch {c : Expr} (hc : c.isPrintable) {t : List Stmt} (hp : printableBlock t)
    (ht : BlockReads t) {e : Option (List Stmt)} (hep : printableElse e) (he : ElseReads e) :
    StmtReads (.branch c t e) := by
  intro style depth fuel pos done ls hls hf
  simp only [Stmt.lines, List.nil_append, weight_cons, weight_append, headerPieces, Piece.name,
    Piece.arrow, Piece.count_word, Piece.count_blank, Piece.count_append, Piece.count_nil] at hf ⊢
  obtain ⟨nl, pos₁, hnl, htokens⟩ := tokens_cons pos depth (headerPieces style "if" c)
    (blockLines style.left (depth + 1) [] t ++ (elseLines style.right depth e ++ ls))
  obtain ⟨fuel, rfl⟩ : ∃ n, fuel = n + 2 := ⟨fuel - 2, by omega⟩
  obtain ⟨fuel, rfl⟩ : ∃ n, fuel = n + 1 := ⟨fuel - 1, by omega⟩
  obtain ⟨c', t', pos₂, hce, hte, hs⟩ := conditional_lines hc hp ht style.left
    (shallow_elseLines hep hls) fuel (by simp only [Style.left] at hf ⊢; omega)
    (pos + depth + Text.byteLength "if".toList + 1) pos₁ hnl
  obtain ⟨e', pos₃, fuel', hee, hfuel, hb⟩ := he style.right depth (fuel + 2) pos₂ (.branch c' t') done
    ls (openChain_branch c' t') hls (by omega)
  refine ⟨.branch c' t' e', pos₃, fuel', by simp [Stmt.erase, hce, hte, hee], by omega, ?_⟩
  rw [List.cons_append, List.append_assoc, ← hb]
  exact (congrArg _ htokens).trans
    (block_of_statement (startsStatement_ident _) (statement_of_if rfl hs) rfl)

/-- A conditional behind an `else` makes the chain longer. -/
theorem elseIfReads {c : Expr} (hc : c.isPrintable) {t : List Stmt} (hp : printableBlock t)
    (ht : BlockReads t) {e : Option (List Stmt)} (hep : printableElse e) (he : ElseReads e) :
    ElseIfReads (.branch c t e) := by
  intro style depth fuel pos f done ls hchain hls hf
  simp only [Stmt.lines, List.cons_append, List.nil_append, weight_cons, weight_append, headerPieces,
    Piece.name, Piece.arrow, Piece.count_word, Piece.count_blank, Piece.count_append,
    Piece.count_nil] at hf ⊢
  obtain ⟨nl, pos₁, hnl, htokens⟩ := tokens_cons pos depth
    ([.name "else", .blank] ++ headerPieces style "if" c)
    (blockLines style.left (depth + 1) [] t ++ (elseLines style.right depth e ++ ls))
  obtain ⟨fuel, rfl⟩ : ∃ n, fuel = n + 3 := ⟨fuel - 3, by omega⟩
  let start := pos + depth + Text.byteLength "else".toList + 1
  obtain ⟨c', t', pos₂, hce, hte, hs⟩ := conditional_lines hc hp ht style.left
    (shallow_elseLines hep hls) fuel (by simp only [Style.left] at hf ⊢; omega)
    (start + Text.byteLength "if".toList + 1) pos₁ hnl
  obtain ⟨e', pos₃, fuel', hee, hfuel, hb⟩ := he style.right depth (fuel + 2) pos₂ _ done
    ls (hchain.elseIf c' t') hls (by omega)
  refine ⟨.branch c' t' e', pos₃, fuel', by simp [Stmt.erase, hce, hte, hee], by omega, ?_⟩
  have hattach : attach (f none :: done) (.otherwise (some c') t' (pos + depth)) =
      .ok (f (some [.branch c' t' none]) :: done) := by
    simp only [attach, elseTail, hchain.close]
  rw [List.append_assoc, ← hb]
  exact (congrArg _ htokens).trans
    (block_of_statement (startsStatement_ident _) (statement_of_elseIf rfl rfl hs) hattach)

/-- An `else` with a body of its own. -/
theorem block_else {stmts : List Stmt} (hp : printableBlock stmts) (h : BlockReads stmts) (style : Style)
    {depth : Nat} (fuel pos : Nat) {f : Option (List Stmt) → Stmt} (done : List Stmt) {ls : List Line}
    (hchain : OpenChain f) (hls : Shallow depth ls)
    (hf : 16 * (weight (blockLines style (depth + 1) [] stmts) + 2) < fuel) :
    ∃ stmts' pos' fuel', eraseBlock stmts' = eraseBlock stmts ∧ fuel ≤ fuel' + 16 ∧
      block fuel (f none :: done)
          (tokens pos depth (⟨depth, [.name "else"]⟩ :: (blockLines style (depth + 1) [] stmts ++ ls))) =
        block fuel' (f (some stmts') :: done) (tokens pos' depth ls) := by
  obtain ⟨nl, pos₁, hnl, htokens⟩ := tokens_cons pos depth [.name "else"]
    (blockLines style (depth + 1) [] stmts ++ ls)
  obtain ⟨fuel, rfl⟩ : ∃ n, fuel = n + 2 := ⟨fuel - 2, by omega⟩
  obtain ⟨fuel, rfl⟩ : ∃ n, fuel = n + 1 := ⟨fuel - 1, by omega⟩
  obtain ⟨stmts', pos₂, he, hb⟩ := body_blockLines hp h style hls fuel (by omega) pos₁ hnl
  have hattach : attach (f none :: done) (.otherwise none stmts' (pos + depth)) =
      .ok (f (some stmts') :: done) := by
    simp only [attach, elseTail, hchain.close]
  refine ⟨stmts', pos₂, fuel + 2, he, by omega, ?_⟩
  exact (congrArg _ htokens).trans
    (block_of_statement (startsStatement_ident _) (statement_of_else rfl hnl hb) hattach)

theorem elseReads_some {stmts : List Stmt} (hp : printableBlock stmts) (h : BlockReads stmts)
    (hlone : ∀ s, stmts = [s] → isLoneBranch [s] → ElseIfReads s) : ElseReads (some stmts) := by
  intro style depth fuel pos f done ls hchain hls hf
  cases hone : style.here && isLoneBranch stmts with
  | true =>
    simp only [Bool.and_eq_true] at hone
    obtain ⟨s, rfl⟩ : ∃ s, stmts = [s] := by
      unfold isLoneBranch at hone
      split at hone
      · exact ⟨_, rfl⟩
      · exact absurd hone.2 Bool.false_ne_true
    simp only [elseLines, hone, Bool.and_self, if_true, blockLines, List.append_nil] at hf ⊢
    obtain ⟨s', pos', fuel', he, hfuel, hb⟩ := hlone s rfl hone.2 style.left.left depth fuel pos f done ls
      hchain hls hf
    exact ⟨some [s'], pos', fuel', by simp [eraseElse, eraseBlock, he], hfuel, hb⟩
  | false =>
    simp only [elseLines, hone, Bool.false_eq_true, if_false, weight_cons, Piece.name, Piece.count_word,
      Piece.count_nil] at hf ⊢
    obtain ⟨stmts', pos', fuel', he, hfuel, hb⟩ := block_else hp h style.left fuel pos done hchain hls
      (by omega)
    exact ⟨some stmts', pos', fuel', by simp [eraseElse, he], by omega, hb⟩

mutual

theorem reads_stmt : ∀ {s : Stmt}, s.isPrintable → StmtReads s
  | .expr e, h => by
    simp only [Stmt.isPrintable, Bool.and_eq_true, Bool.not_eq_true'] at h
    exact stmtReads_expr h.1 h.2
  | .assign _ op e offset, h => by
    simp only [Stmt.isPrintable, Bool.and_eq_true] at h
    exact stmtReads_assign h.1 op h.2 offset
  | .loop _ stmts, h => by
    simp only [Stmt.isPrintable, Bool.and_eq_true] at h
    exact stmtReads_loop h.1 h.2 (reads_block h.2)
  | .branch _ t e, h => by
    simp only [Stmt.isPrintable, Bool.and_eq_true] at h
    exact stmtReads_branch h.1.1 h.1.2 (reads_block h.1.2) h.2 (reads_else h.2)

theorem reads_elseIf : ∀ {s : Stmt}, s.isPrintable → isLoneBranch [s] → ElseIfReads s
  | .branch _ t e, h, _ => by
    simp only [Stmt.isPrintable, Bool.and_eq_true] at h
    exact elseIfReads h.1.1 h.1.2 (reads_block h.1.2) h.2 (reads_else h.2)

theorem reads_block : ∀ {stmts : List Stmt}, printableBlock stmts → BlockReads stmts
  | [], _ => fun _ _ fuel pos _ _ _ _ => ⟨[], pos, fuel, rfl, by simp, rfl⟩
  | s :: rest, h => by
    intro style depth fuel pos done ls hls hf
    simp only [printableBlock, Bool.and_eq_true] at h
    simp only [blockLines, weight_append] at hf ⊢
    obtain ⟨s', pos₁, fuel₁, hs, hf₁, hb₁⟩ := reads_stmt h.1 style.left depth fuel pos done
      (blockLines style.right depth [] rest ++ ls) (shallow_blockLines h.2 hls) (by omega)
    obtain ⟨rest', pos₂, fuel₂, hr, hf₂, hb₂⟩ := reads_block h.2 style.right depth fuel₁ pos₁ (s' :: done)
      ls hls (by omega)
    refine ⟨s' :: rest', pos₂, fuel₂, by rw [eraseBlock, hs, hr]; rfl, by omega, ?_⟩
    rw [List.append_assoc, hb₁, hb₂, List.reverse_cons, List.append_assoc]
    rfl

theorem reads_else : ∀ {e : Option (List Stmt)}, printableElse e → ElseReads e
  | none, _ => fun _ _ fuel pos _ _ _ _ _ _ => ⟨none, pos, fuel, rfl, by simp, rfl⟩
  | some [], h => elseReads_some h (reads_block h) (by simp)
  | some (s :: rest), h => by
    refine elseReads_some h (reads_block h) fun s' heq hl => ?_
    obtain ⟨rfl, -⟩ := List.cons.inj heq
    simp only [printableElse, printableBlock, Bool.and_eq_true] at h
    exact reads_elseIf h.1 hl

end

/-! ## Whole scripts -/

/-- The parser undoes the printer. A script of names, of finite numbers without a sign (which negative zero
is not) and without statements that are the bare name of something callable is read from its printed form
as the same tree, up to the places in it. -/
theorem parse_print (style : Style) {stmts : List Stmt} (h : printableBlock stmts)
    (hn : ∀ x ∈ numbersInBlock stmts, ReadsBack x) :
    ∃ stmts', parse (print style stmts) = .ok stmts' ∧ eraseBlock stmts' = eraseBlock stmts := by
  have hweight := weight_le_length_tokens 0 0 (blockLines style 0 [] stmts)
  obtain ⟨stmts', pos, fuel, he, hfuel, hb⟩ := reads_block h style 0
    (16 * ((tokens 0 0 (blockLines style 0 [] stmts)).length + 1)) 0 [] [] (shallow_nil 0) (by omega)
  obtain ⟨fuel, rfl⟩ : ∃ n, fuel = n + 1 := ⟨fuel - 1, by omega⟩
  refine ⟨stmts', ?_, he⟩
  rw [List.append_nil, List.append_nil] at hb
  rw [parse, lex_print h hn, ok_bind, Parser.program, hb]
  simp [tokens, block, peekKind, peek]
  rfl

/-- A loop around a conditional with two chained `else` parts. -/
def chainedElse : List Stmt :=
  [.loop (.literal (.number 3))
    [.branch (.binary .lt (.ident "time" 0) (.binary .sub (.literal (.number 2.5)) (.ident "x" 0)))
      [.expr (.call "box" [.unary .neg (.literal (.number 1)), .literal (.string "a\"b")] 0)]
      (some [.branch (.binary .and (.ident "x" 0) (.ident "y" 0))
        [.assign "x" .add (.binary .mul (.binary .add (.ident "x" 0) (.ident "y" 0)) (.ident "z" 0)) 0]
        (some [.expr (.literal (.bool true))])])]]

theorem parse_print_chainedElse :
    printableBlock chainedElse = true ∧ (∀ x ∈ numbersInBlock chainedElse, ReadsBack x) ∧
      ∃ stmts', parse (print ⟨true, fun _ => true⟩ chainedElse) = .ok stmts' ∧
        eraseBlock stmts' = eraseBlock chainedElse := by
  have hp : printableBlock chainedElse = true := by decide
  have hn : ∀ x ∈ numbersInBlock chainedElse, ReadsBack x := by
    intro x hx
    have hnumbers : numbersInBlock chainedElse = [3, 2.5, 1] := rfl
    rw [hnumbers] at hx
    simp only [List.mem_cons, List.not_mem_nil, or_false] at hx
    rcases hx with rfl | rfl | rfl <;> rfl
  exact ⟨hp, hn, parse_print _ hp hn⟩

end LiveSketch.Script

import LiveSketch.Proofs.Script.Lexing
import LiveSketch.Proofs.Text.Bytes
import LiveSketch.Proofs.Text.Lines

/-!
# Printed scripts fall into their tokens

`lex_print`: the tokens of a printed script are those of its pieces, with the indentation of its lines
between them (`tokens`). Each printed line is read by itself (`Line.Readable`), and its depth differs from
that of the line before in a way that the stack of open blocks follows (`Stepped`).
-/
namespace LiveSketch.Script

open Lexer

/-! ## Lines -/

/-- The characters make up the end of a line: they hold no newline, and a carriage return behind them
would not be their last one. -/
structure Tidy (cs : List Char) : Prop where
  newline : '\n' ∉ cs
  last : ∃ c ∈ cs.getLast?, c ≠ '\r'

theorem Tidy.append {as bs : List Char} (ha : '\n' ∉ as) (hb : Tidy bs) : Tidy (as ++ bs) where
  newline h := (List.mem_append.1 h).elim ha hb.newline
  last := by
    obtain ⟨c, hc, hne⟩ := hb.last
    exact ⟨c, by simp [List.getLast?_append, Option.mem_def.1 hc], hne⟩

/-- A printed line that the lexer can take apart. -/
structure Line.Readable (l : Line) : Prop where
  reads : Reads false l.pieces
  first : ∃ kind text ps, l.pieces = .word kind text :: ps
  tidy : Tidy (Piece.render l.pieces)

/-- No line is more than one level deeper than the line before it. -/
def Stepped : (depth : Nat) → List Line → Prop
  | _, [] => True
  | depth, l :: ls => l.depth ≤ depth + 1 ∧ Stepped l.depth ls

/-- The tokens of printed lines from the byte `pos` on, behind a line of this depth. -/
def tokens : (pos depth : Nat) → List Line → List Token
  | pos, depth, [] =>
    List.replicate depth ⟨.dedent, pos - 1, pos - 1⟩ ++ [⟨.eof, pos - 1, pos - 1⟩]
  | pos, depth, l :: ls =>
    let start := pos + l.depth
    let stop := start + Text.byteLength (Piece.render l.pieces)
    (if depth < l.depth then [⟨.indent, start, start⟩]
      else List.replicate (depth - l.depth) ⟨.dedent, start, start⟩) ++
      (Piece.place start l.pieces ++ ⟨.newline, stop, stop⟩ :: tokens (stop + 1) l.depth ls)

/-- The open levels at a depth, the innermost first. -/
def openLevels : Nat → List Nat
  | 0 => []
  | depth + 1 => (depth + 1) :: openLevels depth

theorem length_openLevels (depth : Nat) : (openLevels depth).length = depth := by
  induction depth with
  | zero => rfl
  | succ depth ih => simp [openLevels, ih]

theorem closeLevels_openLevels {width depth : Nat} (h : width ≤ depth) :
    closeLevels width (openLevels depth) = some (openLevels width, depth - width) := by
  induction depth with
  | zero =>
    obtain rfl : width = 0 := by omega
    rfl
  | succ depth ih =>
    rw [openLevels, closeLevels]
    split
    · rw [ih (by omega)]
      simp only [Option.map_some, Option.some.injEq, Prod.mk.injEq, true_and]
      omega
    · obtain rfl : width = depth + 1 := by omega
      simp [openLevels]

theorem indentation_openLevels {width pos depth : Nat} (h : width ≤ depth + 1) :
    indentation width pos (openLevels depth) =
      .ok (if depth < width then [⟨.indent, pos, pos⟩]
        else List.replicate (depth - width) ⟨.dedent, pos, pos⟩, openLevels width) := by
  have hhead : (openLevels depth).headD 0 = depth := by cases depth <;> rfl
  rw [indentation, hhead]
  split
  · obtain rfl : width = depth + 1 := by omega
    rfl
  · rw [closeLevels_openLevels (by omega)]

theorem byteLength_tabs (n : Nat) : Text.byteLength (List.replicate n '\t') = n := by
  induction n with
  | zero => rfl
  | succ n ih =>
    have : Char.utf8Size '\t' = 1 := rfl
    simp [List.replicate_succ, Text.byteLength, ih, this, Nat.add_comm]

/-- What stands on a printed line begins neither with a blank nor with a comment. -/
theorem Line.Readable.front {l : Line} (h : l.Readable) :
    ∃ c cs, Piece.render l.pieces = c :: cs ∧ isIndent c = false ∧
      startsComment (Piece.render l.pieces) = false := by
  obtain ⟨kind, text, ps, hp⟩ := h.first
  have hr := h.reads
  rw [hp] at hr
  obtain ⟨⟨c, cs, ht, hi, hs, -⟩, -⟩ := hr
  refine ⟨c, cs ++ Piece.render ps, ?_, hi, ?_⟩
  · rw [hp, Piece.render_word, ht]
    rfl
  · rwa [hp, Piece.render_word, ht]

theorem Line.Readable.tidy_render {l : Line} (h : l.Readable) : Tidy l.render := by
  refine Tidy.append (fun hm => ?_) h.tidy
  exact absurd (List.eq_of_mem_replicate hm) (by decide)

theorem dropReturn_of_tidy {cs : List Char} (h : Tidy cs) : dropReturn cs = cs := by
  obtain ⟨c, hc, hne⟩ := h.last
  simp [dropReturn, Option.mem_def.1 hc, hne]

/-- The lexer finds the tokens of printed lines. -/
theorem lexLines_render {ls : List Line} {pos depth : Nat} (h : ∀ l ∈ ls, l.Readable)
    (hd : Stepped depth ls) :
    lexLines pos (openLevels depth) (ls.map Line.render) = .ok (tokens pos depth ls) := by
  induction ls generalizing pos depth with
  | nil => simp [lexLines, tokens, length_openLevels]
  | cons l ls ih =>
    have hl := h l List.mem_cons_self
    obtain ⟨hdepth, hd⟩ := hd
    obtain ⟨c, cs, hr, hi, hs⟩ := hl.front
    have htabs : ∀ t ∈ List.replicate l.depth '\t', isIndent t := fun t ht => by
      rw [List.eq_of_mem_replicate ht]
      rfl
    have hhead : ∀ t ∈ (Piece.render l.pieces).head?, isIndent t = false := by
      rw [hr]
      simpa using hi
    have htake := Text.takeWhile_append htabs hhead
    have hdrop := Text.dropWhile_append htabs hhead
    have hempty : (Piece.render l.pieces).isEmpty = false := by simp [hr]
    have hline := fun pos => @scanLine_render _ _ pos _ hl.reads (Nat.le_refl _)
    have hrest := @ih (pos + l.depth + Text.byteLength (Piece.render l.pieces) + 1) l.depth
      (fun l' hl' => h l' (List.mem_cons_of_mem _ hl')) hd
    rw [List.map_cons, lexLines, dropReturn_of_tidy hl.tidy_render]
    simp only [Line.render, htake, hdrop, hempty, hs, Bool.or_self, Bool.false_eq_true, if_false,
      List.length_replicate, indentation_openLevels hdepth, hline, ok_bind, Text.byteLength_append,
      byteLength_tabs, ← Nat.add_assoc, hrest]
    simp [tokens, pure, Except.pure]

/-! ## Lines of a script -/

/-- Characters of a kind that holds neither newlines nor carriage returns. -/
theorem tidy_of_all {cs : List Char} {p : Char → Bool} (hne : cs ≠ []) (h : cs.all p)
    (hn : p '\n' = false) (hr : p '\r' = false) : Tidy cs := by
  rw [List.all_eq_true] at h
  have hnot : ∀ c, p c = false → c ∉ cs := by
    intro c hc hm
    rw [h c hm] at hc
    cases hc
  refine ⟨hnot _ hn, cs.getLast hne, List.getLast?_eq_some_getLast hne, ?_⟩
  rintro e
  exact hnot _ hr (e ▸ List.getLast_mem hne)

theorem tidy_char {c : Char} (hn : c ≠ '\n') (hr : c ≠ '\r') : Tidy [c] :=
  ⟨by simpa using hn.symm, c, rfl, hr⟩

theorem tidy_word {name : String} (h : IsWord name) : Tidy name.toList := by
  obtain ⟨c, cs, hn, hc, hcs⟩ := h
  refine tidy_of_all (p := isNamePart) (by simp [hn]) ?_ rfl rfl
  rw [hn, List.all_cons, isNamePart_of_isNameStart hc, hcs]
  rfl

theorem tidy_numeral {text whole tail : List Char} (h : Number.IsNumeral text whole tail) :
    Tidy text := by
  refine tidy_of_all (p := fun c => c.isDigit || c == '.') ?_ ?_ rfl rfl
  · obtain ⟨c, cs, ht, -⟩ := h.first
    simp [ht]
  · have hdigits : ∀ ds : List Char, (∀ c ∈ ds, c.isDigit) → ds.all fun c => c.isDigit || c == '.' := by
      intro ds hds
      rw [List.all_eq_true]
      exact fun c hc => Bool.or_eq_true_iff.2 (.inl (hds c hc))
    rw [h.text_eq, List.all_append, hdigits whole h.whole_digits, Bool.true_and]
    rcases h.tail_digits with rfl | ⟨fraction, rfl, hf⟩
    · rfl
    · exact hdigits fraction hf

theorem newline_notMem_escape (cs : List Char) : '\n' ∉ escape cs := by
  induction cs with
  | nil => simp [escape]
  | cons c cs ih =>
    rw [escape, List.mem_append]
    refine fun h => h.elim (fun h => ?_) ih
    split at h
    · simp at h
    split at h
    · simp at h
    split at h
    · rename_i e
      rcases e with rfl | rfl <;> simp at h
    · rename_i e _ _
      simp at h
      exact e h.symm

theorem tidy_piece {v : Literal} (h : v.isPrintable) : Tidy v.piece.chars := by
  cases v with
  | number x =>
    simp only [Literal.isPrintable, Option.any_eq_true, Bool.not_eq_true'] at h
    obtain ⟨b, hb, hs⟩ := h
    obtain ⟨whole, tail, hnum⟩ := Number.plain_isNumeral hb hs
    exact tidy_numeral hnum
  | bool b =>
    cases b
    · exact tidy_word (isWord_keywords "false" (by decide))
    · exact tidy_word (isWord_keywords "true" (by decide))
  | string s =>
    have hq : Tidy ['"'] := tidy_char (by decide) (by decide)
    have ht : Tidy ('"' :: escape s.toList ++ ['"']) :=
      .append (by simp [newline_notMem_escape]) hq
    exact ht

theorem tidy_enclose {condition : Bool} {ps : List Piece} (h : Tidy (Piece.render ps)) :
    Tidy (Piece.render (enclose condition ps)) := by
  rcases enclose_cases condition ps with ⟨-, he⟩ | ⟨-, he⟩
  · rwa [he]
  · rw [he]
    have hp : Tidy ('(' :: Piece.render ps ++ [')']) :=
      .append (by simp [h.newline]) (tidy_char (by decide) (by decide))
    simpa [Piece.leftParen, Piece.rightParen] using hp

theorem newline_notMem_operator (op : BinaryOp) (words : Bool) : '\n' ∉ (op.piece words).chars := by
  cases op <;> cases words <;> decide

mutual

theorem tidy_pieces {words : Bool} : ∀ {e : Expr}, e.isPrintable → Tidy (Piece.render (e.pieces words))
  | .literal v, h => by simpa [Expr.pieces, Piece.render] using tidy_piece h
  | .ident _ _, h => by
    simpa [Expr.pieces, Piece.render, Piece.name, Piece.chars] using tidy_word (isWord_of_isPlainName h).1
  | .unary op arg, h => by
    have harg : Tidy (Piece.render (enclose (0 < arg.rank) (arg.pieces words))) :=
      tidy_enclose (tidy_pieces h)
    have hop : '\n' ∉ op.piece.chars := by cases op <;> decide
    simpa [Expr.pieces, Piece.render] using Tidy.append hop harg
  | .binary op left right, h => by
    simp only [Expr.isPrintable, Bool.and_eq_true] at h
    have hleft : Tidy (Piece.render (enclose (op.level + 1 < left.rank) (left.pieces words))) :=
      tidy_enclose (tidy_pieces h.1)
    have hright : Tidy (Piece.render (enclose (op.level < right.rank) (right.pieces words))) :=
      tidy_enclose (tidy_pieces h.2)
    have hop : '\n' ∉ ' ' :: (op.piece words).chars ++ [' '] := by
      simp [newline_notMem_operator op words]
    simpa [Expr.pieces, Piece.render, Piece.chars] using Tidy.append hleft.newline (Tidy.append hop hright)
  | .call function args _, h => by
    simp only [Expr.isPrintable, Bool.and_eq_true] at h
    have hname := (tidy_word (isWord_of_isPlainName h.1).1).newline
    have hargs := newline_notMem_argPieces words h.2
    have hend : Tidy [')'] := tidy_char (by decide) (by decide)
    have hp : Tidy (function.toList ++ '(' :: Piece.render (argPieces words args) ++ [')']) :=
      .append (by simp [hname, hargs]) hend
    simpa [Expr.pieces, Piece.name, Piece.leftParen, Piece.rightParen] using hp

theorem newline_notMem_argPieces (words : Bool) : ∀ {es : List Expr}, printableArgs es →
    '\n' ∉ Piece.render (argPieces words es)
  | [], _ => by simp [argPieces]
  | e :: es, h => by
    simp only [printableArgs, Bool.and_eq_true] at h
    have he : '\n' ∉ Piece.render (e.pieces words) := (tidy_pieces h.1).newline
    have hes := newline_notMem_argPieces words h.2
    rw [argPieces, Piece.render_append, List.mem_append]
    refine fun hm => hm.elim he fun hm => ?_
    split at hm
    · simp at hm
    · simp [Piece.comma, hes] at hm

end

theorem tidy_argPieces {words : Bool} {es : List Expr} (hne : es ≠ []) (h : printableArgs es) :
    Tidy (Piece.render (argPieces words es)) := by
  induction es with
  | nil => exact absurd rfl hne
  | cons e es ih =>
    simp only [printableArgs, Bool.and_eq_true] at h
    have he : Tidy (Piece.render (e.pieces words)) := tidy_pieces h.1
    rw [argPieces]
    split
    · simpa using he
    · rename_i hes
      have hrest := ih (by simpa using hes) h.2
      have hp : Tidy (Piece.render (e.pieces words) ++ [',', ' '] ++ Piece.render (argPieces words es)) :=
        .append (by simp [he.newline]) hrest
      simpa [Piece.comma] using hp

section

variable {style : Style} {depth : Nat}

theorem readable_pieces {e : Expr} (h : e.isPrintable) (hn : ∀ x ∈ e.numbers, ReadsBack x) :
    (⟨depth, e.pieces style.words⟩ : Line).Readable where
  reads := by
    have hr : Reads false (e.pieces style.words ++ []) := reads_pieces h hn follows_nil
    rwa [List.append_nil] at hr
  first := by
    obtain ⟨kind, text, ps, hp, -⟩ := pieces_first style.words h
    exact ⟨kind, text, ps, hp⟩
  tidy := tidy_pieces h

/-- A word and a blank in front of something readable. -/
theorem readable_word {word : String} (hw : IsWord word) {ps : List Piece} (hr : Reads false ps)
    (ht : Tidy (Piece.render ps)) : (⟨depth, .name word :: .blank :: ps⟩ : Line).Readable where
  reads := reads_name hw (follows_blank hr)
  first := ⟨_, _, _, rfl⟩
  tidy := by
    have hp : Tidy (word.toList ++ [' '] ++ Piece.render ps) :=
      .append (by simp [(tidy_word hw).newline]) ht
    simpa [Piece.name] using hp

/-- A statement is printed like any other expression, but for a call without parentheses. -/
theorem statementPieces_cases (style : Style) (e : Expr) :
    statementPieces style e = e.pieces style.words ∨
      ∃ function arg args offset, e = .call function (arg :: args) offset ∧
        statementPieces style e = .name function :: .blank :: argPieces style.words (arg :: args) := by
  unfold statementPieces
  split
  · rename_i function arg args offset
    split
    · exact .inr ⟨function, arg, args, offset, rfl, rfl⟩
    · exact .inl rfl
  · exact .inl rfl

theorem readable_statement {e : Expr} (h : e.isPrintable) (hn : ∀ x ∈ e.numbers, ReadsBack x) :
    (⟨depth, statementPieces style e⟩ : Line).Readable := by
  rcases statementPieces_cases style e with hp | ⟨function, arg, args, offset, rfl, hp⟩
  · rw [hp]
    exact readable_pieces h hn
  · rw [hp]
    simp only [Expr.isPrintable, Bool.and_eq_true] at h
    have hargs : Reads false (argPieces style.words (arg :: args) ++ []) :=
      reads_argPieces h.2 hn follows_nil
    rw [List.append_nil] at hargs
    exact readable_word (isWord_of_isPlainName h.1).1 hargs (tidy_argPieces (by simp) h.2)

theorem readable_assign {target : String} (ht' : isPlainName target) (op : AssignOp) {e : Expr}
    (h : e.isPrintable) (hn : ∀ x ∈ e.numbers, ReadsBack x) :
    (⟨depth, .name target :: .blank :: op.piece :: .blank :: e.pieces style.words⟩ : Line).Readable := by
  have he : Reads false (e.pieces style.words ++ []) := reads_pieces h hn follows_nil
  rw [List.append_nil] at he
  have hop : '\n' ∉ op.piece.chars := by cases op <;> decide
  have ht : Tidy (op.piece.chars ++ [' '] ++ Piece.render (e.pieces style.words)) :=
    .append (by simp [hop]) (tidy_pieces h)
  exact readable_word (isWord_of_isPlainName ht').1 (reads_assign op he)
    (by simpa [Piece.render, Piece.chars] using ht)

theorem readable_header {word : String} (hw : IsWord word) {e : Expr}
    (h : e.isPrintable) (hn : ∀ x ∈ e.numbers, ReadsBack x) :
    (⟨depth, headerPieces style word e⟩ : Line).Readable := by
  have harrow : Follows [.blank, .arrow] := follows_blank ⟨scans_pair rfl [], trivial⟩
  have ht : Tidy (Piece.render (e.pieces style.words) ++ [' ', '-'] ++ ['>']) :=
    .append (by simp [(tidy_pieces h).newline]) (tidy_char (by decide) (by decide))
  exact readable_word hw (reads_pieces h hn harrow) (by simpa [Piece.arrow] using ht)

/-- A text that may stand in front of the first line of something. -/
def IsLead (lead : List Piece) : Prop := lead = [] ∨ lead = [.name "else", .blank]

theorem readable_lead {lead ps : List Piece} (hl : IsLead lead)
    (h : (⟨depth, ps⟩ : Line).Readable) : (⟨depth, lead ++ ps⟩ : Line).Readable := by
  rcases hl with rfl | rfl
  · exact h
  · exact readable_word (isWord_keywords _ (by decide)) h.reads h.tidy

end

mutual

/-- The lines of a statement are readable. -/
theorem readable_lines {style : Style} {depth : Nat} {lead : List Piece} (hl : IsLead lead) :
    ∀ {s : Stmt}, s.isPrintable → (∀ x ∈ s.numbers, ReadsBack x) →
      ∀ l ∈ s.lines style depth lead, l.Readable
  | .expr e, h, hn, l, hm => by
    simp only [Stmt.isPrintable, Bool.and_eq_true] at h
    obtain rfl := List.mem_singleton.1 hm
    exact readable_lead hl (readable_statement h.1 hn)
  | .assign _ op value _, h, hn, l, hm => by
    simp only [Stmt.isPrintable, Bool.and_eq_true] at h
    obtain rfl := List.mem_singleton.1 hm
    exact readable_lead hl (readable_assign h.1 op h.2 hn)
  | .loop count body, h, hn, l, hm => by
    simp only [Stmt.isPrintable, Bool.and_eq_true] at h
    simp only [Stmt.numbers, List.mem_append] at hn
    rcases List.mem_cons.1 hm with rfl | hm
    · exact readable_lead hl
        (readable_header (isWord_keywords _ (by decide)) h.1 fun x hx => hn x (.inl hx))
    · exact readable_blockLines (.inl rfl) h.2 (fun x hx => hn x (.inr hx)) l hm
  | .branch condition thenBody elseBody, h, hn, l, hm => by
    simp only [Stmt.isPrintable, Bool.and_eq_true] at h
    simp only [Stmt.numbers, List.mem_append] at hn
    rcases List.mem_cons.1 hm with rfl | hm
    · exact readable_lead hl (readable_header (isWord_keywords _ (by decide)) h.1.1
        fun x hx => hn x (.inl (.inl hx)))
    rcases List.mem_append.1 hm with hm | hm
    · exact readable_blockLines (.inl rfl) h.1.2 (fun x hx => hn x (.inl (.inr hx))) l hm
    · exact readable_elseLines h.2 (fun x hx => hn x (.inr hx)) l hm

theorem readable_blockLines {style : Style} {depth : Nat} {lead : List Piece} (hl : IsLead lead) :
    ∀ {stmts : List Stmt}, printableBlock stmts → (∀ x ∈ numbersInBlock stmts, ReadsBack x) →
      ∀ l ∈ blockLines style depth lead stmts, l.Readable
  | [], _, _, l, hm => nomatch hm
  | s :: rest, h, hn, l, hm => by
    simp only [printableBlock, Bool.and_eq_true] at h
    simp only [numbersInBlock, List.mem_append] at hn
    rcases List.mem_append.1 hm with hm | hm
    · exact readable_lines hl h.1 (fun x hx => hn x (.inl hx)) l hm
    · exact readable_blockLines (.inl rfl) h.2 (fun x hx => hn x (.inr hx)) l hm

theorem readable_elseLines {style : Style} {depth : Nat} :
    ∀ {stmts : Option (List Stmt)}, printableElse stmts → (∀ x ∈ numbersInElse stmts, ReadsBack x) →
      ∀ l ∈ elseLines style depth stmts, l.Readable
  | none, _, _, l, hm => nomatch hm
  | some body, h, hn, l, hm => by
    rw [elseLines] at hm
    split at hm
    · exact readable_blockLines (.inr rfl) h hn l hm
    rcases List.mem_cons.1 hm with rfl | hm
    · exact ⟨reads_name (isWord_keywords _ (by decide)) follows_nil, ⟨_, _, _, rfl⟩,
        by simpa [Piece.name] using tidy_word (isWord_keywords "else" (by decide))⟩
    · exact readable_blockLines (.inl rfl) h hn l hm

end

mutual

/-- The lines of a statement, and what follows them, do not skip a level. -/
theorem stepped_lines {style : Style} {depth last : Nat} {lead : List Piece} {ls : List Line}
    (hd : depth ≤ last + 1) (h : ∀ last, depth ≤ last → Stepped last ls) :
    ∀ s : Stmt, Stepped last (s.lines style depth lead ++ ls)
  | .expr _ => ⟨hd, h depth (Nat.le_refl depth)⟩
  | .assign _ _ _ _ => ⟨hd, h depth (Nat.le_refl depth)⟩
  | .loop _ body =>
    ⟨hd, stepped_blockLines (Nat.le_refl _) (fun last hl => h last (Nat.le_of_succ_le hl)) body (h depth (Nat.le_refl depth))⟩
  | .branch _ thenBody elseBody => by
    have helse : ∀ last, depth ≤ last → Stepped last (elseLines style.right depth elseBody ++ ls) :=
      fun last hl => stepped_elseLines (by omega) h elseBody (h last hl)
    refine ⟨hd, ?_⟩
    change Stepped depth ((blockLines _ _ _ thenBody ++ elseLines _ _ elseBody) ++ ls)
    rw [List.append_assoc]
    exact stepped_blockLines (Nat.le_refl _) (fun last hl => helse last (by omega)) thenBody
      (helse depth (Nat.le_refl depth))

theorem stepped_blockLines {style : Style} {depth last : Nat} {lead : List Piece} {ls : List Line}
    (hd : depth ≤ last + 1) (h : ∀ last, depth ≤ last → Stepped last ls) :
    ∀ stmts : List Stmt, Stepped last ls → Stepped last (blockLines style depth lead stmts ++ ls)
  | [], hl => hl
  | s :: rest, _ => by
    rw [blockLines, List.append_assoc]
    refine stepped_lines hd (fun last hl => ?_) s
    exact stepped_blockLines (by omega) h rest (h last hl)

theorem stepped_elseLines {style : Style} {depth last : Nat} {ls : List Line}
    (hd : depth ≤ last + 1) (h : ∀ last, depth ≤ last → Stepped last ls) :
    ∀ stmts : Option (List Stmt), Stepped last ls → Stepped last (elseLines style depth stmts ++ ls)
  | none, hl => hl
  | some body, hl => by
    rw [elseLines]
    split
    · exact stepped_blockLines hd h body hl
    · exact ⟨hd, stepped_blockLines (Nat.le_refl _) (fun last hl => h last (Nat.le_of_succ_le hl)) body
        (h depth (Nat.le_refl depth))⟩

end

/-- A printed script falls into the tokens of its lines. -/
theorem lex_print {style : Style} {stmts : List Stmt} (h : printableBlock stmts)
    (hn : ∀ x ∈ numbersInBlock stmts, ReadsBack x) :
    lex (print style stmts) = .ok (tokens 0 0 (blockLines style 0 [] stmts)) := by
  have hr : ∀ l ∈ blockLines style 0 [] stmts, l.Readable := readable_blockLines (.inl rfl) h hn
  rw [lex, print]
  by_cases hl : blockLines style 0 [] stmts = []
  · rw [hl]
    rfl
  · have hlines : ∀ l ∈ (blockLines style 0 [] stmts).map Line.render, '\n' ∉ l := by
      intro l hm
      obtain ⟨printed, hp, rfl⟩ := List.mem_map.1 hm
      exact (hr printed hp).tidy_render.newline
    rw [Text.splitLines_joinLines (by simpa using hl) hlines]
    have hnil : ∀ last, Stepped last [] := fun _ => trivial
    have hd : Stepped 0 (blockLines style 0 [] stmts ++ []) :=
      stepped_blockLines (by omega) (fun last _ => hnil last) stmts (hnil 0)
    rw [List.append_nil] at hd
    exact lexLines_render hr hd

end LiveSketch.Script

import LiveSketch.Proofs.Script.Nesting
import LiveSketch.Proofs.Script.Spelling

/-!
# Parentheses, slashes and signs in programs

Whatever the parser reads, it closes each parenthesis that it opens, and it takes a slash or a sign only in front
of an operand (`Matched`). So among the tokens of a program parentheses are even in number, and operands follow
the slashes and the signs (`Parser.program_matched`). The induction is on the fuel, with a case for each function
of the parser.
-/
namespace LiveSketch.Script

open LiveSketch.Script.Parser

/-- What an operand may begin with. -/
def TokenKind.opensOperand : TokenKind → Bool
  | .number _ | .string _ | .ident _ | .leftParen | .minus | .plus | .bang => true
  | _ => false

/-- Operators that stand in front of an operand, in one way or another. -/
@[simp] def TokenKind.isOperator : TokenKind → Bool
  | .slash | .plus | .minus => true
  | _ => false

/-- Tokens that take neither a parenthesis nor an operand with them. -/
@[simp] def TokenKind.isPlain : TokenKind → Bool
  | .leftParen | .rightParen => false
  | kind => !kind.isOperator

/-- The parser may read from `ts` to `rest`: parentheses are closed, and operands stand behind operators. -/
inductive Matched : List Token → List Token → Prop where
  | refl (ts : List Token) : Matched ts ts
  | other {t : Token} {ts rest : List Token} : t.kind.isPlain → Matched ts rest → Matched (t :: ts) rest
  | operator {t : Token} {ts rest : List Token} : t.kind.isOperator → (peekKind ts).opensOperand →
      Matched ts rest → Matched (t :: ts) rest
  | pair {t u : Token} {ts us rest : List Token} : t.kind = .leftParen → Matched ts (u :: us) →
      u.kind = .rightParen → Matched us rest → Matched (t :: ts) rest

/-- How many parentheses of both kinds there are. -/
def parens (ts : List Token) : Nat := ts.countP fun t => t.kind = .leftParen ∨ t.kind = .rightParen

theorem parens_cons (t : Token) (ts : List Token) :
    parens (t :: ts) = parens ts + if t.kind = .leftParen ∨ t.kind = .rightParen then 1 else 0 := by
  simp [parens, List.countP_cons]

/-- Behind each of these operators an operand begins. -/
def OperandsFollow (ts : List Token) : Prop := ts.IsChain fun t u => t.kind.isOperator → u.kind.opensOperand

theorem OperandsFollow.starFree {ts : List Token} (h : OperandsFollow ts) : StarFree ts :=
  h.imp fun t u hu hs => by
    have ho := hu (by rw [hs]; rfl)
    constructor <;>
      · intro hk
        rw [hk] at ho
        cases ho

namespace Matched

variable {ts us rest : List Token}

theorem trans (h : Matched ts us) (h' : Matched us rest) : Matched ts rest := by
  induction h with
  | refl => exact h'
  | other hk _ ih => exact .other hk (ih h')
  | operator hk ho _ ih => exact .operator hk ho (ih h')
  | pair ht hin hu _ _ ih => exact .pair ht hin hu (ih h')

theorem suffix (h : Matched ts rest) : rest <:+ ts := by
  induction h with
  | refl => exact List.suffix_refl _
  | other _ _ ih | operator _ _ _ ih => exact ih.trans (List.suffix_cons ..)
  | pair _ _ _ _ ih ih' => exact ih'.trans ((List.suffix_cons ..).trans (ih.trans (List.suffix_cons ..)))

theorem tail (hk : (peekKind ts).isPlain) : Matched ts ts.tail := by
  cases ts with
  | nil => exact .refl []
  | cons t ts => exact .other hk (.refl ts)

theorem even_parens (h : Matched ts rest) : parens ts % 2 = parens rest % 2 := by
  have plain : ∀ {t : Token} {ts : List Token}, t.kind ≠ .leftParen → t.kind ≠ .rightParen →
      parens (t :: ts) = parens ts := fun hl hr => by simp [parens_cons, hl, hr]
  induction h with
  | refl => rfl
  | other hk _ ih => rw [plain (by rintro e; simp [e] at hk) (by rintro e; simp [e] at hk), ih]
  | operator hk _ _ ih => rw [plain (by rintro e; simp [e] at hk) (by rintro e; simp [e] at hk), ih]
  | pair ht _ hu _ ih ih' =>
    rw [parens_cons, if_pos (.inr hu)] at ih
    rw [parens_cons, if_pos (.inl ht)]
    omega

theorem operandsFollow (h : Matched ts rest) (hr : OperandsFollow rest) : OperandsFollow ts := by
  induction h with
  | refl => exact hr
  | @other t ts _ hk _ ih =>
    refine List.isChain_cons.2 ⟨fun u _ ho => ?_, ih hr⟩
    cases hkind : t.kind <;> simp_all
  | operator _ ho _ ih =>
    refine List.isChain_cons.2 ⟨fun u hu _ => ?_, ih hr⟩
    obtain ⟨us, rfl⟩ := List.head?_eq_some_iff.1 hu
    exact ho
  | pair ht _ hu _ ih ih' =>
    refine List.isChain_cons.2 ⟨fun v _ ho => by simp [ht] at ho, ih ?_⟩
    exact List.isChain_cons.2 ⟨fun v _ ho => by simp [hu] at ho, ih' hr⟩

end Matched

namespace Parser

theorem eq_cons_of_peekKind {kind : TokenKind} (hk : kind ≠ .eof) {ts : List Token} (h : peekKind ts = kind) :
    ∃ t, ts = t :: ts.tail ∧ t.kind = kind := by
  cases ts with
  | nil => exact absurd h.symm hk
  | cons t ts => exact ⟨t, rfl, h⟩

theorem matched_consume? {kind : TokenKind} {ts rest : List Token} (hk : kind.isPlain) (he : kind ≠ .eof)
    (h : consume? kind ts = some rest) : Matched ts rest := by
  rw [consume?_eq he] at h
  split at h
  · rename_i hp
    cases h
    exact .tail (by rwa [hp])
  · cases h

theorem matched_skip {kind : TokenKind} (hk : kind.isPlain) (he : kind ≠ .eof) (ts : List Token) :
    Matched ts (skip kind ts) := by
  unfold skip
  cases h : consume? kind ts with
  | none => exact .refl ts
  | some rest => exact matched_consume? hk he h

/-! ## What operands begin with -/

theorem opensOperand_of_prefixOp? {kind : TokenKind} {f : Expr → Expr} (h : prefixOp? kind = some f) :
    kind.opensOperand := by
  unfold prefixOp? at h
  split at h <;> first | rfl | cases h

theorem opensOperand_of_primary {fuel : Nat} {ts : List Token} {found : Expr × List Token}
    (h : primary fuel ts = .ok found) : (peekKind ts).opensOperand := by
  cases fuel with
  | zero => cases h
  | succ fuel =>
    rw [primary] at h
    dsimp only at h
    rw [peekKind]
    split at h
    case h_5 => cases h
    all_goals
      rename_i hk
      rw [hk]
      rfl

theorem opensOperand_of_operand {fuel : Nat} {ts : List Token} {found : Expr × List Token}
    (h : operand fuel ts = .ok found) : (peekKind ts).opensOperand := by
  cases fuel with
  | zero => cases h
  | succ fuel =>
    rw [operand] at h
    split at h
    · rename_i hp
      exact opensOperand_of_prefixOp? hp
    · cases fuel with
      | zero => cases h
      | succ fuel =>
        rw [postfixed] at h
        obtain ⟨first, hp, -⟩ := bind_eq_ok.1 h
        exact opensOperand_of_primary hp

theorem opensOperand_of_expression {fuel level : Nat} {ts : List Token} {found : Expr × List Token}
    (h : expression fuel level ts = .ok found) : (peekKind ts).opensOperand := by
  induction fuel generalizing level found with
  | zero => cases h
  | succ fuel ih =>
    cases level with
    | zero => exact opensOperand_of_operand h
    | succ level =>
      rw [expression] at h
      obtain ⟨left, hl, -⟩ := bind_eq_ok.1 h
      exact ih hl

/-! ## Expressions -/

/-- What this function reads is closed. -/
def Matching {α : Type} (F : List Token → Except Rejection (α × List Token)) : Prop :=
  ∀ ⦃ts : List Token⦄ ⦃found : α × List Token⦄, F ts = .ok found → Matched ts found.2

/-- What this function reads is closed but for the parenthesis at its end. -/
def MatchingAll {α : Type} (F : List Token → Except Rejection (α × List Token)) : Prop :=
  ∀ ⦃ts : List Token⦄ ⦃found : α × List Token⦄, F ts = .ok found →
    ∃ u : Token, u.kind = .rightParen ∧ Matched ts (u :: found.2)

/-- Each function that reads expressions closes what it opens. -/
structure ExprMatched (fuel : Nat) : Prop where
  expression : ∀ level, Matching (expression fuel level)
  chain : ∀ level left, Matching (chain fuel level left)
  operand : Matching (operand fuel)
  postfixed : Matching (postfixed fuel)
  primary : Matching (primary fuel)
  arguments : Matching (arguments fuel)
  parenthesized : MatchingAll (parenthesized fuel)
  moreArguments : MatchingAll (moreArguments fuel)

namespace ExprMatched

variable {fuel : Nat}

theorem zero : ExprMatched 0 where
  expression _ _ _ h := nomatch h
  chain _ _ _ _ h := nomatch h
  operand _ _ h := nomatch h
  postfixed _ _ h := nomatch h
  primary _ _ h := nomatch h
  arguments _ _ h := nomatch h
  parenthesized _ _ h := nomatch h
  moreArguments _ _ h := nomatch h

theorem expression_succ (ih : ExprMatched fuel) (level : Nat) : Matching (Parser.expression (fuel + 1) level) := by
  intro ts found h
  cases level with
  | zero => exact ih.operand h
  | succ level =>
    rw [Parser.expression] at h
    obtain ⟨left, hl, h⟩ := bind_eq_ok.1 h
    exact (ih.expression level hl).trans (ih.chain level left.1 h)

/-- An operator in front of an operand. -/
theorem matched_operator {ts : List Token} (hl : peekKind ts ≠ .leftParen) (hr : peekKind ts ≠ .rightParen)
    (ho : (peekKind ts.tail).opensOperand) : Matched ts ts.tail := by
  cases ts with
  | nil => exact .refl []
  | cons t ts =>
    by_cases hk : t.kind.isOperator
    · exact .operator hk ho (.refl ts)
    · refine .other ?_ (.refl ts)
      have hl : t.kind ≠ .leftParen := hl
      have hr : t.kind ≠ .rightParen := hr
      cases hkind : t.kind <;> simp_all

theorem matched_binaryOp? {level : Nat} {ts : List Token} {op : BinaryOp}
    (h : binaryOp? level (peekKind ts) = some op) (ho : (peekKind ts.tail).opensOperand) : Matched ts ts.tail := by
  refine matched_operator ?_ ?_ ho <;>
    · intro hk
      rw [hk] at h
      simp [binaryOp?] at h

theorem chain_succ (ih : ExprMatched fuel) (level : Nat) (left : Expr) :
    Matching (Parser.chain (fuel + 1) level left) := by
  intro ts found h
  rw [Parser.chain] at h
  split at h
  · cases h
    exact .refl ts
  · rename_i op ho
    obtain ⟨right, hr, h⟩ := bind_eq_ok.1 h
    exact (matched_binaryOp? ho (opensOperand_of_expression hr)).trans
      ((ih.expression level hr).trans (ih.chain level _ h))

theorem operand_succ (ih : ExprMatched fuel) : Matching (Parser.operand (fuel + 1)) := by
  intro ts found h
  rw [Parser.operand] at h
  split at h
  · rename_i f hp
    obtain ⟨arg, ha, h⟩ := bind_eq_ok.1 h
    have harg := ih.operand ha
    obtain rfl := pure_eq_ok.1 h
    refine (matched_operator ?_ ?_ (opensOperand_of_operand ha)).trans harg <;>
      · intro hk
        rw [hk] at hp
        cases hp
  · exact ih.postfixed h

theorem primary_succ (ih : ExprMatched fuel) : Matching (Parser.primary (fuel + 1)) := by
  intro ts found h
  rw [Parser.primary] at h
  dsimp only at h
  split at h
  · rename_i hk
    cases h
    exact .tail (by simp [peekKind, hk])
  · rename_i hk
    cases h
    exact .tail (by simp [peekKind, hk])
  · rename_i name hk
    have ht : Matched ts ts.tail := .tail (by simp [peekKind, hk])
    split at h
    · cases h
      exact ht
    split at h
    · cases h
      exact ht
    split at h
    · cases h
    · cases h
      exact ht
  · rename_i hk
    obtain ⟨inner, hi, h⟩ := bind_eq_ok.1 h
    obtain ⟨rest, hr, h⟩ := bind_eq_ok.1 h
    obtain rfl := pure_eq_ok.1 h
    obtain ⟨hu, rfl⟩ := (expect_eq_ok (by simp)).1 hr
    obtain ⟨t, ht, hk⟩ := eq_cons_of_peekKind (by simp) (show peekKind ts = .leftParen from hk)
    obtain ⟨u, hu, hku⟩ := eq_cons_of_peekKind (by simp) hu
    have hin := ih.expression levels hi
    rw [hu] at hin
    rw [ht]
    exact .pair hk hin hku (.refl _)
  · cases h

theorem postfixed_succ (ih : ExprMatched fuel) : Matching (Parser.postfixed (fuel + 1)) := by
  intro ts found h
  rw [Parser.postfixed] at h
  obtain ⟨⟨e, ts₁⟩, hp, h⟩ := bind_eq_ok.1 h
  refine (ih.primary hp).trans ?_
  cases e with
  | ident name offset =>
    dsimp only at h
    split at h
    · rename_i hc
      obtain ⟨args, ha, h⟩ := bind_eq_ok.1 h
      obtain rfl := pure_eq_ok.1 h
      obtain ⟨u, hu, hin⟩ := ih.parenthesized ha
      obtain ⟨t, ht, hk⟩ := eq_cons_of_peekKind (by simp) hc.1
      rw [ht]
      exact .pair hk hin hu (.refl _)
    split at h
    · obtain ⟨args, ha, h⟩ := bind_eq_ok.1 h
      obtain rfl := pure_eq_ok.1 h
      exact ih.arguments ha
    · obtain rfl := pure_eq_ok.1 h
      exact .refl _
  | _ =>
    obtain rfl := pure_eq_ok.1 h
    exact .refl _

theorem arguments_succ (ih : ExprMatched fuel) : Matching (Parser.arguments (fuel + 1)) := by
  intro ts found h
  rw [Parser.arguments] at h
  obtain ⟨first, hf, h⟩ := bind_eq_ok.1 h
  refine (ih.expression levels hf).trans ?_
  dsimp only at h
  split at h
  · rename_i hc
    obtain ⟨more, hm, h⟩ := bind_eq_ok.1 h
    have hmore := ih.arguments hm
    obtain rfl := pure_eq_ok.1 h
    exact (matched_consume? (by simp) (by simp) hc).trans hmore
  · obtain rfl := pure_eq_ok.1 h
    exact .refl _

theorem parenthesized_succ (ih : ExprMatched fuel) : MatchingAll (Parser.parenthesized (fuel + 1)) := by
  intro ts found h
  rw [Parser.parenthesized, consume?_eq (by simp)] at h
  split at h
  · rename_i rest hc
    split at hc
    · rename_i hu
      cases hc
      cases h
      obtain ⟨u, hu, hk⟩ := eq_cons_of_peekKind (by simp) hu
      exact ⟨u, hk, hu ▸ .refl ts⟩
    · cases hc
  · exact ih.moreArguments h

theorem moreArguments_succ (ih : ExprMatched fuel) : MatchingAll (Parser.moreArguments (fuel + 1)) := by
  intro ts found h
  rw [Parser.moreArguments] at h
  obtain ⟨first, hf, h⟩ := bind_eq_ok.1 h
  have hfirst := ih.expression levels hf
  dsimp only at h
  split at h
  · rename_i hc
    obtain ⟨more, hm, h⟩ := bind_eq_ok.1 h
    obtain rfl := pure_eq_ok.1 h
    obtain ⟨u, hu, hmore⟩ := ih.moreArguments hm
    exact ⟨u, hu, hfirst.trans ((matched_consume? (by simp) (by simp) hc).trans hmore)⟩
  · obtain ⟨rest, hr, h⟩ := bind_eq_ok.1 h
    obtain rfl := pure_eq_ok.1 h
    obtain ⟨hu, rfl⟩ := (expect_eq_ok (by simp)).1 hr
    obtain ⟨u, hu, hk⟩ := eq_cons_of_peekKind (by simp) hu
    exact ⟨u, hk, hu ▸ hfirst⟩

end ExprMatched

theorem exprMatched : ∀ fuel, ExprMatched fuel
  | 0 => .zero
  | fuel + 1 =>
    have ih := exprMatched fuel
    { expression := ih.expression_succ
      chain := ih.chain_succ
      operand := ih.operand_succ
      postfixed := ih.postfixed_succ
      primary := ih.primary_succ
      arguments := ih.arguments_succ
      parenthesized := ih.parenthesized_succ
      moreArguments := ih.moreArguments_succ }

/-! ## Statements -/

/-- What this function reads is closed; beside that it gives two things. -/
def MatchingBoth {α β : Type} (F : List Token → Except Rejection (α × β × List Token)) : Prop :=
  ∀ ⦃ts : List Token⦄ ⦃found : α × β × List Token⦄, F ts = .ok found → Matched ts found.2.2

/-- Each function that reads statements closes what it opens. -/
structure StmtMatched (fuel : Nat) : Prop where
  block : ∀ done, Matching (block fuel done)
  line : Matching (line fuel)
  statement : MatchingBoth (statement fuel)
  bare : MatchingBoth (bare fuel)
  conditional : MatchingBoth (conditional fuel)
  body : Matching (body fuel)

namespace StmtMatched

variable {fuel : Nat}

theorem zero : StmtMatched 0 where
  block _ _ _ h := nomatch h
  line _ _ h := nomatch h
  statement _ _ h := nomatch h
  bare _ _ h := nomatch h
  conditional _ _ h := nomatch h
  body _ _ h := nomatch h

theorem bare_succ : MatchingBoth (Parser.bare (fuel + 1)) := by
  intro ts found h
  rw [bare_eq] at h
  obtain ⟨first, hf, h⟩ := bind_eq_ok.1 h
  have he := (exprMatched fuel).expression levels hf
  obtain rfl := pure_eq_ok.1 h
  exact he

theorem conditional_succ (ih : StmtMatched fuel) : MatchingBoth (Parser.conditional (fuel + 1)) := by
  intro ts found h
  rw [conditional_eq] at h
  obtain ⟨⟨c, rest⟩, hc, h⟩ := bind_eq_ok.1 h
  have hcond := (exprMatched fuel).expression levels hc
  dsimp only at h
  split at h
  · obtain ⟨b, hb, h⟩ := bind_eq_ok.1 h
    have hbody := ih.body hb
    obtain rfl := pure_eq_ok.1 h
    exact hcond.trans ((matched_skip (by simp) (by simp) rest).trans hbody)
  · cases h

/-- A name and what may follow it. -/
theorem statement_name_succ (ih : StmtMatched fuel) {ts : List Token} {name : String}
    (hk : peekKind ts = .ident name) (hn : name ∉ ["repeat", "if", "else"]) {found : Item × Bool × List Token}
    (h : Parser.statement (fuel + 1) ts = .ok found) : Matched ts found.2.2 := by
  have hname : Matched ts ts.tail := .tail (by simp [hk])
  have he := exprMatched fuel
  rw [statement_name hk hn] at h
  split at h
  · rename_i op _ ho
    split at h
    · cases h
    · obtain ⟨value, hv, h⟩ := bind_eq_ok.1 h
      have hvalue := he.expression levels hv
      obtain rfl := pure_eq_ok.1 h
      refine hname.trans ((Matched.tail ?_).trans hvalue)
      unfold assignOp? at ho
      split at ho <;> simp_all
  · rename_i op _ ho
    split at h
    · cases h
    · obtain rfl := pure_eq_ok.1 h
      refine hname.trans (Matched.tail ?_)
      unfold stepOp? at ho
      split at ho <;> simp_all
  · split at h
    · obtain ⟨args, ha, h⟩ := bind_eq_ok.1 h
      have hargs := he.arguments ha
      obtain rfl := pure_eq_ok.1 h
      exact hname.trans hargs
    · exact ih.bare h

theorem statement_succ (ih : StmtMatched fuel) : MatchingBoth (Parser.statement (fuel + 1)) := by
  intro ts found h
  by_cases hname : ∃ name, peekKind ts = .ident name
  · obtain ⟨name, hk⟩ := hname
    have hfirst : Matched ts ts.tail := .tail (by simp [hk])
    by_cases hrepeat : name = "repeat"
    · rw [statement_repeat (hrepeat ▸ hk)] at h
      obtain ⟨count, hc, h⟩ := bind_eq_ok.1 h
      obtain ⟨rest, hr, h⟩ := bind_eq_ok.1 h
      obtain ⟨b, hb, h⟩ := bind_eq_ok.1 h
      have hcount := (exprMatched fuel).expression levels hc
      have hbody := ih.body hb
      obtain rfl := pure_eq_ok.1 h
      obtain ⟨harrow, rfl⟩ := (expect_eq_ok (by simp)).1 hr
      exact hfirst.trans (hcount.trans ((Matched.tail (by simp [harrow])).trans hbody))
    by_cases hif : name = "if"
    · rw [statement_if (hif ▸ hk)] at h
      obtain ⟨branch, hb, h⟩ := bind_eq_ok.1 h
      have hbranch := ih.conditional hb
      obtain rfl := pure_eq_ok.1 h
      exact hfirst.trans hbranch
    by_cases helse : name = "else"
    · by_cases hi : peekKind ts.tail = .ident "if"
      · rw [statement_elseIf (helse ▸ hk) hi] at h
        obtain ⟨branch, hb, h⟩ := bind_eq_ok.1 h
        have hbranch := ih.conditional hb
        obtain rfl := pure_eq_ok.1 h
        exact hfirst.trans ((Matched.tail (by simp [hi])).trans hbranch)
      · rw [statement_else (helse ▸ hk) hi] at h
        obtain ⟨b, hb, h⟩ := bind_eq_ok.1 h
        have hbody := ih.body hb
        obtain rfl := pure_eq_ok.1 h
        exact hfirst.trans ((matched_skip (by simp) (by simp) _).trans hbody)
    · exact ih.statement_name_succ hk (by simp [hrepeat, hif, helse]) h
  · rw [statement_bare fun name hk => hname ⟨name, hk⟩] at h
    exact ih.bare h

theorem line_succ (ih : StmtMatched fuel) : Matching (Parser.line (fuel + 1)) := by
  intro ts found h
  by_cases hsemi : peekKind ts = .semicolon
  · rw [line_semicolon hsemi] at h
    exact (Matched.tail (by simp [hsemi])).trans (ih.line h)
  by_cases hnl : peekKind ts = .newline
  · rw [line_newline hnl] at h
    cases h
    exact .tail (by simp [hnl])
  by_cases hend : peekKind ts = .eof ∨ peekKind ts = .dedent
  · rw [line_end hend] at h
    cases h
    exact .refl ts
  · rw [line_statement (by simp [hsemi, hnl, not_or.1 hend])] at h
    obtain ⟨⟨item, lineDone, rest⟩, hs, h⟩ := bind_eq_ok.1 h
    have hstatement := ih.statement hs
    dsimp only at h
    split at h
    · obtain rfl := pure_eq_ok.1 h
      exact hstatement
    split at h
    · obtain ⟨more, hm, h⟩ := bind_eq_ok.1 h
      have hmore := ih.line hm
      obtain rfl := pure_eq_ok.1 h
      exact hstatement.trans hmore
    · cases h

theorem block_succ (ih : StmtMatched fuel) (done : List Stmt) : Matching (Parser.block (fuel + 1) done) := by
  intro ts found h
  by_cases hw : (peekKind ts).isWord
  · rw [block_line hw] at h
    obtain ⟨items, hl, h⟩ := bind_eq_ok.1 h
    obtain ⟨done', -, h⟩ := bind_eq_ok.1 h
    exact (ih.line hl).trans (ih.block _ h)
  · rw [Parser.block] at h
    split at h
    · cases h
      exact .refl ts
    · cases h
      exact .refl ts
    · rename_i hk
      exact (Matched.tail (by simp [hk])).trans (ih.block _ h)
    · cases h
    · rename_i h1 h2 h3 h4
      refine absurd ?_ hw
      revert h1 h2 h3 h4
      cases peekKind ts <;> simp [TokenKind.isWord]

theorem body_succ (ih : StmtMatched fuel) : Matching (Parser.body (fuel + 1)) := by
  intro ts found h
  cases hend : atLineEnd ts with
  | false =>
    rw [body_line hend] at h
    obtain ⟨items, hl, h⟩ := bind_eq_ok.1 h
    obtain ⟨done, -, h⟩ := bind_eq_ok.1 h
    have hline := ih.line hl
    obtain rfl := pure_eq_ok.1 h
    exact hline
  | true =>
    have hskip : Matched ts (skip .newline ts) := matched_skip (by simp) (by simp) ts
    by_cases hi : peekKind (skip .newline ts) = .indent
    · rw [body_block hend hi] at h
      obtain ⟨⟨b, rest⟩, hb, h⟩ := bind_eq_ok.1 h
      have hblock := ih.block _ hb
      obtain rfl := pure_eq_ok.1 h
      exact hskip.trans ((Matched.tail (by simp [hi])).trans (hblock.trans (matched_skip (by simp) (by simp) rest)))
    · rw [body_empty hend hi] at h
      cases h
      exact hskip

end StmtMatched

theorem stmtMatched : ∀ fuel, StmtMatched fuel
  | 0 => .zero
  | fuel + 1 =>
    have ih := stmtMatched fuel
    { block := ih.block_succ
      line := ih.line_succ
      statement := ih.statement_succ
      bare := StmtMatched.bare_succ
      conditional := ih.conditional_succ
      body := ih.body_succ }

/-- In a program parentheses are even in number, and operands follow the operators. -/
theorem program_matched {ts : List Token} {stmts : List Stmt} (hn : Nested 0 ts) (h : program ts = .ok stmts) :
    parens ts % 2 = 0 ∧ OperandsFollow ts := by
  obtain ⟨⟨stmts, rest⟩, hb, h⟩ := bind_eq_ok.1 h
  dsimp only at h
  split at h
  · rename_i heof
    have hmatched := (stmtMatched _).block _ hb
    have hend : parens rest = 0 ∧ OperandsFollow rest := by
      by_cases hne : rest = []
      · subst hne
        exact ⟨rfl, .nil⟩
      · obtain ⟨k, hk⟩ := hn.of_suffix hmatched.suffix hne
        obtain ⟨-, t, rfl⟩ := hk.of_eof heof
        have ht : t.kind = .eof := heof
        exact ⟨by simp [parens, ht], .singleton t⟩
    exact ⟨by rw [hmatched.even_parens, hend.1], hmatched.operandsFollow hend.2⟩
  · cases h

end Parser

end LiveSketch.Script

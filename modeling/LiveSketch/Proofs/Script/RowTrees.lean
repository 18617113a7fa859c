import LiveSketch.Proofs.Script.Rows

/-!
# Rows in the tree

`program_view`: where the parser reads the rows of a sketch in which the headers are loops, it reads them in
every view, and all trees are views of the same parts. The induction is on the fuel. What a function reads in
one view it reads in all (`ReadsRows`), and it stops at the same row (`Leaves`); the fuel of a view pays for the
reports that are still to be read.
-/
namespace LiveSketch.Script

open LiveSketch.Script.Parser

variable {n : Nat} {α : Type}

namespace Parser

theorem statement_front {k : Nat} {head : List Token} (hh : IsLoopHead k head) (rest : List Token) :
    peekKind (head ++ rest) ∉ [TokenKind.semicolon, .newline, .eof, .dedent] := by
  obtain ⟨r, c, a, rfl, hr, -⟩ := hh
  simp [peekKind, peek, hr]

/-- A line with the head of a loop in front. -/
theorem line_loopHead {k fuel : Nat} {head rest : List Token} (hh : IsLoopHead k head)
    {found : List Item × List Token} :
    line (fuel + 2) (head ++ rest) = .ok found ↔ 10 ≤ fuel ∧ ∃ b ts, body fuel rest = .ok (b, ts) ∧
      found = ([.stmt (.loop (.literal (.number (numeral k))) b)], ts) := by
  rw [line_statement (statement_front hh rest)]
  constructor
  · intro h
    obtain ⟨first, hf, h⟩ := bind_eq_ok.1 h
    obtain ⟨hfuel, b, ts, hb, rfl⟩ := (statement_loopHead hh).1 hf
    exact ⟨hfuel, b, ts, hb, (pure_eq_ok.1 h).symm⟩
  · rintro ⟨hfuel, b, ts, hb, rfl⟩
    rw [(statement_loopHead hh).2 ⟨hfuel, b, ts, hb, rfl⟩]
    rfl

theorem fuel_of_loopHead {k : Nat} {head rest : List Token} (hh : IsLoopHead k head) :
    ∀ {fuel : Nat} {found : List Item × List Token}, line fuel (head ++ rest) = .ok found → 12 ≤ fuel
  | 0, _, h => nomatch h
  | 1, _, h => by
    rw [line_statement (statement_front hh rest)] at h
    cases h
  | fuel + 2, _, h => Nat.add_le_add_right ((line_loopHead hh).1 h).1 2

/-! ## What is read in every view -/

/-- In this view rows are read with this result, by any more fuel than the reports in them need. -/
def ReadsRows (v : View) (rows : List (Row n)) (fuel : Nat) (F : Nat → List Token → Except Rejection α)
    (P : α → Prop) : Prop :=
  ∀ us fuel', Shows v rows us → fuel + v.slack rows ≤ fuel' → ∃ found, F fuel' us = .ok found ∧ P found

namespace ReadsRows

variable {v : View} {rows : List (Row n)} {fuel : Nat}
  {F : Nat → List Token → Except Rejection α} {P : α → Prop}

theorem succ (h : ∀ us k, Shows v rows us → fuel + v.slack rows ≤ k → ∃ found, F (k + 1) us = .ok found ∧ P found) :
    ReadsRows v rows (fuel + 1) F P := by
  intro us fuel' hu hf
  obtain ⟨k, rfl⟩ : ∃ k, fuel' = k + 1 := ⟨fuel' - 1, by omega⟩
  exact h us k hu (by omega)

/-- Loops take no more fuel. -/
theorem self {count : Nat → Nat} {ts : List Token} {found : α} (h : ReadsRows (.loops count) rows fuel F P)
    (hs : Shows (.loops count) rows ts) (hf : F fuel ts = .ok found) : P found := by
  obtain ⟨found', hf', hp⟩ := h ts fuel hs (by rw [View.slack_loops]; exact Nat.le_refl _)
  rw [hf] at hf'
  cases hf'
  exact hp

end ReadsRows

/-- What is left of a line begins with an item that is read in every view. It takes the rest of the line with
it if `lineDone` says so. -/
def ReadsItem (F : Nat → List Token → Except Rejection (Item × Bool × List Token)) (l : List Token)
    (rows : List (Row n)) (fuel : Nat) (lineDone : Bool) : Prop :=
  ∃ (item : PartItem n) (rows' : List (Row n)), (lineDone = true ∨ ∃ l', rows' = .line l' :: rows) ∧
    ∀ v, ReadsRows v (.line l :: rows) fuel F fun found =>
      item.view v = [found.1.erase] ∧ found.2.1 = lineDone ∧ Leaves v (.line l :: rows) rows' found.2.2

/-- With this fuel, what is read where the headers are loops is read in every view. -/
structure Tracks (n : Nat) (count : Nat → Nat) (fuel : Nat) : Prop where
  block : ∀ {rows : List (Row n)} {ts done found} {parts : List (Part n)}, Shows (.loops count) rows ts →
    eraseBlock done = (viewAll (.loops count) parts).reverse → Parser.block fuel done ts = .ok found →
    ∃ (parts' : List (Part n)) (rows' : List (Row n)), ∀ v done' base,
      eraseBlock done' = (viewAll v parts).reverse ++ base →
      ReadsRows v rows fuel (Parser.block · done') fun other =>
        eraseBlock other.1 = base.reverse ++ viewAll v parts' ∧ Leaves v rows rows' other.2
  line : ∀ {rows : List (Row n)} {ts found}, Shows (.loops count) rows ts →
    Parser.line fuel ts = .ok found →
    ∃ (items : List (PartItem n)) (rows' : List (Row n)), ∀ v, ReadsRows v rows fuel Parser.line fun other =>
      other.1.map Item.erase = viewItems v items ∧ Leaves v rows rows' other.2
  statement : ∀ {l} {rows : List (Row n)} {ts found}, Shows (.loops count) (.line l :: rows) ts →
    Parser.statement fuel ts = .ok found → ReadsItem Parser.statement l rows fuel found.2.1
  bare : ∀ {l} {rows : List (Row n)} {ts found}, Shows (.loops count) (.line l :: rows) ts →
    Parser.bare fuel ts = .ok found → ReadsItem Parser.bare l rows fuel found.2.1
  conditional : ∀ {l} {rows : List (Row n)} {ts found}, Shows (.loops count) (.line l :: rows) ts →
    Parser.conditional fuel ts = .ok found →
    ∃ (parts : List (Part n)) (rows' : List (Row n)), ∀ v,
      ReadsRows v (.line l :: rows) fuel Parser.conditional fun other => other.1.erase = found.1.erase ∧
        eraseBlock other.2.1 = viewAll v parts ∧ Leaves v (.line l :: rows) rows' other.2.2
  body : ∀ {rows : List (Row n)} {ts found}, Shows (.loops count) rows ts →
    Parser.body fuel ts = .ok found →
    ∃ (parts : List (Part n)) (rows' : List (Row n)), ∀ v, ReadsRows v rows fuel Parser.body fun other =>
      eraseBlock other.1 = viewAll v parts ∧ Leaves v rows rows' other.2

namespace Tracks

variable {count : Nat → Nat} {fuel : Nat} {l ts : List Token} {rows : List (Row n)}

theorem zero : Tracks n count 0 where
  block _ _ h := nomatch h
  line _ h := nomatch h
  statement _ h := nomatch h
  bare _ h := nomatch h
  conditional _ h := nomatch h
  body _ h := nomatch h

/-! ### Statements -/

theorem bare_succ {found : Item × Bool × List Token} (hs : Shows (.loops count) (.line l :: rows) ts)
    (h : Parser.bare (fuel + 1) ts = .ok found) :
    ReadsItem Parser.bare l rows (fuel + 1) found.2.1 := by
  rw [bare_eq] at h
  obtain ⟨⟨e, rest⟩, he, h⟩ := bind_eq_ok.1 h
  obtain rfl := pure_eq_ok.1 h
  obtain ⟨l', -, hexpr⟩ := hs.carry_expression he
  refine ⟨.part (.expr (asCall e.erase)), _, .inr ⟨l', rfl⟩, fun v => .succ fun us k hu hf => ?_⟩
  obtain ⟨x, us', hx, hxe, hu'⟩ := hexpr v us k hu (by omega)
  refine ⟨(.stmt (.expr (asCall x)), false, us'), ?_, ?_, rfl, Nat.le_refl _, hu'⟩
  · simp only [bare_eq, hx, ok_bind]
    rfl
  · simp [PartItem.view, Part.view, Item.erase, Stmt.erase, erase_asCall, hxe]

theorem conditional_succ (ih : Tracks n count fuel) {found : Expr × List Stmt × List Token}
    (hs : Shows (.loops count) (.line l :: rows) ts) (h : Parser.conditional (fuel + 1) ts = .ok found) :
    ∃ (parts : List (Part n)) (rows' : List (Row n)), ∀ v,
      ReadsRows v (.line l :: rows) (fuel + 1) Parser.conditional fun other => other.1.erase = found.1.erase ∧
        eraseBlock other.2.1 = viewAll v parts ∧ Leaves v (.line l :: rows) rows' other.2.2 := by
  rw [conditional_eq] at h
  obtain ⟨⟨c, rest⟩, hc, h⟩ := bind_eq_ok.1 h
  obtain ⟨l', hs', hexpr⟩ := hs.carry_expression hc
  dsimp only at h hs'
  split at h
  · rename_i harrow
    obtain ⟨⟨b, rest'⟩, hb, h⟩ := bind_eq_ok.1 h
    obtain rfl := pure_eq_ok.1 h
    obtain ⟨parts, rows', hbody⟩ := ih.body (hs'.skip_line .arrow rfl) hb
    refine ⟨parts, rows', fun v => .succ fun us k hu hf => ?_⟩
    obtain ⟨x, us', hx, hxe, hu'⟩ := hexpr v us k hu (by omega)
    obtain ⟨other, ho, hparts, hleaves⟩ := hbody v _ k (hu'.skip_line .arrow rfl) hf
    have harrow' : peekKind us' = .arrow ∨ atLineEnd us' := by
      rwa [hu'.peekKind_line, ← hs'.peekKind_line, hs'.atLineEnd_eq hu']
    refine ⟨(x, other), ?_, hxe, hparts, hleaves⟩
    simp only [conditional_eq, hx, ok_bind, if_pos harrow', ho]
    rfl
  · cases h

/-- A loop of the sketch itself. -/
theorem statement_loop (ih : Tracks n count fuel) {found : Item × Bool × List Token}
    (hk : peekKind l = .ident "repeat") (hs : Shows (.loops count) (.line l :: rows) ts)
    (h : Parser.statement (fuel + 1) ts = .ok found) :
    ReadsItem Parser.statement l rows (fuel + 1) found.2.1 := by
  have hw := isWord_of_name hk
  rw [statement_repeat (hs.peekKind_line.trans hk)] at h
  obtain ⟨⟨c, rest⟩, hc, h⟩ := bind_eq_ok.1 h
  obtain ⟨l', hs', hexpr⟩ := (hs.tail_line hw).carry_expression hc
  obtain ⟨rest', ha, h⟩ := bind_eq_ok.1 h
  obtain ⟨harrow, rfl⟩ := (expect_eq_ok (by simp)).1 ha
  have harrow := hs'.peekKind_line.symm.trans harrow
  have hw' : (peekKind l').isWord := by
    rw [harrow]
    rfl
  obtain ⟨⟨b, rest'⟩, hb, h⟩ := bind_eq_ok.1 h
  obtain rfl := pure_eq_ok.1 h
  obtain ⟨parts, rows', hbody⟩ := ih.body (hs'.tail_line hw') hb
  refine ⟨.part (.loop c.erase parts), rows', .inl rfl, fun v => .succ fun us k hu hf => ?_⟩
  obtain ⟨x, us', hx, hxe, hu'⟩ := hexpr v us.tail k (hu.tail_line hw) (by omega)
  obtain ⟨other, ho, hparts, hleaves⟩ := hbody v _ k (hu'.tail_line hw') hf
  have hexpect : expect .arrow "'->' after repeat count" us' = .ok us'.tail :=
    (expect_eq_ok (by simp)).2 ⟨hu'.peekKind_line.trans harrow, rfl⟩
  refine ⟨(.stmt (.loop x other.1), true, other.2), ?_, ?_, rfl, hleaves⟩
  · rw [statement_repeat (hu.peekKind_line.trans hk)]
    simp only [hx, ok_bind, hexpect, ho]
    rfl
  · simp [PartItem.view, Part.view, Item.erase, Stmt.erase, hxe, hparts]

/-- A conditional. -/
theorem statement_branch (ih : Tracks n count fuel) {found : Item × Bool × List Token}
    (hk : peekKind l = .ident "if") (hs : Shows (.loops count) (.line l :: rows) ts)
    (h : Parser.statement (fuel + 1) ts = .ok found) :
    ReadsItem Parser.statement l rows (fuel + 1) found.2.1 := by
  have hw := isWord_of_name hk
  rw [statement_if (hs.peekKind_line.trans hk)] at h
  obtain ⟨⟨c, b, rest⟩, hc, h⟩ := bind_eq_ok.1 h
  obtain rfl := pure_eq_ok.1 h
  obtain ⟨parts, rows', hcond⟩ := ih.conditional (hs.tail_line hw) hc
  refine ⟨.part (.branch c.erase parts none), rows', .inl rfl, fun v => .succ fun us k hu hf => ?_⟩
  obtain ⟨other, ho, hxe, hparts, hleaves⟩ := hcond v us.tail k (hu.tail_line hw) hf
  refine ⟨(.stmt (.branch other.1 other.2.1 none), true, other.2.2), ?_, ?_, rfl, hleaves⟩
  · rw [statement_if (hu.peekKind_line.trans hk)]
    simp only [ho, ok_bind]
    rfl
  · simp [PartItem.view, Part.view, Item.erase, Stmt.erase, eraseElse, viewElse, hxe, hparts]

/-- An `else` with a condition of its own. -/
theorem statement_elseBranch (ih : Tracks n count fuel) {found : Item × Bool × List Token}
    (hk : peekKind l = .ident "else") (hi : peekKind l.tail = .ident "if")
    (hs : Shows (.loops count) (.line l :: rows) ts) (h : Parser.statement (fuel + 1) ts = .ok found) :
    ReadsItem Parser.statement l rows (fuel + 1) found.2.1 := by
  have hw := isWord_of_name hk
  have hw' := isWord_of_name hi
  have hs' := hs.tail_line hw
  rw [statement_elseIf (hs.peekKind_line.trans hk) (hs'.peekKind_line.trans hi)] at h
  obtain ⟨⟨c, b, rest⟩, hc, h⟩ := bind_eq_ok.1 h
  obtain rfl := pure_eq_ok.1 h
  obtain ⟨parts, rows', hcond⟩ := ih.conditional (hs'.tail_line hw') hc
  refine ⟨.otherwise (some c.erase) parts, rows', .inl rfl, fun v => .succ fun us k hu hf => ?_⟩
  have hu' := hu.tail_line hw
  obtain ⟨other, ho, hxe, hparts, hleaves⟩ := hcond v us.tail.tail k (hu'.tail_line hw') hf
  refine ⟨(.otherwise (some other.1) other.2.1 (peek us).start, true, other.2.2), ?_, ?_, rfl, hleaves⟩
  · rw [statement_elseIf (hu.peekKind_line.trans hk) (hu'.peekKind_line.trans hi)]
    simp only [ho, ok_bind]
    rfl
  · simp [PartItem.view, Item.erase, hxe, hparts]

/-- An `else` without a condition. -/
theorem statement_otherwise (ih : Tracks n count fuel) {found : Item × Bool × List Token}
    (hk : peekKind l = .ident "else") (hi : peekKind l.tail ≠ .ident "if")
    (hs : Shows (.loops count) (.line l :: rows) ts) (h : Parser.statement (fuel + 1) ts = .ok found) :
    ReadsItem Parser.statement l rows (fuel + 1) found.2.1 := by
  have hw := isWord_of_name hk
  have hs' := hs.tail_line hw
  rw [statement_else (hs.peekKind_line.trans hk) (hs'.peekKind_line.trans_ne hi)] at h
  obtain ⟨⟨b, rest⟩, hb, h⟩ := bind_eq_ok.1 h
  obtain rfl := pure_eq_ok.1 h
  obtain ⟨parts, rows', hbody⟩ := ih.body (hs'.skip_line .arrow rfl) hb
  refine ⟨.otherwise none parts, rows', .inl rfl, fun v => .succ fun us k hu hf => ?_⟩
  have hu' := hu.tail_line hw
  obtain ⟨other, ho, hparts, hleaves⟩ := hbody v _ k (hu'.skip_line .arrow rfl) hf
  refine ⟨(.otherwise none other.1 (peek us).start, true, other.2), ?_, ?_, rfl, hleaves⟩
  · rw [statement_else (hu.peekKind_line.trans hk) (hu'.peekKind_line.trans_ne hi)]
    simp only [ho, ok_bind]
    rfl
  · simp [PartItem.view, Item.erase, hparts]

theorem statement_assignment {found : Item × Bool × List Token} {name : String} {op : AssignOp}
    (hk : peekKind l = .ident name) (hn : name ∉ ["repeat", "if", "else"])
    (hop : assignOp? (peekKind l.tail) = some op) (hs : Shows (.loops count) (.line l :: rows) ts)
    (h : Parser.statement (fuel + 1) ts = .ok found) :
    ReadsItem Parser.statement l rows (fuel + 1) found.2.1 := by
  have hw := isWord_of_name hk
  have hw' := isWord_of_assignOp? hop
  have hs' := hs.tail_line hw
  rw [statement_name (hs.peekKind_line.trans hk) hn, hs'.peekKind_line, hop] at h
  dsimp only at h
  split at h
  · cases h
  rename_i hkey
  obtain ⟨⟨e, rest⟩, he, h⟩ := bind_eq_ok.1 h
  obtain rfl := pure_eq_ok.1 h
  obtain ⟨l', -, hexpr⟩ := (hs'.tail_line hw').carry_expression he
  refine ⟨.part (.assign name op e.erase), _, .inr ⟨l', rfl⟩, fun v => .succ fun us k hu hf => ?_⟩
  have hu' := hu.tail_line hw
  obtain ⟨x, us', hx, hxe, hrest⟩ := hexpr v us.tail.tail k (hu'.tail_line hw') (by omega)
  refine ⟨(.stmt (.assign name op x (peek us).start), false, us'), ?_, ?_, rfl, Nat.le_refl _, hrest⟩
  · simp only [statement_name (hu.peekKind_line.trans hk) hn, hu'.peekKind_line, hop, if_neg hkey, hx, ok_bind]
    rfl
  · simp [PartItem.view, Part.view, Item.erase, Stmt.erase, hxe]

/-- An assignment that adds or takes away one. -/
theorem statement_step {found : Item × Bool × List Token} {name : String} {op : AssignOp}
    (hk : peekKind l = .ident name) (hn : name ∉ ["repeat", "if", "else"])
    (hno : assignOp? (peekKind l.tail) = none) (hop : stepOp? (peekKind l.tail) = some op)
    (hs : Shows (.loops count) (.line l :: rows) ts) (h : Parser.statement (fuel + 1) ts = .ok found) :
    ReadsItem Parser.statement l rows (fuel + 1) found.2.1 := by
  have hw := isWord_of_name hk
  have hw' := isWord_of_stepOp? hop
  rw [statement_name (hs.peekKind_line.trans hk) hn, (hs.tail_line hw).peekKind_line, hno, hop] at h
  dsimp only at h
  split at h
  · cases h
  rename_i hkey
  obtain rfl := pure_eq_ok.1 h
  refine ⟨.part (.assign name op (.literal (.number 1))), _, .inr ⟨l.tail.tail, rfl⟩,
    fun v => .succ fun us k hu hf => ?_⟩
  have hu' := hu.tail_line hw
  refine ⟨(.stmt (.assign name op (.literal (.number 1)) (peek us).start), false, us.tail.tail), ?_, ?_, rfl,
    Nat.le_refl _, hu'.tail_line hw'⟩
  · simp only [statement_name (hu.peekKind_line.trans hk) hn, hu'.peekKind_line, hno, hop, if_neg hkey]
    rfl
  · simp [PartItem.view, Part.view, Item.erase, Stmt.erase, Expr.erase]

/-- What begins with a name and is no assignment: a call without parentheses or an expression. -/
theorem statement_command (ih : Tracks n count fuel) {found : Item × Bool × List Token} {name : String}
    (hk : peekKind l = .ident name) (hn : name ∉ ["repeat", "if", "else"])
    (hno : assignOp? (peekKind l.tail) = none) (hno' : stepOp? (peekKind l.tail) = none)
    (hs : Shows (.loops count) (.line l :: rows) ts) (h : Parser.statement (fuel + 1) ts = .ok found) :
    ReadsItem Parser.statement l rows (fuel + 1) found.2.1 := by
  have hw := isWord_of_name hk
  have hs' := hs.tail_line hw
  have hstatement : ∀ {v us k}, Shows v (.line l :: rows) us → Parser.statement (k + 1) us =
      if !isKeyword name && argumentsFollow l then
        Parser.arguments k us.tail >>= fun found =>
          return (.stmt (.expr (.call name found.1 (peek us).start)), false, found.2)
      else Parser.bare k us := fun hu => by
    rw [statement_name (hu.peekKind_line.trans hk) hn, (hu.tail_line hw).peekKind_line, hno, hno',
      hu.argumentsFollow_line hw]
  rw [hstatement hs] at h
  split at h
  · rename_i hcall
    obtain ⟨⟨args, rest⟩, ha, h⟩ := bind_eq_ok.1 h
    obtain rfl := pure_eq_ok.1 h
    obtain ⟨l', -, hargs⟩ := hs'.carry_arguments ha
    refine ⟨.part (.expr (.call name (eraseArgs args) 0)), _, .inr ⟨l', rfl⟩,
      fun v => .succ fun us k hu hf => ?_⟩
    obtain ⟨xs, us', hx, hxe, hu'⟩ := hargs v us.tail k (hu.tail_line hw) (by omega)
    refine ⟨(.stmt (.expr (.call name xs (peek us).start)), false, us'), ?_, ?_, rfl, Nat.le_refl _, hu'⟩
    · simp only [hstatement hu, if_pos hcall, hx, ok_bind]
      rfl
    · simp [PartItem.view, Part.view, Item.erase, Stmt.erase, Expr.erase, hxe]
  · rename_i hcall
    obtain ⟨item, rows', hdone, hbare⟩ := ih.bare hs h
    refine ⟨item, rows', hdone, fun v => .succ fun us k hu hf => ?_⟩
    simp only [hstatement hu, if_neg hcall]
    exact hbare v us k hu hf

theorem statement_ident (ih : Tracks n count fuel) {found : Item × Bool × List Token} {name : String}
    (hk : peekKind l = .ident name) (hn : name ∉ ["repeat", "if", "else"])
    (hs : Shows (.loops count) (.line l :: rows) ts) (h : Parser.statement (fuel + 1) ts = .ok found) :
    ReadsItem Parser.statement l rows (fuel + 1) found.2.1 := by
  cases hop : assignOp? (peekKind l.tail) with
  | some op => exact statement_assignment hk hn hop hs h
  | none =>
    cases hstep : stepOp? (peekKind l.tail) with
    | some op => exact statement_step hk hn hop hstep hs h
    | none => exact ih.statement_command hk hn hop hstep hs h

theorem statement_succ (ih : Tracks n count fuel) {found : Item × Bool × List Token}
    (hs : Shows (.loops count) (.line l :: rows) ts) (h : Parser.statement (fuel + 1) ts = .ok found) :
    ReadsItem Parser.statement l rows (fuel + 1) found.2.1 := by
  by_cases hname : ∃ name, peekKind l = .ident name
  · obtain ⟨name, hk⟩ := hname
    by_cases hloop : name = "repeat"
    · exact ih.statement_loop (hk.trans (by rw [hloop])) hs h
    by_cases hif : name = "if"
    · exact ih.statement_branch (hk.trans (by rw [hif])) hs h
    by_cases helse : name = "else"
    · by_cases hi : peekKind l.tail = .ident "if"
      · exact ih.statement_elseBranch (hk.trans (by rw [helse])) hi hs h
      · exact ih.statement_otherwise (hk.trans (by rw [helse])) hi hs h
    · exact ih.statement_ident hk (by simp [hloop, hif, helse]) hs h
  · have hne : ∀ {v us}, Shows v (.line l :: rows) us → ∀ name, peekKind us ≠ .ident name :=
      fun hu name hk => hname ⟨name, hu.peekKind_line.symm.trans hk⟩
    rw [statement_bare (hne hs)] at h
    obtain ⟨item, rows', hdone, hbare⟩ := ih.bare hs h
    refine ⟨item, rows', hdone, fun v => .succ fun us k hu hf => ?_⟩
    rw [statement_bare (hne hu)]
    exact hbare v us k hu hf

/-! ### Bodies and lines -/

theorem body_succ (ih : Tracks n count fuel) {found : List Stmt × List Token}
    (hs : Shows (.loops count) rows ts) (h : Parser.body (fuel + 1) ts = .ok found) :
    ∃ (parts : List (Part n)) (rows' : List (Row n)), ∀ v, ReadsRows v rows (fuel + 1) Parser.body fun other =>
      eraseBlock other.1 = viewAll v parts ∧ Leaves v rows rows' other.2 := by
  cases hend : atLineEnd ts with
  | false =>
    rw [body_line hend] at h
    obtain ⟨⟨items, rest⟩, hl, h⟩ := bind_eq_ok.1 h
    obtain ⟨done, hd, h⟩ := bind_eq_ok.1 h
    obtain ⟨lineItems, rows', hline⟩ := ih.line hs hl
    obtain ⟨hitems, -⟩ := (hline _).self hs hl
    have hstart : eraseBlock [] = (viewAll (.loops count) ([] : List (Part n))).reverse := rfl
    obtain ⟨parts, hattach⟩ := attachAll_of_view hstart hitems hd
    refine ⟨parts, rows', fun v => .succ fun us k hu hf => ?_⟩
    obtain ⟨other, ho, hitems', hleaves⟩ := hline v us k hu hf
    have hstart : eraseBlock [] = (viewAll v ([] : List (Part n))).reverse ++ [] := rfl
    obtain ⟨done', hd', hdone⟩ := hattach hstart hitems'
    refine ⟨(done'.reverse, other.2), ?_, ?_, hleaves⟩
    · simp only [body_line ((hs.atLineEnd_eq hu).trans hend), ho, ok_bind, hd']
      rfl
    · rw [eraseBlock_reverse, hdone, List.append_nil, List.reverse_reverse]
  | true =>
    obtain ⟨rows₁, hskip⟩ := hs.skip .newline rfl (by simp)
    have hs₁ := (hskip _ _ hs).2
    have hindent : ∀ {w us}, Shows w rows us →
        (peekKind (skip .newline us) = .indent ↔ peekKind (skip .newline ts) = .indent) :=
      fun hu => hs₁.peekKind_eq_iff rfl (hskip _ _ hu).2
    by_cases hi : peekKind (skip .newline ts) = .indent
    · rw [body_block hend hi] at h
      obtain ⟨⟨b, rest⟩, hb, h⟩ := bind_eq_ok.1 h
      obtain ⟨rows₂, hnext⟩ := hs₁.next (by rw [hi]; rfl)
      have hs₂ := (hnext _ _ hs₁).2.2
      have hstart : ∀ w : View, eraseBlock [] = (viewAll w ([] : List (Part n))).reverse ++ [] := fun _ => rfl
      have hstart' : eraseBlock [] = (viewAll (.loops count) ([] : List (Part n))).reverse := rfl
      obtain ⟨parts, rows₃, hblock⟩ := ih.block hs₂ hstart' hb
      obtain ⟨-, -, hs₃⟩ := (hblock _ _ _ (hstart _)).self hs₂ hb
      obtain ⟨rows₄, hdedent⟩ := hs₃.skip .dedent rfl (by simp)
      refine ⟨parts, rows₄, fun v => .succ fun us k hu hf => ?_⟩
      have h₁ := hskip _ _ hu
      have h₂ := h₁.trans (hnext _ _ h₁.2).2
      obtain ⟨other, ho, hparts, h₃⟩ := hblock v _ _ (hstart v) _ k h₂.2 (by have := h₂.1; omega)
      have h₄ := (h₂.trans h₃).trans (hdedent _ _ h₃.2)
      refine ⟨(other.1, skip .dedent other.2), ?_, hparts, h₄⟩
      simp only [body_block ((hs.atLineEnd_eq hu).trans hend) ((hindent hu).2 hi), ho, ok_bind]
      rfl
    · rw [body_empty hend hi] at h
      refine ⟨[], rows₁, fun v => .succ fun us k hu hf => ?_⟩
      have hempty := mt (hindent hu).1 hi
      exact ⟨_, body_empty ((hs.atLineEnd_eq hu).trans hend) hempty, rfl, hskip _ _ hu⟩

/-- What stands at the front of a line that is no header. -/
theorem line_words (ih : Tracks n count fuel) {found : List Item × List Token}
    (hs : Shows (.loops count) (.line l :: rows) ts) (hw : (peekKind ts).isWord)
    (h : Parser.line (fuel + 1) ts = .ok found) :
    ∃ (items : List (PartItem n)) (rows' : List (Row n)), ∀ v,
      ReadsRows v (.line l :: rows) (fuel + 1) Parser.line fun other =>
        other.1.map Item.erase = viewItems v items ∧ Leaves v (.line l :: rows) rows' other.2 := by
  have hwl : (peekKind l).isWord := by rwa [← hs.peekKind_line]
  by_cases hsemi : peekKind l = .semicolon
  · rw [line_semicolon (hs.peekKind_line.trans hsemi)] at h
    obtain ⟨items, rows', hline⟩ := ih.line (hs.tail_line hwl) h
    refine ⟨items, rows', fun v => .succ fun us k hu hf => ?_⟩
    rw [line_semicolon (hu.peekKind_line.trans hsemi)]
    exact hline v us.tail k (hu.tail_line hwl) hf
  have hkind : ∀ {w us}, Shows w (.line l :: rows) us →
      peekKind us ∉ [TokenKind.semicolon, .newline, .eof, .dedent] := fun hu hm => by
    rw [hu.peekKind_line] at hm
    simp only [List.mem_cons, List.not_mem_nil, or_false, hsemi, false_or] at hm
    rcases hm with hm | hm | hm <;> (rw [hm] at hwl; cases hwl)
  rw [line_statement (hkind hs)] at h
  obtain ⟨⟨item, lineDone, rest⟩, hi, h⟩ := bind_eq_ok.1 h
  obtain ⟨part, rows', hrows, hitem⟩ := ih.statement hs hi
  obtain ⟨-, -, -, hs'⟩ := (hitem _).self hs hi
  dsimp only at h hrows hs'
  split at h
  · rename_i hdone
    obtain rfl := pure_eq_ok.1 h
    refine ⟨[part], rows', fun v => .succ fun us k hu hf => ?_⟩
    obtain ⟨⟨item', lineDone', rest'⟩, ho, hpart, hdone', hleaves⟩ := hitem v us k hu hf
    obtain rfl : lineDone' = lineDone := hdone'
    refine ⟨([item'], rest'), ?_, ?_, hleaves⟩
    · simp only [line_statement (hkind hu), ho, ok_bind, if_pos hdone]
      rfl
    · simp [viewItems, hpart]
  · rename_i hdone
    obtain ⟨l', rfl⟩ := hrows.resolve_left hdone
    split at h
    · rename_i hend
      obtain ⟨⟨items, rest'⟩, hl, h⟩ := bind_eq_ok.1 h
      obtain rfl := pure_eq_ok.1 h
      obtain ⟨items, rows'', hline⟩ := ih.line hs' hl
      refine ⟨part :: items, rows'', fun v => .succ fun us k hu hf => ?_⟩
      obtain ⟨⟨item', lineDone', rest'⟩, ho, hpart, hdone', hleaves⟩ := hitem v us k hu hf
      obtain rfl : lineDone' = lineDone := hdone'
      obtain ⟨other, ho', hitems, hleaves'⟩ := hline v rest' k hleaves.2 hf
      have hend' : (atLineEnd rest' || peekKind rest' == .semicolon) = true := by
        rwa [hleaves.2.peekKind_line, ← hs'.peekKind_line, hs'.atLineEnd_eq hleaves.2]
      refine ⟨(item' :: other.1, other.2), ?_, ?_, hleaves.trans hleaves'⟩
      · simp only [line_statement (hkind hu), ho, ok_bind, if_neg hdone, hend', if_true, ho']
        rfl
      · simp [viewItems, hpart, hitems]
    · cases h

/-! ### Blocks -/

/-- The lines of a block. In front of the first one there may be more, as long as what it adds to the block
is known. -/
theorem block_words (ih : Tracks n count fuel) {done : List Stmt} {found : List Stmt × List Token}
    {parts : List (Part n)} (hs : Shows (.loops count) rows ts) (hw : (peekKind ts).isWord)
    (hd : eraseBlock done = (viewAll (.loops count) parts).reverse)
    (h : Parser.block (fuel + 1) done ts = .ok found) :
    ∃ (parts' : List (Part n)) (rows' : List (Row n)), ∀ v k k' done' base us us', Shows v rows us →
      fuel + v.slack rows ≤ k → fuel + v.slack rows ≤ k' → (peekKind us').isWord →
      (∀ {items rest}, Parser.line k us = .ok (items, rest) → ∃ first first',
        Parser.line k' us' = .ok (first ++ items, rest) ∧ attachAll done' first = .ok first' ∧
          eraseBlock first' = (viewAll v parts).reverse ++ base) →
      ∃ other, Parser.block (k' + 1) done' us' = .ok other ∧
        eraseBlock other.1 = base.reverse ++ viewAll v parts' ∧ Leaves v rows rows' other.2 := by
  rw [block_line hw] at h
  obtain ⟨⟨items, rest⟩, hl, h⟩ := bind_eq_ok.1 h
  obtain ⟨done₁, hd₁, h⟩ := bind_eq_ok.1 h
  obtain ⟨lineItems, rows₁, hline⟩ := ih.line hs hl
  obtain ⟨hitems, -, hs₁⟩ := (hline _).self hs hl
  obtain ⟨parts₁, hattach⟩ := attachAll_of_view hd hitems hd₁
  obtain ⟨done₂, hd₂, hparts₁⟩ := hattach (hd.trans (List.append_nil _).symm) hitems
  rw [hd₁] at hd₂
  cases hd₂
  obtain ⟨parts', rows', hblock⟩ := ih.block hs₁ (hparts₁.trans (List.append_nil _)) h
  refine ⟨parts', rows', fun v k k' done' base us us' hu hk hk' hw' hfront => ?_⟩
  obtain ⟨⟨items', rest'⟩, hl', hitems', hleaves⟩ := hline v us k hu hk
  obtain ⟨first, first', hline', hfirst, hbase⟩ := hfront hl'
  obtain ⟨done', hd', hparts'⟩ := hattach hbase hitems'
  obtain ⟨other, ho, hstmts, hleaves'⟩ := hblock v _ _ hparts' rest' k' hleaves.2 (by
    have := hleaves.1
    omega)
  refine ⟨other, ?_, hstmts, hleaves.trans hleaves'⟩
  simp only [block_line hw', hline', ok_bind, attachAll_append, hfirst, hd', ho]

theorem block_succ (ih : Tracks n count fuel) {done : List Stmt} {found : List Stmt × List Token}
    {parts : List (Part n)} (hs : Shows (.loops count) rows ts)
    (hd : eraseBlock done = (viewAll (.loops count) parts).reverse)
    (h : Parser.block (fuel + 1) done ts = .ok found) :
    ∃ (parts' : List (Part n)) (rows' : List (Row n)), ∀ v done' base,
      eraseBlock done' = (viewAll v parts).reverse ++ base →
      ReadsRows v rows (fuel + 1) (Parser.block · done') fun other =>
        eraseBlock other.1 = base.reverse ++ viewAll v parts' ∧ Leaves v rows rows' other.2 := by
  by_cases hw : (peekKind ts).isWord
  · obtain ⟨parts', rows', hblock⟩ := ih.block_words hs hw hd h
    refine ⟨parts', rows', fun v done' base hd' => .succ fun us k hu hf => ?_⟩
    exact hblock v k k done' base us us hu hf hf (hs.isWord hw hu) fun hl => ⟨[], done', hl, rfl, hd'⟩
  · have hk : (peekKind ts).isWord = false := Bool.eq_false_iff.2 hw
    by_cases hnewline : peekKind ts = .newline
    · rw [block_newline hnewline] at h
      obtain ⟨rows₁, hnext⟩ := hs.next hk
      obtain ⟨parts', rows', hblock⟩ := ih.block (hnext _ _ hs).2.2 hd h
      refine ⟨parts', rows', fun v done' base hd' => .succ fun us k hu hf => ?_⟩
      obtain ⟨hu', hleaves⟩ := hnext v us hu
      obtain ⟨other, ho, hparts, hleaves'⟩ := hblock v done' base hd' us.tail k hleaves.2 (by
        have := hleaves.1
        omega)
      exact ⟨other, (block_newline (hu'.trans hnewline)).trans ho, hparts, hleaves.trans hleaves'⟩
    · have hend : peekKind ts = .eof ∨ peekKind ts = .dedent := by
        rw [Parser.block] at h
        split at h
        · exact .inl ‹_›
        · exact .inr ‹_›
        · contradiction
        · cases h
        · simp_all [TokenKind.isWord]
      rw [block_end hend] at h
      refine ⟨parts, rows, fun v done' base hd' => .succ fun us k hu hf => ?_⟩
      have hend' : peekKind us = .eof ∨ peekKind us = .dedent :=
        hend.imp (hs.peekKind_eq_iff rfl hu).2 (hs.peekKind_eq_iff rfl hu).2
      refine ⟨(done'.reverse, us), block_end hend', ?_, Nat.le_refl _, hu⟩
      rw [eraseBlock_reverse, hd', List.reverse_append, List.reverse_reverse]

/-! ### Headers -/

/-- The loop for a header and its body on the same line. -/
theorem line_inline (ih : Tracks n count fuel) {i : Fin n} {found : List Item × List Token}
    (hs : Shows (.loops count) (.inline i :: rows) ts) (h : Parser.line (fuel + 2) ts = .ok found) :
    ∃ (items : List (PartItem n)) (rows' : List (Row n)), ∀ v,
      ReadsRows v (.inline i :: rows) (fuel + 2) Parser.line fun other =>
        other.1.map Item.erase = viewItems v items ∧ Leaves v (.inline i :: rows) rows' other.2 := by
  obtain ⟨lead, head, rest, rfl, hh, rfl, hs⟩ := hs
  obtain ⟨hfuel, b, rest', hb, rfl⟩ := (line_loopHead hh).1 h
  obtain ⟨parts, rows', hbody⟩ := ih.body hs hb
  refine ⟨[.part (.once i true parts)], rows', fun v us fuel' hu hf => ?_⟩
  obtain ⟨lead, head, rest, hl, hh, rfl, hu⟩ := hu
  simp only [View.slack] at hf
  have hlag : fuel + 2 + v.slack rows + v.lag ≤ fuel' := by omega
  obtain ⟨k, hk, hlead⟩ := line_lead hl (head ++ rest) hlag
  obtain ⟨k, rfl⟩ : ∃ m, k = m + 2 := ⟨k - 2, by omega⟩
  obtain ⟨⟨b', rest'⟩, hb', hparts, hleaves⟩ := hbody v rest k hu (by omega)
  obtain ⟨first, hfirst, hitems⟩ := hlead ((line_loopHead hh).2 ⟨by omega, b', rest', hb', rfl⟩)
  refine ⟨_, hfirst, ?_, hleaves.1.trans (Nat.le_add_left _ _), hleaves.2⟩
  simp only at hparts
  simp [viewItems, PartItem.view, Part.view, View.loop, Item.erase, Stmt.erase, Expr.erase, hitems, hparts]

/-- The loop for a header and the block behind it. -/
theorem line_block (ih : Tracks n count fuel) {i : Fin n} {found : List Item × List Token}
    (hs : Shows (.loops count) (.block i :: rows) ts) (h : Parser.line (fuel + 4) ts = .ok found) :
    ∃ (items : List (PartItem n)) (rows' : List (Row n)), ∀ v,
      ReadsRows v (.block i :: rows) (fuel + 4) Parser.line fun other =>
        other.1.map Item.erase = viewItems v items ∧ Leaves v (.block i :: rows) rows' other.2 := by
  obtain ⟨head, newline, indent, lead, rest, hh, hn, hi, rfl, hw, rfl, hs⟩ := hs
  obtain ⟨hfuel, b, rest', hb, rfl⟩ := (line_loopHead hh).1 h
  rw [body_indented hn hi, List.nil_append] at hb
  obtain ⟨⟨b, rest'⟩, hblock, hb⟩ := bind_eq_ok.1 hb
  have hstart : eraseBlock [] = (viewAll (.loops count) ([] : List (Part n))).reverse := rfl
  obtain ⟨parts, rows₁, hwords⟩ := ih.block_words hs hw hstart hblock
  obtain ⟨other, ho, -, hleaves⟩ := hwords (.loops count) fuel fuel [] [] rest rest hs (by simp) (by simp) hw
    fun hl => ⟨[], [], hl, rfl, rfl⟩
  rw [hblock] at ho
  cases ho
  obtain ⟨rows', hdedent⟩ := hleaves.2.skip .dedent rfl (by simp)
  refine ⟨[.part (.once i false parts)], rows', fun v us fuel' hu hf => ?_⟩
  obtain ⟨head, newline, indent, lead, rest, hh, hn, hi, hl, hw, rfl, hu⟩ := hu
  simp only [View.slack] at hf
  obtain ⟨m, rfl⟩ : ∃ m, fuel' = m + 4 := ⟨fuel' - 4, by omega⟩
  have hlag : fuel + v.slack rows + v.lag ≤ m := by omega
  obtain ⟨k, hk, hlead⟩ := line_lead hl rest hlag
  obtain ⟨⟨b', rest'⟩, hb', hparts, hleaves⟩ :=
    hwords v k m [] (v.lead i).reverse rest (lead ++ rest) hu hk (by omega) (hl.isWord hw) fun hline => by
      obtain ⟨first, hfirst, hitems⟩ := hlead hline
      have hattach := attachAll_stmts (eraseBlock []) (v.lead i)
      rw [← hitems] at hattach
      obtain ⟨first', hf', he⟩ := attachAll_eq_ok.1 hattach
      exact ⟨first, first', hfirst, hf', he.trans (List.append_nil _)⟩
  have hleaves' := hleaves.trans (hdedent v rest' hleaves.2)
  have hbody : Parser.body (m + 2) (newline :: indent :: (lead ++ rest)) = .ok (b', skip .dedent rest') := by
    rw [body_indented hn hi, hb']
    rfl
  refine ⟨_, (line_loopHead hh).2 ⟨by omega, b', _, hbody, rfl⟩, ?_,
    hleaves'.1.trans (Nat.le_add_left _ _), hleaves'.2⟩
  simp only [List.reverse_reverse] at hparts
  simp [viewItems, PartItem.view, Part.view, View.loop, Item.erase, Stmt.erase, Expr.erase, hparts]

theorem line_succ (ih : ∀ k ≤ fuel, Tracks n count k) {found : List Item × List Token}
    (hs : Shows (.loops count) rows ts) (h : Parser.line (fuel + 1) ts = .ok found) :
    ∃ (items : List (PartItem n)) (rows' : List (Row n)), ∀ v, ReadsRows v rows (fuel + 1) Parser.line fun other =>
      other.1.map Item.erase = viewItems v items ∧ Leaves v rows rows' other.2 := by
  by_cases hw : (peekKind ts).isWord
  · cases rows with
    | nil =>
      obtain rfl : ts = [] := hs
      cases hw
    | cons row rows =>
      cases row with
      | line l => exact (ih fuel (Nat.le_refl _)).line_words hs hw h
      | layout kind =>
        obtain ⟨hk, t, rest, rfl, rfl, -⟩ := hs
        rw [peekKind, peek, hk] at hw
        cases hw
      | inline i =>
        have hfuel : 12 ≤ fuel + 1 := by
          obtain ⟨lead, head, rest, rfl, hh, rfl, -⟩ := hs
          exact fuel_of_loopHead hh h
        obtain ⟨m, rfl⟩ : ∃ m, fuel = m + 1 := ⟨fuel - 1, by omega⟩
        exact (ih m (by omega)).line_inline hs h
      | block i =>
        have hfuel : 12 ≤ fuel + 1 := by
          obtain ⟨head, newline, indent, lead, rest, hh, -, -, -, -, rfl, -⟩ := hs
          exact fuel_of_loopHead hh h
        obtain ⟨m, rfl⟩ : ∃ m, fuel = m + 3 := ⟨fuel - 3, by omega⟩
        exact (ih m (by omega)).line_block hs h
  · have hk : (peekKind ts).isWord = false := Bool.eq_false_iff.2 hw
    by_cases hnewline : peekKind ts = .newline
    · obtain ⟨rows', hnext⟩ := hs.next hk
      refine ⟨[], rows', fun v => .succ fun us k hu hf => ?_⟩
      obtain ⟨hu', hleaves⟩ := hnext v us hu
      exact ⟨_, line_newline (hu'.trans hnewline), rfl, hleaves⟩
    · have hend : peekKind ts = .eof ∨ peekKind ts = .dedent := by
        rw [Parser.line] at h
        split at h
        · simp_all [TokenKind.isWord]
        · contradiction
        · exact .inl ‹_›
        · exact .inr ‹_›
        · obtain ⟨first, hf, -⟩ := bind_eq_ok.1 h
          exact absurd (isWord_of_statement hf) hw
      refine ⟨[], rows, fun v => .succ fun us k hu hf => ?_⟩
      have hend' : peekKind us = .eof ∨ peekKind us = .dedent :=
        hend.imp (hs.peekKind_eq_iff rfl hu).2 (hs.peekKind_eq_iff rfl hu).2
      exact ⟨_, line_end hend', rfl, Nat.le_refl _, hu⟩

end Tracks

theorem tracks (n : Nat) (count : Nat → Nat) (fuel : Nat) : Tracks n count fuel := by
  induction fuel using Nat.strongRecOn with
  | ind fuel ih =>
    cases fuel with
    | zero => exact .zero
    | succ fuel =>
      have ih : ∀ k ≤ fuel, Tracks n count k := fun k hk => ih k (Nat.lt_succ_of_le hk)
      have hlast := ih fuel (Nat.le_refl _)
      exact {
        block := hlast.block_succ
        line := Tracks.line_succ ih
        statement := hlast.statement_succ
        bare := Tracks.bare_succ
        conditional := hlast.conditional_succ
        body := hlast.body_succ }

/-- Where the headers of a sketch can be read as loops, they can be read in every view. -/
theorem program_view {count : Nat → Nat} {rows : List (Row n)} {ts : List Token} {stmts : List Stmt}
    (hs : Shows (.loops count) rows ts) (h : program ts = .ok stmts) :
    ∃ parts : List (Part n), ∀ v us, Shows v rows us →
      ∃ stmts', program us = .ok stmts' ∧ eraseBlock stmts' = viewAll v parts := by
  obtain ⟨⟨stmts, rest⟩, hb, h⟩ := bind_eq_ok.1 h
  dsimp only at h
  split at h
  · rename_i heof
    have hstart : ∀ v : View, eraseBlock [] = (viewAll v ([] : List (Part n))).reverse ++ [] := fun _ => rfl
    have hstart' : eraseBlock [] = (viewAll (.loops count) ([] : List (Part n))).reverse := rfl
    obtain ⟨parts, rows', hblock⟩ := (tracks n count _).block hs hstart' hb
    obtain ⟨-, -, hs'⟩ := (hblock _ _ _ (hstart _)).self hs hb
    refine ⟨parts, fun v us hu => ?_⟩
    have hlength := Shows.length_le hs hu
    obtain ⟨other, ho, hparts, -, hu'⟩ := hblock v [] [] (hstart v) us (16 * (us.length + 1)) hu (by omega)
    refine ⟨other.1, ?_, hparts⟩
    have hend : peekKind other.2 = .eof := (hs'.peekKind_eq_iff rfl hu').2 heof
    simp only [program, ho, ok_bind, hend, if_true]
    rfl
  · cases h

end Parser

end LiveSketch.Script

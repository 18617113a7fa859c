import LiveSketch.Proofs.Script.Grammar
import LiveSketch.Proofs.Script.ReportTokens

/-!
# Reports in the tree

`parse_reports`: in the tree of a script the marker is only called with the number of one of the lines that
the text reports. The parser leaves a suffix of its tokens, so what holds of the calls among them goes on to
hold. The number in parentheses is read as the one argument (`parenthesized_number`), and since the
parenthesis touches the marker, the marker is never read as a name of its own.
-/
namespace LiveSketch.Script

open Number (toCount)
open LiveSketch.Script.Parser

/-! ## Trees whose calls of the marker have the right numbers -/

section

variable (lines : Nat → Prop)

mutual

/-- A call of the marker in the expression has no arguments or the number of one of these lines first. -/
def Expr.Reports : Expr → Prop
  | .literal _ | .ident _ _ => True
  | .unary _ arg => arg.Reports
  | .binary _ left right => left.Reports ∧ right.Reports
  | .call function args _ =>
    (function = doOnceMarker → ∀ e ∈ args.head?, ∃ x, e = .literal (.number x) ∧ lines (toCount x)) ∧
      Expr.AllReport args

/-- The same of all arguments. -/
def Expr.AllReport : List Expr → Prop
  | [] => True
  | e :: es => e.Reports ∧ Expr.AllReport es

end

mutual

/-- The same of the expressions of a statement. -/
def Stmt.Reports : Stmt → Prop
  | .expr e => e.Reports lines
  | .assign _ _ value _ => value.Reports lines
  | .loop count body => count.Reports lines ∧ Stmt.AllReport body
  | .branch condition thenBody elseBody =>
    condition.Reports lines ∧ Stmt.AllReport thenBody ∧ Stmt.ElseReports elseBody

/-- The same of the statements of a block. -/
def Stmt.AllReport : List Stmt → Prop
  | [] => True
  | s :: rest => s.Reports ∧ Stmt.AllReport rest

/-- The same of an `else` part. -/
def Stmt.ElseReports : Option (List Stmt) → Prop
  | none => True
  | some body => Stmt.AllReport body

end

/-- An expression that has been read to its end: the marker alone is none. -/
def Expr.Settled (e : Expr) : Prop :=
  e.Reports lines ∧ ∀ offset, e ≠ .ident doOnceMarker offset

end

variable {lines : Nat → Prop}

theorem Stmt.allReport_nil : Stmt.AllReport lines [] := trivial

theorem Stmt.allReport_iff {stmts : List Stmt} :
    Stmt.AllReport lines stmts ↔ ∀ s ∈ stmts, s.Reports lines := by
  induction stmts with
  | nil => simp [Stmt.AllReport]
  | cons s stmts ih => simp [Stmt.AllReport, ih]

theorem Stmt.allReport_reverse {stmts : List Stmt} (h : Stmt.AllReport lines stmts) :
    Stmt.AllReport lines stmts.reverse :=
  Stmt.allReport_iff.2 fun s hs => Stmt.allReport_iff.1 h s (List.mem_reverse.1 hs)

namespace Parser

/-! ## A number in parentheses -/

theorem operand_number {fuel : Nat} {x : Float} {number : Token} {ts : List Token} {found : Expr × List Token}
    (hx : number.kind = .number x) (h : operand fuel (number :: ts) = .ok found) :
    found = (.literal (.number x), ts) := by
  have hp : peekKind (number :: ts) = .number x := hx
  cases fuel with
  | zero => cases h
  | succ fuel =>
    rw [operand, hp] at h
    cases fuel with
    | zero => cases h
    | succ fuel =>
      cases fuel with
      | zero => cases h
      | succ fuel =>
        simp [prefixOp?, postfixed, primary, peek, hx, ok_bind] at h
        exact (pure_eq_ok.1 h).symm

theorem expression_number {fuel level : Nat} {x : Float} {number right : Token} {ts : List Token}
    {found : Expr × List Token} (hx : number.kind = .number x) (hr : right.kind = .rightParen)
    (h : expression fuel level (number :: right :: ts) = .ok found) :
    found = (.literal (.number x), right :: ts) := by
  induction fuel generalizing level found with
  | zero => cases h
  | succ fuel ih =>
    cases level with
    | zero =>
      rw [expression] at h
      exact operand_number hx h
    | succ level =>
      rw [expression] at h
      obtain ⟨first, hf, h⟩ := bind_eq_ok.1 h
      obtain rfl := ih hf
      have hop : binaryOp? level (peekKind (right :: ts)) = none := by
        have hp : peekKind (right :: ts) = .rightParen := hr
        rw [hp]
        unfold binaryOp?
        split <;> simp_all
      cases fuel with
      | zero => cases h
      | succ fuel =>
        simp only [chain, hop] at h
        cases h
        rfl

/-- The number of a call is its one argument. -/
theorem parenthesized_number {fuel : Nat} {x : Float} {number right : Token} {ts : List Token}
    {found : List Expr × List Token} (hx : number.kind = .number x) (hr : right.kind = .rightParen)
    (h : parenthesized fuel (number :: right :: ts) = .ok found) :
    found.1 = [.literal (.number x)] := by
  cases fuel with
  | zero => cases h
  | succ fuel =>
    have hc : consume? .rightParen (number :: right :: ts) = none := by
      simp [consume?, hx]
    simp only [parenthesized, hc] at h
    cases fuel with
    | zero => cases h
    | succ fuel =>
      rw [moreArguments] at h
      obtain ⟨first, hf, h⟩ := bind_eq_ok.1 h
      obtain rfl := expression_number hx hr hf
      have hcomma : consume? .comma (right :: ts) = none := by simp [consume?, hr]
      simp only [hcomma] at h
      obtain ⟨rest, -, h⟩ := bind_eq_ok.1 h
      rw [← pure_eq_ok.1 h]

/-! ## Expressions -/

/-- With this fuel every function that reads expressions keeps the numbers of the marker's calls and leaves a
suffix of its tokens. Only a name at the front of the tokens is read as a name. -/
structure ExprReports (lines : Nat → Prop) (fuel : Nat) : Prop where
  expression : ∀ {level ts found}, ReportingTokens lines ts →
    Parser.expression fuel level ts = .ok found → found.1.Settled lines ∧ found.2 <:+ ts
  chain : ∀ {level left ts found}, left.Settled lines → ReportingTokens lines ts →
    Parser.chain fuel level left ts = .ok found → found.1.Settled lines ∧ found.2 <:+ ts
  operand : ∀ {ts found}, ReportingTokens lines ts →
    Parser.operand fuel ts = .ok found → found.1.Settled lines ∧ found.2 <:+ ts
  postfixed : ∀ {ts found}, ReportingTokens lines ts →
    Parser.postfixed fuel ts = .ok found → found.1.Settled lines ∧ found.2 <:+ ts
  primary : ∀ {ts found}, ReportingTokens lines ts → Parser.primary fuel ts = .ok found →
    found.2 <:+ ts ∧ (found.1.Settled lines ∨
      ∃ name, (peek ts).kind = .ident name ∧ found = (.ident name (peek ts).start, ts.tail))
  arguments : ∀ {ts found}, ReportingTokens lines ts →
    Parser.arguments fuel ts = .ok found → Expr.AllReport lines found.1 ∧ found.2 <:+ ts
  parenthesized : ∀ {ts found}, ReportingTokens lines ts →
    Parser.parenthesized fuel ts = .ok found → Expr.AllReport lines found.1 ∧ found.2 <:+ ts
  moreArguments : ∀ {ts found}, ReportingTokens lines ts →
    Parser.moreArguments fuel ts = .ok found → Expr.AllReport lines found.1 ∧ found.2 <:+ ts

theorem prefixOp?_settled {kind : TokenKind} {f : Expr → Expr} (h : prefixOp? kind = some f) {e : Expr}
    (he : e.Settled lines) : (f e).Settled lines := by
  unfold prefixOp? at h
  split at h <;> cases h
  · exact ⟨he.1, fun _ h => by cases h⟩
  · exact he
  · exact ⟨he.1, fun _ h => by cases h⟩
  · exact ⟨he.1, fun _ h => by cases h⟩

/-- Where the marker stands in front, it is a call. -/
theorem marker_call {t : Token} {ts : List Token} (hr : ReportingTokens lines (t :: ts))
    (ht : t.kind = .ident doOnceMarker) :
    ∃ left number right rest x, ts = left :: number :: right :: rest ∧ left.kind = .leftParen ∧
      left.start = t.stop ∧ number.kind = .number x ∧ lines (toCount x) ∧ right.kind = .rightParen := by
  obtain ⟨kind, start, stop⟩ := t
  obtain rfl : kind = .ident doOnceMarker := ht
  exact hr start stop ts List.suffix_rfl

namespace ExprReports

variable {fuel : Nat}

theorem zero : ExprReports lines 0 where
  expression _ h := by cases h
  chain _ _ h := by cases h
  operand _ h := by cases h
  postfixed _ h := by cases h
  primary _ h := by cases h
  arguments _ h := by cases h
  parenthesized _ h := by cases h
  moreArguments _ h := by cases h

theorem expression_succ (ih : ExprReports lines fuel) {level : Nat} {ts : List Token}
    {found : Expr × List Token} (hr : ReportingTokens lines ts)
    (h : Parser.expression (fuel + 1) level ts = .ok found) :
    found.1.Settled lines ∧ found.2 <:+ ts := by
  cases level with
  | zero => exact ih.operand hr h
  | succ level =>
    rw [Parser.expression] at h
    obtain ⟨first, hf, h⟩ := bind_eq_ok.1 h
    obtain ⟨he, hs⟩ := ih.expression hr hf
    obtain ⟨he', hs'⟩ := ih.chain he (hr.suffix hs) h
    exact ⟨he', hs'.trans hs⟩

theorem chain_succ (ih : ExprReports lines fuel) {level : Nat} {left : Expr} {ts : List Token}
    {found : Expr × List Token} (hl : left.Settled lines) (hr : ReportingTokens lines ts)
    (h : Parser.chain (fuel + 1) level left ts = .ok found) :
    found.1.Settled lines ∧ found.2 <:+ ts := by
  rw [Parser.chain] at h
  split at h
  · cases h
    exact ⟨hl, List.suffix_rfl⟩
  · rename_i op _
    obtain ⟨right, hf, h⟩ := bind_eq_ok.1 h
    have ht := List.tail_suffix ts
    obtain ⟨he, hs⟩ := ih.expression (hr.suffix ht) hf
    have hb : (Expr.binary op left right.1).Settled lines := ⟨⟨hl.1, he.1⟩, fun _ h => by cases h⟩
    obtain ⟨he', hs'⟩ := ih.chain hb (hr.suffix (hs.trans ht)) h
    exact ⟨he', hs'.trans (hs.trans ht)⟩

theorem operand_succ (ih : ExprReports lines fuel) {ts : List Token} {found : Expr × List Token}
    (hr : ReportingTokens lines ts) (h : Parser.operand (fuel + 1) ts = .ok found) :
    found.1.Settled lines ∧ found.2 <:+ ts := by
  rw [Parser.operand] at h
  split at h
  · rename_i f hf
    obtain ⟨arg, ha, h⟩ := bind_eq_ok.1 h
    have ht := List.tail_suffix ts
    obtain ⟨he, hs⟩ := ih.operand (hr.suffix ht) ha
    obtain rfl := pure_eq_ok.1 h
    exact ⟨prefixOp?_settled hf he, hs.trans ht⟩
  · exact ih.postfixed hr h

theorem primary_succ (ih : ExprReports lines fuel) {ts : List Token} {found : Expr × List Token}
    (hr : ReportingTokens lines ts) (h : Parser.primary (fuel + 1) ts = .ok found) :
    found.2 <:+ ts ∧ (found.1.Settled lines ∨
      ∃ name, (peek ts).kind = .ident name ∧ found = (.ident name (peek ts).start, ts.tail)) := by
  have ht := List.tail_suffix ts
  have literal : ∀ v : Literal, (Expr.literal v).Settled lines := fun v => ⟨trivial, fun _ h => by cases h⟩
  rw [Parser.primary] at h
  dsimp only at h
  split at h
  · cases h
    exact ⟨ht, .inl (literal _)⟩
  · cases h
    exact ⟨ht, .inl (literal _)⟩
  · rename_i name hk
    split at h
    · cases h
      exact ⟨ht, .inl (literal _)⟩
    split at h
    · cases h
      exact ⟨ht, .inl (literal _)⟩
    split at h
    · cases h
    · cases h
      exact ⟨ht, .inr ⟨name, hk, rfl⟩⟩
  · obtain ⟨inner, hi, h⟩ := bind_eq_ok.1 h
    obtain ⟨rest, hc, h⟩ := bind_eq_ok.1 h
    obtain ⟨he, hs⟩ := ih.expression (hr.suffix ht) hi
    obtain rfl := pure_eq_ok.1 h
    exact ⟨(expect_suffix hc).trans (hs.trans ht), .inl he⟩
  · cases h

/-- A name that is not the marker, alone or with arguments. -/
theorem settled_name {name : String} (hn : name ≠ doOnceMarker) (offset : Nat) :
    (Expr.ident name offset).Settled lines ∧
      ∀ args, Expr.AllReport lines args → (Expr.call name args offset).Settled lines := by
  refine ⟨⟨trivial, fun _ e => hn (Expr.ident.inj e).1⟩, fun args ha => ⟨⟨fun e => absurd e hn, ha⟩, fun _ h => by cases h⟩⟩

theorem postfixed_succ (ih : ExprReports lines fuel) {ts : List Token} {found : Expr × List Token}
    (hr : ReportingTokens lines ts) (h : Parser.postfixed (fuel + 1) ts = .ok found) :
    found.1.Settled lines ∧ found.2 <:+ ts := by
  rw [Parser.postfixed] at h
  obtain ⟨⟨e, rest⟩, hp, h⟩ := bind_eq_ok.1 h
  obtain ⟨hs, hcase⟩ := ih.primary hr hp
  dsimp only at h hs hcase
  split at h
  · rename_i name offset
    by_cases hn : name = doOnceMarker
    · obtain ⟨name', hk, he⟩ := hcase.resolve_left fun he => he.2 _ (by rw [hn])
      cases ts with
      | nil => cases hk
      | cons t ts =>
        cases he
        subst hn
        obtain ⟨left, number, right, rest, x, rfl, hleft, hstart, hnumber, hx, hright⟩ := marker_call hr hk
        rw [if_pos ⟨hleft, hstart⟩] at h
        obtain ⟨args, ha, h⟩ := bind_eq_ok.1 h
        have htail : number :: right :: rest <:+ t :: left :: number :: right :: rest :=
          ⟨[t, left], rfl⟩
        obtain ⟨hall, hs'⟩ := ih.parenthesized (hr.suffix htail) ha
        have hargs := parenthesized_number hnumber hright ha
        obtain rfl := pure_eq_ok.1 h
        refine ⟨⟨⟨fun _ e he => ?_, hall⟩, fun _ h => by cases h⟩, hs'.trans htail⟩
        rw [hargs] at he
        cases he
        exact ⟨x, rfl, hx⟩
    · split at h
      · obtain ⟨args, ha, h⟩ := bind_eq_ok.1 h
        have ht := (List.tail_suffix rest).trans hs
        obtain ⟨hall, hs'⟩ := ih.parenthesized (hr.suffix ht) ha
        obtain rfl := pure_eq_ok.1 h
        exact ⟨(settled_name hn offset).2 _ hall, hs'.trans ht⟩
      split at h
      · obtain ⟨args, ha, h⟩ := bind_eq_ok.1 h
        obtain ⟨hall, hs'⟩ := ih.arguments (hr.suffix hs) ha
        obtain rfl := pure_eq_ok.1 h
        exact ⟨(settled_name hn offset).2 _ hall, hs'.trans hs⟩
      · cases h
        exact ⟨(settled_name hn offset).1, hs⟩
  · rename_i hne
    cases h
    refine ⟨hcase.resolve_right ?_, hs⟩
    rintro ⟨name, -, he⟩
    cases he
    exact hne _ _ rfl

theorem arguments_succ (ih : ExprReports lines fuel) {ts : List Token}
    {found : List Expr × List Token} (hr : ReportingTokens lines ts)
    (h : Parser.arguments (fuel + 1) ts = .ok found) :
    Expr.AllReport lines found.1 ∧ found.2 <:+ ts := by
  rw [Parser.arguments] at h
  obtain ⟨first, hf, h⟩ := bind_eq_ok.1 h
  obtain ⟨he, hs⟩ := ih.expression hr hf
  dsimp only at h
  split at h
  · rename_i hc
    obtain ⟨more, hm, h⟩ := bind_eq_ok.1 h
    have hc := (consume?_suffix hc).trans hs
    obtain ⟨hall, hs'⟩ := ih.arguments (hr.suffix hc) hm
    obtain rfl := pure_eq_ok.1 h
    exact ⟨⟨he.1, hall⟩, hs'.trans hc⟩
  · obtain rfl := pure_eq_ok.1 h
    exact ⟨⟨he.1, trivial⟩, hs⟩

theorem parenthesized_succ (ih : ExprReports lines fuel) {ts : List Token}
    {found : List Expr × List Token} (hr : ReportingTokens lines ts)
    (h : Parser.parenthesized (fuel + 1) ts = .ok found) :
    Expr.AllReport lines found.1 ∧ found.2 <:+ ts := by
  rw [Parser.parenthesized] at h
  split at h
  · rename_i hc
    cases h
    exact ⟨trivial, consume?_suffix hc⟩
  · exact ih.moreArguments hr h

theorem moreArguments_succ (ih : ExprReports lines fuel) {ts : List Token}
    {found : List Expr × List Token} (hr : ReportingTokens lines ts)
    (h : Parser.moreArguments (fuel + 1) ts = .ok found) :
    Expr.AllReport lines found.1 ∧ found.2 <:+ ts := by
  rw [Parser.moreArguments] at h
  obtain ⟨first, hf, h⟩ := bind_eq_ok.1 h
  obtain ⟨he, hs⟩ := ih.expression hr hf
  dsimp only at h
  split at h
  · rename_i hc
    obtain ⟨more, hm, h⟩ := bind_eq_ok.1 h
    have hc := (consume?_suffix hc).trans hs
    obtain ⟨hall, hs'⟩ := ih.moreArguments (hr.suffix hc) hm
    obtain rfl := pure_eq_ok.1 h
    exact ⟨⟨he.1, hall⟩, hs'.trans hc⟩
  · obtain ⟨rest, hc, h⟩ := bind_eq_ok.1 h
    obtain rfl := pure_eq_ok.1 h
    exact ⟨⟨he.1, trivial⟩, (expect_suffix hc).trans hs⟩

end ExprReports

theorem exprReports (lines : Nat → Prop) : ∀ fuel, ExprReports lines fuel
  | 0 => .zero
  | fuel + 1 =>
    have ih := exprReports lines fuel
    { expression := ih.expression_succ
      chain := ih.chain_succ
      operand := ih.operand_succ
      postfixed := ih.postfixed_succ
      primary := ih.primary_succ
      arguments := ih.arguments_succ
      parenthesized := ih.parenthesized_succ
      moreArguments := ih.moreArguments_succ }

/-! ## Statements -/

/-- The same of an item of a block. -/
def Item.Reports (lines : Nat → Prop) : Item → Prop
  | .stmt s => s.Reports lines
  | .otherwise condition body _ => (∀ c ∈ condition, c.Reports lines) ∧ Stmt.AllReport lines body

theorem closeElse?_reports {tail : List Stmt} (ht : Stmt.AllReport lines tail) :
    ∀ {s s' : Stmt}, s.Reports lines → closeElse? tail s = some s' → s'.Reports lines
  | .branch _ _ none, _, hs, h => by
    cases h
    exact ⟨hs.1, hs.2.1, ht⟩
  | .branch _ _ (some [inner]), _, hs, h => by
    obtain ⟨inner', hi, rfl⟩ := Option.map_eq_some_iff.1 h
    exact ⟨hs.1, hs.2.1, closeElse?_reports ht hs.2.2.1 hi, trivial⟩

theorem attach_reports {done done' : List Stmt} {item : Item} (hd : Stmt.AllReport lines done)
    (hi : item.Reports lines) (h : attach done item = .ok done') : Stmt.AllReport lines done' := by
  cases item with
  | stmt s =>
    cases h
    exact ⟨hi, hd⟩
  | otherwise condition body offset =>
    have htail : Stmt.AllReport lines (elseTail condition body) := by
      cases condition with
      | none => exact hi.2
      | some c => exact ⟨⟨hi.1 c rfl, hi.2, trivial⟩, trivial⟩
    cases done with
    | nil => cases h
    | cons last before =>
      simp only [attach] at h
      split at h
      · rename_i last' hl
        cases h
        exact ⟨closeElse?_reports htail hd.1 hl, hd.2⟩
      · cases h

theorem attachAll_reports {items : List Item} (hi : ∀ item ∈ items, item.Reports lines) :
    ∀ {done done' : List Stmt}, Stmt.AllReport lines done → attachAll done items = .ok done' →
      Stmt.AllReport lines done' := by
  induction items with
  | nil =>
    intro done done' hd h
    cases h
    exact hd
  | cons item items ih =>
    intro done done' hd h
    rw [attachAll, List.foldlM_cons] at h
    obtain ⟨next, hn, h⟩ := bind_eq_ok.1 h
    have hnext := attach_reports hd (hi item List.mem_cons_self) hn
    exact ih (fun i hm => hi i (List.mem_cons_of_mem _ hm)) hnext h

/-- The same for the functions that read statements. -/
structure StmtReports (lines : Nat → Prop) (fuel : Nat) : Prop where
  block : ∀ {done ts found}, Stmt.AllReport lines done → ReportingTokens lines ts →
    Parser.block fuel done ts = .ok found → Stmt.AllReport lines found.1 ∧ found.2 <:+ ts
  line : ∀ {ts found}, ReportingTokens lines ts → Parser.line fuel ts = .ok found →
    (∀ item ∈ found.1, item.Reports lines) ∧ found.2 <:+ ts
  statement : ∀ {ts found}, ReportingTokens lines ts → Parser.statement fuel ts = .ok found →
    found.1.Reports lines ∧ found.2.2 <:+ ts
  bare : ∀ {ts found}, ReportingTokens lines ts → Parser.bare fuel ts = .ok found →
    found.1.Reports lines ∧ found.2.2 <:+ ts
  conditional : ∀ {ts found}, ReportingTokens lines ts → Parser.conditional fuel ts = .ok found →
    found.1.Reports lines ∧ Stmt.AllReport lines found.2.1 ∧ found.2.2 <:+ ts
  body : ∀ {ts found}, ReportingTokens lines ts → Parser.body fuel ts = .ok found →
    Stmt.AllReport lines found.1 ∧ found.2 <:+ ts

/-- The marker touches its parenthesis, so it is no command in front of its arguments. -/
theorem argumentsFollow_marker {ts : List Token} (hr : ReportingTokens lines ts)
    (hk : (peek ts).kind = .ident doOnceMarker) : argumentsFollow ts = false := by
  cases ts with
  | nil => cases hk
  | cons t ts =>
    obtain ⟨left, number, right, rest, x, rfl, hleft, hstart, -⟩ := marker_call hr hk
    simp [argumentsFollow, hleft, hstart]

namespace StmtReports

variable {fuel : Nat}

theorem zero : StmtReports lines 0 where
  block _ _ h := by cases h
  line _ h := by cases h
  statement _ h := by cases h
  bare _ h := by cases h
  conditional _ h := by cases h
  body _ h := by cases h

theorem block_succ (ih : StmtReports lines fuel) {done : List Stmt} {ts : List Token}
    {found : List Stmt × List Token} (hd : Stmt.AllReport lines done) (hr : ReportingTokens lines ts)
    (h : Parser.block (fuel + 1) done ts = .ok found) :
    Stmt.AllReport lines found.1 ∧ found.2 <:+ ts := by
  rw [Parser.block] at h
  split at h
  · cases h
    exact ⟨Stmt.allReport_reverse hd, List.suffix_rfl⟩
  · cases h
    exact ⟨Stmt.allReport_reverse hd, List.suffix_rfl⟩
  · have ht := List.tail_suffix ts
    obtain ⟨hall, hs⟩ := ih.block hd (hr.suffix ht) h
    exact ⟨hall, hs.trans ht⟩
  · cases h
  · obtain ⟨first, hf, h⟩ := bind_eq_ok.1 h
    obtain ⟨hi, hs⟩ := ih.line hr hf
    obtain ⟨done', hd', h⟩ := bind_eq_ok.1 h
    obtain ⟨hall, hs'⟩ := ih.block (attachAll_reports hi hd hd') (hr.suffix hs) h
    exact ⟨hall, hs'.trans hs⟩

theorem line_succ (ih : StmtReports lines fuel) {ts : List Token} {found : List Item × List Token}
    (hr : ReportingTokens lines ts) (h : Parser.line (fuel + 1) ts = .ok found) :
    (∀ item ∈ found.1, item.Reports lines) ∧ found.2 <:+ ts := by
  have ht := List.tail_suffix ts
  rw [Parser.line] at h
  split at h
  · obtain ⟨hall, hs⟩ := ih.line (hr.suffix ht) h
    exact ⟨hall, hs.trans ht⟩
  · cases h
    exact ⟨by simp, ht⟩
  · cases h
    exact ⟨by simp, List.suffix_rfl⟩
  · cases h
    exact ⟨by simp, List.suffix_rfl⟩
  · obtain ⟨first, hf, h⟩ := bind_eq_ok.1 h
    obtain ⟨hi, hs⟩ := ih.statement hr hf
    dsimp only at h
    split at h
    · obtain rfl := pure_eq_ok.1 h
      exact ⟨by simpa using hi, hs⟩
    split at h
    · obtain ⟨more, hm, h⟩ := bind_eq_ok.1 h
      obtain ⟨hall, hs'⟩ := ih.line (hr.suffix hs) hm
      obtain rfl := pure_eq_ok.1 h
      exact ⟨by simpa using ⟨hi, hall⟩, hs'.trans hs⟩
    · cases h

theorem bare_succ {ts : List Token} {found : Item × Bool × List Token}
    (hr : ReportingTokens lines ts) (h : Parser.bare (fuel + 1) ts = .ok found) :
    found.1.Reports lines ∧ found.2.2 <:+ ts := by
  rw [Parser.bare] at h
  obtain ⟨first, hf, h⟩ := bind_eq_ok.1 h
  obtain ⟨he, hs⟩ := (exprReports lines fuel).expression hr hf
  dsimp only at h
  split at h
  · split at h
    · obtain rfl := pure_eq_ok.1 h
      exact ⟨⟨fun _ => by simp, trivial⟩, hs⟩
    · obtain rfl := pure_eq_ok.1 h
      exact ⟨he.1, hs⟩
  · obtain rfl := pure_eq_ok.1 h
    exact ⟨he.1, hs⟩

theorem conditional_succ (ih : StmtReports lines fuel) {ts : List Token}
    {found : Expr × List Stmt × List Token} (hr : ReportingTokens lines ts)
    (h : Parser.conditional (fuel + 1) ts = .ok found) :
    found.1.Reports lines ∧ Stmt.AllReport lines found.2.1 ∧ found.2.2 <:+ ts := by
  rw [Parser.conditional] at h
  obtain ⟨first, hf, h⟩ := bind_eq_ok.1 h
  obtain ⟨he, hs⟩ := (exprReports lines fuel).expression hr hf
  dsimp only at h
  split at h
  · rename_i hc
    obtain ⟨inner, hb, h⟩ := bind_eq_ok.1 h
    have hc := (consume?_suffix hc).trans hs
    obtain ⟨hall, hs'⟩ := ih.body (hr.suffix hc) hb
    obtain rfl := pure_eq_ok.1 h
    exact ⟨he.1, hall, hs'.trans hc⟩
  · split at h
    · obtain ⟨inner, hb, h⟩ := bind_eq_ok.1 h
      obtain ⟨hall, hs'⟩ := ih.body (hr.suffix hs) hb
      obtain rfl := pure_eq_ok.1 h
      exact ⟨he.1, hall, hs'.trans hs⟩
    · cases h

theorem body_succ (ih : StmtReports lines fuel) {ts : List Token}
    {found : List Stmt × List Token} (hr : ReportingTokens lines ts)
    (h : Parser.body (fuel + 1) ts = .ok found) :
    Stmt.AllReport lines found.1 ∧ found.2 <:+ ts := by
  rw [Parser.body] at h
  split at h
  · have hn := skip_suffix .newline ts
    split at h
    · cases h
      exact ⟨trivial, hn⟩
    · rename_i hc
      obtain ⟨inner, hb, h⟩ := bind_eq_ok.1 h
      have hc := (consume?_suffix hc).trans hn
      obtain ⟨hall, hs⟩ := ih.block Stmt.allReport_nil (hr.suffix hc) hb
      obtain rfl := pure_eq_ok.1 h
      exact ⟨hall, (skip_suffix .dedent _).trans (hs.trans hc)⟩
  · obtain ⟨first, hf, h⟩ := bind_eq_ok.1 h
    obtain ⟨hi, hs⟩ := ih.line hr hf
    obtain ⟨done, hd, h⟩ := bind_eq_ok.1 h
    obtain rfl := pure_eq_ok.1 h
    exact ⟨Stmt.allReport_reverse (attachAll_reports hi Stmt.allReport_nil hd), hs⟩

theorem statement_succ (ih : StmtReports lines fuel) {ts : List Token}
    {found : Item × Bool × List Token} (hr : ReportingTokens lines ts)
    (h : Parser.statement (fuel + 1) ts = .ok found) :
    found.1.Reports lines ∧ found.2.2 <:+ ts := by
  have ht := List.tail_suffix ts
  rw [Parser.statement] at h
  dsimp only at h
  split at h
  · -- a loop
    obtain ⟨count, hc, h⟩ := bind_eq_ok.1 h
    obtain ⟨he, hs⟩ := (exprReports lines fuel).expression (hr.suffix ht) hc
    obtain ⟨rest, ha, h⟩ := bind_eq_ok.1 h
    have hs := (expect_suffix ha).trans (hs.trans ht)
    obtain ⟨inner, hb, h⟩ := bind_eq_ok.1 h
    obtain ⟨hall, hs'⟩ := ih.body (hr.suffix hs) hb
    obtain rfl := pure_eq_ok.1 h
    exact ⟨⟨he.1, hall⟩, hs'.trans hs⟩
  · -- a conditional
    obtain ⟨inner, hc, h⟩ := bind_eq_ok.1 h
    obtain ⟨he, hall, hs⟩ := ih.conditional (hr.suffix ht) hc
    obtain rfl := pure_eq_ok.1 h
    exact ⟨⟨he, hall, trivial⟩, hs.trans ht⟩
  · -- the line of an else
    split at h
    · rename_i hc
      have hc := (consume?_suffix hc).trans ht
      obtain ⟨inner, hi, h⟩ := bind_eq_ok.1 h
      obtain ⟨he, hall, hs⟩ := ih.conditional (hr.suffix hc) hi
      obtain rfl := pure_eq_ok.1 h
      exact ⟨⟨fun c hc => Option.some.inj hc ▸ he, hall⟩, hs.trans hc⟩
    · obtain ⟨inner, hi, h⟩ := bind_eq_ok.1 h
      have ha := (skip_suffix .arrow ts.tail).trans ht
      obtain ⟨hall, hs⟩ := ih.body (hr.suffix ha) hi
      obtain rfl := pure_eq_ok.1 h
      exact ⟨⟨fun c hc => (by cases hc), hall⟩, hs.trans ha⟩
  · -- a name
    rename_i name _ _ _ hk
    have ht' := (List.tail_suffix ts.tail).trans ht
    split at h
    · split at h
      · cases h
      · obtain ⟨value, hv, h⟩ := bind_eq_ok.1 h
        obtain ⟨he, hs⟩ := (exprReports lines fuel).expression (hr.suffix ht') hv
        obtain rfl := pure_eq_ok.1 h
        exact ⟨he.1, hs.trans ht'⟩
    · split at h
      · cases h
      · obtain rfl := pure_eq_ok.1 h
        exact ⟨trivial, ht'⟩
    · split at h
      · rename_i hf
        obtain ⟨args, ha, h⟩ := bind_eq_ok.1 h
        obtain ⟨hall, hs⟩ := (exprReports lines fuel).arguments (hr.suffix ht) ha
        have hname : name ≠ doOnceMarker := by
          rintro rfl
          simp [argumentsFollow_marker hr hk] at hf
        obtain rfl := pure_eq_ok.1 h
        exact ⟨((ExprReports.settled_name hname (peek ts).start).2 _ hall).1, hs.trans ht⟩
      · exact ih.bare hr h
  · exact ih.bare hr h

end StmtReports

theorem stmtReports (lines : Nat → Prop) : ∀ fuel, StmtReports lines fuel
  | 0 => .zero
  | fuel + 1 =>
    have ih := stmtReports lines fuel
    { block := ih.block_succ
      line := ih.line_succ
      statement := ih.statement_succ
      bare := StmtReports.bare_succ
      conditional := ih.conditional_succ
      body := ih.body_succ }

end Parser

/-- In the tree of a script the marker is only called with the numbers of the calls in the text. -/
theorem parse_reports (hlines : ∀ i, lines i → i < 2 ^ 53) {text : List Char} {stmts : List Stmt}
    (hr : Sketch.Reporting lines text) (h : parse text = .ok stmts) : Stmt.AllReport lines stmts := by
  obtain ⟨ts, hl, h⟩ := bind_eq_ok.1 h
  obtain ⟨found, hb, h⟩ := bind_eq_ok.1 h
  obtain ⟨hall, -⟩ := (Parser.stmtReports lines _).block Stmt.allReport_nil (lex_reporting hlines hr hl) hb
  dsimp only at h
  split at h
  · obtain rfl := pure_eq_ok.1 h
    exact hall
  · cases h

end LiveSketch.Script

import LiveSketch.Proofs.Script.Parentheses
import LiveSketch.Proofs.Script.Renumbering
import LiveSketch.Proofs.Script.Rows

/-!
# Scripts with the same lines

`Mirrors g` relates the tokens of two scripts with the same lines at other places and the same indentation, in
which reports at the same place have numbers that `g` takes to the same value. What the parser reads from the one
it reads from the other, up to the places and the numbers (`program_mirrors`). The induction is on the fuel, which
is the same in both, with a case for each function of the grammar.
-/
namespace LiveSketch.Script

open LiveSketch.Script.Parser

/-- The tokens of a report between semicolons. -/
def IsReportOf (x : Float) (ts : List Token) : Prop :=
  ∃ s m l c r e : Token, ts = [s, m, l, c, r, e] ∧ s.kind = .semicolon ∧ m.kind = .ident doOnceMarker ∧
    l.kind = .leftParen ∧ l.start = m.stop ∧ c.kind = .number x ∧ r.kind = .rightParen ∧ e.kind = .semicolon

/-- The tokens of the same lines, in which reports may have other numbers. -/
inductive Mirrors (g : Float → Float) : List Token → List Token → Prop where
  | eof {t u : Token} : t.kind = .eof → u.kind = .eof → Mirrors g [t] [u]
  | layout {t u : Token} {ts us : List Token} : t.kind.isWord = false → u.kind = t.kind → Mirrors g ts us →
      Mirrors g (t :: ts) (u :: us)
  | line {a b : Nat} {rest rest' ts us : List Token} : Alike a b rest rest' ts us → Mirrors g rest rest' →
      Mirrors g ts us
  | report {x y : Float} {lead lead' ts us : List Token} : IsReportOf x lead → IsReportOf y lead' → g y = g x →
      Mirrors g ts us → Mirrors g (lead ++ ts) (lead' ++ us)

theorem IsReportOf.peekKind {x : Float} {lead : List Token} (h : IsReportOf x lead) (rest : List Token) :
    peekKind (lead ++ rest) = .semicolon := by
  obtain ⟨s, m, l, c, r, e, rfl, hs, -⟩ := h
  exact hs

namespace Mirrors

variable {g : Float → Float} {ts us : List Token}

theorem peekKind (h : Mirrors g ts us) : peekKind us = peekKind ts := by
  cases h with
  | eof ht hu => exact hu.trans ht.symm
  | layout _ hk _ => exact hk
  | line ha _ => exact ha.peekKind
  | report hl hl' _ _ => rw [hl.peekKind, hl'.peekKind]

theorem atLineEnd (h : Mirrors g ts us) : atLineEnd us = atLineEnd ts := by
  rw [atLineEnd_eq, atLineEnd_eq, h.peekKind]

/-- A word other than a semicolon stands in a line. -/
theorem alike (h : Mirrors g ts us) (hw : (Parser.peekKind ts).isWord) (hs : Parser.peekKind ts ≠ .semicolon) :
    ∃ a b rest rest', Alike a b rest rest' ts us ∧ Mirrors g rest rest' := by
  cases h with
  | eof ht _ =>
    rw [Parser.peekKind, peek, ht] at hw
    cases hw
  | layout ht _ _ =>
    rw [Parser.peekKind, peek, ht] at hw
    cases hw
  | line ha hr => exact ⟨_, _, _, _, ha, hr⟩
  | report hl _ _ _ => exact absurd (hl.peekKind _) hs

/-- What does not begin a report can be taken off. -/
theorem tail (h : Mirrors g ts us) (hs : Parser.peekKind ts ≠ .semicolon) (he : Parser.peekKind ts ≠ .eof) :
    Mirrors g ts.tail us.tail := by
  cases h with
  | eof ht _ => exact absurd ht he
  | layout _ _ h => exact h
  | line ha hr =>
    cases ha with
    | newline => exact hr
    | word _ _ _ _ _ ha => exact .line ha hr
  | report hl _ _ _ => exact absurd (hl.peekKind _) hs

theorem skip {kind : TokenKind} (h : Mirrors g ts us) (hs : kind ≠ .semicolon) (he : kind ≠ .eof) :
    Mirrors g (skip kind ts) (Parser.skip kind us) := by
  rw [skip_eq he, skip_eq he, h.peekKind]
  split
  · rename_i hk
    exact h.tail (hk ▸ hs) (hk ▸ he)
  · exact h

/-- What is read from a line is read from the same line in the other script. -/
theorem carry {α β : Type} {erase : α → β} {F : List Token → Except Rejection (α × List Token)}
    (hF : ∀ a b rest rest', Carries a b rest rest' erase F F) (h : Mirrors g ts us)
    (hw : (Parser.peekKind ts).isWord) (hs : Parser.peekKind ts ≠ .semicolon) {found : α × List Token}
    (hf : F ts = .ok found) : ∃ x us', F us = .ok (x, us') ∧ erase x = erase found.1 ∧ Mirrors g found.2 us' := by
  obtain ⟨a, b, rest, rest', ha, hr⟩ := h.alike hw hs
  obtain ⟨x, us', hx, he, ha'⟩ := hF a b rest rest' ha hf
  exact ⟨x, us', hx, he, .line ha' hr⟩

theorem expression {fuel level : Nat} (h : Mirrors g ts us) {found : Expr × List Token}
    (hf : expression fuel level ts = .ok found) :
    ∃ e us', Parser.expression fuel level us = .ok (e, us') ∧ e.erase = found.1.erase ∧ Mirrors g found.2 us' :=
  h.carry (F := Parser.expression fuel level)
    (fun a b rest rest' => (exprAlike a b rest rest' (Nat.le_refl fuel)).expression level)
    (isWord_of_expression hf) (fun hs => by
      have ho := opensOperand_of_expression hf
      rw [hs] at ho
      cases ho) hf

theorem arguments {fuel : Nat} (h : Mirrors g ts us) {found : List Expr × List Token}
    (hf : arguments fuel ts = .ok found) :
    ∃ es us', Parser.arguments fuel us = .ok (es, us') ∧ eraseArgs es = eraseArgs found.1 ∧
      Mirrors g found.2 us' := by
  have ho : (Parser.peekKind ts).opensOperand := by
    cases fuel with
    | zero => cases hf
    | succ fuel =>
      rw [Parser.arguments] at hf
      obtain ⟨first, he, -⟩ := bind_eq_ok.1 hf
      exact opensOperand_of_expression he
  refine h.carry (F := Parser.arguments fuel)
    (fun a b rest rest' => (exprAlike a b rest rest' (Nat.le_refl fuel)).arguments) ?_ ?_ hf
  · revert ho
    cases Parser.peekKind ts <;> simp [TokenKind.opensOperand, TokenKind.isWord]
  · intro hs
    rw [hs] at ho
    cases ho

theorem argumentsFollow (h : Mirrors g ts us) (hw : (Parser.peekKind ts).isWord)
    (hs : Parser.peekKind ts ≠ .semicolon) : argumentsFollow us = argumentsFollow ts := by
  obtain ⟨a, b, rest, rest', ha, -⟩ := h.alike hw hs
  exact ha.argumentsFollow hw

end Mirrors

namespace Parser

/-! ## How much fuel a report takes -/

theorem operand_of_expression {fuel level : Nat} {ts : List Token} {found : Expr × List Token}
    (h : expression fuel level ts = .ok found) :
    ∃ n first, fuel = n + level + 1 ∧ operand n ts = .ok first := by
  induction fuel generalizing level found with
  | zero => cases h
  | succ fuel ih =>
    cases level with
    | zero => exact ⟨fuel, found, rfl, h⟩
    | succ level =>
      rw [expression] at h
      obtain ⟨left, hl, -⟩ := bind_eq_ok.1 h
      obtain ⟨n, first, rfl, ho⟩ := ih hl
      exact ⟨n, first, rfl, ho⟩

theorem fuel_of_report {x : Float} {fuel : Nat} {m l c r : Token} {rest : List Token}
    (hm : m.kind = .ident doOnceMarker) (hl : l.kind = .leftParen) (htouch : l.start = m.stop)
    (hc : c.kind = .number x) {found : Item × Bool × List Token}
    (h : statement fuel (m :: l :: c :: r :: rest) = .ok found) : 23 ≤ fuel := by
  obtain _ | fuel := fuel
  · cases h
  rw [statement_marker hm hl htouch] at h
  obtain _ | fuel := fuel
  · cases h
  rw [bare_eq] at h
  obtain ⟨first, he, -⟩ := bind_eq_ok.1 h
  obtain ⟨n, first, rfl, ho⟩ := operand_of_expression he
  suffices hn : 14 ≤ n by
    simp only [levels]
    omega
  obtain _ | n := n
  · cases ho
  have hprefix : prefixOp? (.ident doOnceMarker) = none := by decide
  simp only [operand, peekKind, peek, hm, hprefix] at ho
  obtain _ | n := n
  · cases ho
  rw [postfixed] at ho
  obtain ⟨name, hp, ho⟩ := bind_eq_ok.1 ho
  obtain _ | n := n
  · cases hp
  simp only [primary, peek, hm] at hp
  cases hp
  simp only [peekKind, peek, hl, htouch, and_self, if_true, List.tail_cons] at ho
  obtain ⟨args, ha, -⟩ := bind_eq_ok.1 ho
  simp only [parenthesized, consume?, hc, reduceCtorEq, if_false] at ha
  obtain _ | n := n
  · cases ha
  rw [moreArguments] at ha
  obtain ⟨arg, ha, -⟩ := bind_eq_ok.1 ha
  have hfuel := fuel_of_expression ha
  simp only [levels] at hfuel
  omega

end Parser

namespace IsReportOf

variable {x : Float} {lead : List Token}

/-- A report is an item of its own. -/
theorem line (hl : IsReportOf x lead) : ∃ offset, ∀ k rest, line (k + 25) (lead ++ rest) = (do
    let (items, rest) ← Parser.line (k + 22) rest
    return (.stmt (.expr (.call doOnceMarker [.literal (.number x)] offset)) :: items, rest)) := by
  obtain ⟨s, m, l, c, r, e, rfl, hs, hm, hpl, htouch, hc, hr, he⟩ := hl
  refine ⟨m.start, fun k rest => ?_⟩
  have hsemi : Parser.peekKind (e :: rest) = .semicolon := he
  have hfront : Parser.peekKind (s :: m :: l :: c :: r :: e :: rest) = .semicolon := hs
  have hcall : statement (k + 23) (m :: l :: c :: r :: e :: rest) =
      .ok (.stmt (.expr (.call doOnceMarker [.literal (.number x)] m.start)), false, e :: rest) :=
    statement_report hm hpl htouch hc hr hsemi
  have hrest : Parser.line (k + 23) (e :: rest) = Parser.line (k + 22) rest := line_semicolon hsemi
  have hfirst : Parser.line (k + 25) (s :: m :: l :: c :: r :: e :: rest) =
      Parser.line (k + 24) (m :: l :: c :: r :: e :: rest) := line_semicolon hfront
  rw [List.cons_append, List.cons_append, List.cons_append, List.cons_append, List.cons_append, List.cons_append,
    List.nil_append, hfirst, line_statement (by simp [Parser.peekKind, peek, hm]), hcall]
  simp only [ok_bind, hsemi, hrest, beq_self_eq_true, Bool.or_true, if_true, Bool.false_eq_true, if_false]

theorem fuel_of_line (hl : IsReportOf x lead) {fuel : Nat} {rest : List Token} {found : List Item × List Token}
    (h : Parser.line fuel (lead ++ rest) = .ok found) : 25 ≤ fuel := by
  obtain ⟨s, m, l, c, r, e, rfl, hs, hm, hpl, htouch, hc, -⟩ := hl
  have hfront : Parser.peekKind (s :: m :: l :: c :: r :: e :: rest) = .semicolon := hs
  obtain _ | fuel := fuel
  · cases h
  have hline : Parser.line fuel (m :: l :: c :: r :: e :: rest) = .ok found := (line_semicolon hfront).symm.trans h
  obtain _ | fuel := fuel
  · cases hline
  rw [line_statement (by simp [Parser.peekKind, peek, hm])] at hline
  obtain ⟨first, hstatement, -⟩ := bind_eq_ok.1 hline
  have hfuel := fuel_of_report hm hpl htouch hc hstatement
  omega

end IsReportOf

namespace Parser

/-! ## Statements -/

variable {g : Float → Float}

/-- The item without its places, and with the numbers of its reports changed. -/
abbrev Item.renumber (g : Float → Float) : Item → Item := Item.map (Stmt.renumber g) Expr.erase

/-- Both scripts give this function the same to read, up to what `erase` forgets. -/
def Mirrored (g : Float → Float) {α β : Type} (erase : α → β) (F : List Token → Except Rejection (α × List Token)) :
    Prop :=
  ∀ ⦃ts us : List Token⦄ ⦃found : α × List Token⦄, Mirrors g ts us → F ts = .ok found →
    ∃ x us', F us = .ok (x, us') ∧ erase x = erase found.1 ∧ Mirrors g found.2 us'

/-- Both scripts give this function the same statement. -/
def MirroredItem (g : Float → Float) (F : List Token → Except Rejection (Item × Bool × List Token)) : Prop :=
  ∀ ⦃ts us : List Token⦄ ⦃found : Item × Bool × List Token⦄, Mirrors g ts us → F ts = .ok found →
    ∃ item us', F us = .ok (item, found.2.1, us') ∧ item.renumber g = found.1.renumber g ∧ Mirrors g found.2.2 us'

/-- Each function that reads statements reads the same in both scripts. -/
structure StmtMirrored (g : Float → Float) (fuel : Nat) : Prop where
  block : ∀ {done done' : List Stmt}, renumberBlock g done' = renumberBlock g done →
    ∀ ⦃ts us : List Token⦄ ⦃found : List Stmt × List Token⦄, Mirrors g ts us → block fuel done ts = .ok found →
      ∃ stmts us', Parser.block fuel done' us = .ok (stmts, us') ∧
        renumberBlock g stmts = renumberBlock g found.1 ∧ Mirrors g found.2 us'
  line : Mirrored g (List.map (Item.renumber g)) (line fuel)
  statement : MirroredItem g (statement fuel)
  bare : MirroredItem g (bare fuel)
  conditional : ∀ ⦃ts us : List Token⦄ ⦃found : Expr × List Stmt × List Token⦄, Mirrors g ts us →
    conditional fuel ts = .ok found → ∃ c stmts us', Parser.conditional fuel us = .ok (c, stmts, us') ∧
      c.erase = found.1.erase ∧ renumberBlock g stmts = renumberBlock g found.2.1 ∧ Mirrors g found.2.2 us'
  body : Mirrored g (renumberBlock g) (body fuel)

/-- The items of a line are attached in both scripts. -/
theorem attachAll_renumber {done done' found : List Stmt} {items items' : List Item}
    (hd : renumberBlock g done' = renumberBlock g done)
    (hi : items'.map (Item.renumber g) = items.map (Item.renumber g)) (h : attachAll done items = .ok found) :
    ∃ found', attachAll done' items' = .ok found' ∧ renumberBlock g found' = renumberBlock g found := by
  have hmap := (keeps_renumber g).attachAll items done
  have hmap' := (keeps_renumber g).attachAll items' done'
  rw [renumberBlock_eq_map, renumberBlock_eq_map] at hd
  rw [hd, hi, hmap, h] at hmap'
  obtain ⟨found', hf, he⟩ := Option.map_eq_some_iff.1 hmap'.symm
  exact ⟨found', toOption_eq_some.1 hf, by rw [renumberBlock_eq_map, renumberBlock_eq_map, he]⟩

namespace StmtMirrored

variable {fuel : Nat}

theorem zero : StmtMirrored g 0 where
  block _ _ _ _ _ h := nomatch h
  line _ _ _ _ h := nomatch h
  statement _ _ _ _ h := nomatch h
  bare _ _ _ _ h := nomatch h
  conditional _ _ _ _ h := nomatch h
  body _ _ _ _ h := nomatch h

theorem erase_asCall {e e' : Expr} (h : e'.erase = e.erase) : (asCall e').erase = (asCall e).erase := by
  rw [Script.Parser.erase_asCall, Script.Parser.erase_asCall, h]

theorem bare_succ : MirroredItem g (Parser.bare (fuel + 1)) := by
  intro ts us found hm h
  rw [bare_eq] at h ⊢
  obtain ⟨first, hf, h⟩ := bind_eq_ok.1 h
  obtain rfl := pure_eq_ok.1 h
  obtain ⟨e, us', he, hee, hm'⟩ := hm.expression hf
  refine ⟨.stmt (.expr (asCall e)), us', by rw [he]; rfl, ?_, hm'⟩
  simp only [Item.renumber, Item.map, Stmt.renumber]
  rw [Expr.renumber_of_erase (erase_asCall hee)]

theorem conditional_succ (ih : StmtMirrored g fuel) ⦃ts us : List Token⦄ ⦃found : Expr × List Stmt × List Token⦄
    (hm : Mirrors g ts us) (h : Parser.conditional (fuel + 1) ts = .ok found) :
    ∃ c stmts us', Parser.conditional (fuel + 1) us = .ok (c, stmts, us') ∧ c.erase = found.1.erase ∧
      renumberBlock g stmts = renumberBlock g found.2.1 ∧ Mirrors g found.2.2 us' := by
  rw [conditional_eq] at h ⊢
  obtain ⟨⟨c, rest⟩, hc, h⟩ := bind_eq_ok.1 h
  obtain ⟨c', us₁, hc', hce, hm₁⟩ := hm.expression hc
  simp only [hc', ok_bind, hm₁.peekKind, hm₁.atLineEnd]
  dsimp only at h
  split at h
  · rename_i hcond
    obtain ⟨b, hb, h⟩ := bind_eq_ok.1 h
    obtain rfl := pure_eq_ok.1 h
    obtain ⟨b', us₂, hb', hbe, hm₂⟩ := ih.body (hm₁.skip (by simp) (by simp)) hb
    exact ⟨c', b', us₂, by rw [if_pos hcond, hb']; rfl, hce, hbe, hm₂⟩
  · cases h

/-- A word that begins a statement is no semicolon. -/
theorem tail_name {ts us : List Token} {name : String} (hm : Mirrors g ts us) (hk : peekKind ts = .ident name) :
    Mirrors g ts.tail us.tail :=
  hm.tail (by simp [hk]) (by simp [hk])

theorem statement_repeat_succ (ih : StmtMirrored g fuel) {ts us : List Token} {found : Item × Bool × List Token}
    (hk : peekKind ts = .ident "repeat") (hm : Mirrors g ts us)
    (h : Parser.statement (fuel + 1) ts = .ok found) : ∃ item us',
      Parser.statement (fuel + 1) us = .ok (item, found.2.1, us') ∧ item.renumber g = found.1.renumber g ∧
        Mirrors g found.2.2 us' := by
  rw [statement_repeat hk] at h
  rw [statement_repeat (hm.peekKind.trans hk)]
  obtain ⟨count, hc, h⟩ := bind_eq_ok.1 h
  obtain ⟨rest, hr, h⟩ := bind_eq_ok.1 h
  obtain ⟨b, hb, h⟩ := bind_eq_ok.1 h
  obtain rfl := pure_eq_ok.1 h
  obtain ⟨harrow, rfl⟩ := (expect_eq_ok (by simp)).1 hr
  obtain ⟨count', us₁, hc', hce, hm₁⟩ := (tail_name hm hk).expression hc
  have hexpect : expect .arrow "'->' after repeat count" us₁ = .ok us₁.tail :=
    (expect_eq_ok (by simp)).2 ⟨hm₁.peekKind.trans harrow, rfl⟩
  obtain ⟨b', us₂, hb', hbe, hm₂⟩ := ih.body (hm₁.tail (by simp [harrow]) (by simp [harrow])) hb
  refine ⟨.stmt (.loop count' b'), us₂, ?_, ?_, hm₂⟩
  · simp only [hc', ok_bind, hexpect, hb']
    rfl
  · simp [Item.renumber, Item.map, Stmt.renumber, hce, hbe]

theorem statement_if_succ (ih : StmtMirrored g fuel) {ts us : List Token} {found : Item × Bool × List Token}
    (hk : peekKind ts = .ident "if") (hm : Mirrors g ts us)
    (h : Parser.statement (fuel + 1) ts = .ok found) : ∃ item us',
      Parser.statement (fuel + 1) us = .ok (item, found.2.1, us') ∧ item.renumber g = found.1.renumber g ∧
        Mirrors g found.2.2 us' := by
  rw [statement_if hk] at h
  rw [statement_if (hm.peekKind.trans hk)]
  obtain ⟨branch, hb, h⟩ := bind_eq_ok.1 h
  obtain rfl := pure_eq_ok.1 h
  obtain ⟨c, b, us', hb', hce, hbe, hm'⟩ := ih.conditional (tail_name hm hk) hb
  refine ⟨.stmt (.branch c b none), us', by rw [hb']; rfl, ?_, hm'⟩
  simp [Item.renumber, Item.map, Stmt.renumber, renumberElse, hce, hbe]

theorem statement_else_succ (ih : StmtMirrored g fuel) {ts us : List Token} {found : Item × Bool × List Token}
    (hk : peekKind ts = .ident "else") (hm : Mirrors g ts us)
    (h : Parser.statement (fuel + 1) ts = .ok found) : ∃ item us',
      Parser.statement (fuel + 1) us = .ok (item, found.2.1, us') ∧ item.renumber g = found.1.renumber g ∧
        Mirrors g found.2.2 us' := by
  have hm₁ := tail_name hm hk
  by_cases hi : peekKind ts.tail = .ident "if"
  · rw [statement_elseIf hk hi] at h
    rw [statement_elseIf (hm.peekKind.trans hk) (hm₁.peekKind.trans hi)]
    obtain ⟨branch, hb, h⟩ := bind_eq_ok.1 h
    obtain rfl := pure_eq_ok.1 h
    obtain ⟨c, b, us', hb', hce, hbe, hm'⟩ := ih.conditional (tail_name hm₁ hi) hb
    refine ⟨.otherwise (some c) b (peek us).start, us', by rw [hb']; rfl, ?_, hm'⟩
    rw [renumberBlock_eq_map, renumberBlock_eq_map] at hbe
    simp [Item.renumber, Item.map, hce, hbe]
  · rw [statement_else hk hi] at h
    rw [statement_else (hm.peekKind.trans hk) (hm₁.peekKind ▸ hi)]
    obtain ⟨b, hb, h⟩ := bind_eq_ok.1 h
    obtain rfl := pure_eq_ok.1 h
    obtain ⟨b', us', hb', hbe, hm'⟩ := ih.body (hm₁.skip (by simp) (by simp)) hb
    refine ⟨.otherwise none b' (peek us).start, us', by rw [hb']; rfl, ?_, hm'⟩
    rw [renumberBlock_eq_map, renumberBlock_eq_map] at hbe
    simp [Item.renumber, Item.map, hbe]

/-- A name and what may follow it. -/
theorem statement_name_succ (ih : StmtMirrored g fuel) {ts us : List Token} {found : Item × Bool × List Token}
    {name : String} (hk : peekKind ts = .ident name) (hn : name ∉ ["repeat", "if", "else"]) (hm : Mirrors g ts us)
    (h : Parser.statement (fuel + 1) ts = .ok found) : ∃ item us',
      Parser.statement (fuel + 1) us = .ok (item, found.2.1, us') ∧ item.renumber g = found.1.renumber g ∧
        Mirrors g found.2.2 us' := by
  have hm₁ := tail_name hm hk
  have hfollow := hm.argumentsFollow (isWord_of_name hk) (by simp [hk])
  rw [statement_name hk hn] at h
  rw [statement_name (hm.peekKind.trans hk) hn, hm₁.peekKind, hfollow]
  cases ho : assignOp? (peekKind ts.tail) with
  | some op =>
    have hw := isWord_of_assignOp? ho
    have hm₂ : Mirrors g ts.tail.tail us.tail.tail := hm₁.tail
      (by rintro e; rw [e] at ho; cases ho) (by rintro e; rw [e] at hw; cases hw)
    simp only [ho] at h ⊢
    by_cases hkey : isKeyword name
    · rw [if_pos hkey] at h
      cases h
    · simp only [hkey, Bool.false_eq_true, if_false] at h ⊢
      obtain ⟨value, hv, h⟩ := bind_eq_ok.1 h
      obtain rfl := pure_eq_ok.1 h
      obtain ⟨value', us', hv', hve, hm'⟩ := hm₂.expression hv
      refine ⟨.stmt (.assign name op value' (peek us).start), us', ?_, ?_, hm'⟩
      · simp only [hv', ok_bind]
        rfl
      · simp [Item.renumber, Item.map, Stmt.renumber, hve]
  | none =>
    cases hstep : stepOp? (peekKind ts.tail) with
    | some op =>
      have hw := isWord_of_stepOp? hstep
      have hm₂ : Mirrors g ts.tail.tail us.tail.tail := hm₁.tail
        (by rintro e; rw [e] at hstep; cases hstep) (by rintro e; rw [e] at hw; cases hw)
      simp only [ho, hstep] at h ⊢
      by_cases hkey : isKeyword name
      · rw [if_pos hkey] at h
        cases h
      · simp only [hkey, Bool.false_eq_true, if_false] at h ⊢
        cases h
        exact ⟨_, _, rfl, rfl, hm₂⟩
    | none =>
      simp only [ho, hstep] at h ⊢
      split at h
      · rename_i hcond
        obtain ⟨args, ha, h⟩ := bind_eq_ok.1 h
        obtain rfl := pure_eq_ok.1 h
        obtain ⟨args', us', ha', hae, hm'⟩ := hm₁.arguments ha
        refine ⟨.stmt (.expr (.call name args' (peek us).start)), us', ?_, ?_, hm'⟩
        · rw [if_pos hcond, ha']
          rfl
        · have hcall : (Expr.call name args' (peek us).start).erase =
              (Expr.call name args.1 (peek ts).start).erase := by simp [Expr.erase, hae]
          simp only [Item.renumber, Item.map, Stmt.renumber]
          rw [Expr.renumber_of_erase hcall]
      · rename_i hcond
        rw [if_neg hcond]
        exact ih.bare hm h

theorem statement_succ (ih : StmtMirrored g fuel) : MirroredItem g (Parser.statement (fuel + 1)) := by
  intro ts us found hm h
  by_cases hname : ∃ name, peekKind ts = .ident name
  · obtain ⟨name, hk⟩ := hname
    by_cases hrepeat : name = "repeat"
    · exact ih.statement_repeat_succ (hrepeat ▸ hk) hm h
    by_cases hif : name = "if"
    · exact ih.statement_if_succ (hif ▸ hk) hm h
    by_cases helse : name = "else"
    · exact ih.statement_else_succ (helse ▸ hk) hm h
    · exact ih.statement_name_succ hk (by simp [hrepeat, hif, helse]) hm h
  · rw [statement_bare fun name hk => hname ⟨name, hk⟩] at h
    rw [statement_bare fun name hk => hname ⟨name, hm.peekKind.symm.trans hk⟩]
    exact ih.bare hm h

/-- A line that begins with a statement. -/
theorem line_statement_succ (ih : StmtMirrored g fuel) {ts us : List Token} {found : List Item × List Token}
    (hk : peekKind ts ∉ [TokenKind.semicolon, .newline, .eof, .dedent]) (hm : Mirrors g ts us)
    (h : Parser.line (fuel + 1) ts = .ok found) : ∃ items us', Parser.line (fuel + 1) us = .ok (items, us') ∧
      items.map (Item.renumber g) = found.1.map (Item.renumber g) ∧ Mirrors g found.2 us' := by
  rw [line_statement hk] at h
  rw [line_statement (hm.peekKind ▸ hk)]
  obtain ⟨⟨item, lineDone, rest⟩, hs, h⟩ := bind_eq_ok.1 h
  obtain ⟨item', us₁, hs', hitem, hm₁⟩ := ih.statement hm hs
  simp only [hs', ok_bind, hm₁.atLineEnd, hm₁.peekKind]
  dsimp only at h
  split at h
  · rename_i hdone
    obtain rfl := pure_eq_ok.1 h
    exact ⟨[item'], us₁, by rw [if_pos hdone]; rfl, by simp [hitem], hm₁⟩
  split at h
  · rename_i hdone hend
    obtain ⟨more, hl, h⟩ := bind_eq_ok.1 h
    obtain rfl := pure_eq_ok.1 h
    obtain ⟨more', us₂, hl', hmore, hm₂⟩ := ih.line hm₁ hl
    exact ⟨item' :: more', us₂, by rw [if_neg hdone, if_pos hend, hl']; rfl, by simp [hitem, hmore], hm₂⟩
  · cases h

/-- Reports with other numbers are read in the same way. -/
theorem line_report_succ (ih : ∀ k ≤ fuel, StmtMirrored g k) {x y : Float} {lead lead' ts us : List Token}
    (hl : IsReportOf x lead) (hl' : IsReportOf y lead') (hg : g y = g x) (hm : Mirrors g ts us)
    {found : List Item × List Token} (h : Parser.line (fuel + 1) (lead ++ ts) = .ok found) :
    ∃ items us', Parser.line (fuel + 1) (lead' ++ us) = .ok (items, us') ∧
      items.map (Item.renumber g) = found.1.map (Item.renumber g) ∧ Mirrors g found.2 us' := by
  obtain ⟨offset, hline⟩ := hl.line
  obtain ⟨offset', hline'⟩ := hl'.line
  have hfuel := hl.fuel_of_line h
  obtain ⟨k, rfl⟩ : ∃ k, fuel = k + 24 := ⟨fuel - 24, by omega⟩
  rw [hline k ts] at h
  obtain ⟨more, hmore, h⟩ := bind_eq_ok.1 h
  obtain rfl := pure_eq_ok.1 h
  obtain ⟨more', us', hmore', hitems, hm'⟩ := (ih (k + 22) (by omega)).line hm hmore
  refine ⟨_ :: more', us', by rw [hline' k us, hmore']; rfl, ?_, hm'⟩
  have hreport := renumber_reportOf hg
  rw [List.map_cons, List.map_cons, hitems]
  congr 1
  simp only [Item.renumber, Item.map, Stmt.renumber]
  exact congrArg (fun e => Item.stmt (.expr e)) hreport

theorem line_succ (ih : ∀ k ≤ fuel, StmtMirrored g k) :
    Mirrored g (List.map (Item.renumber g)) (Parser.line (fuel + 1)) := by
  intro ts us found hm h
  have ihf := ih fuel (Nat.le_refl _)
  by_cases hsemi : peekKind ts = .semicolon
  · cases hm with
    | eof ht _ => exact absurd (ht.symm.trans hsemi) (by simp)
    | layout ht _ _ =>
      rw [peekKind, peek] at hsemi
      rw [hsemi] at ht
      cases ht
    | @line a b rest rest' ts us ha hr =>
      rw [line_semicolon hsemi] at h
      rw [line_semicolon (ha.peekKind.trans hsemi)]
      exact ihf.line (.line (ha.tail (by rw [hsemi]; rfl)) hr) h
    | report hl hl' hg hm => exact line_report_succ ih hl hl' hg hm h
  by_cases hnl : peekKind ts = .newline
  · rw [line_newline hnl] at h
    cases h
    exact ⟨[], us.tail, line_newline (hm.peekKind.trans hnl), rfl, hm.tail (by simp [hnl]) (by simp [hnl])⟩
  by_cases hend : peekKind ts = .eof ∨ peekKind ts = .dedent
  · rw [line_end hend] at h
    cases h
    exact ⟨[], us, line_end (hm.peekKind ▸ hend), rfl, hm⟩
  · exact ihf.line_statement_succ (by simp [hsemi, hnl, not_or.1 hend]) hm h

theorem block_succ (ih : StmtMirrored g fuel) {done done' : List Stmt}
    (hd : renumberBlock g done' = renumberBlock g done) ⦃ts us : List Token⦄ ⦃found : List Stmt × List Token⦄
    (hm : Mirrors g ts us) (h : Parser.block (fuel + 1) done ts = .ok found) :
    ∃ stmts us', Parser.block (fuel + 1) done' us = .ok (stmts, us') ∧
      renumberBlock g stmts = renumberBlock g found.1 ∧ Mirrors g found.2 us' := by
  by_cases hw : (peekKind ts).isWord
  · rw [block_line hw] at h
    rw [block_line (hm.peekKind ▸ hw)]
    obtain ⟨items, hl, h⟩ := bind_eq_ok.1 h
    obtain ⟨done₁, ha, h⟩ := bind_eq_ok.1 h
    obtain ⟨items', us₁, hl', hi, hm₁⟩ := ih.line hm hl
    obtain ⟨done₁', ha', hd₁⟩ := attachAll_renumber hd hi ha
    simp only [hl', ok_bind, ha']
    exact ih.block hd₁ hm₁ h
  · by_cases hend : peekKind ts = .eof ∨ peekKind ts = .dedent
    · rw [block_end hend] at h
      cases h
      refine ⟨done'.reverse, us, block_end (hm.peekKind ▸ hend), ?_, hm⟩
      rw [renumberBlock_eq_map, renumberBlock_eq_map] at hd ⊢
      rw [List.map_reverse, List.map_reverse, hd]
    · by_cases hnl : peekKind ts = .newline
      · rw [block_newline hnl] at h
        rw [block_newline (hm.peekKind.trans hnl)]
        exact ih.block hd (hm.tail (by simp [hnl]) (by simp [hnl])) h
      · have hi : peekKind ts = .indent := by
          revert hw hend hnl
          cases peekKind ts <;> simp [TokenKind.isWord]
        simp only [Parser.block, hi] at h
        cases h

theorem body_succ (ih : StmtMirrored g fuel) : Mirrored g (renumberBlock g) (Parser.body (fuel + 1)) := by
  intro ts us found hm h
  cases hend : atLineEnd ts with
  | false =>
    rw [body_line hend] at h
    rw [body_line (hm.atLineEnd.trans hend)]
    obtain ⟨items, hl, h⟩ := bind_eq_ok.1 h
    obtain ⟨done, ha, h⟩ := bind_eq_ok.1 h
    obtain rfl := pure_eq_ok.1 h
    obtain ⟨items', us', hl', hi, hm'⟩ := ih.line hm hl
    obtain ⟨done', ha', hd⟩ := attachAll_renumber rfl hi ha
    refine ⟨done'.reverse, us', by simp only [hl', ok_bind, ha']; rfl, ?_, hm'⟩
    rw [renumberBlock_eq_map, renumberBlock_eq_map] at hd ⊢
    rw [List.map_reverse, List.map_reverse, hd]
  | true =>
    have hskip : Mirrors g (skip .newline ts) (skip .newline us) := hm.skip (by simp) (by simp)
    by_cases hi : peekKind (skip .newline ts) = .indent
    · rw [body_block hend hi] at h
      rw [body_block (hm.atLineEnd.trans hend) (hskip.peekKind.trans hi)]
      obtain ⟨b, hb, h⟩ := bind_eq_ok.1 h
      obtain rfl := pure_eq_ok.1 h
      obtain ⟨b', us', hb', hbe, hm'⟩ := ih.block rfl (hskip.tail (by simp [hi]) (by simp [hi])) hb
      exact ⟨b', skip .dedent us', by rw [hb']; rfl, hbe, hm'.skip (by simp) (by simp)⟩
    · rw [body_empty hend hi] at h
      cases h
      exact ⟨[], _, body_empty (hm.atLineEnd.trans hend) (hskip.peekKind ▸ hi), rfl, hskip⟩

end StmtMirrored

theorem stmtMirrored (g : Float → Float) (fuel : Nat) : StmtMirrored g fuel := by
  induction fuel using Nat.strongRecOn with
  | ind fuel ih =>
    cases fuel with
    | zero => exact .zero
    | succ fuel =>
      have hle : ∀ k ≤ fuel, StmtMirrored g k := fun k hk => ih k (Nat.lt_succ_of_le hk)
      have ihf := hle fuel (Nat.le_refl _)
      exact {
        block := ihf.block_succ
        line := StmtMirrored.line_succ hle
        statement := ihf.statement_succ
        bare := StmtMirrored.bare_succ
        conditional := ihf.conditional_succ
        body := ihf.body_succ }

end Parser

theorem Mirrors.length {g : Float → Float} {ts us : List Token} (h : Mirrors g ts us) : us.length = ts.length := by
  induction h with
  | eof => rfl
  | layout _ _ _ ih => simp [ih]
  | line ha _ ih =>
    have hl := ha.length
    omega
  | report hl hl' _ _ ih =>
    obtain ⟨_, _, _, _, _, _, rfl, -⟩ := hl
    obtain ⟨_, _, _, _, _, _, rfl, -⟩ := hl'
    simp [ih]

/-- Scripts with the same lines have the same statements up to places and the numbers of reports. -/
theorem program_mirrors {g : Float → Float} {ts us : List Token} {stmts : List Stmt} (hm : Mirrors g ts us)
    (h : program ts = .ok stmts) :
    ∃ stmts', program us = .ok stmts' ∧ renumberBlock g stmts' = renumberBlock g stmts := by
  rw [program] at h ⊢
  obtain ⟨⟨stmts, rest⟩, hb, h⟩ := bind_eq_ok.1 h
  obtain ⟨stmts', us', hb', hs, hm'⟩ := (stmtMirrored g _).block rfl hm hb
  dsimp only at h
  split at h
  · rename_i heof
    obtain rfl := pure_eq_ok.1 h
    refine ⟨stmts', ?_, hs⟩
    rw [hm.length, hb', ok_bind]
    exact if_pos (hm'.peekKind.trans heof)
  · cases h

end LiveSketch.Script

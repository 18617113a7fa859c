import LiveSketch.Proofs.Script.Attaching
import LiveSketch.Proofs.Script.Grammar
import LiveSketch.Proofs.Script.Places

/-!
# The rows of a sketch

The tokens of a script fall into rows: lines, what opens and closes blocks, and the headers of a sketch, for
which each view has tokens of its own (`Shows`).
-/
namespace LiveSketch.Script

open LiveSketch.Script.Parser

/-- What stands in the tokens of a sketch of `n` lines: what is left of a line, an indentation or an end, or
the header on a line, which is followed by its body or by a block. -/
inductive Row (n : Nat) where
  | line (ts : List Token)
  | layout (kind : TokenKind)
  | inline (i : Fin n)
  | block (i : Fin n)

/-- The tokens of the head of a loop that runs `k` times. -/
def IsLoopHead (k : Nat) (ts : List Token) : Prop :=
  ∃ r c a : Token, ts = [r, c, a] ∧ r.kind = .ident "repeat" ∧ c.kind = .number (numeral k) ∧ a.kind = .arrow

/-- The tokens of the report of a line, between semicolons. -/
def IsReport (i : Nat) (ts : List Token) : Prop :=
  ∃ s m l c r e : Token, ts = [s, m, l, c, r, e] ∧ s.kind = .semicolon ∧ m.kind = .ident doOnceMarker ∧
    l.kind = .leftParen ∧ l.start = m.stop ∧ c.kind = .number (numeral i) ∧ r.kind = .rightParen ∧
    e.kind = .semicolon

/-- The tokens in front of the body of a header. -/
def View.IsLead : View → Nat → List Token → Prop
  | .loops _, _, ts => ts = []
  | .reports, i, ts => IsReport i ts

variable {n : Nat}

/-- The tokens that stand for rows in a view. -/
def Shows (v : View) : List (Row n) → List Token → Prop
  | [], ts => ts = []
  | .line l :: rows, ts => ∃ pos rest, Alike 0 pos [] rest l ts ∧ Shows v rows rest
  | .layout kind :: rows, ts =>
    kind.isWord = false ∧ ∃ t rest, ts = t :: rest ∧ t.kind = kind ∧ Shows v rows rest
  | .inline i :: rows, ts => ∃ lead head rest, v.IsLead i lead ∧ IsLoopHead (v.count i) head ∧
    ts = lead ++ (head ++ rest) ∧ Shows v rows rest
  | .block i :: rows, ts => ∃ head newline indent lead rest, IsLoopHead (v.count i) head ∧
    newline.kind = .newline ∧ indent.kind = .indent ∧ v.IsLead i lead ∧ (peekKind rest).isWord ∧
    ts = head ++ newline :: indent :: (lead ++ rest) ∧ Shows v rows rest

/-- How much more fuel than in a script without reports it takes to read the report of a header. -/
def View.lag : View → Nat
  | .loops _ => 0
  | .reports => 32

/-- How much more fuel it takes to read rows. -/
def View.slack (v : View) : List (Row n) → Nat
  | [] => 0
  | .inline _ :: rows => v.lag + v.slack rows
  | .block _ :: rows => v.lag + v.slack rows
  | .line _ :: rows => v.slack rows
  | .layout _ :: rows => v.slack rows

@[simp] theorem View.slack_loops (count : Nat → Nat) (rows : List (Row n)) :
    (View.loops count).slack rows = 0 := by
  induction rows with
  | nil => rfl
  | cons row rows ih => cases row <;> simp [slack, lag, ih]

namespace Parser

/-! ## The tokens of headers -/

/-- An operand with nothing behind it that goes on with an expression. -/
theorem expression_of_operand {fuel : Nat} {ts rest : List Token} {e : Expr}
    (h : operand fuel ts = .ok (e, rest)) :
    ∀ level, (∀ l < level, binaryOp? l (peekKind rest) = none) →
      expression (fuel + 1 + level) level ts = .ok (e, rest)
  | 0, _ => h
  | level + 1, hl => by
    have hlevel := expression_of_operand h level fun l hlt => hl l (Nat.lt_succ_of_lt hlt)
    have hnone := hl level (Nat.lt_succ_self level)
    rw [← Nat.add_assoc, expression, hlevel, ok_bind, Nat.add_right_comm fuel 1 level]
    simp only [chain, hnone]

theorem binaryOp?_closing {kind : TokenKind} (h : kind = .arrow ∨ kind = .rightParen ∨ kind = .semicolon)
    (level : Nat) : binaryOp? level kind = none := by
  unfold binaryOp?
  split <;> simp_all

theorem expression_numeral {fuel : Nat} {c : Token} {x : Float} {rest : List Token}
    (hc : c.kind = .number x)
    (h : peekKind rest = .arrow ∨ peekKind rest = .rightParen ∨ peekKind rest = .semicolon) :
    expression (fuel + 10) levels (c :: rest) = .ok (.literal (.number x), rest) := by
  have hoperand : operand (fuel + 3) (c :: rest) = .ok (.literal (.number x), rest) := by
    simp only [operand, postfixed, primary, peekKind, peek, hc, prefixOp?, List.tail_cons, ok_bind]
    rfl
  exact expression_of_operand hoperand levels fun l _ => binaryOp?_closing h l

theorem fuel_of_operand {fuel : Nat} {ts : List Token} {found : Expr × List Token}
    (h : operand fuel ts = .ok found) : 3 ≤ fuel := by
  induction fuel generalizing ts found with
  | zero => cases h
  | succ fuel ih =>
    rw [operand] at h
    split at h
    · obtain ⟨arg, ha, -⟩ := bind_eq_ok.1 h
      exact Nat.le_succ_of_le (ih ha)
    · cases fuel with
      | zero => cases h
      | succ fuel =>
        rw [postfixed] at h
        obtain ⟨first, hp, -⟩ := bind_eq_ok.1 h
        cases fuel with
        | zero => cases hp
        | succ fuel => omega

theorem fuel_of_expression {fuel level : Nat} {ts : List Token} {found : Expr × List Token}
    (h : expression fuel level ts = .ok found) : level + 4 ≤ fuel := by
  induction fuel generalizing level found with
  | zero => cases h
  | succ fuel ih =>
    cases level with
    | zero => exact Nat.succ_le_succ (fuel_of_operand h)
    | succ level =>
      rw [expression] at h
      obtain ⟨left, hl, -⟩ := bind_eq_ok.1 h
      have hle := ih hl
      omega

/-- The head of a loop and its body are read as a loop, with enough fuel to read the count. -/
theorem statement_loopHead {k fuel : Nat} {head rest : List Token} (hh : IsLoopHead k head)
    {found : Item × Bool × List Token} :
    statement (fuel + 1) (head ++ rest) = .ok found ↔ 10 ≤ fuel ∧ ∃ b ts, body fuel rest = .ok (b, ts) ∧
      found = (.stmt (.loop (.literal (.number (numeral k))) b), true, ts) := by
  obtain ⟨r, c, a, rfl, hr, hc, ha⟩ := hh
  have harrow : peekKind (a :: rest) = .arrow := ha
  have hcount : ∀ m, expression (m + 10) levels (c :: a :: rest) =
      .ok (.literal (.number (numeral k)), a :: rest) :=
    fun m => expression_numeral hc (.inl harrow)
  have hexpect : expect .arrow "'->' after repeat count" (a :: rest) = .ok rest :=
    (expect_eq_ok (by simp)).2 ⟨harrow, rfl⟩
  have hfront : peekKind ([r, c, a] ++ rest) = .ident "repeat" := hr
  rw [statement_repeat hfront]
  simp only [List.cons_append, List.nil_append, List.tail_cons]
  constructor
  · intro h
    obtain ⟨first, hf, h⟩ := bind_eq_ok.1 h
    have hfuel : 10 ≤ fuel := fuel_of_expression hf
    obtain ⟨m, rfl⟩ : ∃ m, fuel = m + 10 := ⟨fuel - 10, by omega⟩
    rw [hcount m] at hf
    cases hf
    simp only [hexpect, ok_bind] at h
    obtain ⟨inner, hb, h⟩ := bind_eq_ok.1 h
    exact ⟨hfuel, inner.1, inner.2, hb, (pure_eq_ok.1 h).symm⟩
  · rintro ⟨hfuel, b, ts, hb, rfl⟩
    obtain ⟨m, rfl⟩ : ∃ m, fuel = m + 10 := ⟨fuel - 10, by omega⟩
    simp only [hcount m, ok_bind, hexpect, hb]
    rfl

/-- A call of the marker that stands for itself is a statement that is an expression. -/
theorem statement_marker {fuel : Nat} {m l : Token} {rest : List Token} (hm : m.kind = .ident doOnceMarker)
    (hl : l.kind = .leftParen) (htouch : l.start = m.stop) :
    statement (fuel + 1) (m :: l :: rest) = bare fuel (m :: l :: rest) := by
  have hfollow : argumentsFollow (m :: l :: rest) = false := by simp [argumentsFollow, hl, htouch]
  rw [statement]
  simp only [peek, hm]
  simp [doOnceMarker, peekKind, peek, hl, assignOp?, stepOp?, hfollow]

/-- The call that reports a number is read as a statement. -/
theorem statement_report {x : Float} {fuel : Nat} {m l c r : Token} {rest : List Token}
    (hm : m.kind = .ident doOnceMarker) (hl : l.kind = .leftParen) (htouch : l.start = m.stop)
    (hc : c.kind = .number x) (hr : r.kind = .rightParen) (hrest : peekKind rest = .semicolon) :
    statement (fuel + 23) (m :: l :: c :: r :: rest) =
      .ok (.stmt (.expr (.call doOnceMarker [.literal (.number x)] m.start)), false, rest) := by
  have hnumber : expression (fuel + 10) levels (c :: r :: rest) =
      .ok (.literal (.number x), r :: rest) := expression_numeral hc (.inr (.inl hr))
  have hargs : parenthesized (fuel + 12) (c :: r :: rest) = .ok ([.literal (.number x)], rest) := by
    simp only [parenthesized, consume?, hc, moreArguments, hnumber, ok_bind, hr, expect, reduceCtorEq,
      if_true, if_false]
    rfl
  have hprimary : primary (fuel + 12) (m :: l :: c :: r :: rest) =
      .ok (.ident doOnceMarker m.start, l :: c :: r :: rest) := by
    simp only [primary, peek, hm]
    rfl
  have hoperand : operand (fuel + 14) (m :: l :: c :: r :: rest) =
      .ok (.call doOnceMarker [.literal (.number x)] m.start, rest) := by
    have hprefix : prefixOp? (.ident doOnceMarker) = none := by decide
    simp only [operand, peekKind, peek, hm, hprefix, postfixed, hprimary, ok_bind, hl, htouch, and_self,
      if_true, List.tail_cons, hargs]
    rfl
  have hexpr : expression (fuel + 21) levels (m :: l :: c :: r :: rest) =
      .ok (.call doOnceMarker [.literal (.number x)] m.start, rest) :=
    expression_of_operand hoperand levels fun l _ => binaryOp?_closing (.inr (.inr hrest)) l
  rw [statement_marker hm hl htouch, bare, hexpr]
  rfl

/-- In front of a body there is nothing, or a report and two semicolons. -/
theorem line_lead {v : View} {i : Nat} {lead : List Token} (hl : v.IsLead i lead) (rest : List Token)
    {fuel fuel' : Nat} (hf : fuel + v.lag ≤ fuel') : ∃ k, fuel ≤ k ∧ ∀ {items ts},
      line k rest = .ok (items, ts) → ∃ first, line fuel' (lead ++ rest) = .ok (first ++ items, ts) ∧
        first.map Item.erase = (v.lead i).map .stmt := by
  cases v with
  | loops count =>
    obtain rfl : lead = [] := hl
    exact ⟨fuel', hf, fun h => ⟨[], h, rfl⟩⟩
  | reports =>
    obtain ⟨s, m, l, c, r, e, rfl, hs, hm, hpl, htouch, hc, hr, he⟩ := hl
    simp only [View.lag] at hf
    obtain ⟨k, rfl⟩ : ∃ k, fuel' = k + 25 := ⟨fuel' - 25, by omega⟩
    refine ⟨k + 22, by omega, fun {items ts} h => ?_⟩
    have hsemi : peekKind (e :: rest) = .semicolon := he
    have hcall : statement (k + 23) (m :: l :: c :: r :: e :: rest) =
        .ok (.stmt (.expr (.call doOnceMarker [.literal (.number (numeral i))] m.start)), false, e :: rest) :=
      statement_report hm hpl htouch hc hr hsemi
    refine ⟨[.stmt (.expr (.call doOnceMarker [.literal (.number (numeral i))] m.start))], ?_, rfl⟩
    have hrest : line (k + 23) (e :: rest) = .ok (items, ts) := (line_semicolon hsemi).trans h
    have hfirst : line (k + 24) (m :: l :: c :: r :: e :: rest) =
        .ok (.stmt (.expr (.call doOnceMarker [.literal (.number (numeral i))] m.start)) :: items, ts) := by
      rw [line_statement (by simp [peekKind, peek, hm]), hcall]
      simp only [ok_bind, hsemi, hrest, beq_self_eq_true, Bool.or_true, if_true, Bool.false_eq_true, if_false]
      rfl
    have hfront : peekKind (s :: m :: l :: c :: r :: e :: rest) = .semicolon := hs
    exact (line_semicolon hfront).trans hfirst

end Parser

variable {α β : Type}

/-- These tokens stand for rows that are left of other rows. -/
def Leaves (v : View) (rows rows' : List (Row n)) (ts : List Token) : Prop :=
  v.slack rows' ≤ v.slack rows ∧ Shows v rows' ts

theorem Leaves.trans {v : View} {rows rows₁ rows₂ : List (Row n)} {ts us : List Token}
    (h : Leaves v rows rows₁ ts) (h' : Leaves v rows₁ rows₂ us) : Leaves v rows rows₂ us :=
  ⟨h'.1.trans h.1, h'.2⟩

/-! ## The next token of rows -/

theorem isWord_loopHead {k : Nat} {head : List Token} (h : IsLoopHead k head) (rest : List Token) :
    (peekKind (head ++ rest)).isWord := by
  obtain ⟨r, c, a, rfl, hr, -⟩ := h
  simp [peekKind, peek, hr, TokenKind.isWord]

theorem View.IsLead.isWord {v : View} {i : Nat} {lead rest : List Token} (h : v.IsLead i lead)
    (hr : (peekKind rest).isWord) : (peekKind (lead ++ rest)).isWord := by
  cases v with
  | loops count =>
    obtain rfl : lead = [] := h
    exact hr
  | reports =>
    obtain ⟨s, m, l, c, r, e, rfl, hs, -⟩ := h
    simp [peekKind, peek, hs, TokenKind.isWord]

namespace Shows

variable {v w : View} {l ts us : List Token} {rows : List (Row n)}

theorem peekKind_line (h : Shows v (.line l :: rows) us) : peekKind us = peekKind l := by
  obtain ⟨pos, rest, ha, -⟩ := h
  exact ha.peekKind

theorem tail_line (h : Shows v (.line l :: rows) us) (hw : (peekKind l).isWord) :
    Shows v (.line l.tail :: rows) us.tail := by
  obtain ⟨pos, rest, ha, hr⟩ := h
  exact ⟨pos, rest, ha.tail hw, hr⟩

theorem argumentsFollow_line (h : Shows v (.line l :: rows) us) (hw : (peekKind l).isWord) :
    argumentsFollow us = argumentsFollow l := by
  obtain ⟨pos, rest, ha, -⟩ := h
  exact ha.argumentsFollow hw

theorem skip_line (h : Shows v (.line l :: rows) us) (kind : TokenKind) (hw : kind.isWord) :
    Shows v (.line (skip kind l) :: rows) (skip kind us) := by
  obtain ⟨pos, rest, ha, hr⟩ := h
  refine ⟨pos, rest, ?_, hr⟩
  unfold skip
  cases hc : consume? kind l with
  | none =>
    rw [ha.consume?_eq_none hc]
    exact ha
  | some l' =>
    obtain ⟨us', hu, ha'⟩ := ha.consume?_eq_some hw hc
    rw [hu]
    exact ha'

/-- What ends a line, or opens or closes a block, is the same in every view. -/
theorem next (h : Shows v rows ts) (hk : (peekKind ts).isWord = false) : ∃ rows', ∀ w us,
    Shows w rows us → peekKind us = peekKind ts ∧ Leaves w rows rows' us.tail := by
  cases rows with
  | nil =>
    obtain rfl : ts = [] := h
    refine ⟨[], fun w us hu => ?_⟩
    obtain rfl : us = [] := hu
    exact ⟨rfl, Nat.le_refl _, rfl⟩
  | cons row rows =>
    cases row with
    | line l =>
      refine ⟨rows, fun w us hu => ⟨hu.peekKind_line.trans h.peekKind_line.symm, Nat.le_refl _, ?_⟩⟩
      rw [h.peekKind_line] at hk
      obtain ⟨pos, rest, ha, hr⟩ := hu
      cases ha with
      | newline => exact hr
      | word hw =>
        rw [peekKind, peek, hw] at hk
        cases hk
    | layout kind =>
      obtain ⟨-, t, rest, rfl, ht, -⟩ := h
      refine ⟨rows, fun w us hu => ?_⟩
      obtain ⟨-, u, rest, rfl, hu, hr⟩ := hu
      exact ⟨hu.trans ht.symm, Nat.le_refl _, hr⟩
    | inline i =>
      obtain ⟨lead, head, rest, hl, hh, rfl, -⟩ := h
      rw [hl.isWord (isWord_loopHead hh rest)] at hk
      cases hk
    | block i =>
      obtain ⟨head, newline, indent, lead, rest, hh, -, -, -, -, rfl, -⟩ := h
      rw [isWord_loopHead hh] at hk
      cases hk

theorem peekKind_eq_iff {kind : TokenKind} (hk : kind.isWord = false) (h : Shows v rows ts)
    (h' : Shows w rows us) : peekKind us = kind ↔ peekKind ts = kind := by
  constructor
  · rintro rfl
    obtain ⟨rows', hn⟩ := h'.next hk
    exact (hn v ts h).1
  · rintro rfl
    obtain ⟨rows', hn⟩ := h.next hk
    exact (hn w us h').1

theorem isWord (h : Shows v rows ts) (hk : (peekKind ts).isWord) (h' : Shows w rows us) :
    (peekKind us).isWord := by
  refine Bool.eq_true_of_not_eq_false fun hu => ?_
  rw [(peekKind_eq_iff hu h' h).2 rfl, hu] at hk
  cases hk

theorem atLineEnd_eq (h : Shows v rows ts) (h' : Shows w rows us) : atLineEnd us = atLineEnd ts := by
  have hiff := fun (kind : TokenKind) (hk : kind.isWord = false) => peekKind_eq_iff hk h h'
  simp only [Parser.atLineEnd_eq, hiff .newline rfl, hiff .eof rfl, hiff .dedent rfl]

theorem skip (h : Shows v rows ts) (kind : TokenKind) (hk : kind.isWord = false) (he : kind ≠ .eof) :
    ∃ rows', ∀ w us, Shows w rows us → Leaves w rows rows' (skip kind us) := by
  by_cases hkind : peekKind ts = kind
  · obtain ⟨rows', hn⟩ := h.next (by rwa [hkind])
    refine ⟨rows', fun w us hu => ?_⟩
    rw [skip_eq he, if_pos ((peekKind_eq_iff hk h hu).2 hkind)]
    exact (hn w us hu).2
  · refine ⟨rows, fun w us hu => ⟨Nat.le_refl _, ?_⟩⟩
    rw [skip_eq he, if_neg (mt (peekKind_eq_iff hk h hu).1 hkind)]
    exact hu

/-- What is read from a line in one view is read in all, with any more fuel. -/
theorem carry {fuel : Nat} {F : Nat → List Token → Except Rejection (α × List Token)} {erase : α → β}
    {found : α × List Token} (hF : ∀ {a b rest rest' fuel fuel'}, fuel ≤ fuel' →
      Carries a b rest rest' erase (F fuel) (F fuel'))
    (h : Shows v (.line l :: rows) ts) (hf : F fuel ts = .ok found) :
    ∃ l', Shows v (.line l' :: rows) found.2 ∧ ∀ w us fuel', Shows w (.line l :: rows) us → fuel ≤ fuel' →
      ∃ x us', F fuel' us = .ok (x, us') ∧ erase x = erase found.1 ∧ Shows w (.line l' :: rows) us' := by
  obtain ⟨pos, rest, ha, hr⟩ := h
  obtain ⟨x, l', hx, he, ha'⟩ := hF (Nat.le_refl fuel) ha.symm hf
  refine ⟨l', ⟨pos, rest, ha'.symm, hr⟩, fun w us fuel' hu hle => ?_⟩
  obtain ⟨pos', rest', hau, hru⟩ := hu
  obtain ⟨y, us', hy, hey, hay⟩ := hF hle hau hx
  exact ⟨y, us', hy, hey.trans he, pos', rest', hay, hru⟩

theorem carry_expression {fuel level : Nat} {found : Expr × List Token} (h : Shows v (.line l :: rows) ts)
    (hf : expression fuel level ts = .ok found) :
    ∃ l', Shows v (.line l' :: rows) found.2 ∧ ∀ w us fuel', Shows w (.line l :: rows) us → fuel ≤ fuel' →
      ∃ x us', expression fuel' level us = .ok (x, us') ∧ x.erase = found.1.erase ∧
        Shows w (.line l' :: rows) us' :=
  carry (F := (expression · level)) (fun hle => (exprAlike _ _ _ _ hle).expression level) h hf

theorem carry_arguments {fuel : Nat} {found : List Expr × List Token} (h : Shows v (.line l :: rows) ts)
    (hf : arguments fuel ts = .ok found) :
    ∃ l', Shows v (.line l' :: rows) found.2 ∧ ∀ w us fuel', Shows w (.line l :: rows) us → fuel ≤ fuel' →
      ∃ x us', arguments fuel' us = .ok (x, us') ∧ eraseArgs x = eraseArgs found.1 ∧
        Shows w (.line l' :: rows) us' :=
  carry (F := arguments) (fun hle => (exprAlike _ _ _ _ hle).arguments) h hf

end Shows

/-! ## How many tokens there are -/

theorem Alike.length {a b : Nat} {rest rest' ts us : List Token} (h : Alike a b rest rest' ts us) :
    us.length + rest.length = ts.length + rest'.length := by
  induction h with
  | newline => simp only [List.length_cons]; omega
  | word _ _ _ _ _ _ ih => simp only [List.length_cons]; omega

theorem IsLoopHead.length {k : Nat} {head : List Token} (h : IsLoopHead k head) : head.length = 3 := by
  obtain ⟨r, c, a, rfl, -⟩ := h
  rfl

/-- A report is long enough for the fuel that reading it takes. -/
theorem View.IsLead.lag_le {v : View} {i : Nat} {lead : List Token} (h : v.IsLead i lead) :
    v.lag ≤ 16 * lead.length := by
  cases v with
  | loops count => exact Nat.zero_le _
  | reports =>
    obtain ⟨s, m, l, c, r, e, rfl, -⟩ := h
    simp [View.lag]

theorem Shows.length_le {v : View} {count : Nat → Nat} : ∀ {rows : List (Row n)} {ts us : List Token},
    Shows (.loops count) rows ts → Shows v rows us → 16 * ts.length + v.slack rows ≤ 16 * us.length
  | [], _, _, ht, hu => by
    obtain rfl := ht
    exact Nat.zero_le _
  | .line l :: rows, _, _, ht, hu => by
    obtain ⟨pos, rest, ha, ht⟩ := ht
    obtain ⟨pos', rest', ha', hu⟩ := hu
    have hle := length_le ht hu
    have hl := ha.length
    have hl' := ha'.length
    simp only [View.slack, List.length_nil] at *
    omega
  | .layout kind :: rows, _, _, ht, hu => by
    obtain ⟨-, t, rest, rfl, -, ht⟩ := ht
    obtain ⟨-, u, rest', rfl, -, hu⟩ := hu
    have hle := length_le ht hu
    simp only [View.slack, List.length_cons]
    omega
  | .inline i :: rows, _, _, ht, hu => by
    obtain ⟨lead, head, rest, rfl, hh, rfl, ht⟩ := ht
    obtain ⟨lead', head', rest', hl', hh', rfl, hu⟩ := hu
    have hle := length_le ht hu
    have hlag := hl'.lag_le
    simp only [View.slack, List.length_append, List.length_nil, hh.length, hh'.length]
    omega
  | .block i :: rows, _, _, ht, hu => by
    obtain ⟨head, newline, indent, lead, rest, hh, -, -, rfl, -, rfl, ht⟩ := ht
    obtain ⟨head', newline', indent', lead', rest', hh', -, -, hl', -, rfl, hu⟩ := hu
    have hle := length_le ht hu
    have hlag := hl'.lag_le
    simp only [View.slack, List.length_append, List.length_cons, List.length_nil, hh.length, hh'.length]
    omega

end LiveSketch.Script

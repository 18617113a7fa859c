import LiveSketch.Proofs.Outcome
import LiveSketch.Proofs.Script.Printing

/-!
# The grammar, one equation at a time

Each function of the parser looks at the next token or two. For each kind of token there is an equation that
says how the function goes on, so proofs about the parser need not unfold it. `isWord` tells the tokens that
stand within a line from those that end it, indent it or end the script.
-/
namespace LiveSketch.Script

open LiveSketch.Script.Parser

/-- Whether tokens of this kind stand within a line. -/
def TokenKind.isWord : TokenKind → Bool
  | .newline | .indent | .dedent | .eof => false
  | _ => true

namespace Parser

-- The equations of the mutually recursive functions are made here, once; otherwise each of the first proofs
-- that need them would wait for them by itself.
section
attribute [local simp] expression chain operand postfixed primary arguments parenthesized moreArguments
attribute [local simp] block line statement bare conditional body
end

/-! ## Tokens that are taken one by one -/

theorem consume?_eq {kind : TokenKind} (hk : kind ≠ .eof) (ts : List Token) :
    consume? kind ts = if peekKind ts = kind then some ts.tail else none := by
  cases ts with
  | nil => exact (if_neg hk.symm).symm
  | cons t ts => rfl

theorem skip_eq {kind : TokenKind} (hk : kind ≠ .eof) (ts : List Token) :
    skip kind ts = if peekKind ts = kind then ts.tail else ts := by
  rw [skip, consume?_eq hk]
  split <;> rfl

theorem expect_eq_ok {kind : TokenKind} (hk : kind ≠ .eof) {what : String} {ts rest : List Token} :
    expect kind what ts = .ok rest ↔ peekKind ts = kind ∧ ts.tail = rest := by
  rw [expect, consume?_eq hk]
  by_cases h : peekKind ts = kind <;> simp [h]

theorem atLineEnd_eq (ts : List Token) :
    atLineEnd ts = decide (peekKind ts = .newline ∨ peekKind ts = .eof ∨ peekKind ts = .dedent) := by
  rw [atLineEnd]
  split <;> simp_all

theorem consume?_suffix {kind : TokenKind} {ts rest : List Token} (h : consume? kind ts = some rest) :
    rest <:+ ts := by
  cases ts with
  | nil => cases h
  | cons t ts =>
    simp only [consume?] at h
    split at h
    · cases h
      exact List.suffix_cons _ _
    · cases h

theorem skip_suffix (kind : TokenKind) (ts : List Token) : skip kind ts <:+ ts := by
  unfold skip
  cases h : consume? kind ts with
  | none => exact List.suffix_rfl
  | some rest => exact consume?_suffix h

theorem expect_suffix {kind : TokenKind} {what : String} {ts rest : List Token}
    (h : expect kind what ts = .ok rest) : rest <:+ ts := by
  unfold expect at h
  split at h
  · rename_i hc
    cases h
    exact consume?_suffix hc
  · cases h

/-! ## Words -/

/-- Operators stand within a line. -/
theorem isWord_of_binaryOp? {level : Nat} {kind : TokenKind} {op : BinaryOp}
    (h : binaryOp? level kind = some op) : kind.isWord := by
  unfold binaryOp? at h
  split at h <;> first | rfl | cases h

theorem isWord_of_prefixOp? {kind : TokenKind} {f : Expr → Expr} (h : prefixOp? kind = some f) :
    kind.isWord := by
  unfold prefixOp? at h
  split at h <;> first | rfl | cases h

theorem isWord_of_assignOp? {kind : TokenKind} {op : AssignOp} (h : assignOp? kind = some op) : kind.isWord := by
  unfold assignOp? at h
  split at h <;> first | rfl | cases h

theorem isWord_of_stepOp? {kind : TokenKind} {op : AssignOp} (h : stepOp? kind = some op) : kind.isWord := by
  unfold stepOp? at h
  split at h <;> first | rfl | cases h

theorem isWord_of_name {ts : List Token} {name : String} (h : peekKind ts = .ident name) :
    (peekKind ts).isWord := by
  rw [h]
  rfl

theorem isWord_of_primary {fuel : Nat} {ts : List Token} {found : Expr × List Token}
    (h : Parser.primary fuel ts = .ok found) : (peekKind ts).isWord := by
  cases fuel with
  | zero => cases h
  | succ fuel =>
    rw [Parser.primary] at h
    dsimp only at h
    rw [peekKind]
    split at h
    · rename_i hk
      rw [hk]
      rfl
    · rename_i hk
      rw [hk]
      rfl
    · rename_i hk
      rw [hk]
      rfl
    · rename_i hk
      rw [hk]
      rfl
    · cases h

theorem isWord_of_operand {fuel : Nat} {ts : List Token} {found : Expr × List Token}
    (h : operand fuel ts = .ok found) : (peekKind ts).isWord := by
  cases fuel with
  | zero => cases h
  | succ fuel =>
    rw [operand] at h
    split at h
    · rename_i hp
      exact isWord_of_prefixOp? hp
    · cases fuel with
      | zero => cases h
      | succ fuel =>
        rw [postfixed] at h
        obtain ⟨first, hp, -⟩ := bind_eq_ok.1 h
        exact isWord_of_primary hp

theorem isWord_of_expression {fuel level : Nat} {ts : List Token} {found : Expr × List Token}
    (h : expression fuel level ts = .ok found) : (peekKind ts).isWord := by
  induction fuel generalizing level found with
  | zero => cases h
  | succ fuel ih =>
    cases level with
    | zero => exact isWord_of_operand h
    | succ level =>
      rw [expression] at h
      obtain ⟨left, hl, -⟩ := bind_eq_ok.1 h
      exact ih hl

/-! ## One function, one equation for each kind of token -/

theorem statement_repeat {fuel : Nat} {ts : List Token} (hk : peekKind ts = .ident "repeat") :
    statement (fuel + 1) ts = (do
      let (count, ts) ← expression fuel levels ts.tail
      let ts ← expect .arrow "'->' after repeat count" ts
      let (body, ts) ← body fuel ts
      return (.stmt (.loop count body), true, ts)) := by
  have hk : (peek ts).kind = .ident "repeat" := hk
  simp only [statement, hk]

theorem statement_if {fuel : Nat} {ts : List Token} (hk : peekKind ts = .ident "if") :
    statement (fuel + 1) ts = (do
      let (c, body, ts) ← conditional fuel ts.tail
      return (.stmt (.branch c body none), true, ts)) := by
  have hk : (peek ts).kind = .ident "if" := hk
  simp only [statement, hk]

theorem statement_elseIf {fuel : Nat} {ts : List Token} (hk : peekKind ts = .ident "else")
    (hi : peekKind ts.tail = .ident "if") :
    statement (fuel + 1) ts = (do
      let (c, body, rest) ← conditional fuel ts.tail.tail
      return (.otherwise (some c) body (peek ts).start, true, rest)) := by
  have hk : (peek ts).kind = .ident "else" := hk
  have hc : consume? (.ident "if") ts.tail = some ts.tail.tail := by rw [consume?_eq (by simp), if_pos hi]
  simp only [statement, hk, hc]

theorem statement_else {fuel : Nat} {ts : List Token} (hk : peekKind ts = .ident "else")
    (hi : peekKind ts.tail ≠ .ident "if") :
    statement (fuel + 1) ts = (do
      let (body, rest) ← body fuel (skip .arrow ts.tail)
      return (.otherwise none body (peek ts).start, true, rest)) := by
  have hk : (peek ts).kind = .ident "else" := hk
  have hc : consume? (.ident "if") ts.tail = none := by rw [consume?_eq (by simp), if_neg hi]
  simp only [statement, hk, hc]

theorem statement_name {fuel : Nat} {ts : List Token} {name : String} (hk : peekKind ts = .ident name)
    (hn : name ∉ ["repeat", "if", "else"]) :
    statement (fuel + 1) ts =
      match assignOp? (peekKind ts.tail), stepOp? (peekKind ts.tail) with
      | some op, _ => do
        if isKeyword name then throw ⟨(peek ts).start, .keywordTarget name⟩
        let (value, rest) ← expression fuel levels ts.tail.tail
        return (.stmt (.assign name op value (peek ts).start), false, rest)
      | none, some op => do
        if isKeyword name then throw ⟨(peek ts).start, .keywordTarget name⟩
        return (.stmt (.assign name op (.literal (.number 1)) (peek ts).start), false, ts.tail.tail)
      | none, none =>
        if !isKeyword name && argumentsFollow ts then do
          let (args, rest) ← arguments fuel ts.tail
          return (.stmt (.expr (.call name args (peek ts).start)), false, rest)
        else bare fuel ts := by
  have hk : (peek ts).kind = .ident name := hk
  simp only [List.mem_cons, List.not_mem_nil, or_false, not_or] at hn
  rw [statement]
  split
  · simp_all
  · simp_all
  · simp_all
  · rename_i he
    rw [hk] at he
    cases he
    rfl
  · rename_i hne
    exact absurd hk (hne name)

/-- The name of something callable is a call. -/
def asCall : Expr → Expr
  | .ident name offset => if isCallable name then .call name [] offset else .ident name offset
  | e => e

theorem erase_asCall (e : Expr) : (asCall e).erase = asCall e.erase := by
  cases e with
  | ident name offset =>
    simp only [asCall, Expr.erase]
    split <;> rfl
  | _ => rfl

theorem bare_eq (fuel : Nat) (ts : List Token) : bare (fuel + 1) ts = (do
    let (e, ts) ← expression fuel levels ts
    return (.stmt (.expr (asCall e)), false, ts)) := by
  rw [bare]
  congr 1
  funext found
  obtain ⟨e, ts⟩ := found
  cases e with
  | ident name offset =>
    simp only [asCall]
    split <;> rfl
  | _ => rfl

theorem statement_bare {fuel : Nat} {ts : List Token} (hk : ∀ name, peekKind ts ≠ .ident name) :
    statement (fuel + 1) ts = bare fuel ts := by
  rw [statement]
  split <;> simp_all [peekKind]

theorem isWord_of_statement {fuel : Nat} {ts : List Token} {found : Item × Bool × List Token}
    (h : statement fuel ts = .ok found) : (peekKind ts).isWord := by
  by_cases hname : ∃ name, peekKind ts = .ident name
  · obtain ⟨name, hk⟩ := hname
    rw [hk]
    rfl
  · match fuel, h with
    | fuel + 1, h =>
      rw [statement_bare fun name hk => hname ⟨name, hk⟩] at h
      match fuel, h with
      | fuel + 1, h =>
        rw [bare_eq] at h
        obtain ⟨first, hf, -⟩ := bind_eq_ok.1 h
        exact isWord_of_expression hf

theorem body_line {fuel : Nat} {ts : List Token} (h : atLineEnd ts = false) :
    body (fuel + 1) ts = (do
      let (items, rest) ← line fuel ts
      let done ← attachAll [] items
      return (done.reverse, rest)) := by
  simp only [body, h, Bool.false_eq_true, if_false]

theorem body_empty {fuel : Nat} {ts : List Token} (h : atLineEnd ts = true)
    (hi : peekKind (skip .newline ts) ≠ .indent) :
    body (fuel + 1) ts = .ok ([], skip .newline ts) := by
  have hc : consume? .indent (skip .newline ts) = none := by rw [consume?_eq (by simp), if_neg hi]
  simp only [body, h, hc, if_true]

theorem body_block {fuel : Nat} {ts : List Token} (h : atLineEnd ts = true)
    (hi : peekKind (skip .newline ts) = .indent) :
    body (fuel + 1) ts = (do
      let (b, rest) ← block fuel [] (skip .newline ts).tail
      return (b, skip .dedent rest)) := by
  have hc : consume? .indent (skip .newline ts) = some (skip .newline ts).tail := by
    rw [consume?_eq (by simp), if_pos hi]
  simp only [body, h, hc, if_true]

theorem atLineEnd_newline {t : Token} (hk : t.kind = .newline) (ts : List Token) : atLineEnd (t :: ts) := by
  rw [atLineEnd_eq]
  exact decide_eq_true (.inl hk)

/-- A body that is a block. -/
theorem body_indented {fuel : Nat} {newline indent : Token} (hn : newline.kind = .newline)
    (hi : indent.kind = .indent) (ts : List Token) :
    body (fuel + 1) (newline :: indent :: ts) = (do
      let (b, rest) ← block fuel [] ts
      return (b, skip .dedent rest)) := by
  have hskip : skip .newline (newline :: indent :: ts) = indent :: ts := by rw [skip_eq (by simp)]; exact if_pos hn
  rw [body_block (atLineEnd_newline hn _) (by rw [hskip]; exact hi), hskip]
  rfl

theorem conditional_eq {fuel : Nat} {ts : List Token} : conditional (fuel + 1) ts = (do
    let (c, rest) ← expression fuel levels ts
    if peekKind rest = .arrow ∨ atLineEnd rest then
      let (b, rest) ← body fuel (skip .arrow rest)
      return (c, b, rest)
    else throw (unexpected "'->' or end of line after condition" rest)) := by
  rw [conditional]
  congr 1
  funext ⟨c, rest⟩
  by_cases ha : peekKind rest = .arrow
  · simp [skip, consume?_eq, ha]
  · simp [skip, consume?_eq, ha]

theorem line_semicolon {fuel : Nat} {ts : List Token} (hk : peekKind ts = .semicolon) :
    line (fuel + 1) ts = line fuel ts.tail := by simp only [line, hk]

theorem line_newline {fuel : Nat} {ts : List Token} (hk : peekKind ts = .newline) :
    line (fuel + 1) ts = .ok ([], ts.tail) := by simp only [line, hk]

theorem line_end {fuel : Nat} {ts : List Token} (hk : peekKind ts = .eof ∨ peekKind ts = .dedent) :
    line (fuel + 1) ts = .ok ([], ts) := by
  rcases hk with hk | hk <;> simp only [line, hk]

/-- A line that begins with a statement. -/
theorem line_statement {fuel : Nat} {ts : List Token}
    (hk : peekKind ts ∉ [TokenKind.semicolon, .newline, .eof, .dedent]) :
    line (fuel + 1) ts = (do
      let (item, lineDone, ts) ← statement fuel ts
      if lineDone then return ([item], ts)
      else if atLineEnd ts || peekKind ts == .semicolon then
        let (items, ts) ← line fuel ts
        return (item :: items, ts)
      else throw (unexpected "end of statement" ts)) := by
  rw [line]
  split <;> simp_all

theorem block_end {fuel : Nat} {done : List Stmt} {ts : List Token}
    (hk : peekKind ts = .eof ∨ peekKind ts = .dedent) :
    block (fuel + 1) done ts = .ok (done.reverse, ts) := by
  rcases hk with hk | hk <;> simp only [block, hk]

theorem block_newline {fuel : Nat} {done : List Stmt} {ts : List Token} (hk : peekKind ts = .newline) :
    block (fuel + 1) done ts = block fuel done ts.tail := by simp only [block, hk]

theorem block_line {fuel : Nat} {done : List Stmt} {ts : List Token} (hw : (peekKind ts).isWord) :
    block (fuel + 1) done ts = (do
      let (items, ts) ← line fuel ts
      let done ← attachAll done items
      block fuel done ts) := by
  rw [block]
  split
  all_goals first | rfl | (rename_i hk; rw [hk] at hw; cases hw)

end Parser

end LiveSketch.Script

import LiveSketch.Proofs.Script.Attaching
import LiveSketch.Proofs.Script.Grammar
import Mathlib.Logic.Relation

/-!
# Which conditional an `else` belongs to

The `else` lines of a block belong to the conditional before them in the same block, until a plain `else` closes it:
`write` is this law, on statements that still know which lines they come from (`Written`). A finished tree does not:
an `else if` line and a plain `else` whose body is a lone conditional give the same tree, and `attach` looks at the
tree. So it follows the law up to one thing: behind such a plain `else` it goes on as behind an `else if` line
(`asElseIf`, `attachAll_eq`).

`Call` names the calls that the parser makes for a text, and what makes one of them fail makes the text fail
(`parse_fails`). With it the law is one of all blocks of a text (`else_attaches`).
-/
namespace LiveSketch.Script

open LiveSketch.Script.Parser

namespace Parser

/-! ## The law -/

/-- A conditional with the `else if` lines behind it in its block, and the plain `else` that closes it. -/
structure IfChain where
  condition : Expr
  body : List Stmt
  arms : List (Expr × List Stmt)
  last : Option (List Stmt)

/-- The `else` part of a conditional with these arms behind it. -/
def elsePart : List (Expr × List Stmt) → (last : Option (List Stmt)) → Option (List Stmt)
  | [], last => last
  | (c, body) :: arms, last => some [.branch c body (elsePart arms last)]

/-- The tree of a chain. -/
def IfChain.toStmt (k : IfChain) : Stmt := .branch k.condition k.body (elsePart k.arms k.last)

/-- A statement as the lines of its block give it. -/
inductive Written where
  | single (s : Stmt)
  | chain (k : IfChain)

def Written.toStmt : Written → Stmt
  | .single s => s
  | .chain k => k.toStmt

/-- A statement that no `else` has reached yet. -/
def Written.ofStmt : Stmt → Written
  | .branch c t none => .chain ⟨c, t, [], none⟩
  | s => .single s

/-- The chain with one more `else` line. -/
def IfChain.extend (k : IfChain) (body : List Stmt) : Option Expr → IfChain
  | some c => { k with arms := k.arms ++ [(c, body)] }
  | none => { k with last := some body }

/-- The law: an `else` extends the chain before it in the block, unless a plain `else` has closed it. The last
statement comes first. -/
def write (done : List Written) : Item → Except Rejection (List Written)
  | .stmt s => .ok (.ofStmt s :: done)
  | .otherwise condition body offset =>
    match done with
    | .chain k :: before =>
      if k.last.isSome then .error ⟨offset, .lonelyElse⟩ else .ok (.chain (k.extend body condition) :: before)
    | _ => .error ⟨offset, .lonelyElse⟩

/-- The statements that items make by the law, in their order. -/
def written (items : List Item) : Except Rejection (List Stmt) := do
  return (← items.foldlM write []).reverse.map Written.toStmt

/-! ## Where the parser departs from it -/

/-- The `else` lines that stand for a plain `else` with this statement alone. -/
def elseLines (offset : Nat) : Stmt → List Item
  | .branch c t none => [.otherwise (some c) t offset]
  | .branch c t (some [s]) => .otherwise (some c) t offset :: elseLines offset s
  | .branch c t (some body) => [.otherwise (some c) t offset, .otherwise none body offset]
  | s => [.otherwise none [s] offset]

/-- A plain `else` around a lone conditional counts as an `else if` line, and what belongs to the conditional as
further `else` lines. -/
def asElseIf : Item → List Item
  | .otherwise none [s] offset => elseLines offset s
  | item => [item]

/-- A conditional alone. -/
def IsLone (body : List Stmt) : Prop := ∃ c t e, body = [.branch c t e]

theorem asElseIf_eq_self {items : List Item}
    (h : ∀ body offset, Item.otherwise none body offset ∈ items → ¬IsLone body) : items.flatMap asElseIf = items := by
  suffices hs : ∀ item ∈ items, asElseIf item = [item] by
    rw [List.flatMap_congr hs, List.flatMap_singleton']
  intro item hi
  match item with
  | .otherwise none [s] offset =>
    have hlone := h _ _ hi
    cases s with
    | branch c t e => exact absurd ⟨c, t, e, rfl⟩ hlone
    | _ => rfl
  | .stmt _ | .otherwise (some _) _ _ | .otherwise none [] _ | .otherwise none (_ :: _ :: _) _ => rfl

/-- What has been written: no conditional counts as another statement, and no plain `else` holds a conditional alone. -/
def Written.Valid : Written → Prop
  | .single s => ∀ c t e, s ≠ .branch c t e
  | .chain k => ∀ body, k.last = some body → ¬IsLone body

theorem closeElse?_of_ne {s : Stmt} (h : ∀ c t e, s ≠ .branch c t e) (tail : List Stmt) : closeElse? tail s = none := by
  cases s with
  | branch c t e => exact absurd rfl (h c t e)
  | _ => rfl

theorem closeElse?_full {body : List Stmt} (h : ¬IsLone body) (tail : List Stmt) (c : Expr) (t : List Stmt) :
    closeElse? tail (.branch c t (some body)) = none := by
  match body with
  | [] | _ :: _ :: _ => rfl
  | [.branch c t e] => exact absurd ⟨c, t, e, rfl⟩ h
  | [.expr _] | [.assign _ _ _ _] | [.loop _ _] => rfl

/-- The walk down the tree of a chain ends where its last arm does. -/
theorem closeElse?_elsePart (tail : List Stmt) : ∀ (arms : List (Expr × List Stmt)) (c : Expr) (t : List Stmt),
    closeElse? tail (.branch c t (elsePart arms none)) = some (.branch c t (elsePart arms (some tail)))
  | [], _, _ => rfl
  | (c', t') :: arms, c, t => by
    rw [elsePart, closeElse?, closeElse?_elsePart tail arms]
    rfl

theorem closeElse?_closed {body : List Stmt} (h : ¬IsLone body) (tail : List Stmt) :
    ∀ (arms : List (Expr × List Stmt)) (c : Expr) (t : List Stmt),
      closeElse? tail (.branch c t (elsePart arms (some body))) = none
  | [], c, t => closeElse?_full h tail c t
  | (c', t') :: arms, c, t => by
    rw [elsePart, closeElse?, closeElse?_closed h tail arms]
    rfl

theorem elsePart_append (arms : List (Expr × List Stmt)) (c : Expr) (t : List Stmt) (last : Option (List Stmt)) :
    elsePart (arms ++ [(c, t)]) last = elsePart arms (some [.branch c t last]) := by
  induction arms with
  | nil => rfl
  | cons arm arms ih => rw [List.cons_append, elsePart, elsePart, ih]

/-- An open chain with a body at its end. -/
def IfChain.closedBy (k : IfChain) (tail : List Stmt) : Stmt := .branch k.condition k.body (elsePart k.arms (some tail))

theorem IfChain.closeElse? {k : IfChain} (h : k.last = none) (tail : List Stmt) :
    Parser.closeElse? tail k.toStmt = some (k.closedBy tail) := by
  rw [toStmt, h]
  exact closeElse?_elsePart tail _ _ _

variable {k : IfChain} {before done : List Written}

theorem write_open (h : k.last = none) (condition : Option Expr) (body : List Stmt) (offset : Nat) :
    write (.chain k :: before) (.otherwise condition body offset) = .ok (.chain (k.extend body condition) :: before) := by
  rw [write, h]
  rfl

theorem foldlM_write (item : Item) : [item].foldlM write done = write done item := by
  rw [List.foldlM_cons]
  cases write done item <;> rfl

/-- The `else` lines that stand for a plain `else` with one statement close the chain as that `else` does. -/
theorem write_elseLines (offset : Nat) (s : Stmt) : ∀ {k : IfChain}, k.last = none →
    ∃ k' : IfChain, (elseLines offset s).foldlM write (.chain k :: before) = .ok (.chain k' :: before) ∧
      k'.toStmt = k.closedBy [s] ∧ (Written.chain k').Valid := by
  fun_induction elseLines offset s with
  | case1 c t =>
    intro k hk
    refine ⟨k.extend t (some c), ?_, ?_, fun body hb => ?_⟩
    · rw [foldlM_write, write_open hk]
    · simp only [IfChain.toStmt, IfChain.extend, IfChain.closedBy, hk, elsePart_append]
    · rw [IfChain.extend, hk] at hb
      cases hb
  | case2 c t s ih =>
    intro k hk
    obtain ⟨k', hw, hs, hv⟩ := ih (k := k.extend t (some c)) hk
    refine ⟨k', ?_, ?_, hv⟩
    · rw [List.foldlM_cons, write_open hk]
      exact hw
    · rw [hs, IfChain.closedBy, IfChain.extend, elsePart_append, IfChain.closedBy]
  | case3 c t body hb =>
    intro k hk
    refine ⟨(k.extend t (some c)).extend body none, ?_, ?_, ?_⟩
    · rw [List.foldlM_cons, write_open hk, ok_bind, foldlM_write]
      exact write_open (k := k.extend t (some c)) hk none body offset
    · simp only [IfChain.toStmt, IfChain.extend, IfChain.closedBy, elsePart_append]
    · rintro body' hb' ⟨c', t', e, rfl⟩
      cases hb'
      exact hb _ rfl
  | case4 s h₁ h₂ h₃ =>
    intro k hk
    refine ⟨k.extend [s] none, ?_, rfl, ?_⟩
    · rw [foldlM_write, write_open hk]
    · rintro body hb ⟨c, t, e, rfl⟩
      cases hb
      cases e with
      | none => exact h₁ _ _ rfl
      | some body => exact h₃ _ _ _ rfl

/-- Whether an item is an `else`, or a statement that no `else` has reached. -/
def Item.IsFresh : Item → Prop
  | .stmt s => ∀ c t e, s ≠ .branch c t (some e)
  | .otherwise _ _ _ => True

/-- What the law makes of an `else` on an open chain. -/
theorem write_asElseIf (before : List Written) (h : k.last = none) (condition : Option Expr) (body : List Stmt) (offset : Nat) :
    ∃ k' : IfChain, (asElseIf (.otherwise condition body offset)).foldlM write (.chain k :: before) =
        .ok (.chain k' :: before) ∧
      k'.toStmt = k.closedBy (elseTail condition body) ∧ (Written.chain k').Valid := by
  match condition, body with
  | some c, body =>
    refine ⟨k.extend body (some c), (foldlM_write _).trans (write_open h _ _ _), ?_, fun _ hb => ?_⟩
    · simp only [IfChain.toStmt, IfChain.extend, IfChain.closedBy, h, elsePart_append, elseTail]
    · rw [IfChain.extend, h] at hb
      cases hb
  | none, [s] => exact write_elseLines offset s h
  | none, [] | none, _ :: _ :: _ =>
    refine ⟨_, (foldlM_write _).trans (write_open h _ _ _), rfl, ?_⟩
    rintro body hb ⟨c, t, e, rfl⟩
    cases hb

/-- An `else` fails by the law if it fails on the first of its lines. -/
theorem write_asElseIf_error {offset : Nat} (h : ∀ condition body, write done (.otherwise condition body offset) =
    .error ⟨offset, .lonelyElse⟩) (condition : Option Expr) (body : List Stmt) :
    (asElseIf (.otherwise condition body offset)).foldlM write done = .error ⟨offset, .lonelyElse⟩ := by
  have hlines : ∃ condition' body' lines,
      asElseIf (.otherwise condition body offset) = .otherwise condition' body' offset :: lines := by
    match condition, body with
    | some c, body => exact ⟨_, _, _, rfl⟩
    | none, [] | none, _ :: _ :: _ => exact ⟨_, _, _, rfl⟩
    | none, [s] =>
      rw [asElseIf]
      fun_cases elseLines offset s <;> exact ⟨_, _, _, rfl⟩
  obtain ⟨condition', body', lines, hlines⟩ := hlines
  rw [hlines, List.foldlM_cons, h]
  rfl

/-- Attaching an item follows the law, on what stands for it by the law. -/
theorem attach_eq {item : Item} (hi : item.IsFresh) (hv : ∀ w ∈ done, w.Valid) :
    (∃ done' : List Written, (asElseIf item).foldlM write done = .ok done' ∧ (∀ w ∈ done', w.Valid) ∧
      attach (done.map Written.toStmt) item = .ok (done'.map Written.toStmt)) ∨
      ∃ r, (asElseIf item).foldlM write done = .error r ∧ attach (done.map Written.toStmt) item = .error r := by
  cases item with
  | stmt s =>
    refine .inl ⟨.ofStmt s :: done, rfl, List.forall_mem_cons.2 ⟨?_, hv⟩, ?_⟩
    · cases s with
      | branch c t e =>
        cases e with
        | none => exact nofun
        | some e => exact absurd rfl (hi c t e)
      | _ => exact nofun
    · have hs : (Written.ofStmt s).toStmt = s := by
        fun_cases Written.ofStmt s <;> rfl
      rw [List.map_cons, hs]
      rfl
  | otherwise condition body offset =>
    cases done with
    | nil => exact .inr ⟨_, write_asElseIf_error (fun _ _ => rfl) condition body, rfl⟩
    | cons w before =>
      obtain ⟨hw, hb⟩ := List.forall_mem_cons.1 hv
      cases w with
      | single s =>
        refine .inr ⟨_, write_asElseIf_error (fun _ _ => rfl) condition body, ?_⟩
        rw [List.map_cons, Written.toStmt, attach, closeElse?_of_ne hw]
      | chain k =>
        rw [List.map_cons, Written.toStmt, attach]
        cases hl : k.last with
        | none =>
          obtain ⟨k', hwrite, hs, hv'⟩ := write_asElseIf before hl condition body offset
          refine .inl ⟨_, hwrite, List.forall_mem_cons.2 ⟨hv', hb⟩, ?_⟩
          rw [IfChain.closeElse? hl, List.map_cons, Written.toStmt, hs]
        | some last =>
          refine .inr ⟨_, write_asElseIf_error (fun _ _ => by rw [write, hl]; rfl) condition body, ?_⟩
          rw [IfChain.toStmt, hl, closeElse?_closed (hw last hl)]

/-- Attaching items follows the law, on what stands for them by the law. -/
theorem attachAll_eq {items : List Item} : ∀ done : List Written, (∀ item ∈ items, item.IsFresh) →
    (∀ w ∈ done, w.Valid) → attachAll (done.map Written.toStmt) items =
      (·.map Written.toStmt) <$> (items.flatMap asElseIf).foldlM write done := by
  induction items with
  | nil => exact fun _ _ _ => rfl
  | cons item items ih =>
    intro done hi hv
    obtain ⟨hitem, hitems⟩ := List.forall_mem_cons.1 hi
    rw [attachAll_cons, List.flatMap_cons, List.foldlM_append]
    obtain ⟨done', hw, hv', ha⟩ | ⟨r, hw, ha⟩ := attach_eq hitem hv
    · rw [ha, hw, ok_bind, ok_bind]
      exact ih done' hitems hv'
    · rw [ha, hw]
      rfl

/-- Attaching items to nothing gives what is written by the law. -/
theorem attachAll_written {items : List Item} (h : ∀ item ∈ items, item.IsFresh) :
    List.reverse <$> attachAll [] items = written (items.flatMap asElseIf) := by
  have ha : attachAll [] items = (·.map Written.toStmt) <$> (items.flatMap asElseIf).foldlM write [] :=
    attachAll_eq [] h nofun
  rw [ha, written]
  cases (items.flatMap asElseIf).foldlM write [] with
  | error r => rfl
  | ok done => exact congrArg Except.ok (List.map_reverse).symm

/-! ## Lines -/

theorem isFresh_of_bare {fuel : Nat} {ts : List Token} {found : Item × Bool × List Token}
    (h : bare fuel ts = .ok found) : found.1.IsFresh := by
  cases fuel with
  | zero => cases h
  | succ fuel =>
    rw [bare_eq] at h
    obtain ⟨e, -, h⟩ := bind_eq_ok.1 h
    cases pure_eq_ok.1 h
    exact nofun

theorem isFresh_of_name {fuel : Nat} {ts : List Token} {found : Item × Bool × List Token} {name : String}
    (hk : peekKind ts = .ident name) (hn : name ∉ ["repeat", "if", "else"])
    (h : statement (fuel + 1) ts = .ok found) : found.1.IsFresh := by
  rw [statement_name hk hn] at h
  split at h
  · split at h
    · cases h
    · obtain ⟨value, -, h⟩ := bind_eq_ok.1 h
      cases pure_eq_ok.1 h
      intro _ _ _ hitem
      cases hitem
  · split at h
    · cases h
    · cases pure_eq_ok.1 h
      intro _ _ _ hitem
      cases hitem
  · split at h
    · obtain ⟨args, -, h⟩ := bind_eq_ok.1 h
      cases pure_eq_ok.1 h
      intro _ _ _ hitem
      cases hitem
    · exact isFresh_of_bare h

/-- A statement that has just been read has no `else` part. -/
theorem isFresh_of_statement {fuel : Nat} {ts : List Token} {found : Item × Bool × List Token}
    (h : statement fuel ts = .ok found) : found.1.IsFresh := by
  cases fuel with
  | zero => cases h
  | succ fuel =>
    by_cases hname : ∃ name, peekKind ts = .ident name
    · obtain ⟨name, hk⟩ := hname
      by_cases hrepeat : name = "repeat"
      · rw [statement_repeat (hrepeat ▸ hk)] at h
        obtain ⟨count, -, h⟩ := bind_eq_ok.1 h
        obtain ⟨rest, -, h⟩ := bind_eq_ok.1 h
        obtain ⟨body, -, h⟩ := bind_eq_ok.1 h
        cases pure_eq_ok.1 h
        exact nofun
      by_cases hif : name = "if"
      · rw [statement_if (hif ▸ hk)] at h
        obtain ⟨body, -, h⟩ := bind_eq_ok.1 h
        cases pure_eq_ok.1 h
        exact nofun
      by_cases helse : name = "else"
      · by_cases hi : peekKind ts.tail = .ident "if"
        · rw [statement_elseIf (helse ▸ hk) hi] at h
          obtain ⟨body, -, h⟩ := bind_eq_ok.1 h
          cases pure_eq_ok.1 h
          trivial
        · rw [statement_else (helse ▸ hk) hi] at h
          obtain ⟨body, -, h⟩ := bind_eq_ok.1 h
          cases pure_eq_ok.1 h
          trivial
      · exact isFresh_of_name hk (by simp [hrepeat, hif, helse]) h
    · rw [statement_bare fun name hk => hname ⟨name, hk⟩] at h
      exact isFresh_of_bare h

theorem isFresh_of_line {fuel : Nat} : ∀ {ts rest : List Token} {items : List Item},
    line fuel ts = .ok (items, rest) → ∀ item ∈ items, item.IsFresh := by
  induction fuel with
  | zero => exact fun h => by cases h
  | succ fuel ih =>
    intro ts rest items h
    by_cases hsemi : peekKind ts = .semicolon
    · rw [line_semicolon hsemi] at h
      exact ih h
    by_cases hnl : peekKind ts = .newline
    · rw [line_newline hnl] at h
      cases h
      exact nofun
    by_cases hend : peekKind ts = .eof ∨ peekKind ts = .dedent
    · rw [line_end hend] at h
      cases h
      exact nofun
    rw [line_statement (by simp [hsemi, hnl, not_or.1 hend])] at h
    obtain ⟨⟨item, lineDone, mid⟩, hs, h⟩ := bind_eq_ok.1 h
    have hitem := isFresh_of_statement hs
    dsimp only at h
    split at h
    · cases pure_eq_ok.1 h
      exact List.forall_mem_singleton.2 hitem
    split at h
    · obtain ⟨⟨items', left⟩, hl, h⟩ := bind_eq_ok.1 h
      cases pure_eq_ok.1 h
      exact List.forall_mem_cons.2 ⟨hitem, ih hl⟩
    · cases h

/-- The items on the next lines of a block: from `ts`, with `fuel`, the parser reads these and goes on at `rest`. -/
inductive Lines : (fuel : Nat) → (ts : List Token) → List Item → (fuel' : Nat) → (rest : List Token) → Prop where
  | none {fuel : Nat} {ts : List Token} : Lines fuel ts [] fuel ts
  | blank {fuel fuel' : Nat} {ts rest : List Token} {items : List Item} : peekKind ts = .newline →
      Lines fuel ts.tail items fuel' rest → Lines (fuel + 1) ts items fuel' rest
  | line {fuel fuel' : Nat} {ts mid rest : List Token} {items items' : List Item} : (peekKind ts).isWord →
      Parser.line fuel ts = .ok (items, mid) → Lines fuel mid items' fuel' rest →
      Lines (fuel + 1) ts (items ++ items') fuel' rest

theorem Lines.isFresh {fuel fuel' : Nat} {ts rest : List Token} {items : List Item}
    (h : Lines fuel ts items fuel' rest) : ∀ item ∈ items, item.IsFresh := by
  induction h with
  | none => exact nofun
  | blank _ _ ih => exact ih
  | line _ hl _ ih => exact List.forall_mem_append.2 ⟨isFresh_of_line hl, ih⟩

/-- A block attaches the items of its lines one after another. -/
theorem Lines.block {fuel fuel' : Nat} {ts rest : List Token} {items : List Item}
    (h : Lines fuel ts items fuel' rest) : ∀ done : List Stmt,
      Parser.block fuel done ts = attachAll done items >>= fun done => Parser.block fuel' done rest := by
  induction h with
  | none => exact fun _ => rfl
  | blank hk _ ih => exact fun done => by rw [block_newline hk, ih]
  | line hw hl _ ih =>
    intro done
    rw [block_line hw, hl, ok_bind, attachAll_append, bind_assoc]
    exact congrArg _ (funext ih)

/-- A block that is read to its end has lines. -/
theorem exists_lines {fuel : Nat} : ∀ {done stmts : List Stmt} {ts rest : List Token},
    block fuel done ts = .ok (stmts, rest) →
      ∃ items fuel', Lines fuel ts items fuel' rest ∧ attachAll done items = .ok stmts.reverse := by
  induction fuel with
  | zero => exact fun h => by cases h
  | succ fuel ih =>
    intro done stmts ts rest h
    by_cases hw : (peekKind ts).isWord
    · rw [block_line hw] at h
      obtain ⟨⟨items, mid⟩, hl, h⟩ := bind_eq_ok.1 h
      obtain ⟨done', ha, h⟩ := bind_eq_ok.1 h
      obtain ⟨items', fuel', hlines, ha'⟩ := ih h
      exact ⟨items ++ items', fuel', .line hw hl hlines, by rw [attachAll_append, ha, ok_bind, ha']⟩
    · rw [block] at h
      split at h
      · cases h
        exact ⟨[], _, .none, by rw [attachAll_nil, List.reverse_reverse]⟩
      · cases h
        exact ⟨[], _, .none, by rw [attachAll_nil, List.reverse_reverse]⟩
      · rename_i hk
        obtain ⟨items, fuel', hlines, ha⟩ := ih h
        exact ⟨items, fuel', .blank hk hlines, ha⟩
      · cases h
      · rename_i heof hdedent hnl hindent
        refine absurd ?_ hw
        revert heof hdedent hnl hindent
        cases peekKind ts <;> simp [TokenKind.isWord]

/-! ## Calls -/

/-- A call of one of the functions that read statements. -/
inductive Call where
  | block (fuel : Nat) (done : List Stmt) (ts : List Token)
  | line (fuel : Nat) (ts : List Token)
  | statement (fuel : Nat) (ts : List Token)
  | conditional (fuel : Nat) (ts : List Token)
  | body (fuel : Nat) (ts : List Token)

/-- The call ends in this rejection. -/
def Call.Fails (r : Rejection) : Call → Prop
  | .block fuel done ts => Parser.block fuel done ts = .error r
  | .line fuel ts => Parser.line fuel ts = .error r
  | .statement fuel ts => Parser.statement fuel ts = .error r
  | .conditional fuel ts => Parser.conditional fuel ts = .error r
  | .body fuel ts => Parser.body fuel ts = .error r

/-- The first call makes the second one. -/
inductive Call.Makes : Call → Call → Prop where
  | blank {fuel : Nat} {done : List Stmt} {ts : List Token} : peekKind ts = .newline →
      Makes (.block (fuel + 1) done ts) (.block fuel done ts.tail)
  | row {fuel : Nat} {done : List Stmt} {ts : List Token} : (peekKind ts).isWord →
      Makes (.block (fuel + 1) done ts) (.line fuel ts)
  | nextRow {fuel : Nat} {done done' : List Stmt} {items : List Item} {ts rest : List Token} :
      (peekKind ts).isWord → Parser.line fuel ts = .ok (items, rest) → attachAll done items = .ok done' →
      Makes (.block (fuel + 1) done ts) (.block fuel done' rest)
  | semicolon {fuel : Nat} {ts : List Token} : peekKind ts = .semicolon →
      Makes (.line (fuel + 1) ts) (.line fuel ts.tail)
  | item {fuel : Nat} {ts : List Token} : peekKind ts ∉ [TokenKind.semicolon, .newline, .eof, .dedent] →
      Makes (.line (fuel + 1) ts) (.statement fuel ts)
  | nextItem {fuel : Nat} {item : Item} {ts rest : List Token} :
      peekKind ts ∉ [TokenKind.semicolon, .newline, .eof, .dedent] →
      Parser.statement fuel ts = .ok (item, false, rest) → (atLineEnd rest || peekKind rest == .semicolon) →
      Makes (.line (fuel + 1) ts) (.line fuel rest)
  | branch {fuel : Nat} {ts : List Token} : peekKind ts = .ident "if" →
      Makes (.statement (fuel + 1) ts) (.conditional fuel ts.tail)
  | otherwiseIf {fuel : Nat} {ts : List Token} : peekKind ts = .ident "else" → peekKind ts.tail = .ident "if" →
      Makes (.statement (fuel + 1) ts) (.conditional fuel ts.tail.tail)
  | otherwise {fuel : Nat} {ts : List Token} : peekKind ts = .ident "else" → peekKind ts.tail ≠ .ident "if" →
      Makes (.statement (fuel + 1) ts) (.body fuel (skip .arrow ts.tail))
  | loop {fuel : Nat} {count : Expr} {ts rest : List Token} : peekKind ts = .ident "repeat" →
      expression fuel levels ts.tail = .ok (count, rest) → peekKind rest = .arrow →
      Makes (.statement (fuel + 1) ts) (.body fuel rest.tail)
  | guarded {fuel : Nat} {c : Expr} {ts rest : List Token} : expression fuel levels ts = .ok (c, rest) →
      peekKind rest = .arrow ∨ atLineEnd rest → Makes (.conditional (fuel + 1) ts) (.body fuel (skip .arrow rest))
  | inline {fuel : Nat} {ts : List Token} : atLineEnd ts = false → Makes (.body (fuel + 1) ts) (.line fuel ts)
  | indented {fuel : Nat} {ts : List Token} : atLineEnd ts → peekKind (skip .newline ts) = .indent →
      Makes (.body (fuel + 1) ts) (.block fuel [] (skip .newline ts).tail)

/-- A call fails if one that it makes does. -/
theorem Call.Makes.fails {a b : Call} (h : a.Makes b) {r : Rejection} (hb : b.Fails r) : a.Fails r := by
  cases h with
  | blank hk => exact (block_newline hk).trans hb
  | row hw =>
    rw [Call.Fails, block_line hw]
    exact bind_eq_error.2 (.inl hb)
  | nextRow hw hl ha =>
    rw [Call.Fails, block_line hw, hl, ok_bind]
    exact bind_eq_error.2 (.inr ⟨_, ha, hb⟩)
  | semicolon hk => exact (line_semicolon hk).trans hb
  | item hk =>
    rw [Call.Fails, line_statement hk]
    exact bind_eq_error.2 (.inl hb)
  | nextItem hk hs hmore =>
    rw [Call.Fails, line_statement hk, hs, ok_bind]
    dsimp only
    rw [if_neg Bool.false_ne_true, if_pos hmore]
    exact bind_eq_error.2 (.inl hb)
  | branch hk =>
    rw [Call.Fails, statement_if hk]
    exact bind_eq_error.2 (.inl hb)
  | otherwiseIf hk hi =>
    rw [Call.Fails, statement_elseIf hk hi]
    exact bind_eq_error.2 (.inl hb)
  | otherwise hk hi =>
    rw [Call.Fails, statement_else hk hi]
    exact bind_eq_error.2 (.inl hb)
  | loop hk hc harrow =>
    rw [Call.Fails, statement_repeat hk, hc, ok_bind]
    dsimp only
    rw [(expect_eq_ok (by simp)).2 ⟨harrow, rfl⟩, ok_bind]
    exact bind_eq_error.2 (.inl hb)
  | guarded hc hmore =>
    rw [Call.Fails, conditional_eq, hc, ok_bind]
    dsimp only
    rw [if_pos hmore]
    exact bind_eq_error.2 (.inl hb)
  | inline hend =>
    rw [Call.Fails, body_line hend]
    exact bind_eq_error.2 (.inl hb)
  | indented hend hi =>
    rw [Call.Fails, body_block hend hi]
    exact bind_eq_error.2 (.inl hb)

theorem Call.fails_of_makes {a b : Call} (h : Relation.ReflTransGen Makes a b) {r : Rejection} (hb : b.Fails r) :
    a.Fails r := by
  induction h with
  | refl => exact hb
  | tail _ hmakes ih => exact ih (hmakes.fails hb)

/-- The parser makes this call when it reads the text. -/
def Call.IsMadeFor (text : List Char) (call : Call) : Prop :=
  ∃ ts, lex text = .ok ts ∧ Relation.ReflTransGen Makes (.block (16 * (ts.length + 1)) [] ts) call

theorem parse_fails {text : List Char} {call : Call} (h : call.IsMadeFor text) {r : Rejection} (hr : call.Fails r) :
    parse text = .error r := by
  obtain ⟨ts, hlex, hmakes⟩ := h
  have hblock : block (16 * (ts.length + 1)) [] ts = .error r := Call.fails_of_makes hmakes hr
  rw [parse, hlex, ok_bind, program, hblock]
  rfl

variable {text : List Char} {fuel fuel' : Nat} {ts rest : List Token} {items : List Item}

theorem body_written (hend : atLineEnd ts = false) (h : line fuel ts = .ok (items, rest)) :
    body (fuel + 1) ts = (·, rest) <$> written (items.flatMap asElseIf) := by
  rw [body_line hend, h, ok_bind, ← attachAll_written (isFresh_of_line h)]
  dsimp only
  cases attachAll [] items <;> rfl

theorem Lines.written (h : Lines fuel ts items fuel' rest) : Parser.block fuel [] ts =
    Parser.written (items.flatMap asElseIf) >>= fun stmts => Parser.block fuel' stmts.reverse rest := by
  rw [h.block [], ← attachAll_written h.isFresh]
  cases attachAll [] items with
  | error r => rfl
  | ok done => exact congrArg (Parser.block fuel' · rest) (List.reverse_reverse done).symm

/-- Which conditional an `else` belongs to, in all blocks of a text. Wherever the parser reads lines of a block, or one
line as a body, it goes on with the statements that the law makes of their items, and where the law refuses an `else`
the text is rejected for it; a block that is read to its end is what the law makes of its lines. But a plain `else`
around a lone conditional counts as an `else if` line. The items of all other blocks count as they are. -/
theorem else_attaches (text : List Char) :
    (∀ {fuel fuel' : Nat} {ts rest : List Token} {items : List Item}, (Call.block fuel [] ts).IsMadeFor text →
      Lines fuel ts items fuel' rest →
        match written (items.flatMap asElseIf) with
        | .ok stmts => block fuel [] ts = block fuel' stmts.reverse rest
        | .error r => parse text = .error r) ∧
    (∀ {fuel : Nat} {ts rest : List Token} {stmts : List Stmt}, block fuel [] ts = .ok (stmts, rest) →
      ∃ items fuel', Lines fuel ts items fuel' rest ∧ written (items.flatMap asElseIf) = .ok stmts) ∧
    (∀ {fuel : Nat} {ts rest : List Token} {items : List Item}, (Call.body (fuel + 1) ts).IsMadeFor text →
      atLineEnd ts = false → line fuel ts = .ok (items, rest) →
        match written (items.flatMap asElseIf) with
        | .ok stmts => body (fuel + 1) ts = .ok (stmts, rest)
        | .error r => parse text = .error r) ∧
    ∀ items : List Item, (∀ body offset, Item.otherwise none body offset ∈ items → ¬IsLone body) →
      items.flatMap asElseIf = items := by
  refine ⟨fun {fuel fuel' ts rest items} hmade hlines => ?_, fun {fuel ts rest stmts} h => ?_,
    fun {fuel ts rest items} hmade hend hline => ?_, fun items => asElseIf_eq_self⟩
  · have hblock := hlines.written
    cases hw : written (items.flatMap asElseIf) with
    | ok stmts => rwa [hw] at hblock
    | error r =>
      rw [hw] at hblock
      exact parse_fails hmade hblock
  · obtain ⟨items, fuel', hlines, ha⟩ := exists_lines h
    refine ⟨items, fuel', hlines, ?_⟩
    rw [← attachAll_written hlines.isFresh, ha]
    exact congrArg Except.ok (List.reverse_reverse stmts)
  · have hbody := body_written hend hline
    cases hw : written (items.flatMap asElseIf) with
    | ok stmts => rwa [hw] at hbody
    | error r =>
      rw [hw] at hbody
      exact parse_fails hmade hbody

/-- A conditional with an `else if` line and two plain `else` lines. -/
def closedTwice : List Char := "if a\nelse if b\n\tbox\nelse\nelse".toList

/-- Its tokens. -/
def closedTwiceTokens : List Token :=
  [⟨.ident "if", 0, 2⟩, ⟨.ident "a", 3, 4⟩, ⟨.newline, 4, 4⟩,
    ⟨.ident "else", 5, 9⟩, ⟨.ident "if", 10, 12⟩, ⟨.ident "b", 13, 14⟩, ⟨.newline, 14, 14⟩,
    ⟨.indent, 16, 16⟩, ⟨.ident "box", 16, 19⟩, ⟨.newline, 19, 19⟩, ⟨.dedent, 20, 20⟩,
    ⟨.ident "else", 20, 24⟩, ⟨.newline, 24, 24⟩, ⟨.ident "else", 25, 29⟩, ⟨.newline, 29, 29⟩, ⟨.eof, 29, 29⟩]

theorem closedTwice_lines : Lines 272 closedTwiceTokens
    [.stmt (.branch (.ident "a" 3) [] none),
      .otherwise (some (.ident "b" 13)) [.expr (.call "box" [] 16)] 5,
      .otherwise none [] 20, .otherwise none [] 25] 268 (closedTwiceTokens.drop 15) := by
  have h₁ : line 271 closedTwiceTokens =
    .ok ([.stmt (.branch (.ident "a" 3) [] none)], closedTwiceTokens.drop 3) := by cbv
  have h₂ : line 270 (closedTwiceTokens.drop 3) =
    .ok ([.otherwise (some (.ident "b" 13)) [.expr (.call "box" [] 16)] 5], closedTwiceTokens.drop 11) := by cbv
  have h₃ : line 269 (closedTwiceTokens.drop 11) = .ok ([.otherwise none [] 20], closedTwiceTokens.drop 13) := by cbv
  have h₄ : line 268 (closedTwiceTokens.drop 13) = .ok ([.otherwise none [] 25], closedTwiceTokens.drop 15) := by cbv
  exact .line rfl h₁ (.line rfl h₂ (.line rfl h₃ (.line rfl h₄ .none)))

/-- The second plain `else` is refused. -/
theorem else_attaches_once : lex closedTwice = .ok closedTwiceTokens ∧
    (Call.block 272 [] closedTwiceTokens).IsMadeFor closedTwice ∧
      parse closedTwice = .error ⟨25, .lonelyElse⟩ := by
  have hmade : (Call.block 272 [] closedTwiceTokens).IsMadeFor closedTwice := ⟨closedTwiceTokens, rfl, .refl⟩
  exact ⟨rfl, hmade, (else_attaches closedTwice).1 hmade closedTwice_lines⟩

/-- The body of the first `else` is a lone conditional, and the second `else` is taken for one that belongs to it. -/
theorem else_reopened :
    parse "if a\n\tbox\nelse\n\tif b\n\t\tball\nelse\n\tpeg".toList =
        .ok [.branch (.ident "a" 3) [.expr (.call "box" [] 6)]
          (some [.branch (.ident "b" 19) [.expr (.call "ball" [] 23)] (some [.expr (.call "peg" [] 34)])])] ∧
      written [.stmt (.branch (.ident "a" 3) [.expr (.call "box" [] 6)] none),
          .otherwise none [.branch (.ident "b" 19) [.expr (.call "ball" [] 23)] none] 10,
          .otherwise none [.expr (.call "peg" [] 34)] 28] = .error ⟨28, .lonelyElse⟩ := by
  refine ⟨?_, rfl⟩
  cbv

end Parser

end LiveSketch.Script

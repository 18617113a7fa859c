import LiveSketch.Proofs.Script.Nesting

/-!
# The parser ends

On tokens with balanced indentation the parser never runs out of fuel and never looks behind the last token
(`total`). Both are one statement about two runs: the second has at least as much fuel and any tokens behind
the list, and it ends as the first one does (`Same`). Every function that passes its tokens on has taken one
off or passes them to a function of lower rank: primary expressions, calls, operands, the levels of
expressions, arguments, statements, lines, blocks. Fuel for sixteen ranks between two tokens is enough.
-/
namespace LiveSketch.Script

open Lexer
open LiveSketch.Script.Parser

/-- A rejection that a text is to blame for: neither lack of fuel nor a token behind the program. -/
def Rejection.Earned (r : Rejection) : Prop :=
  r.cause ≠ .tooDeep ∧ ∀ found, r.cause ≠ .expected "end of program" found

/-- Two runs that end in the same way: with the same rejection, which is earned, or with related results. -/
inductive Same {α : Type} (R : α → α → Prop) : Except Rejection α → Except Rejection α → Prop where
  | error {r : Rejection} : r.Earned → Same R (.error r) (.error r)
  | ok {a b : α} : R a b → Same R (.ok a) (.ok b)

theorem Same.bind {α β : Type} {R : α → α → Prop} {S : β → β → Prop} {x y : Except Rejection α}
    {f g : α → Except Rejection β} (h : Same R x y) (hf : ∀ a b, R a b → Same S (f a) (g b)) :
    Same S (x >>= f) (y >>= g) := by
  cases h with
  | error hr => exact .error hr
  | ok hab => exact hf _ _ hab

theorem Same.mono {α : Type} {R S : α → α → Prop} {x y : Except Rejection α} (h : Same R x y)
    (hs : ∀ a b, R a b → S a b) : Same S x y := by
  cases h with
  | error hr => exact .error hr
  | ok hab => exact .ok (hs _ _ hab)

theorem Same.of_ok {α : Type} {R : α → α → Prop} {x y : Except Rejection α} {a : α} (h : Same R x y)
    (hx : x = .ok a) : ∃ b, R a b := by
  cases h with
  | error _ => cases hx
  | ok hab =>
    cases hx
    exact ⟨_, hab⟩

/-- What may be left of these tokens: a suffix in which `k` blocks are open. -/
structure Left (k : Nat) (front left : List Token) : Prop where
  nested : Nested k left
  suffix : left <:+ front

namespace Left

variable {k : Nat} {front front' left : List Token}

theorem self (h : Nested k left) : Left k left left := ⟨h, List.suffix_rfl⟩

theorem mono (h : Left k front left) (hf : front <:+ front') : Left k front' left :=
  ⟨h.nested, h.suffix.trans hf⟩

theorem of_tail (h : Left k front.tail left) : Left k front left := h.mono (List.tail_suffix _)

theorem length_le (h : Left k front left) : left.length ≤ front.length := h.suffix.length_le

end Left

/-- Both runs have read the same and have the same left, the second one with `more` behind it. -/
def ReadSame (k : Nat) (more front : List Token) {α : Type} (a b : α × List Token) : Prop :=
  b = (a.1, a.2 ++ more) ∧ Left k front a.2

theorem Same.read {k : Nat} {more front : List Token} {α : Type} {a : α} {left : List Token}
    (h : Left k front left) : Same (ReadSame k more front) (.ok (a, left)) (.ok (a, left ++ more)) :=
  .ok ⟨rfl, h⟩

theorem Same.mono_read {k : Nat} {more front front' : List Token} {α : Type}
    {x y : Except Rejection (α × List Token)} (h : Same (ReadSame k more front) x y) (hf : front <:+ front') :
    Same (ReadSame k more front') x y :=
  h.mono fun _ _ hab => ⟨hab.1, hab.2.mono hf⟩

theorem Same.bind_read {k : Nat} {more front : List Token} {α β : Type} {S : β → β → Prop}
    {x y : Except Rejection (α × List Token)} {f g : α × List Token → Except Rejection β}
    (h : Same (ReadSame k more front) x y)
    (hf : ∀ a left, Left k front left → Same S (f (a, left)) (g (a, left ++ more))) :
    Same S (x >>= f) (y >>= g) :=
  h.bind fun a b hab => by
    rw [hab.1]
    exact hf a.1 a.2 hab.2

namespace Parser

theorem earned_unexpected {what : String} (hw : what ≠ "end of program") (ts : List Token) :
    (unexpected what ts).Earned :=
  ⟨by simp [unexpected], fun found h => hw (by simpa [unexpected] using (Cause.expected.inj h).1)⟩

section

variable {k : Nat} {more ts : List Token}

theorem unexpected_append (h : Nested k ts) (what : String) : unexpected what (ts ++ more) = unexpected what ts := by
  rw [unexpected, unexpected, h.peek_append, h.peekKind_append]

theorem atLineEnd_append (h : Nested k ts) : atLineEnd (ts ++ more) = atLineEnd ts := by
  rw [atLineEnd, atLineEnd, h.peekKind_append]

theorem consume?_append {kind : TokenKind} (hk : kind ≠ .eof) (h : Nested k ts) :
    consume? kind (ts ++ more) = (consume? kind ts).map (· ++ more) := by
  rw [consume?_eq hk, consume?_eq hk, h.peekKind_append, h.tail_append]
  split <;> rfl

/-- Whether the next token is of this kind does not hang on what stands behind the list. -/
theorem consume?_cases {kind : TokenKind} (hk : kind.isWord) (h : Nested k ts) (more : List Token) :
    (consume? kind ts = some ts.tail ∧ consume? kind (ts ++ more) = some (ts.tail ++ more) ∧ Nested k ts.tail) ∨
      (consume? kind ts = none ∧ consume? kind (ts ++ more) = none) := by
  have hne : kind ≠ .eof := by
    rintro rfl
    cases hk
  rw [consume?_append hne h, consume?_eq hne]
  by_cases hpeek : peekKind ts = kind
  · rw [if_pos hpeek]
    exact .inl ⟨rfl, rfl, h.tail_word (hpeek ▸ hk)⟩
  · rw [if_neg hpeek]
    exact .inr ⟨rfl, rfl⟩

theorem skip_append {kind : TokenKind} (hk : kind ≠ .eof) (h : Nested k ts) :
    skip kind (ts ++ more) = skip kind ts ++ more := by
  rw [skip, skip, consume?_append hk h]
  cases consume? kind ts <;> rfl

theorem nested_skip {kind : TokenKind} (hk : kind = .newline ∨ kind.isWord) (h : Nested k ts) :
    Nested k (skip kind ts) := by
  rw [skip_eq (by rcases hk with rfl | hk <;> [simp; (rintro rfl; cases hk)])]
  split
  · rename_i hpeek
    rcases hk with rfl | hk
    · exact h.tail_newline hpeek
    · exact h.tail_word (hpeek ▸ hk)
  · exact h

theorem expect_bind {kind : TokenKind} {what : String} (hk : kind.isWord) (hw : what ≠ "end of program")
    (h : Nested k ts) {β : Type} {S : β → β → Prop} {f g : List Token → Except Rejection β}
    (hf : Left k ts.tail ts.tail → Same S (f ts.tail) (g (ts.tail ++ more))) :
    Same S (expect kind what ts >>= f) (expect kind what (ts ++ more) >>= g) := by
  rw [expect, expect]
  rcases consume?_cases hk h more with ⟨hc, hc', htail⟩ | ⟨hc, hc'⟩
  · rw [hc, hc']
    exact hf (.self htail)
  · rw [hc, hc', unexpected_append h]
    exact .error (earned_unexpected hw ts)

/-- Whether arguments follow a name is decided by tokens that are there: the end of the program comes at the
latest behind the name, and behind a sign. -/
theorem argumentsFollow_append (h : Nested k ts) (hw : (peekKind ts).isWord) :
    argumentsFollow (ts ++ more) = argumentsFollow ts := by
  have htail := h.tail_word hw
  cases ts with
  | nil => cases h
  | cons name ts =>
    cases ts with
    | nil => cases htail
    | cons next ts =>
      have hhead : next.kind.isWord → (ts ++ more).head? = ts.head? := fun hn => by
        have hne := (htail.tail_word hn).ne_nil
        cases ts with
        | nil => exact absurd rfl hne
        | cons t ts => rfl
      simp only [List.cons_append, argumentsFollow]
      split <;> first | rfl | (rename_i hk; rw [hhead (by rw [hk]; rfl)])

end

/-! ## Expressions -/

/-- With so much fuel each function that reads expressions ends, and reads the same if there is more fuel and
there are more tokens. -/
structure ExprTotal (fuel fuel' : Nat) (more : List Token) : Prop where
  primary : ∀ {k ts}, Nested k ts → 16 * ts.length + 1 ≤ fuel →
    Same (ReadSame k more ts.tail) (primary fuel ts) (Parser.primary fuel' (ts ++ more))
  postfixed : ∀ {k ts}, Nested k ts → 16 * ts.length + 2 ≤ fuel →
    Same (ReadSame k more ts.tail) (postfixed fuel ts) (Parser.postfixed fuel' (ts ++ more))
  operand : ∀ {k ts}, Nested k ts → 16 * ts.length + 3 ≤ fuel →
    Same (ReadSame k more ts.tail) (operand fuel ts) (Parser.operand fuel' (ts ++ more))
  expression : ∀ {k level ts}, level ≤ levels → Nested k ts → 16 * ts.length + 4 + level ≤ fuel →
    Same (ReadSame k more ts.tail) (expression fuel level ts) (Parser.expression fuel' level (ts ++ more))
  chain : ∀ {k level left ts}, level < levels → Nested k ts → 16 * ts.length + 1 ≤ fuel →
    Same (ReadSame k more ts) (chain fuel level left ts) (Parser.chain fuel' level left (ts ++ more))
  arguments : ∀ {k ts}, Nested k ts → 16 * ts.length + 11 ≤ fuel →
    Same (ReadSame k more ts.tail) (arguments fuel ts) (Parser.arguments fuel' (ts ++ more))
  moreArguments : ∀ {k ts}, Nested k ts → 16 * ts.length + 11 ≤ fuel →
    Same (ReadSame k more ts.tail) (moreArguments fuel ts) (Parser.moreArguments fuel' (ts ++ more))
  parenthesized : ∀ {k ts}, Nested k ts → 16 * ts.length + 12 ≤ fuel →
    Same (ReadSame k more ts.tail) (parenthesized fuel ts) (Parser.parenthesized fuel' (ts ++ more))

namespace ExprTotal

variable {fuel fuel' k : Nat} {more ts : List Token}

theorem zero : ExprTotal 0 fuel' more where
  primary _ hf := by omega
  postfixed _ hf := by omega
  operand _ hf := by omega
  expression _ _ hf := by omega
  chain _ _ hf := by omega
  arguments _ hf := by omega
  moreArguments _ hf := by omega
  parenthesized _ hf := by omega

theorem primary_succ (ih : ExprTotal fuel fuel' more) (h : Nested k ts) (hf : 16 * ts.length + 1 ≤ fuel + 1) :
    Same (ReadSame k more ts.tail) (Parser.primary (fuel + 1) ts)
      (Parser.primary (fuel' + 1) (ts ++ more)) := by
  have hlen := h.length_tail
  have hone : ∀ {e : Expr}, (peekKind ts).isWord →
      Same (ReadSame k more ts.tail) (.ok (e, ts.tail)) (.ok (e, ts.tail ++ more)) := fun hw =>
    .read (.self (h.tail_word hw))
  rw [Parser.primary, Parser.primary, h.peek_append, unexpected_append h, h.tail_append]
  dsimp only
  split
  · rename_i hk
    exact hone (by rw [peekKind, hk]; rfl)
  · rename_i hk
    exact hone (by rw [peekKind, hk]; rfl)
  · rename_i name hk
    have hw : (peekKind ts).isWord := by rw [peekKind, hk]; rfl
    split
    · exact hone hw
    split
    · exact hone hw
    split
    · exact .error ⟨by simp, by simp⟩
    · exact hone hw
  · rename_i hk
    have htail := h.tail_word (by rw [peekKind, hk]; rfl)
    refine (ih.expression (Nat.le_refl _) htail (by simp only [levels]; omega)).bind_read fun e left hleft => ?_
    refine expect_bind rfl (by decide) hleft.nested fun hrest => ?_
    exact .read (hrest.mono ((List.tail_suffix _).trans (hleft.of_tail).suffix))
  · exact .error (earned_unexpected (by decide) ts)

theorem postfixed_succ (ih : ExprTotal fuel fuel' more) (h : Nested k ts)
    (hf : 16 * ts.length + 2 ≤ fuel + 1) :
    Same (ReadSame k more ts.tail) (Parser.postfixed (fuel + 1) ts)
      (Parser.postfixed (fuel' + 1) (ts ++ more)) := by
  have hlen := h.length_tail
  have hfirst := ih.primary h (by omega)
  -- only behind a word the tokens that decide about arguments are sure to be there
  by_cases hw : (peekKind ts).isWord
  · rw [Parser.postfixed, Parser.postfixed]
    refine hfirst.bind_read fun e left hleft => ?_
    have hle := hleft.length_le
    cases e with
    | ident name offset =>
      dsimp only
      rw [hleft.nested.peekKind_append, hleft.nested.peek_append, h.peek_append, argumentsFollow_append h hw,
        hleft.nested.tail_append]
      split
      · rename_i hparen
        have hinner := hleft.nested.tail_word (by rw [hparen.1]; rfl)
        have hshort := hleft.nested.length_tail
        refine (ih.parenthesized hinner (by omega)).bind_read fun args rest hrest => ?_
        exact .read (hrest.of_tail.of_tail.mono hleft.suffix)
      split
      · refine (ih.arguments hleft.nested (by omega)).bind_read fun args rest hrest => ?_
        exact .read (hrest.of_tail.mono hleft.suffix)
      · exact .read hleft
    | _ => exact .read hleft
  · rw [Parser.postfixed, Parser.postfixed]
    cases hp : Parser.primary fuel ts with
    | ok found => exact absurd (isWord_of_primary hp) hw
    | error r =>
      rw [hp] at hfirst
      generalize Parser.primary fuel' (ts ++ more) = y at hfirst ⊢
      cases hfirst with
      | error hr => exact .error hr

theorem operand_succ (ih : ExprTotal fuel fuel' more) (h : Nested k ts) (hf : 16 * ts.length + 3 ≤ fuel + 1) :
    Same (ReadSame k more ts.tail) (Parser.operand (fuel + 1) ts)
      (Parser.operand (fuel' + 1) (ts ++ more)) := by
  have hlen := h.length_tail
  rw [Parser.operand, Parser.operand, h.peekKind_append]
  split
  · rename_i f hop
    rw [h.tail_append]
    refine (ih.operand (h.tail_word (isWord_of_prefixOp? hop)) (by omega)).bind_read fun e left hleft => ?_
    exact .read hleft.of_tail
  · exact ih.postfixed h (by omega)

theorem expression_succ (ih : ExprTotal fuel fuel' more) {level : Nat} (hl : level ≤ levels) (h : Nested k ts)
    (hf : 16 * ts.length + 4 + level ≤ fuel + 1) :
    Same (ReadSame k more ts.tail) (Parser.expression (fuel + 1) level ts)
      (Parser.expression (fuel' + 1) level (ts ++ more)) := by
  have hlen := h.length_tail
  cases level with
  | zero => exact ih.operand h (by omega)
  | succ level =>
    rw [Parser.expression, Parser.expression]
    refine (ih.expression (by omega) h (by omega)).bind_read fun e left hleft => ?_
    have hle := hleft.length_le
    exact (ih.chain (by omega) hleft.nested (by omega)).mono_read hleft.suffix

theorem chain_succ (ih : ExprTotal fuel fuel' more) {level : Nat} {left : Expr} (hl : level < levels)
    (h : Nested k ts) (hf : 16 * ts.length + 1 ≤ fuel + 1) :
    Same (ReadSame k more ts) (Parser.chain (fuel + 1) level left ts)
      (Parser.chain (fuel' + 1) level left (ts ++ more)) := by
  have hlen := h.length_tail
  rw [Parser.chain, Parser.chain, h.peekKind_append]
  split
  · exact .read (.self h)
  · rename_i op hop
    rw [h.tail_append]
    have hrank : 16 * ts.tail.length + 4 + level ≤ fuel := by
      simp only [levels] at hl
      omega
    refine (ih.expression (by omega) (h.tail_word (isWord_of_binaryOp? hop)) hrank).bind_read
      fun right rest hrest => ?_
    have hle := hrest.of_tail.length_le
    exact (ih.chain hl hrest.nested (by omega)).mono_read hrest.of_tail.of_tail.suffix

theorem arguments_succ (ih : ExprTotal fuel fuel' more) (h : Nested k ts)
    (hf : 16 * ts.length + 11 ≤ fuel + 1) :
    Same (ReadSame k more ts.tail) (Parser.arguments (fuel + 1) ts)
      (Parser.arguments (fuel' + 1) (ts ++ more)) := by
  have hlen := h.length_tail
  rw [Parser.arguments, Parser.arguments]
  refine (ih.expression (Nat.le_refl _) h (by simp only [levels]; omega)).bind_read fun e left hleft => ?_
  have hle := hleft.length_le
  have hshort := hleft.nested.length_tail
  rcases consume?_cases (rfl : TokenKind.comma.isWord) hleft.nested more with ⟨hc, hc', htail⟩ | ⟨hc, hc'⟩
  · simp only [hc, hc']
    refine (ih.arguments htail (by omega)).bind_read fun es rest hrest => ?_
    exact .read (hrest.of_tail.of_tail.mono hleft.suffix)
  · simp only [hc, hc']
    exact .read hleft

theorem moreArguments_succ (ih : ExprTotal fuel fuel' more) (h : Nested k ts)
    (hf : 16 * ts.length + 11 ≤ fuel + 1) :
    Same (ReadSame k more ts.tail) (Parser.moreArguments (fuel + 1) ts)
      (Parser.moreArguments (fuel' + 1) (ts ++ more)) := by
  have hlen := h.length_tail
  rw [Parser.moreArguments, Parser.moreArguments]
  refine (ih.expression (Nat.le_refl _) h (by simp only [levels]; omega)).bind_read fun e left hleft => ?_
  have hle := hleft.length_le
  have hshort := hleft.nested.length_tail
  rcases consume?_cases (rfl : TokenKind.comma.isWord) hleft.nested more with ⟨hc, hc', htail⟩ | ⟨hc, hc'⟩
  · simp only [hc, hc']
    refine (ih.moreArguments htail (by omega)).bind_read fun es rest hrest => ?_
    exact .read (hrest.of_tail.of_tail.mono hleft.suffix)
  · simp only [hc, hc']
    refine expect_bind rfl (by decide) hleft.nested fun hrest => ?_
    exact .read (hrest.of_tail.mono hleft.suffix)

theorem parenthesized_succ (ih : ExprTotal fuel fuel' more) (h : Nested k ts)
    (hf : 16 * ts.length + 12 ≤ fuel + 1) :
    Same (ReadSame k more ts.tail) (Parser.parenthesized (fuel + 1) ts)
      (Parser.parenthesized (fuel' + 1) (ts ++ more)) := by
  rw [Parser.parenthesized, Parser.parenthesized]
  rcases consume?_cases (rfl : TokenKind.rightParen.isWord) h more with ⟨hc, hc', htail⟩ | ⟨hc, hc'⟩
  · simp only [hc, hc']
    exact .read (.self htail)
  · simp only [hc, hc']
    exact ih.moreArguments h (by omega)

end ExprTotal

theorem exprTotal {fuel fuel' : Nat} (hle : fuel ≤ fuel') (more : List Token) : ExprTotal fuel fuel' more := by
  induction fuel generalizing fuel' with
  | zero => exact .zero
  | succ fuel ih =>
    obtain ⟨fuel', rfl⟩ : ∃ n, fuel' = n + 1 := ⟨fuel' - 1, by omega⟩
    have ih := ih (Nat.le_of_succ_le_succ hle)
    exact {
      primary := ih.primary_succ
      postfixed := ih.postfixed_succ
      operand := ih.operand_succ
      expression := ih.expression_succ
      chain := ih.chain_succ
      arguments := ih.arguments_succ
      moreArguments := ih.moreArguments_succ
      parenthesized := ih.parenthesized_succ }

/-! ## Statements -/

/-- Two runs have read the same statement and have the same left. -/
def ReadSameItem (k : Nat) (more front : List Token) (a b : Item × Bool × List Token) : Prop :=
  b = (a.1, a.2.1, a.2.2 ++ more) ∧ Left k front a.2.2

/-- Two runs have read the same condition and body and have the same left. -/
def ReadSameBranch (k : Nat) (more front : List Token) (a b : Expr × List Stmt × List Token) : Prop :=
  b = (a.1, a.2.1, a.2.2 ++ more) ∧ Left k front a.2.2

/-- Adding items to the statements before them fails only for an `else` without a conditional. -/
theorem attachAll_same (done : List Stmt) (items : List Item) :
    Same Eq (attachAll done items) (attachAll done items) := by
  have hattach : ∀ done item, Same Eq (attach done item) (attach done item) := by
    intro done item
    have hlonely : ∀ offset, Rejection.Earned ⟨offset, .lonelyElse⟩ := fun _ => ⟨by simp, by simp⟩
    unfold attach
    split
    · exact .ok rfl
    split
    · exact .error (hlonely _)
    split
    · exact .ok rfl
    · exact .error (hlonely _)
  unfold attachAll
  induction items generalizing done with
  | nil => exact .ok rfl
  | cons item items ih =>
    rw [List.foldlM_cons]
    exact (hattach done item).bind fun a b hab => hab ▸ ih a

/-- With so much fuel each function that reads statements ends, and reads the same if there is more fuel and
there are more tokens. A line that begins with a word takes it off, and a block ends where one is closed or
the program ends. -/
structure StmtTotal (fuel fuel' : Nat) (more : List Token) : Prop where
  bare : ∀ {k ts}, Nested k ts → 16 * ts.length + 11 ≤ fuel →
    Same (ReadSameItem k more ts.tail) (bare fuel ts) (Parser.bare fuel' (ts ++ more))
  conditional : ∀ {k ts}, Nested k ts → 16 * ts.length + 11 ≤ fuel →
    Same (ReadSameBranch k more ts.tail) (conditional fuel ts) (Parser.conditional fuel' (ts ++ more))
  statement : ∀ {k ts}, Nested k ts → 16 * ts.length + 12 ≤ fuel →
    Same (ReadSameItem k more ts.tail) (statement fuel ts) (Parser.statement fuel' (ts ++ more))
  line : ∀ {k ts}, Nested k ts → 16 * ts.length + 13 ≤ fuel →
    Same (ReadSame k more (if (peekKind ts).isWord then ts.tail else ts)) (line fuel ts)
      (Parser.line fuel' (ts ++ more))
  body : ∀ {k ts}, Nested k ts → 16 * ts.length + 14 ≤ fuel →
    Same (ReadSame k more ts) (body fuel ts) (Parser.body fuel' (ts ++ more))
  block : ∀ {k} done {ts}, Nested k ts → 16 * ts.length + 14 ≤ fuel →
    Same (fun a b => ReadSame k more ts a b ∧ (peekKind a.2 = .eof ∨ peekKind a.2 = .dedent))
      (block fuel done ts) (Parser.block fuel' done (ts ++ more))

namespace StmtTotal

variable {fuel fuel' k : Nat} {more ts : List Token}

theorem zero : StmtTotal 0 fuel' more where
  bare _ hf := by omega
  conditional _ hf := by omega
  statement _ hf := by omega
  line _ hf := by omega
  body _ hf := by omega
  block _ _ _ hf := by omega

section

variable (he : ExprTotal fuel fuel' more)

include he

theorem bare_succ (h : Nested k ts) (hf : 16 * ts.length + 11 ≤ fuel + 1) :
    Same (ReadSameItem k more ts.tail) (Parser.bare (fuel + 1) ts) (Parser.bare (fuel' + 1) (ts ++ more)) := by
  rw [bare_eq, bare_eq]
  refine (he.expression (Nat.le_refl _) h (by simp only [levels]; omega)).bind_read fun e left hleft => ?_
  exact .ok ⟨rfl, hleft⟩

theorem conditional_succ (ih : StmtTotal fuel fuel' more) (h : Nested k ts)
    (hf : 16 * ts.length + 11 ≤ fuel + 1) :
    Same (ReadSameBranch k more ts.tail) (Parser.conditional (fuel + 1) ts)
      (Parser.conditional (fuel' + 1) (ts ++ more)) := by
  have hlen := h.length_tail
  rw [conditional_eq, conditional_eq]
  refine (he.expression (Nat.le_refl _) h (by simp only [levels]; omega)).bind_read fun e left hleft => ?_
  have hle := hleft.length_le
  dsimp only
  rw [hleft.nested.peekKind_append, atLineEnd_append hleft.nested, skip_append (by simp) hleft.nested,
    unexpected_append hleft.nested]
  split
  · have hskip := skip_suffix .arrow left
    have hshort := hskip.length_le
    refine (ih.body (nested_skip (.inr rfl) hleft.nested) (by omega)).bind_read fun b rest hrest => ?_
    exact .ok ⟨rfl, hrest.mono (hskip.trans hleft.suffix)⟩
  · exact .error (earned_unexpected (by decide) left)

/-- A statement that begins with a name. -/
theorem statement_name_succ (ih : StmtTotal fuel fuel' more) (h : Nested k ts) {name : String}
    (hk : peekKind ts = .ident name) (hn : name ∉ ["repeat", "if", "else"])
    (hf : 16 * ts.length + 12 ≤ fuel + 1) :
    Same (ReadSameItem k more ts.tail) (Parser.statement (fuel + 1) ts)
      (Parser.statement (fuel' + 1) (ts ++ more)) := by
  have hlen := h.length_tail
  have hw : (peekKind ts).isWord := isWord_of_name hk
  have htail := h.tail_word hw
  have htlen := htail.length_tail
  have htarget : ∀ offset, Rejection.Earned ⟨offset, .keywordTarget name⟩ := fun _ => ⟨by simp, by simp⟩
  rw [statement_name hk hn, statement_name (h.peekKind_append more ▸ hk) hn, h.tail_append, h.peek_append,
    argumentsFollow_append h hw, htail.peekKind_append, htail.tail_append]
  split
  · rename_i op hop
    have hrest := htail.tail_word (isWord_of_assignOp? hop)
    split
    · exact .error (htarget _)
    refine (he.expression (Nat.le_refl _) hrest (by simp only [levels]; omega)).bind_read
      fun value left hleft => ?_
    exact .ok ⟨rfl, hleft.of_tail.of_tail⟩
  · rename_i op _ hop
    split
    · exact .error (htarget _)
    · exact .ok ⟨rfl, htail.tail_word (isWord_of_stepOp? hop), List.tail_suffix _⟩
  · split
    · refine (he.arguments htail (by omega)).bind_read fun args left hleft => ?_
      exact .ok ⟨rfl, hleft.of_tail⟩
    · exact ih.bare h (by omega)

theorem statement_succ (ih : StmtTotal fuel fuel' more) (h : Nested k ts)
    (hf : 16 * ts.length + 12 ≤ fuel + 1) :
    Same (ReadSameItem k more ts.tail) (Parser.statement (fuel + 1) ts)
      (Parser.statement (fuel' + 1) (ts ++ more)) := by
  have hlen := h.length_tail
  have hkind := h.peekKind_append more
  by_cases hname : ∃ name, peekKind ts = .ident name
  · obtain ⟨name, hk⟩ := hname
    have htail := h.tail_word (isWord_of_name hk)
    by_cases hn : name ∉ ["repeat", "if", "else"]
    · exact statement_name_succ he ih h hk hn hf
    simp only [List.mem_cons, List.not_mem_nil, or_false, Decidable.not_not] at hn
    rcases hn with rfl | rfl | rfl
    · rw [statement_repeat hk, statement_repeat (hkind.trans hk), h.tail_append]
      refine (he.expression (Nat.le_refl _) htail (by simp only [levels]; omega)).bind_read
        fun count left hleft => ?_
      have hle := hleft.length_le
      refine expect_bind rfl (by decide) hleft.nested fun harrow => ?_
      have hshort := harrow.length_le
      refine (ih.body harrow.nested (by simp only [List.length_tail] at *; omega)).bind_read
        fun b rest hrest => ?_
      exact .ok ⟨rfl, hrest.of_tail.mono hleft.of_tail.suffix⟩
    · rw [statement_if hk, statement_if (hkind.trans hk), h.tail_append]
      refine (ih.conditional htail (by omega)).bind fun a b hab => ?_
      obtain ⟨rfl, hleft⟩ := hab
      exact .ok ⟨rfl, hleft.of_tail⟩
    · by_cases hi : peekKind ts.tail = .ident "if"
      · have hrest := htail.tail_word (isWord_of_name hi)
        have htlen := htail.length_tail
        rw [statement_elseIf hk hi, statement_elseIf (hkind.trans hk)
          (by rw [h.tail_append, htail.peekKind_append, hi]), h.tail_append, htail.tail_append, h.peek_append]
        refine (ih.conditional hrest (by omega)).bind fun a b hab => ?_
        obtain ⟨rfl, hleft⟩ := hab
        exact .ok ⟨rfl, hleft.of_tail.of_tail⟩
      · have hskip := skip_suffix .arrow ts.tail
        have hshort := hskip.length_le
        rw [statement_else hk hi, statement_else (hkind.trans hk)
          (by rwa [h.tail_append, htail.peekKind_append]), h.tail_append, skip_append (by simp) htail,
          h.peek_append]
        refine (ih.body (nested_skip (.inr rfl) htail) (by omega)).bind_read fun b rest hrest => ?_
        exact .ok ⟨rfl, hrest.mono hskip⟩
  · have hne : ∀ name, peekKind ts ≠ .ident name := fun name hk => hname ⟨name, hk⟩
    rw [statement_bare hne, statement_bare (hkind ▸ hne)]
    exact ih.bare h (by omega)

end

theorem line_succ (ih : StmtTotal fuel fuel' more) (h : Nested k ts) (hf : 16 * ts.length + 13 ≤ fuel + 1) :
    Same (ReadSame k more (if (peekKind ts).isWord then ts.tail else ts)) (Parser.line (fuel + 1) ts)
      (Parser.line (fuel' + 1) (ts ++ more)) := by
  have hlen := h.length_tail
  have hkind := h.peekKind_append more
  have hfront : ts.tail <:+ if (peekKind ts).isWord then ts.tail else ts := by
    split
    · exact List.suffix_rfl
    · exact List.tail_suffix _
  have hrest : ∀ {left : List Token},
      (if (peekKind left).isWord then left.tail else left) <:+ left := fun {left} => by
    split
    · exact List.tail_suffix _
    · exact List.suffix_rfl
  by_cases hsemi : peekKind ts = .semicolon
  · rw [line_semicolon hsemi, line_semicolon (hkind.trans hsemi), h.tail_append]
    exact (ih.line (h.tail_word (by rw [hsemi]; rfl)) (by omega)).mono_read (hrest.trans hfront)
  by_cases hnl : peekKind ts = .newline
  · rw [line_newline hnl, line_newline (hkind.trans hnl), h.tail_append]
    exact .read ⟨h.tail_newline hnl, hfront⟩
  by_cases hend : peekKind ts = .eof ∨ peekKind ts = .dedent
  · rw [line_end hend, line_end (hkind ▸ hend)]
    refine .read ⟨h, ?_⟩
    rcases hend with hk | hk <;> (rw [hk]; exact List.suffix_rfl)
  have hother : peekKind ts ∉ [TokenKind.semicolon, .newline, .eof, .dedent] := by simp_all
  rw [line_statement hother, line_statement (hkind ▸ hother)]
  refine Same.mono_read ?_ hfront
  refine (ih.statement h (by omega)).bind ?_
  rintro ⟨item, lineDone, left⟩ b ⟨rfl, hleft⟩
  have hle := hleft.length_le
  dsimp only at hle hleft ⊢
  rw [atLineEnd_append hleft.nested, hleft.nested.peekKind_append, unexpected_append hleft.nested]
  split
  · exact .read hleft
  split
  · refine (ih.line hleft.nested (by omega)).bind_read fun items rest hitems => ?_
    exact .read (hitems.mono (hrest.trans hleft.suffix))
  · exact .error (earned_unexpected (by decide) left)

theorem block_succ (ih : StmtTotal fuel fuel' more) (done : List Stmt) (h : Nested k ts)
    (hf : 16 * ts.length + 14 ≤ fuel + 1) :
    Same (fun a b => ReadSame k more ts a b ∧ (peekKind a.2 = .eof ∨ peekKind a.2 = .dedent))
      (Parser.block (fuel + 1) done ts) (Parser.block (fuel' + 1) done (ts ++ more)) := by
  have hlen := h.length_tail
  have hkind := h.peekKind_append more
  by_cases hend : peekKind ts = .eof ∨ peekKind ts = .dedent
  · rw [block_end hend, block_end (hkind ▸ hend)]
    exact .ok ⟨⟨rfl, .self h⟩, hend⟩
  by_cases hnl : peekKind ts = .newline
  · rw [block_newline hnl, block_newline (hkind.trans hnl), h.tail_append]
    exact (ih.block _ (h.tail_newline hnl) (by omega)).mono fun a b hab =>
      ⟨⟨hab.1.1, hab.1.2.of_tail⟩, hab.2⟩
  by_cases hi : peekKind ts = .indent
  · have hblock : ∀ {fuel} {ts : List Token}, peekKind ts = .indent →
        Parser.block (fuel + 1) done ts = .error ⟨(peek ts).start, .unexpectedIndentation⟩ := fun hi => by
      simp only [Parser.block, hi]
    rw [hblock hi, hblock (hkind.trans hi), h.peek_append]
    exact .error ⟨by simp, by simp⟩
  have hw : (peekKind ts).isWord := by
    cases hk : peekKind ts <;> first | rfl | simp_all
  rw [block_line hw, block_line (hkind ▸ hw)]
  refine (ih.line h (by omega)).bind_read fun items left hleft => ?_
  rw [if_pos hw] at hleft
  have hle := hleft.length_le
  refine (attachAll_same done items).bind fun done' done'' hdone => ?_
  subst hdone
  exact (ih.block _ hleft.nested (by omega)).mono fun a b hab =>
    ⟨⟨hab.1.1, hab.1.2.mono hleft.of_tail.suffix⟩, hab.2⟩

theorem body_succ (ih : StmtTotal fuel fuel' more) (h : Nested k ts) (hf : 16 * ts.length + 14 ≤ fuel + 1) :
    Same (ReadSame k more ts) (Parser.body (fuel + 1) ts) (Parser.body (fuel' + 1) (ts ++ more)) := by
  cases hend : atLineEnd ts with
  | false =>
    rw [body_line hend, body_line (by rw [atLineEnd_append h, hend])]
    refine (ih.line h (by omega)).bind_read fun items left hleft => ?_
    refine (attachAll_same [] items).bind fun done' done'' hdone => ?_
    subst hdone
    refine .read (hleft.mono ?_)
    split
    · exact List.tail_suffix _
    · exact List.suffix_rfl
  | true =>
    have hskip := skip_suffix .newline ts
    have hshort := hskip.length_le
    have hinner := nested_skip (.inl rfl) h
    have happend : skip .newline (ts ++ more) = skip .newline ts ++ more := skip_append (by simp) h
    by_cases hi : peekKind (skip .newline ts) = .indent
    · rw [body_block hend hi, body_block (by rw [atLineEnd_append h, hend])
        (by rw [happend, hinner.peekKind_append, hi]), happend, hinner.tail_append]
      have hlen := hinner.length_tail
      refine (ih.block _ (hinner.tail_indent hi) (by omega)).bind ?_
      rintro ⟨b, left⟩ y ⟨⟨rfl, hleft⟩, hstop⟩
      -- one block more was open inside, so the program cannot have ended
      have hded : peekKind left = .dedent := hstop.resolve_left fun he => by
        cases (hleft.nested.of_eof he).1
      dsimp only at hleft ⊢
      rw [skip_append (by simp) hleft.nested, skip_eq (by simp), if_pos hded]
      exact .read ⟨hleft.nested.tail_dedent hded,
        (List.tail_suffix _).trans (hleft.of_tail.suffix.trans hskip)⟩
    · rw [body_empty hend hi, body_empty (by rw [atLineEnd_append h, hend])
        (by rwa [happend, hinner.peekKind_append]), happend]
      exact .read ⟨hinner, hskip⟩

end StmtTotal

theorem stmtTotal {fuel fuel' : Nat} (hle : fuel ≤ fuel') (more : List Token) : StmtTotal fuel fuel' more := by
  induction fuel generalizing fuel' with
  | zero => exact .zero
  | succ fuel ih =>
    obtain ⟨fuel', rfl⟩ : ∃ n, fuel' = n + 1 := ⟨fuel' - 1, by omega⟩
    have he := exprTotal (Nat.le_of_succ_le_succ hle) more
    have ih := ih (Nat.le_of_succ_le_succ hle)
    exact {
      bare := StmtTotal.bare_succ he
      conditional := StmtTotal.conditional_succ he ih
      statement := StmtTotal.statement_succ he ih
      line := ih.line_succ
      body := ih.body_succ
      block := fun done => ih.block_succ done }

/-- A block ends, wherever it stops, in the same way with more fuel and more tokens. -/
theorem block_append {k fuel fuel' : Nat} (done : List Stmt) {ts : List Token} (h : Nested k ts)
    (hf : 16 * (ts.length + 1) ≤ fuel) (hle : fuel ≤ fuel') (more : List Token) :
    block fuel' done (ts ++ more) =
      (fun found => (found.1, found.2 ++ more)) <$> block fuel done ts := by
  have hsame := (stmtTotal hle more).block done h (by omega)
  generalize block fuel done ts = x, block fuel' done (ts ++ more) = y at hsame
  cases hsame with
  | error _ => rfl
  | ok hab => rw [hab.1.1]; rfl

/-- The parser rejects a program for a reason, or takes everything but the end. -/
theorem program_cases {ts : List Token} (h : Nested 0 ts) :
    (∃ r : Rejection, r.Earned ∧ block (16 * (ts.length + 1)) [] ts = .error r ∧ program ts = .error r) ∨
      ∃ stmts last, [last] <:+ ts ∧ block (16 * (ts.length + 1)) [] ts = .ok (stmts, [last]) ∧
        program ts = .ok stmts := by
  have hsame := (stmtTotal (Nat.le_refl (16 * (ts.length + 1))) []).block [] h (by omega)
  rw [program]
  generalize block (16 * (ts.length + 1)) [] ts = x, block (16 * (ts.length + 1)) [] (ts ++ []) = y at hsame
  cases hsame with
  | error hr => exact .inl ⟨_, hr, rfl, rfl⟩
  | @ok a b hab =>
    obtain ⟨stmts, left⟩ := a
    obtain ⟨⟨-, hleft⟩, hstop⟩ := hab
    -- with no block open only the program can have ended
    have heof : peekKind left = .eof := hstop.resolve_right hleft.nested.peekKind_ne_dedent
    obtain ⟨-, last, rfl⟩ := hleft.nested.of_eof heof
    refine .inr ⟨stmts, last, hleft.suffix, rfl, ?_⟩
    rw [ok_bind]
    exact if_pos heof

theorem program_append {ts : List Token} (h : Nested 0 ts) (more : List Token) :
    program (ts ++ more) = program ts := by
  have hblock := block_append [] h (Nat.le_refl _) (Nat.le_add_right _ (16 * more.length)) more
  have hfuel : 16 * ((ts ++ more).length + 1) = 16 * (ts.length + 1) + 16 * more.length := by
    rw [List.length_append]
    omega
  rcases program_cases h with ⟨r, -, hb, hp⟩ | ⟨stmts, last, hlast, hb, hp⟩
  · rw [hp, program, hfuel, hblock, hb]
    rfl
  · have heof : last.kind = .eof := by
      obtain ⟨front, eof, rfl, he, -⟩ := h.ends
      obtain ⟨init, hinit⟩ := hlast
      rw [← he, (List.append_inj' hinit rfl).2 |> List.singleton_inj.1]
    rw [hp, program, hfuel, hblock, hb]
    exact if_pos heof

/-- What has been read in full has taken a token off these at least. -/
structure TakesToken (fuel : Nat) (ts : List Token) : Prop where
  expression : ∀ level ≤ levels, ∀ found, expression fuel level ts = .ok found → found.2 <:+ ts.tail
  arguments : ∀ found, arguments fuel ts = .ok found → found.2 <:+ ts.tail
  parenthesized : ∀ found, parenthesized fuel ts = .ok found → found.2 <:+ ts.tail
  statement : ∀ found, statement fuel ts = .ok found → found.2.2 <:+ ts.tail
  line : (peekKind ts).isWord → ∀ found, line fuel ts = .ok found → found.2 <:+ ts.tail

theorem takesToken {k fuel : Nat} {ts : List Token} (h : Nested k ts) (hf : 16 * (ts.length + 1) ≤ fuel) :
    TakesToken fuel ts where
  expression level hl found hx := by
    have hrank : 16 * ts.length + 4 + level ≤ fuel := by
      simp only [levels] at hl
      omega
    obtain ⟨b, -, hleft⟩ := ((exprTotal (Nat.le_refl fuel) []).expression hl h hrank).of_ok hx
    exact hleft.suffix
  arguments found hx := by
    obtain ⟨b, -, hleft⟩ := ((exprTotal (Nat.le_refl fuel) []).arguments h (by omega)).of_ok hx
    exact hleft.suffix
  parenthesized found hx := by
    obtain ⟨b, -, hleft⟩ := ((exprTotal (Nat.le_refl fuel) []).parenthesized h (by omega)).of_ok hx
    exact hleft.suffix
  statement found hx := by
    obtain ⟨b, -, hleft⟩ := ((stmtTotal (Nat.le_refl fuel) []).statement h (by omega)).of_ok hx
    exact hleft.suffix
  line hw found hx := by
    obtain ⟨b, -, hleft⟩ := ((stmtTotal (Nat.le_refl fuel) []).line h (by omega)).of_ok hx
    rw [if_pos hw] at hleft
    exact hleft.suffix

end Parser

/-- Every text is taken apart and read to an end. The fuel of the scanner never runs out, and the tokens are
balanced. On them the fuel of the parser never runs out: more fuel and more tokens make no difference,
wherever the parser stands it goes on with fewer tokens, and a rejection is for a reason. What it accepts it
has read up to the end of the program, the last token. -/
theorem front_end_total (text : List Char) :
    (∀ fuel pos afterName cs, cs.length ≤ fuel →
      scanLine fuel pos afterName cs = scanLine cs.length pos afterName cs) ∧
    ∀ ts, lex text = .ok ts → Balanced ts ∧
      (∀ fuel more, 16 * (ts.length + 1) ≤ fuel →
        block fuel [] (ts ++ more) =
          (fun found => (found.1, found.2 ++ more)) <$> block (16 * (ts.length + 1)) [] ts) ∧
      (∀ more, program (ts ++ more) = program ts) ∧
      (∀ fuel left, left <:+ ts → left ≠ [] → 16 * (ts.length + 1) ≤ fuel → TakesToken fuel left) ∧
      (∀ r, program ts = .error r → r.Earned) ∧
      ∀ stmts, program ts = .ok stmts →
        ∃ last, ts.getLast? = some last ∧ block (16 * (ts.length + 1)) [] ts = .ok (stmts, [last]) := by
  refine ⟨fun fuel pos afterName cs hf => scanLine_eq_scan hf, fun ts hts => ?_⟩
  have h := nested_lex hts
  refine ⟨h.balanced, fun fuel more hf => block_append [] h (Nat.le_refl _) hf more, program_append h,
    fun fuel left hleft hne hf => ?_, fun r hr => ?_, fun stmts hs => ?_⟩
  · obtain ⟨k, hk⟩ := h.of_suffix hleft hne
    have hlen := hleft.length_le
    exact takesToken hk (by omega)
  · rcases program_cases h with ⟨r', hr', -, hp⟩ | ⟨_, _, -, -, hp⟩
    · rw [hp] at hr
      cases hr
      exact hr'
    · rw [hp] at hr
      cases hr
  · rcases program_cases h with ⟨_, -, -, hp⟩ | ⟨stmts', last, ⟨front, hlast⟩, hb, hp⟩
    · rw [hp] at hs
      cases hs
    · rw [hp] at hs
      cases hs
      exact ⟨last, by rw [← hlast, List.getLast?_append_cons, List.getLast?_singleton], hb⟩

/-- The tokens of a conditional whose block the end of the text closes. -/
def openBlock : List Token :=
  [⟨.ident "if", 0, 2⟩, ⟨.ident "time", 3, 7⟩, ⟨.newline, 7, 7⟩, ⟨.indent, 9, 9⟩, ⟨.ident "box", 9, 12⟩,
    ⟨.newline, 12, 12⟩, ⟨.dedent, 12, 12⟩, ⟨.eof, 12, 12⟩]

theorem front_end_total_openBlock :
    Balanced openBlock ∧ ∃ stmts, program openBlock = .ok stmts ∧
      block (16 * (openBlock.length + 1)) [] openBlock = .ok (stmts, [⟨.eof, 12, 12⟩]) := by
  have hlex : lex "if time\n\tbox".toList = .ok openBlock := by decide
  have hparse : (program openBlock).isOk := by decide
  obtain ⟨hbalanced, -, -, -, -, hall⟩ := (front_end_total _).2 openBlock hlex
  cases hp : program openBlock with
  | error r =>
    rw [hp] at hparse
    cases hparse
  | ok stmts =>
    obtain ⟨last, hlast, hblock⟩ := hall stmts hp
    obtain rfl : ⟨.eof, 12, 12⟩ = last := Option.some.inj hlast
    exact ⟨hbalanced, stmts, rfl, hblock⟩

end LiveSketch.Script

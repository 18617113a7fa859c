import LiveSketch.Proofs.Script.Attaching
import LiveSketch.Proofs.Script.Glyphs

/-!
# A grammar of scripts

`Derives` and `DerivesClause` say which glyphs make up an expression and a statement, and which tree they stand for.
There is a rule for each way to form one, no fuel and no place; what a rule needs to know of the glyphs behind its
words it asks of `rest`. The parser accepts what the grammar derives: here the one direction, what the parser has
read the grammar derives (`derivesProgram_of_program`).

The rule `marked` is for texts with marks, which the lexer never makes: it says where a complete expression may stand.
-/
namespace LiveSketch.Script

open LiveSketch.Script.Parser

/-! ## Expressions -/

/-- The constant that a token stands for. -/
def literal? : TokenKind → Option Literal
  | .number x => some (.number x)
  | .string text => some (.string text)
  | .ident "true" => some (.bool true)
  | .ident "false" => some (.bool false)
  | _ => none

/-- What words stand for: an expression whose outermost operators are below a level, or arguments. -/
inductive Phrase where
  | expression (level : Nat) (e : Expr)
  | arguments (es : List Expr)

/-- These words, with `rest` behind them, stand for the phrase. -/
inductive Derives : Phrase → (words rest : List Glyph) → Prop where
  | literal {kind : TokenKind} {apart : Bool} {value : Literal} {rest : List Glyph} : literal? kind = some value →
      Derives (.expression 0 (.literal value)) [.token kind apart] rest
  | name {word : String} {apart : Bool} {rest : List Glyph} : isKeyword word = false → touches rest = false →
      (isCallable word && follows rest) = false →
      Derives (.expression 0 (.ident word 0)) [.token (.ident word) apart] rest
  | emptyCall {word : String} {apart apart' : Bool} {rest : List Glyph} : isKeyword word = false →
      Derives (.expression 0 (.call word [] 0))
        [.token (.ident word) apart, .token .leftParen false, .token .rightParen apart'] rest
  | call {word : String} {apart apart' : Bool} {args : List Expr} {words rest : List Glyph} :
      isKeyword word = false → Derives (.arguments args) words (.token .rightParen apart' :: rest) →
      Derives (.expression 0 (.call word args 0))
        (.token (.ident word) apart :: .token .leftParen false :: (words ++ [.token .rightParen apart'])) rest
  | command {word : String} {apart : Bool} {args : List Expr} {words rest : List Glyph} : isKeyword word = false →
      isCallable word → follows (words ++ rest) → Derives (.arguments args) words rest →
      Derives (.expression 0 (.call word args 0)) (.token (.ident word) apart :: words) rest
  | parens {apart apart' : Bool} {e : Expr} {words rest : List Glyph} :
      Derives (.expression levels e) words (.token .rightParen apart' :: rest) →
      (∀ word, e = .ident word 0 → (isCallable word && follows (words ++ .token .rightParen apart' :: rest)) = false) →
      Derives (.expression 0 e) (.token .leftParen apart :: (words ++ [.token .rightParen apart'])) rest
  /-- The parser looks behind the opening parenthesis to find out whether arguments follow the closing one. -/
  | parensCommand {apart apart' : Bool} {word : String} {args : List Expr} {words words' rest : List Glyph} :
      Derives (.expression levels (.ident word 0)) words (.token .rightParen apart' :: (words' ++ rest)) →
      isCallable word → follows (words ++ .token .rightParen apart' :: (words' ++ rest)) →
      Derives (.arguments args) words' rest →
      Derives (.expression 0 (.call word args 0))
        (.token .leftParen apart :: (words ++ .token .rightParen apart' :: words')) rest
  | sign {kind : TokenKind} {apart : Bool} {f : Expr → Expr} {e : Expr} {words rest : List Glyph} :
      prefixOp? kind = some f → Derives (.expression 0 e) words rest →
      Derives (.expression 0 (f e)) (.token kind apart :: words) rest
  | lift {level : Nat} {e : Expr} {words rest : List Glyph} : Derives (.expression level e) words rest →
      Stops level rest → Derives (.expression (level + 1) e) words rest
  | binary {level : Nat} {kind : TokenKind} {apart : Bool} {op : BinaryOp} {left right : Expr}
      {words words' rest : List Glyph} :
      Derives (.expression (level + 1) left) words (.token kind apart :: (words' ++ rest)) →
      binaryOp? level kind = some op → Derives (.expression level right) words' rest → Stops level rest →
      Derives (.expression (level + 1) (.binary op left right)) (words ++ .token kind apart :: words') rest
  /-- Marks may stand around every complete expression. -/
  | marked {level : Nat} {e : Expr} {words rest : List Glyph} : Derives (.expression level e) words (.closing :: rest) →
      Derives (.expression level e) (.opening :: (words ++ [.closing])) rest
  | last {e : Expr} {words rest : List Glyph} : Derives (.expression levels e) words rest → Stops levels rest →
      front rest ≠ .comma → Derives (.arguments [e]) words rest
  | more {apart : Bool} {e : Expr} {es : List Expr} {words words' rest : List Glyph} :
      Derives (.expression levels e) words (.token .comma apart :: (words' ++ rest)) →
      Derives (.arguments es) words' rest →
      Derives (.arguments (e :: es)) (words ++ .token .comma apart :: words') rest

/-! ## Statements -/

/-- What words stand for among the statements. A block also has the statements before it, the last one first. -/
inductive Clause where
  | block (done stmts : List Stmt)
  | line (items : List Item)
  | statement (item : Item) (lineDone : Bool)
  | conditional (condition : Expr) (body : List Stmt)
  | body (stmts : List Stmt)

/-- The kinds of tokens that end a line. -/
def endsLine (kind : TokenKind) : Prop := kind = .newline ∨ kind = .eof ∨ kind = .dedent

/-- A statement that begins with these glyphs is an expression. -/
def IsBare : List Glyph → Prop
  | .token (.ident word) _ :: rest => assignOp? (front rest) = none ∧ stepOp? (front rest) = none ∧
      (!isKeyword word && follows rest) = false
  | .opening :: gs | .closing :: gs => IsBare gs
  | _ => True

/-- These words, with `rest` behind them, stand for the clause. -/
inductive DerivesClause : Clause → (words rest : List Glyph) → Prop where
  | done {done : List Stmt} {rest : List Glyph} : front rest = .eof ∨ front rest = .dedent →
      DerivesClause (.block done done.reverse) [] rest
  | blank {apart : Bool} {done stmts : List Stmt} {words rest : List Glyph} :
      DerivesClause (.block done stmts) words rest →
      DerivesClause (.block done stmts) (.token .newline apart :: words) rest
  | row {done done' stmts : List Stmt} {items : List Item} {words words' rest : List Glyph} :
      (front (words ++ (words' ++ rest))).isWord →
      DerivesClause (.line items) words (words' ++ rest) → attachAll done items = .ok done' →
      DerivesClause (.block done' stmts) words' rest → DerivesClause (.block done stmts) (words ++ words') rest
  | semicolon {apart : Bool} {items : List Item} {words rest : List Glyph} : DerivesClause (.line items) words rest →
      DerivesClause (.line items) (.token .semicolon apart :: words) rest
  | newline {apart : Bool} {rest : List Glyph} : DerivesClause (.line []) [.token .newline apart] rest
  | noLine {rest : List Glyph} : front rest = .eof ∨ front rest = .dedent → DerivesClause (.line []) [] rest
  | lineDone {item : Item} {words rest : List Glyph} : DerivesClause (.statement item true) words rest →
      DerivesClause (.line [item]) words rest
  | nextItem {item : Item} {items : List Item} {words words' rest : List Glyph} :
      DerivesClause (.statement item false) words (words' ++ rest) →
      endsLine (front (words' ++ rest)) ∨ front (words' ++ rest) = .semicolon →
      DerivesClause (.line items) words' rest → DerivesClause (.line (item :: items)) (words ++ words') rest
  | loop {apart apart' : Bool} {count : Expr} {b : List Stmt} {words words' rest : List Glyph} :
      Derives (.expression levels count) words (.token .arrow apart' :: (words' ++ rest)) →
      DerivesClause (.body b) words' rest →
      DerivesClause (.statement (.stmt (.loop count b)) true)
        (.token (.ident "repeat") apart :: (words ++ .token .arrow apart' :: words')) rest
  | branch {apart : Bool} {c : Expr} {b : List Stmt} {words rest : List Glyph} :
      DerivesClause (.conditional c b) words rest →
      DerivesClause (.statement (.stmt (.branch c b none)) true) (.token (.ident "if") apart :: words) rest
  | otherwiseIf {apart apart' : Bool} {c : Expr} {b : List Stmt} {words rest : List Glyph} :
      DerivesClause (.conditional c b) words rest →
      DerivesClause (.statement (.otherwise (some c) b 0) true)
        (.token (.ident "else") apart :: .token (.ident "if") apart' :: words) rest
  | otherwise {apart : Bool} {b : List Stmt} {words rest : List Glyph} : front (words ++ rest) ≠ (.ident "if") →
      front (words ++ rest) ≠ .arrow → DerivesClause (.body b) words rest →
      DerivesClause (.statement (.otherwise none b 0) true) (.token (.ident "else") apart :: words) rest
  | otherwiseArrow {apart apart' : Bool} {b : List Stmt} {words rest : List Glyph} : DerivesClause (.body b) words rest →
      DerivesClause (.statement (.otherwise none b 0) true)
        (.token (.ident "else") apart :: .token .arrow apart' :: words) rest
  | assign {word : String} {apart apart' : Bool} {kind : TokenKind} {op : AssignOp} {value : Expr}
      {words rest : List Glyph} : isKeyword word = false → assignOp? kind = some op →
      Derives (.expression levels value) words rest → Stops levels rest →
      DerivesClause (.statement (.stmt (.assign word op value 0)) false)
        (.token (.ident word) apart :: .token kind apart' :: words) rest
  | step {word : String} {apart apart' : Bool} {kind : TokenKind} {op : AssignOp} {rest : List Glyph} :
      isKeyword word = false → stepOp? kind = some op →
      DerivesClause (.statement (.stmt (.assign word op (.literal (.number 1)) 0)) false)
        [.token (.ident word) apart, .token kind apart'] rest
  | command {word : String} {apart : Bool} {args : List Expr} {words rest : List Glyph} : isKeyword word = false →
      follows (words ++ rest) → Derives (.arguments args) words rest →
      DerivesClause (.statement (.stmt (.expr (.call word args 0))) false) (.token (.ident word) apart :: words) rest
  | bare {e : Expr} {words rest : List Glyph} : IsBare (words ++ rest) → Derives (.expression levels e) words rest →
      Stops levels rest → DerivesClause (.statement (.stmt (.expr (asCall e))) false) words rest
  | arrow {apart : Bool} {c : Expr} {b : List Stmt} {words words' rest : List Glyph} :
      Derives (.expression levels c) words (.token .arrow apart :: (words' ++ rest)) → DerivesClause (.body b) words' rest →
      DerivesClause (.conditional c b) (words ++ .token .arrow apart :: words') rest
  | noArrow {c : Expr} {b : List Stmt} {words words' rest : List Glyph} :
      Derives (.expression levels c) words (words' ++ rest) → endsLine (front (words' ++ rest)) →
      DerivesClause (.body b) words' rest → DerivesClause (.conditional c b) (words ++ words') rest
  | inline {items : List Item} {done : List Stmt} {words rest : List Glyph} : ¬endsLine (front (words ++ rest)) →
      DerivesClause (.line items) words rest → attachAll [] items = .ok done →
      DerivesClause (.body done.reverse) words rest
  | noBody {rest : List Glyph} : front rest = .eof ∨ front rest = .dedent → DerivesClause (.body []) [] rest
  | noBlock {apart : Bool} {rest : List Glyph} : front rest ≠ .indent →
      DerivesClause (.body []) [.token .newline apart] rest
  | block {apart apart' apart'' : Bool} {b : List Stmt} {words rest : List Glyph} :
      DerivesClause (.block [] b) words (.token .dedent apart'' :: rest) →
      DerivesClause (.body b)
        (.token .newline apart :: .token .indent apart' :: (words ++ [.token .dedent apart''])) rest
  | openBlock {apart apart' : Bool} {b : List Stmt} {words rest : List Glyph} :
      DerivesClause (.block [] b) words rest → front rest = .eof →
      DerivesClause (.body b) (.token .newline apart :: .token .indent apart' :: words) rest

/-- The glyphs of a whole script and its statements. -/
def DerivesProgram (gs : List Glyph) (stmts : List Stmt) : Prop :=
  ∃ words apart, gs = words ++ [.token .eof apart] ∧ DerivesClause (.block [] stmts) words [.token .eof apart]

end LiveSketch.Script

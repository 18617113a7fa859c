import LiveSketch.Script.Lexer
import LiveSketch.Script.Tree
import LiveSketch.Script.Vocabulary

/-!
# From tokens to trees

The parser descends through the grammar. Every function takes the tokens that are left and gives what
it read with the tokens left after it. Binary operators form six levels, from multiplication, which
binds tightest, to `or`; all of them group to the left.

A call may be written without parentheses: `box 1, 2`. Whether arguments follow a name is decided by the
next one or two tokens (`argumentsFollow`).

An `else` line is read as an item of its own and then attached to the conditional before it
(`attach`).

Between two tokens the parser descends through at most sixteen functions, which bounds the fuel that it
needs.
-/
namespace LiveSketch.Script

namespace Parser

/-- The next token. -/
def peek : List Token → Token
  | [] => ⟨.eof, 0, 0⟩
  | t :: _ => t

/-- The kind of the next token. -/
def peekKind (ts : List Token) : TokenKind := (peek ts).kind

/-- The error of a token that stands where something else is needed. -/
def unexpected (what : String) (ts : List Token) : Rejection :=
  ⟨(peek ts).start, .expected what (peekKind ts).describe⟩

/-- The tokens after the next one if that is of this kind. -/
def consume? (kind : TokenKind) : List Token → Option (List Token)
  | [] => none
  | t :: ts => if t.kind = kind then some ts else none

/-- Leaves out the next token if it is of this kind. -/
def skip (kind : TokenKind) (ts : List Token) : List Token := (consume? kind ts).getD ts

/-- The tokens after the next one, which must be of this kind. -/
def expect (kind : TokenKind) (what : String) (ts : List Token) : Except Rejection (List Token) :=
  match consume? kind ts with
  | some ts => .ok ts
  | none => .error (unexpected what ts)

/-- Whether no more of the line is left. -/
def atLineEnd (ts : List Token) : Bool :=
  match peekKind ts with
  | .newline | .eof | .dedent => true
  | _ => false

/-- Whether the token after the first one starts arguments without parentheses, as in `box 1, 2` or
`rotate -time`. A parenthesis must stand apart from the name, and so must a sign, which must also touch
what follows it. -/
def argumentsFollow : List Token → Bool
  | name :: next :: rest =>
    let gap := name.stop < next.start
    match next.kind with
    | .number _ | .string _ | .bang => true
    | .ident word => !(["and", "or", "else", "if", "repeat"].contains word)
    | .leftParen => gap
    | .minus | .plus => gap && rest.head?.any (·.start == next.stop)
    | _ => false
  | _ => false

/-- The binary operator of a level that a token stands for. Levels count from the tightest. -/
def binaryOp? : (level : Nat) → TokenKind → Option BinaryOp
  | 0, .star => some .mul
  | 0, .slash => some .div
  | 0, .percent => some .mod
  | 1, .plus => some .add
  | 1, .minus => some .sub
  | 2, .less => some .lt
  | 2, .lessEqual => some .le
  | 2, .greater => some .gt
  | 2, .greaterEqual => some .ge
  | 3, .equal => some .eq
  | 3, .notEqual => some .ne
  | 4, .and => some .and
  | 4, .ident "and" => some .and
  | 5, .or => some .or
  | 5, .ident "or" => some .or
  | _, _ => none

/-- The number of levels of binary operators. -/
def levels : Nat := 6

/-- What a prefix operator does with its operand. -/
def prefixOp? : TokenKind → Option (Expr → Expr)
  | .minus => some (.unary .neg)
  | .plus => some id
  | .bang => some (.unary .not)
  | .ident "not" => some (.unary .not)
  | _ => none

/-- The assignment that a token stands for. -/
def assignOp? : TokenKind → Option AssignOp
  | .assign => some .set
  | .plusAssign => some .add
  | .minusAssign => some .sub
  | .starAssign => some .mul
  | .slashAssign => some .div
  | _ => none

/-- The assignment that a step stands for. -/
def stepOp? : TokenKind → Option AssignOp
  | .increment => some .add
  | .decrement => some .sub
  | _ => none

/-- The error when the fuel runs out. -/
def tooDeep (ts : List Token) : Rejection := ⟨(peek ts).start, .tooDeep⟩

mutual

/-- An expression whose outermost operators are below this level. -/
def expression : (fuel : Nat) → (level : Nat) → List Token → Except Rejection (Expr × List Token)
  | 0, _, ts => .error (tooDeep ts)
  | fuel + 1, 0, ts => operand fuel ts
  | fuel + 1, level + 1, ts => do
    let (left, ts) ← expression fuel level ts
    chain fuel level left ts

/-- The operators of one level that follow an operand, grouped to the left. -/
def chain : (fuel : Nat) → (level : Nat) → Expr → List Token → Except Rejection (Expr × List Token)
  | 0, _, _, ts => .error (tooDeep ts)
  | fuel + 1, level, left, ts =>
    match binaryOp? level (peekKind ts) with
    | none => .ok (left, ts)
    | some op => do
      let (right, ts) ← expression fuel level ts.tail
      chain fuel level (.binary op left right) ts

/-- An operand with its prefix operators. -/
def operand : (fuel : Nat) → List Token → Except Rejection (Expr × List Token)
  | 0, ts => .error (tooDeep ts)
  | fuel + 1, ts =>
    match prefixOp? (peekKind ts) with
    | some f => do
      let (e, ts) ← operand fuel ts.tail
      return (f e, ts)
    | none => postfixed fuel ts

/-- A primary expression, or a call. -/
def postfixed : (fuel : Nat) → List Token → Except Rejection (Expr × List Token)
  | 0, ts => .error (tooDeep ts)
  | fuel + 1, start => do
    let (e, ts) ← primary fuel start
    match e with
    | .ident name offset =>
      if peekKind ts = .leftParen ∧ (peek ts).start = (peek start).stop then
        let (args, ts) ← parenthesized fuel ts.tail
        return (.call name args offset, ts)
      else if isCallable name && argumentsFollow start then
        let (args, ts) ← arguments fuel ts
        return (.call name args offset, ts)
      else return (.ident name offset, ts)
    | e => return (e, ts)

/-- A constant, a name or an expression in parentheses. -/
def primary : (fuel : Nat) → List Token → Except Rejection (Expr × List Token)
  | 0, ts => .error (tooDeep ts)
  | fuel + 1, ts =>
    let t := peek ts
    match t.kind with
    | .number x => .ok (.literal (.number x), ts.tail)
    | .string s => .ok (.literal (.string s), ts.tail)
    | .ident name =>
      if name == "true" then .ok (.literal (.bool true), ts.tail)
      else if name == "false" then .ok (.literal (.bool false), ts.tail)
      else if isKeyword name then .error ⟨t.start, .unexpectedKeyword name⟩
      else .ok (.ident name t.start, ts.tail)
    | .leftParen => do
      let (e, ts) ← expression fuel levels ts.tail
      let ts ← expect .rightParen "')'" ts
      return (e, ts)
    | _ => .error (unexpected "expression" ts)

/-- One or more arguments without parentheses. -/
def arguments : (fuel : Nat) → List Token → Except Rejection (List Expr × List Token)
  | 0, ts => .error (tooDeep ts)
  | fuel + 1, ts => do
    let (e, ts) ← expression fuel levels ts
    match consume? .comma ts with
    | some ts =>
      let (es, ts) ← arguments fuel ts
      return (e :: es, ts)
    | none => return ([e], ts)

/-- The arguments after an opening parenthesis, with the closing one. -/
def parenthesized : (fuel : Nat) → List Token → Except Rejection (List Expr × List Token)
  | 0, ts => .error (tooDeep ts)
  | fuel + 1, ts =>
    match consume? .rightParen ts with
    | some ts => .ok ([], ts)
    | none => moreArguments fuel ts

/-- One or more arguments up to the closing parenthesis. -/
def moreArguments : (fuel : Nat) → List Token → Except Rejection (List Expr × List Token)
  | 0, ts => .error (tooDeep ts)
  | fuel + 1, ts => do
    let (e, ts) ← expression fuel levels ts
    match consume? .comma ts with
    | some ts =>
      let (es, ts) ← moreArguments fuel ts
      return (e :: es, ts)
    | none =>
      let ts ← expect .rightParen "')' after arguments" ts
      return ([e], ts)

end

/-- An item of a block: a statement, or an `else` line that belongs to the statement before it. -/
inductive Item where
  | stmt (s : Stmt)
  | otherwise (condition : Option Expr) (body : List Stmt) (offset : Nat)

/-- Puts the body of an `else` at the end of the chain of conditionals, if that is still open. -/
def closeElse? (tail : List Stmt) : Stmt → Option Stmt
  | .branch c t none => some (.branch c t (some tail))
  | .branch c t (some [inner]) =>
    (closeElse? tail inner).map fun inner => .branch c t (some [inner])
  | _ => none

/-- What an `else` adds to the conditional before it. -/
def elseTail (condition : Option Expr) (body : List Stmt) : List Stmt :=
  match condition with
  | some c => [.branch c body none]
  | none => body

/-- Adds an item to the statements of a block before it, of which the last comes first. An `else` changes
the last statement. -/
def attach (done : List Stmt) : Item → Except Rejection (List Stmt)
  | .stmt s => .ok (s :: done)
  | .otherwise condition body offset =>
    match done with
    | [] => .error ⟨offset, .lonelyElse⟩
    | last :: before =>
      match closeElse? (elseTail condition body) last with
      | some last => .ok (last :: before)
      | none => .error ⟨offset, .lonelyElse⟩

/-- Adds the items of a line to the statements before them. -/
def attachAll (done : List Stmt) (items : List Item) : Except Rejection (List Stmt) :=
  items.foldlM attach done

mutual

/-- A block, up to the token that ends it; `done` are its first statements, of which the last comes
first. -/
def block : (fuel : Nat) → (done : List Stmt) → List Token → Except Rejection (List Stmt × List Token)
  | 0, _, ts => .error (tooDeep ts)
  | fuel + 1, done, ts =>
    match peekKind ts with
    | .eof | .dedent => .ok (done.reverse, ts)
    | .newline => block fuel done ts.tail
    | .indent => .error ⟨(peek ts).start, .unexpectedIndentation⟩
    | _ => do
      let (items, ts) ← line fuel ts
      let done ← attachAll done items
      block fuel done ts

/-- The statements up to the end of the line, with that end. -/
def line : (fuel : Nat) → List Token → Except Rejection (List Item × List Token)
  | 0, ts => .error (tooDeep ts)
  | fuel + 1, ts =>
    match peekKind ts with
    | .semicolon => line fuel ts.tail
    | .newline => .ok ([], ts.tail)
    | .eof | .dedent => .ok ([], ts)
    | _ => do
      let (item, lineDone, ts) ← statement fuel ts
      if lineDone then return ([item], ts)
      else if atLineEnd ts || peekKind ts == .semicolon then
        let (items, ts) ← line fuel ts
        return (item :: items, ts)
      else throw (unexpected "end of statement" ts)

/-- A statement, and whether it has taken the rest of its line with it. -/
def statement : (fuel : Nat) → List Token → Except Rejection (Item × Bool × List Token)
  | 0, ts => .error (tooDeep ts)
  | fuel + 1, ts =>
    let t := peek ts
    match t.kind with
    | .ident "repeat" => do
      let (count, ts) ← expression fuel levels ts.tail
      let ts ← expect .arrow "'->' after repeat count" ts
      let (body, ts) ← body fuel ts
      return (.stmt (.loop count body), true, ts)
    | .ident "if" => do
      let (c, body, ts) ← conditional fuel ts.tail
      return (.stmt (.branch c body none), true, ts)
    | .ident "else" =>
      match consume? (.ident "if") ts.tail with
      | some ts => do
        let (c, body, ts) ← conditional fuel ts
        return (.otherwise (some c) body t.start, true, ts)
      | none => do
        let (body, ts) ← body fuel (skip .arrow ts.tail)
        return (.otherwise none body t.start, true, ts)
    | .ident name =>
      let next := peekKind ts.tail
      match assignOp? next, stepOp? next with
      | some op, _ => do
        if isKeyword name then throw ⟨t.start, .keywordTarget name⟩
        let (value, ts) ← expression fuel levels ts.tail.tail
        return (.stmt (.assign name op value t.start), false, ts)
      | none, some op => do
        if isKeyword name then throw ⟨t.start, .keywordTarget name⟩
        return (.stmt (.assign name op (.literal (.number 1)) t.start), false, ts.tail.tail)
      | none, none =>
        if !isKeyword name && argumentsFollow ts then do
          let (args, ts) ← arguments fuel ts.tail
          return (.stmt (.expr (.call name args t.start)), false, ts)
        else bare fuel ts
    | _ => bare fuel ts

/-- An expression as a statement. The name of something callable is a call. -/
def bare : (fuel : Nat) → List Token → Except Rejection (Item × Bool × List Token)
  | 0, ts => .error (tooDeep ts)
  | fuel + 1, ts => do
    let (e, ts) ← expression fuel levels ts
    match e with
    | .ident name offset =>
      if isCallable name then return (.stmt (.expr (.call name [] offset)), false, ts)
      else return (.stmt (.expr e), false, ts)
    | _ => return (.stmt (.expr e), false, ts)

/-- A condition and the body that it guards. -/
def conditional : (fuel : Nat) → List Token → Except Rejection (Expr × List Stmt × List Token)
  | 0, ts => .error (tooDeep ts)
  | fuel + 1, ts => do
    let (c, ts) ← expression fuel levels ts
    match consume? .arrow ts with
    | some ts =>
      let (body, ts) ← body fuel ts
      return (c, body, ts)
    | none =>
      if atLineEnd ts then
        let (body, ts) ← body fuel ts
        return (c, body, ts)
      else throw (unexpected "'->' or end of line after condition" ts)

/-- The body of a loop or a conditional: the rest of the line, or the block on the next lines. -/
def body : (fuel : Nat) → List Token → Except Rejection (List Stmt × List Token)
  | 0, ts => .error (tooDeep ts)
  | fuel + 1, ts =>
    if atLineEnd ts then
      match consume? .indent (skip .newline ts) with
      | none => .ok ([], skip .newline ts)
      | some ts => do
        let (b, ts) ← block fuel [] ts
        return (b, skip .dedent ts)
    else do
      let (items, ts) ← line fuel ts
      let done ← attachAll [] items
      return (done.reverse, ts)

end

/-- The statements of a whole script. -/
def program (ts : List Token) : Except Rejection (List Stmt) := do
  let (stmts, rest) ← block (16 * (ts.length + 1)) [] ts
  if peekKind rest = .eof then return stmts
  else throw (unexpected "end of program" rest)

end Parser

/-- The statements of a script text. -/
def parse (text : List Char) : Except Rejection (List Stmt) := do
  Parser.program (← lex text)

end LiveSketch.Script

import LiveSketch.Script.Parser

/-!
# Printing scripts

`print` writes a script tree as text: one statement to a line, the body of a loop or a conditional one tab
deeper, blanks around binary operators, and no parentheses but those that the levels of the operators
demand. A `Style` makes the choices that are left open. `Stmt.erase` forgets where the parts of a tree
stand in a text, and `Stmt.isPrintable` tells which trees can be written at all.

A printed line consists of pieces, each of which is a blank or a word with the token that it stands for.
-/
namespace LiveSketch.Script

/-! ## Trees without places -/

mutual

/-- The expression with all places forgotten. -/
def Expr.erase : Expr → Expr
  | .literal v => .literal v
  | .ident name _ => .ident name 0
  | .unary op arg => .unary op arg.erase
  | .binary op left right => .binary op left.erase right.erase
  | .call function args _ => .call function (eraseArgs args) 0

def eraseArgs : List Expr → List Expr
  | [] => []
  | e :: es => e.erase :: eraseArgs es

end

mutual

/-- The statement with all places forgotten. -/
def Stmt.erase : Stmt → Stmt
  | .expr e => .expr e.erase
  | .assign target op value _ => .assign target op value.erase 0
  | .loop count body => .loop count.erase (eraseBlock body)
  | .branch condition thenBody elseBody =>
    .branch condition.erase (eraseBlock thenBody) (eraseElse elseBody)

def eraseBlock : List Stmt → List Stmt
  | [] => []
  | s :: rest => s.erase :: eraseBlock rest

def eraseElse : Option (List Stmt) → Option (List Stmt)
  | none => none
  | some body => some (eraseBlock body)

end

/-! ## Trees that can be written -/

/-- Whether the word is a name and not a keyword. -/
def isPlainName (name : String) : Bool :=
  match name.toList with
  | [] => false
  | c :: cs => Lexer.isNameStart c && cs.all Lexer.isNamePart && !isKeyword name

/-- Whether the constant is a text, a truth value or a finite number without a sign. -/
def Literal.isPrintable : Literal → Bool
  | .number x => (Number.Binary.ofFloat? x).any fun b => !b.negative
  | .bool _ => true
  | .string _ => true

mutual

/-- Whether all names are names and all numbers are finite and without a sign. -/
def Expr.isPrintable : Expr → Bool
  | .literal v => v.isPrintable
  | .ident name _ => isPlainName name
  | .unary _ arg => arg.isPrintable
  | .binary _ left right => left.isPrintable && right.isPrintable
  | .call function args _ => isPlainName function && printableArgs args

def printableArgs : List Expr → Bool
  | [] => true
  | e :: es => e.isPrintable && printableArgs es

end

/-- Whether the expression is the bare name of something callable. As a statement that is a call. -/
def Expr.isCallableName : Expr → Bool
  | .ident name _ => isCallable name
  | _ => false

mutual

/-- Whether all expressions are printable and no statement is the bare name of something callable. -/
def Stmt.isPrintable : Stmt → Bool
  | .expr e => e.isPrintable && !e.isCallableName
  | .assign target _ value _ => isPlainName target && value.isPrintable
  | .loop count body => count.isPrintable && printableBlock body
  | .branch condition thenBody elseBody =>
    condition.isPrintable && printableBlock thenBody && printableElse elseBody

def printableBlock : List Stmt → Bool
  | [] => true
  | s :: rest => s.isPrintable && printableBlock rest

def printableElse : Option (List Stmt) → Bool
  | none => true
  | some body => printableBlock body

end

mutual

/-- The numbers in an expression. -/
def Expr.numbers : Expr → List Float
  | .literal (.number x) => [x]
  | .literal _ => []
  | .ident _ _ => []
  | .unary _ arg => arg.numbers
  | .binary _ left right => left.numbers ++ right.numbers
  | .call _ args _ => numbersInArgs args

def numbersInArgs : List Expr → List Float
  | [] => []
  | e :: es => e.numbers ++ numbersInArgs es

end

mutual

/-- The numbers in a statement. -/
def Stmt.numbers : Stmt → List Float
  | .expr e => e.numbers
  | .assign _ _ value _ => value.numbers
  | .loop count body => count.numbers ++ numbersInBlock body
  | .branch condition thenBody elseBody =>
    condition.numbers ++ numbersInBlock thenBody ++ numbersInElse elseBody

def numbersInBlock : List Stmt → List Float
  | [] => []
  | s :: rest => s.numbers ++ numbersInBlock rest

def numbersInElse : Option (List Stmt) → List Float
  | none => []
  | some body => numbersInBlock body

end

/-! ## Pieces of a line -/

/-- A part of a printed line. -/
inductive Piece where
  | blank
  | word (kind : TokenKind) (text : List Char)
  deriving DecidableEq, Repr

namespace Piece

def chars : Piece → List Char
  | blank => [' ']
  | word _ text => text

/-- The text of pieces. -/
def render (ps : List Piece) : List Char := ps.flatMap chars

/-- The tokens of pieces from the byte `pos` on. -/
def place : (pos : Nat) → List Piece → List Token
  | _, [] => []
  | pos, .blank :: ps => place (pos + 1) ps
  | pos, .word kind text :: ps =>
    ⟨kind, pos, pos + Text.byteLength text⟩ :: place (pos + Text.byteLength text) ps

/-- The number of tokens of pieces. -/
def count : List Piece → Nat
  | [] => 0
  | .blank :: ps => count ps
  | .word _ _ :: ps => count ps + 1

def name (n : String) : Piece := word (.ident n) n.toList
def leftParen : Piece := word .leftParen ['(']
def rightParen : Piece := word .rightParen [')']
def comma : Piece := word .comma [',']
def arrow : Piece := word .arrow ['-', '>']

end Piece

/-- The characters of a string literal between its quotes. -/
def escape : List Char → List Char
  | [] => []
  | c :: cs =>
    (if c = '\n' then ['\\', 'n'] else if c = '\t' then ['\\', 't']
      else if c = '"' ∨ c = '\\' then ['\\', c] else [c]) ++ escape cs

def Literal.piece : Literal → Piece
  | .number x => .word (.number x) (Number.plain x).toList
  | .bool b => .name (if b then "true" else "false")
  | .string s => .word (.string s) ('"' :: escape s.toList ++ ['"'])

def UnaryOp.piece : UnaryOp → Piece
  | neg => .word .minus ['-']
  | not => .word .bang ['!']

/-! ## Expressions -/

/-- The choices of a printer. -/
structure Style where
  /-- Whether `and` and `or` are written as words. -/
  words : Bool
  /-- The choice at each place of a tree, found by its path from the root. -/
  choose : List Bool → Bool

namespace Style

/-- The choice at the root. -/
def here (style : Style) : Bool := style.choose []

/-- The style of the first part of a tree. -/
def left (style : Style) : Style := { style with choose := fun path => style.choose (false :: path) }

/-- The style of the other parts of a tree. -/
def right (style : Style) : Style := { style with choose := fun path => style.choose (true :: path) }

end Style

namespace BinaryOp

/-- The level of an operator; levels count from the tightest. -/
def level : BinaryOp → Nat
  | mul | div | mod => 0
  | add | sub => 1
  | lt | le | gt | ge => 2
  | eq | ne => 3
  | and => 4
  | or => 5

def piece (words : Bool) : BinaryOp → Piece
  | add => .word .plus ['+']
  | sub => .word .minus ['-']
  | mul => .word .star ['*']
  | div => .word .slash ['/']
  | mod => .word .percent ['%']
  | eq => .word .equal ['=', '=']
  | ne => .word .notEqual ['!', '=']
  | lt => .word .less ['<']
  | le => .word .lessEqual ['<', '=']
  | gt => .word .greater ['>']
  | ge => .word .greaterEqual ['>', '=']
  | and => if words then .name "and" else .word .and ['&', '&']
  | or => if words then .name "or" else .word .or ['|', '|']

end BinaryOp

/-- The number of levels whose operators may stand outside parentheses in the expression. -/
def Expr.rank : Expr → Nat
  | .binary op _ _ => op.level + 1
  | _ => 0

/-- Puts pieces in parentheses. -/
def enclose (condition : Bool) (ps : List Piece) : List Piece :=
  if condition then .leftParen :: ps ++ [.rightParen] else ps

mutual

/-- The pieces of an expression. -/
def Expr.pieces (words : Bool) : Expr → List Piece
  | .literal v => [v.piece]
  | .ident name _ => [.name name]
  | .unary op arg => op.piece :: enclose (0 < arg.rank) (arg.pieces words)
  | .binary op left right =>
    enclose (op.level + 1 < left.rank) (left.pieces words) ++ .blank :: op.piece words :: .blank ::
      enclose (op.level < right.rank) (right.pieces words)
  | .call function args _ =>
    .name function :: .leftParen :: (argPieces words args ++ [.rightParen])

/-- The pieces of arguments, with a comma and a blank between each two. -/
def argPieces (words : Bool) : List Expr → List Piece
  | [] => []
  | e :: es => e.pieces words ++ if es.isEmpty then [] else .comma :: .blank :: argPieces words es

end

/-! ## Statements -/

/-- A printed line: how deep it is indented, and what stands on it. -/
structure Line where
  depth : Nat
  pieces : List Piece

/-- A tab for each level, and the pieces. -/
def Line.render (l : Line) : List Char := List.replicate l.depth '\t' ++ Piece.render l.pieces

/-- The pieces of an expression as a statement. A call with arguments may do without parentheses. -/
def statementPieces (style : Style) : Expr → List Piece
  | .call function (arg :: args) offset =>
    if style.here then .name function :: .blank :: argPieces style.words (arg :: args)
    else (Expr.call function (arg :: args) offset).pieces style.words
  | e => e.pieces style.words

def AssignOp.piece : AssignOp → Piece
  | set => .word .assign ['=']
  | add => .word .plusAssign ['+', '=']
  | sub => .word .minusAssign ['-', '=']
  | mul => .word .starAssign ['*', '=']
  | div => .word .slashAssign ['/', '=']

/-- The pieces of a line that opens a body. -/
def headerPieces (style : Style) (word : String) (e : Expr) : List Piece :=
  .name word :: .blank :: (e.pieces style.words ++ [.blank, .arrow])

/-- Whether the body is nothing but a conditional. -/
def isLoneBranch : List Stmt → Bool
  | [.branch _ _ _] => true
  | _ => false

mutual

/-- The lines of a statement; `lead` comes in front of the first of them. -/
def Stmt.lines (style : Style) (depth : Nat) (lead : List Piece) : Stmt → List Line
  | .expr e => [⟨depth, lead ++ statementPieces style e⟩]
  | .assign target op value _ =>
    [⟨depth, lead ++ .name target :: .blank :: op.piece :: .blank :: value.pieces style.words⟩]
  | .loop count body =>
    ⟨depth, lead ++ headerPieces style "repeat" count⟩ :: blockLines style.left (depth + 1) [] body
  | .branch condition thenBody elseBody =>
    ⟨depth, lead ++ headerPieces style "if" condition⟩ ::
      (blockLines style.left (depth + 1) [] thenBody ++ elseLines style.right depth elseBody)

/-- The lines of statements; `lead` comes in front of the first of them. -/
def blockLines (style : Style) (depth : Nat) (lead : List Piece) : List Stmt → List Line
  | [] => []
  | s :: rest => s.lines style.left depth lead ++ blockLines style.right depth [] rest

/-- The lines of an `else` part. One that is nothing but a conditional may share its line with it. -/
def elseLines (style : Style) (depth : Nat) : Option (List Stmt) → List Line
  | none => []
  | some body =>
    if style.here && isLoneBranch body then blockLines style.left depth [.name "else", .blank] body
    else ⟨depth, [.name "else"]⟩ :: blockLines style.left (depth + 1) [] body

end

/-- A script as text. -/
def print (style : Style) (stmts : List Stmt) : List Char :=
  Text.joinLines ((blockLines style 0 [] stmts).map Line.render)

end LiveSketch.Script

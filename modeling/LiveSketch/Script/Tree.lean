/-!
# Script trees

A script is a list of statements over expressions. Names, calls and assignments keep the byte at which
they start, for error messages.
-/
namespace LiveSketch.Script

/-- A constant in a script. -/
inductive Literal where
  | number (x : Float)
  | bool (b : Bool)
  | string (s : String)
  deriving DecidableEq, Repr

inductive UnaryOp where
  | neg
  | not
  deriving DecidableEq, Repr

inductive BinaryOp where
  | add | sub | mul | div | mod
  | eq | ne | lt | le | gt | ge
  | and | or
  deriving DecidableEq, Repr

/-- An expression. -/
inductive Expr where
  | literal (value : Literal)
  | ident (name : String) (offset : Nat)
  | unary (op : UnaryOp) (arg : Expr)
  | binary (op : BinaryOp) (left right : Expr)
  | call (function : String) (args : List Expr) (offset : Nat)
  deriving Repr

/-- How an assignment combines the old value of its target with the new one. -/
inductive AssignOp where
  | set
  | add
  | sub
  | mul
  | div
  deriving DecidableEq, Repr

/-- The operator of an assignment that reads its target. -/
def AssignOp.toBinary? : AssignOp → Option BinaryOp
  | set => none
  | add => some .add
  | sub => some .sub
  | mul => some .mul
  | div => some .div

/-- A statement. A conditional without an `else` part differs from one with an empty part. -/
inductive Stmt where
  | expr (e : Expr)
  | assign (target : String) (op : AssignOp) (value : Expr) (offset : Nat)
  | loop (count : Expr) (body : List Stmt)
  | branch (condition : Expr) (thenBody : List Stmt) (elseBody : Option (List Stmt))
  deriving Repr

end LiveSketch.Script

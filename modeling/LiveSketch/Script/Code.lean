import LiveSketch.Script.Tree
import LiveSketch.Script.Vocabulary
import LiveSketch.Value.Basic

/-!
# Compiled scripts

A compiled script keeps the shape of its statements. Every expression in it is a straight list of
operations for a stack machine, with the constants that these refer to by number. Local variables are
numbered slots.
-/
namespace LiveSketch.Script

/-- The value of a constant. -/
def Literal.toValue : Literal → Value Float
  | number x => .number x
  | bool b => .bool b
  | string s => .string s

/-- An operation of the stack machine. Calls take their arguments off the stack. -/
inductive Op where
  /-- Pushes the constant with this number. -/
  | const (index : Nat)
  /-- Pushes the value of a local variable. -/
  | slot (index : Nat)
  | time
  | frame
  | unary (op : UnaryOp)
  | binary (op : BinaryOp)
  | builtin (function : Builtin) (argc : Nat)
  | command (command : Command) (argc : Nat)
  /-- Reports an executed `doOnce`. -/
  | mark (argc : Nat)
  /-- Calls what is no function; the constant with this number is its name. -/
  | unknown (name : Nat) (argc : Nat)
  deriving DecidableEq, Repr

/-- A compiled expression. -/
structure Code where
  ops : List Op
  consts : List (Value Float)
  deriving Repr

/-- One code after the other. -/
def Code.append (a b : Code) : Code := ⟨a.ops ++ b.ops, a.consts ++ b.consts⟩

instance : Append Code := ⟨Code.append⟩

/-- A compiled statement. -/
inductive Instr where
  | eval (code : Code)
  | store (slot : Nat) (code : Code)
  | storeFrame (code : Code)
  | loop (count : Code) (body : List Instr)
  | branch (condition : Code) (thenBody elseBody : List Instr)
  deriving Repr

/-- A compiled script, with the names of its local variables. -/
structure Program where
  body : List Instr
  slots : List String
  deriving Repr

end LiveSketch.Script

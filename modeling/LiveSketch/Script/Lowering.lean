import LiveSketch.Script.Code
import LiveSketch.Script.Parser

/-!
# From trees to code

A name that is assigned anywhere in a script is a local variable throughout it, and hides every other
meaning of the word; `frame` alone is never local. Other names are, in this order: the time and the
frame, a named number, a colour, an animation style, a call without arguments, and else a variable that
is never assigned.

Expressions become operations in evaluation order: both operands and then the operator, all arguments
and then the call.
-/
namespace LiveSketch.Script

namespace Lowering

mutual

/-- The names that a statement assigns. -/
def assignedIn : Stmt → List String
  | .expr _ => []
  | .assign target _ _ _ => if target == "frame" then [] else [target]
  | .loop _ body => assignedInBlock body
  | .branch _ thenBody elseBody => assignedInBlock thenBody ++ assignedInElse elseBody

/-- The names that the statements of a block assign. -/
def assignedInBlock : List Stmt → List String
  | [] => []
  | s :: rest => assignedIn s ++ assignedInBlock rest

/-- The names that an `else` part assigns. -/
def assignedInElse : Option (List Stmt) → List String
  | none => []
  | some body => assignedInBlock body

end

/-- The number of a local variable, and the names of all, to which a new one is added. -/
def slotOf (name : String) (slots : List String) : Nat × List String :=
  match slots.idxOf? name with
  | some i => (i, slots)
  | none => (slots.length, slots ++ [name])

/-- The value of a word that names one. -/
def namedValue? (name : String) : Option (Value Float) :=
  ((constants.lookup name).map Value.number).or
    (((Palette.find? name).map Value.colour).or
      (if AnimationStyle.names.contains name then some (Value.string name) else none))

/-- Code with one constant. -/
def pushConst (base : Nat) (v : Value Float) : Code := ⟨[.const base], [v]⟩

/-- The call of a word on arguments that are on the stack, with `base` constants before it. -/
def callOf (assigned : List String) (base : Nat) (function : String) (argc : Nat) : Code :=
  let unknown : Code := ⟨[.unknown base argc], [.string function]⟩
  if assigned.contains function then unknown
  else match Builtin.ofName? function, Command.ofName? function with
    | some f, _ => ⟨[.builtin f argc], []⟩
    | none, some c => ⟨[.command c argc], []⟩
    | none, none => if function == doOnceMarker then ⟨[.mark argc], []⟩ else unknown

/-- The value of a name, with `base` constants before it. -/
def identOf (assigned : List String) (base : Nat) (slots : List String) (name : String) :
    Code × List String :=
  let asSlot : Code × List String :=
    let (i, slots) := slotOf name slots
    (⟨[.slot i], []⟩, slots)
  if assigned.contains name then asSlot
  else if name == "time" then (⟨[.time], []⟩, slots)
  else if name == "frame" then (⟨[.frame], []⟩, slots)
  else match namedValue? name with
    | some v => (pushConst base v, slots)
    | none => if isCallable name then (callOf assigned base name 0, slots) else asSlot

/-- The greatest number of arguments of a call. -/
def maxArguments : Nat := 255

mutual

/-- The code of an expression. `base` constants stand before its own, and `slots` are the local
variables so far. -/
def exprCode (assigned : List String) (base : Nat) (slots : List String) :
    Expr → Except Rejection (Code × List String)
  | .literal v => .ok (pushConst base (v.toValue), slots)
  | .ident name _ => .ok (identOf assigned base slots name)
  | .unary op arg => do
    let (code, slots) ← exprCode assigned base slots arg
    return (code ++ ⟨[.unary op], []⟩, slots)
  | .binary op left right => do
    let (a, slots) ← exprCode assigned base slots left
    let (b, slots) ← exprCode assigned (base + a.consts.length) slots right
    return (a ++ b ++ ⟨[.binary op], []⟩, slots)
  | .call function args offset => do
    let (code, slots) ← argsCode assigned base slots args
    if maxArguments < args.length then throw ⟨offset, .tooManyArguments function⟩
    return (code ++ callOf assigned (base + code.consts.length) function args.length, slots)

/-- The code of arguments, from the first to the last. -/
def argsCode (assigned : List String) (base : Nat) (slots : List String) :
    List Expr → Except Rejection (Code × List String)
  | [] => .ok (⟨[], []⟩, slots)
  | e :: es => do
    let (a, slots) ← exprCode assigned base slots e
    let (b, slots) ← argsCode assigned (base + a.consts.length) slots es
    return (a ++ b, slots)

end

/-- The code of an assignment: the old value, if the operator needs it, then the new one and the
operator. -/
def assignCode (assigned : List String) (slots : List String) (op : AssignOp) (old : Op)
    (value : Expr) : Except Rejection (Code × List String) := do
  let (code, slots) ← exprCode assigned 0 slots value
  match op.toBinary? with
  | none => return (code, slots)
  | some op => return (⟨[old], []⟩ ++ code ++ ⟨[.binary op], []⟩, slots)

mutual

/-- The code of a statement. -/
def stmtCode (assigned : List String) (slots : List String) :
    Stmt → Except Rejection (Instr × List String)
  | .expr e => do
    let (code, slots) ← exprCode assigned 0 slots e
    return (.eval code, slots)
  | .assign target op value offset => do
    if target == "time" then throw ⟨offset, .timeTarget⟩
    else if target == "frame" then
      let (code, slots) ← assignCode assigned slots op .frame value
      return (.storeFrame code, slots)
    else
      let (i, slots) := slotOf target slots
      let (code, slots) ← assignCode assigned slots op (.slot i) value
      return (.store i code, slots)
  | .loop count body => do
    let (count, slots) ← exprCode assigned 0 slots count
    let (body, slots) ← blockCode assigned slots body
    return (.loop count body, slots)
  | .branch condition thenBody elseBody => do
    let (condition, slots) ← exprCode assigned 0 slots condition
    let (thenBody, slots) ← blockCode assigned slots thenBody
    let (elseBody, slots) ← elseCode assigned slots elseBody
    return (.branch condition thenBody elseBody, slots)

/-- The code of a block. -/
def blockCode (assigned : List String) (slots : List String) :
    List Stmt → Except Rejection (List Instr × List String)
  | [] => .ok ([], slots)
  | s :: rest => do
    let (instr, slots) ← stmtCode assigned slots s
    let (instrs, slots) ← blockCode assigned slots rest
    return (instr :: instrs, slots)

/-- The code of an `else` part. -/
def elseCode (assigned : List String) (slots : List String) :
    Option (List Stmt) → Except Rejection (List Instr × List String)
  | none => .ok ([], slots)
  | some body => blockCode assigned slots body

end

end Lowering

/-- The code of a script. -/
def lower (stmts : List Stmt) : Except Rejection Program := do
  let (body, slots) ← Lowering.blockCode (Lowering.assignedInBlock stmts) [] stmts
  return ⟨body, slots⟩

/-- Compiles a script text. -/
def compile (text : List Char) : Except CompileError Program :=
  (parse text >>= lower).mapError (·.inText text)

end LiveSketch.Script

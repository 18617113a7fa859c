import LiveSketch.Script.Lowering
import LiveSketch.Script.Machine

/-!
# Evaluating a script without compiling it

`evaluate` runs the statements of a script straight from its tree. It knows neither a stack nor numbered
constants and slots: variables are kept by name. It fixes what a script means, and `Program.run` is
measured by it.

* Operands and arguments are evaluated from left to right, always all of them.
* A compound assignment reads its target before its right side.
* A loop evaluates its count once. It runs as often as the integer part of the count says, and not at
  all for a count that is negative or not finite (`Number.toCount`).
* A name that is assigned anywhere is a variable. Another one is, in this order, the time or the frame,
  a named number, a colour, an animation style, a call without arguments, and else not defined.
-/
namespace LiveSketch.Script

/-- The values of the variables. -/
abbrev Env := String → Option (Value Float)

namespace Env

/-- No variable has a value. -/
def empty : Env := fun _ => none

/-- Gives a variable a value. -/
def set (env : Env) (name : String) (v : Value Float) : Env :=
  fun n => if n = name then some v else env n

/-- The value of a variable. -/
def read (env : Env) (name : String) : Except RuntimeFault (Value Float) :=
  match env name with
  | some v => .ok v
  | none => .error (.notDefined name)

end Env

namespace Evaluation

variable {σ : Type} (device : Device σ) (assigned : List String)

/-- Calls a word. A word that is assigned anywhere cannot be called. -/
def call (function : String) (args : List (Value Float)) : Run σ (Value Float) :=
  if function ∈ assigned then throw (.notFunction function)
  else match Builtin.ofName? function, Command.ofName? function with
    | some f, _ => Machine.callBuiltin f args
    | none, some c => Machine.callCommand device c args
    | none, none =>
      if function = doOnceMarker then Machine.markDoOnce args else throw (.notFunction function)

/-- The value of a word that no statement assigns. -/
def word (name : String) : Run σ (Value Float) :=
  match constants.lookup name with
  | some x => return .number x
  | none =>
    match Palette.find? name with
    | some c => return .colour c
    | none =>
      if name ∈ AnimationStyle.names then return .string name
      else if isCallable name then call device assigned name []
      else throw (.notDefined name)

/-- The value of a name. -/
def name (env : Env) (n : String) : Run σ (Value Float) :=
  if n ∈ assigned then liftM (env.read n)
  else if n = "time" then return .number (← get).globals.time
  else if n = "frame" then return .number (Float.ofNat (← get).globals.current)
  else word device assigned n

mutual

/-- The value of an expression. -/
def expr (env : Env) : Expr → Run σ (Value Float)
  | .literal v => return v.toValue
  | .ident n _ => name device assigned env n
  | .unary op arg => do op.apply (← expr env arg)
  | .binary op left right => do
    let a ← expr env left
    let b ← expr env right
    op.apply a b
  | .call function args _ => do call device assigned function (← exprs env args)

/-- The values of arguments. -/
def exprs (env : Env) : List Expr → Run σ (List (Value Float))
  | [] => return []
  | e :: es => do
    let v ← expr env e
    let vs ← exprs env es
    return v :: vs

end

/-- The new value of a target, from its old value if the operator needs that. -/
def combine (op : AssignOp) (old value : Run σ (Value Float)) : Run σ (Value Float) :=
  match op.toBinary? with
  | none => value
  | some op => do
    let a ← old
    let b ← value
    op.apply a b

/-- Runs a body `n` times. -/
def times (body : Env → Run σ Env) : Nat → Env → Run σ Env
  | 0, env => return env
  | n + 1, env => do times body n (← body env)

mutual

/-- The variables after a statement. -/
def stmt : Stmt → Env → Run σ Env
  | .expr e, env => do
    discard <| expr device assigned env e
    return env
  | .assign target op value _, env => do
    let v ← combine op (name device assigned env target) (expr device assigned env value)
    if target = "frame" then
      let x ← v.toNumber
      modify fun c => { c with globals := { c.globals with assigned := some (Number.toCount x) } }
      return env
    else return env.set target v
  | .loop count body, env => do
    let n ← (← expr device assigned env count).toNumber
    times (block body) (Number.toCount n) env
  | .branch condition thenBody elseBody, env => do
    if (← expr device assigned env condition).truthy then block thenBody env
    else otherwise elseBody env

/-- The variables after a block. -/
def block : List Stmt → Env → Run σ Env
  | [], env => return env
  | s :: rest, env => do block rest (← stmt s env)

/-- The variables after an `else` part. -/
def otherwise : Option (List Stmt) → Env → Run σ Env
  | none, env => return env
  | some body, env => block body env

end

end Evaluation

/-- Runs the statements of a script. No variable has a value at the start. -/
def evaluate {σ : Type} (device : Device σ) (stmts : List Stmt) : Run σ Unit :=
  discard <| Evaluation.block device (Lowering.assignedInBlock stmts) stmts .empty

end LiveSketch.Script

import LiveSketch.Noise.Field
import LiveSketch.Scene.Recorder
import LiveSketch.Script.Code

/-!
# Running compiled scripts

`Program.run` runs a compiled script in a context: a graphics device, the frame, everything random and
the list of executed `doOnce` lines. The result is a pair of the outcome and the context after it, so a
script that fails leaves behind what it did before.

Operands and arguments are evaluated from left to right and always all of them; `and` and `or` do not
cut short. A loop evaluates its count once.
-/
namespace LiveSketch.Script

/-- Everything random in a sketch. -/
structure Chance where
  generator : Random.Generator
  noise : Noise.Field Float

namespace Builtin

/-- The functions that depend on their arguments alone. -/
def compute? : Builtin → List Float → Option Float
  | abs, [a] => some a.abs
  | ceil, [a] => some a.ceil
  | floor, [a] => some a.floor
  | round, [a] => some a.round
  | sqrt, [a] => some a.sqrt
  | sq, [a] => some (a * a)
  | pow, [a, b] => some (a.pow b)
  | exp, [a] => some a.exp
  | log, [a] => some a.log
  | sin, [a] => some a.sin
  | cos, [a] => some a.cos
  | tan, [a] => some a.tan
  | asin, [a] => some a.asin
  | acos, [a] => some a.acos
  | atan, [a] => some a.atan
  | atan2, [y, x] => some (y.atan2 x)
  | min, a :: rest => some (rest.foldl Number.minimum a)
  | max, a :: rest => some (rest.foldl Number.maximum a)
  | constrain, [v, low, high] => some (Number.minimum (Number.maximum v low) high)
  | lerp, [a, b, t] => some (a + (b - a) * t)
  | map, [v, low₁, high₁, low₂, high₂] =>
    some (low₂ + (high₂ - low₂) * ((v - low₁) / (high₁ - low₁)))
  | norm, [v, low, high] => some ((v - low) / (high - low))
  | mag, [a, b] => some (Number.hypotenuse a b)
  | mag, [a, b, c] => some (a * a + b * b + c * c).sqrt
  | dist, [x₁, y₁, x₂, y₂] => some (Number.hypotenuse (x₂ - x₁) (y₂ - y₁))
  | dist, [x₁, y₁, z₁, x₂, y₂, z₂] =>
    let (x, y, z) := (x₂ - x₁, y₂ - y₁, z₂ - z₁)
    some (x * x + y * y + z * z).sqrt
  | degrees, [a] => some (a * 57.29577951308232)
  | radians, [a] => some (a * 0.017453292519943295)
  | _, _ => none

/-- The greatest number of octaves that a script can ask for, before the field caps it. -/
def octaveCount (x : Float) : Nat := Nat.min (Number.toCount x) (UInt32.size - 1)

/-- The functions that draw random values or set up how they are drawn. -/
def draw? : Builtin → List Float → Chance → Option (Float × Chance)
  | randomSeed, [seed], c =>
    some (0, { c with generator := .ofSeed (Number.toSeed seed) })
  | noiseSeed, [seed], c => some (0, { c with noise := c.noise.reseed (Number.toSeed seed) })
  | noiseDetail, [octaves], c =>
    some (0, { c with noise := c.noise.setDetail (octaveCount octaves) none })
  | noiseDetail, [octaves, falloff], c =>
    some (0, { c with noise := c.noise.setDetail (octaveCount octaves) (some falloff) })
  | noise, coordinates, c =>
    (Noise.Point.ofList? coordinates).map fun p =>
      let (x, field, g) := c.noise.sample p c.generator
      (x, { generator := g, noise := field })
  | random, [], c =>
    let (x, g) := c.generator.unit
    some (x, { c with generator := g })
  | random, [high], c =>
    let (x, g) := c.generator.unit
    some (x * high, { c with generator := g })
  | random, [low, high], c =>
    let (x, g) := c.generator.unit
    some (low + x * (high - low), { c with generator := g })
  | _, _, _ => none

/-- Calls a function. A call that fails draws nothing. -/
def call (f : Builtin) (args : List (Value Float)) (c : Chance) :
    Except RuntimeFault (Value Float × Chance) := do
  if f = color then return (.colour (← Colour.ofValues args), c)
  else
    let xs ← Value.toNumbers args
    match f.compute? xs, f.draw? xs c with
    | some x, _ => return (.number x, c)
    | none, some (x, c) => return (.number x, c)
    | none, none => throw (.wrongArity f.name xs.length)

end Builtin

/-- The frame that a script sees. -/
structure FrameGlobals where
  frame : Nat
  time : Float
  /-- The frame that the script has assigned. -/
  assigned : Option Nat
  deriving DecidableEq, Repr

/-- The frame that a script reads: its own assignment wins. -/
def FrameGlobals.current (g : FrameGlobals) : Nat := g.assigned.getD g.frame

/-- Carries out the commands of a running script. -/
abbrev Device (σ : Type) := CommandCall Float → σ → Except RuntimeFault Unit × σ

/-- What a script runs in. -/
structure Context (σ : Type) where
  graphics : σ
  globals : FrameGlobals
  chance : Chance
  /-- The lines of the `doOnce` blocks that ran. -/
  doOnce : Log Nat

/-- A computation that may fail; what it did to the context stays. -/
abbrev Run (σ α : Type) := ExceptT RuntimeFault (StateM (Context σ)) α

/-- The values of the local variables. -/
abbrev Locals := List (Option (Value Float))

namespace BinaryOp

/-- Whether two values are equal: texts and colours among themselves, numbers and truth values as
numbers, and no others. -/
def equalValues (a b : Value Float) : Bool :=
  match a, b with
  | .string x, .string y => x == y
  | .colour x, .colour y => x == y
  | a, b => match a.toNumber, b.toNumber with
    | .ok x, .ok y => x == y
    | _, _ => false

/-- An operator on two numbers. The right operand is read as a number first. -/
def onNumbers {β : Type} (f : Float → Float → β) (a b : Value Float) : Except RuntimeFault β := do
  let y ← b.toNumber
  let x ← a.toNumber
  return f x y

/-- A sum, or the joined text if one operand is a text. -/
def addValues (a b : Value Float) : Except RuntimeFault (Value Float) :=
  match a, b with
  | .string s, b => .ok (.string (s ++ b.display))
  | a, .string s => .ok (.string (a.display ++ s))
  | a, b => do
    let x ← a.toNumber
    let y ← b.toNumber
    return .number (x + y)

/-- The value of a binary operator. -/
def apply (op : BinaryOp) (a b : Value Float) : Except RuntimeFault (Value Float) :=
  match op with
  | add => addValues a b
  | sub => (onNumbers (· - ·) a b).map .number
  | mul => (onNumbers (· * ·) a b).map .number
  | div => (onNumbers (· / ·) a b).map .number
  | mod => (onNumbers Number.remainder a b).map .number
  | eq => .ok (.bool (equalValues a b))
  | ne => .ok (.bool (!equalValues a b))
  | lt => (onNumbers (fun x y => decide (x < y)) a b).map .bool
  | le => (onNumbers (fun x y => decide (x ≤ y)) a b).map .bool
  | gt => (onNumbers (fun x y => decide (x > y)) a b).map .bool
  | ge => (onNumbers (fun x y => decide (x ≥ y)) a b).map .bool
  | and => .ok (.bool (a.truthy && b.truthy))
  | or => .ok (.bool (a.truthy || b.truthy))

end BinaryOp

/-- The value of a unary operator. -/
def UnaryOp.apply (op : UnaryOp) (v : Value Float) : Except RuntimeFault (Value Float) :=
  match op with
  | neg => v.toNumber.map fun x => .number (-x)
  | not => .ok (.bool !v.truthy)

namespace Machine

variable {σ : Type} (device : Device σ)

/-- Calls a function on everything random of the context. -/
def callBuiltin (f : Builtin) (args : List (Value Float)) : Run σ (Value Float) := do
  let context ← get
  let (v, chance) ← f.call args context.chance
  modify fun c => { c with chance := chance }
  return v

/-- Gives a command to the device. The value of a command is zero. -/
def callCommand (command : Command) (args : List (Value Float)) : Run σ (Value Float) := do
  let context ← get
  let (outcome, graphics) := device ⟨command, args, context.globals.time⟩ context.graphics
  set { context with graphics := graphics }
  outcome
  return .number 0

/-- Reports the line of an executed `doOnce`. -/
def markDoOnce (args : List (Value Float)) : Run σ (Value Float) := do
  match args with
  | [] => throw .noLineNumber
  | v :: _ =>
    let line ← v.toNumber
    modify fun c => { c with doOnce := c.doOnce.push (Number.toCount line) }
    return .number 0

/-- The value of a local variable. -/
def readSlot (names : List String) (locals : Locals) (i : Nat) : Except RuntimeFault (Value Float) :=
  match locals[i]? with
  | some (some v) => .ok v
  | _ => .error (.notDefined (names.getD i "variable"))

/-- The fault of a call of what is no function. -/
def unknownFunction (consts : List (Value Float)) (name : Nat) : RuntimeFault :=
  .notFunction (((consts[name]?).map Value.display).getD "function")

/-- Takes the arguments of a call off the stack, whose head is its top. -/
def popArgs (argc : Nat) (stack : List (Value Float)) :
    Except RuntimeFault (List (Value Float) × List (Value Float)) :=
  if stack.length < argc then .error .stackUnderflowInCall
  else .ok ((stack.take argc).reverse, stack.drop argc)

/-- The stack after one operation. -/
def step (names : List String) (consts : List (Value Float)) (locals : Locals) (op : Op)
    (stack : List (Value Float)) : Run σ (List (Value Float)) := do
  match op with
  | .const i => match consts[i]? with
    | some v => return v :: stack
    | none => throw .constantRange
  | .slot i => return (← readSlot names locals i) :: stack
  | .time => return .number (← get).globals.time :: stack
  | .frame => return .number (Float.ofNat (← get).globals.current) :: stack
  | .unary op => match stack with
    | v :: stack => return (← op.apply v) :: stack
    | [] => throw .stackUnderflow
  | .binary op => match stack with
    | b :: a :: stack => return (← op.apply a b) :: stack
    | _ => throw .stackUnderflow
  | .builtin f argc =>
    let (args, stack) ← popArgs argc stack
    return (← callBuiltin f args) :: stack
  | .command c argc =>
    let (args, stack) ← popArgs argc stack
    return (← callCommand device c args) :: stack
  | .mark argc =>
    let (args, stack) ← popArgs argc stack
    return (← markDoOnce args) :: stack
  | .unknown name _ => throw (unknownFunction consts name)

/-- The stack after a list of operations. -/
def steps (names : List String) (consts : List (Value Float)) (locals : Locals) :
    List Op → List (Value Float) → Run σ (List (Value Float))
  | [], stack => return stack
  | op :: ops, stack => do steps names consts locals ops (← step device names consts locals op stack)

/-- The value of an expression. -/
def eval (names : List String) (locals : Locals) (code : Code) : Run σ (Value Float) := do
  match ← steps device names code.consts locals code.ops [] with
  | [v] => return v
  | stack => throw (.stackHeight stack.length)

/-- Runs a body `n` times. -/
def iterate (body : Locals → Run σ Locals) : Nat → Locals → Run σ Locals
  | 0, locals => return locals
  | n + 1, locals => fun context =>
    match body locals context with
    | (.ok locals, context) => iterate body n locals context
    | (.error fault, context) => (.error fault, context)

mutual

/-- The local variables after a statement. -/
def exec (names : List String) : Instr → Locals → Run σ Locals
  | .eval code, locals => do
    discard <| eval device names locals code
    return locals
  | .store i code, locals => do
    let v ← eval device names locals code
    if i < locals.length then return locals.set i (some v) else throw .slotRange
  | .storeFrame code, locals => do
    let x ← (← eval device names locals code).toNumber
    modify fun c => { c with globals := { c.globals with assigned := some (Number.toCount x) } }
    return locals
  | .loop count body, locals => do
    let n ← (← eval device names locals count).toNumber
    iterate (execBlock names body) (Number.toCount n) locals
  | .branch condition thenBody elseBody, locals => do
    if (← eval device names locals condition).truthy then execBlock names thenBody locals
    else execBlock names elseBody locals

/-- The local variables after a block. -/
def execBlock (names : List String) : List Instr → Locals → Run σ Locals
  | [], locals => return locals
  | i :: rest, locals => do execBlock names rest (← exec names i locals)

end

end Machine

/-- Runs a script. No local variable has a value at the start. -/
def Program.run {σ : Type} (device : Device σ) (p : Program) : Run σ Unit :=
  discard <| Machine.execBlock device p.slots p.body (p.slots.map fun _ => none)

end LiveSketch.Script

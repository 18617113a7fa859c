import LiveSketch.Proofs.Script.Compilation
import LiveSketch.Proofs.Script.Printing

/-!
# Trees without places

The places in a tree are there for error messages: a script does the same without them (`evaluate_erase`),
and whether a tree can be lowered does not hang on them either. A tree can be lowered unless it assigns the
time or calls something with too many arguments (`lower_isOk`).
-/
namespace LiveSketch.Script

theorem length_eraseArgs (es : List Expr) : (eraseArgs es).length = es.length := by
  induction es with
  | nil => rfl
  | cons e es ih => simp [eraseArgs, ih]

theorem eraseBlock_eq_map (stmts : List Stmt) : eraseBlock stmts = stmts.map Stmt.erase := by
  induction stmts with
  | nil => rfl
  | cons s stmts ih => simp [eraseBlock, ih]

theorem eraseBlock_reverse (stmts : List Stmt) : eraseBlock stmts.reverse = (eraseBlock stmts).reverse := by
  rw [eraseBlock_eq_map, eraseBlock_eq_map, List.map_reverse]

/-! ## What a script does -/

namespace Evaluation

variable {σ : Type} (device : Device σ) (assigned : List String)

mutual

theorem expr_erase (env : Env) : ∀ e : Expr, expr device assigned env e.erase = expr device assigned env e
  | .literal _ => rfl
  | .ident _ _ => rfl
  | .unary _ arg => by rw [Expr.erase, expr, expr, expr_erase env arg]
  | .binary _ left right => by rw [Expr.erase, expr, expr, expr_erase env left, expr_erase env right]
  | .call _ args _ => by rw [Expr.erase, expr, expr, exprs_erase env args]

theorem exprs_erase (env : Env) :
    ∀ es : List Expr, exprs device assigned env (eraseArgs es) = exprs device assigned env es
  | [] => rfl
  | e :: es => by rw [eraseArgs, exprs, exprs, expr_erase env e, exprs_erase env es]

end

mutual

theorem stmt_erase : ∀ s : Stmt, stmt device assigned s.erase = stmt device assigned s
  | .expr e => by
    funext env
    rw [Stmt.erase, stmt, stmt, expr_erase device assigned env e]
  | .assign _ _ value _ => by
    funext env
    rw [Stmt.erase, stmt, stmt, expr_erase device assigned env value]
  | .loop count body => by
    funext env
    rw [Stmt.erase, stmt, stmt, expr_erase device assigned env count, block_erase body]
  | .branch condition thenBody elseBody => by
    funext env
    rw [Stmt.erase, stmt, stmt, expr_erase device assigned env condition, block_erase thenBody,
      otherwise_erase elseBody]

theorem block_erase :
    ∀ stmts : List Stmt, block device assigned (eraseBlock stmts) = block device assigned stmts
  | [] => rfl
  | s :: stmts => by
    funext env
    rw [eraseBlock, block, block, stmt_erase s, block_erase stmts]

theorem otherwise_erase : ∀ stmts : Option (List Stmt),
    otherwise device assigned (eraseElse stmts) = otherwise device assigned stmts
  | none => rfl
  | some stmts => by
    funext env
    rw [eraseElse, otherwise, otherwise, block_erase stmts]

end

end Evaluation

namespace Lowering

mutual

theorem assignedIn_erase : ∀ s : Stmt, assignedIn s.erase = assignedIn s
  | .expr _ => rfl
  | .assign _ _ _ _ => rfl
  | .loop _ body => assignedInBlock_erase body
  | .branch _ thenBody elseBody => by
    rw [Stmt.erase, assignedIn, assignedIn, assignedInBlock_erase thenBody, assignedInElse_erase elseBody]

theorem assignedInBlock_erase : ∀ stmts : List Stmt, assignedInBlock (eraseBlock stmts) = assignedInBlock stmts
  | [] => rfl
  | s :: stmts => by rw [eraseBlock, assignedInBlock, assignedInBlock, assignedIn_erase s,
      assignedInBlock_erase stmts]

theorem assignedInElse_erase :
    ∀ stmts : Option (List Stmt), assignedInElse (eraseElse stmts) = assignedInElse stmts
  | none => rfl
  | some stmts => assignedInBlock_erase stmts

end

end Lowering

/-- A script does the same without its places. -/
theorem evaluate_erase {σ : Type} (device : Device σ) (stmts : List Stmt) :
    evaluate device (eraseBlock stmts) = evaluate device stmts := by
  rw [evaluate, evaluate, Lowering.assignedInBlock_erase, Evaluation.block_erase]

/-! ## What can be lowered -/

mutual

/-- Whether no call in the expression has too many arguments. -/
def Expr.isLowerable : Expr → Bool
  | .literal _ => true
  | .ident _ _ => true
  | .unary _ arg => arg.isLowerable
  | .binary _ left right => left.isLowerable && right.isLowerable
  | .call _ args _ => lowerableArgs args && decide (args.length ≤ Lowering.maxArguments)

def lowerableArgs : List Expr → Bool
  | [] => true
  | e :: es => e.isLowerable && lowerableArgs es

end

mutual

/-- Whether the statement does not assign the time, and no call in it has too many arguments. -/
def Stmt.isLowerable : Stmt → Bool
  | .expr e => e.isLowerable
  | .assign target _ value _ => target != "time" && value.isLowerable
  | .loop count body => count.isLowerable && lowerableBlock body
  | .branch condition thenBody elseBody =>
    condition.isLowerable && lowerableBlock thenBody && lowerableElse elseBody

def lowerableBlock : List Stmt → Bool
  | [] => true
  | s :: rest => s.isLowerable && lowerableBlock rest

def lowerableElse : Option (List Stmt) → Bool
  | none => true
  | some body => lowerableBlock body

end

mutual

theorem Expr.isLowerable_erase : ∀ e : Expr, e.erase.isLowerable = e.isLowerable
  | .literal _ => rfl
  | .ident _ _ => rfl
  | .unary _ arg => arg.isLowerable_erase
  | .binary _ left right => by
    rw [Expr.erase, Expr.isLowerable, Expr.isLowerable, left.isLowerable_erase, right.isLowerable_erase]
  | .call _ args _ => by
    rw [Expr.erase, Expr.isLowerable, Expr.isLowerable, lowerableArgs_erase args, length_eraseArgs]

theorem lowerableArgs_erase : ∀ es : List Expr, lowerableArgs (eraseArgs es) = lowerableArgs es
  | [] => rfl
  | e :: es => by rw [eraseArgs, lowerableArgs, lowerableArgs, e.isLowerable_erase, lowerableArgs_erase es]

end

mutual

theorem Stmt.isLowerable_erase : ∀ s : Stmt, s.erase.isLowerable = s.isLowerable
  | .expr e => e.isLowerable_erase
  | .assign _ _ value _ => by rw [Stmt.erase, Stmt.isLowerable, Stmt.isLowerable, value.isLowerable_erase]
  | .loop count body => by
    rw [Stmt.erase, Stmt.isLowerable, Stmt.isLowerable, count.isLowerable_erase, lowerableBlock_erase body]
  | .branch condition thenBody elseBody => by
    rw [Stmt.erase, Stmt.isLowerable, Stmt.isLowerable, condition.isLowerable_erase,
      lowerableBlock_erase thenBody, lowerableElse_erase elseBody]

theorem lowerableBlock_erase : ∀ stmts : List Stmt, lowerableBlock (eraseBlock stmts) = lowerableBlock stmts
  | [] => rfl
  | s :: stmts => by
    rw [eraseBlock, lowerableBlock, lowerableBlock, s.isLowerable_erase, lowerableBlock_erase stmts]

theorem lowerableElse_erase :
    ∀ stmts : Option (List Stmt), lowerableElse (eraseElse stmts) = lowerableElse stmts
  | none => rfl
  | some stmts => lowerableBlock_erase stmts

end

/-- One step after another succeeds when both do. -/
theorem isOk_bind {ε α β : Type} {x : Except ε α} {f : α → Except ε β} {b c : Bool} (hx : x.isOk = b)
    (hf : ∀ a, (f a).isOk = c) : (x >>= f).isOk = (b && c) := by
  subst hx
  cases x with
  | error e => rfl
  | ok a => exact hf a

/-- A last step that always succeeds. -/
theorem isOk_bind_pure {ε α β : Type} {x : Except ε α} {f : α → Except ε β} {b : Bool}
    (hx : x.isOk = b) (hf : ∀ a, (f a).isOk = true) : (x >>= f).isOk = b := by
  rw [isOk_bind hx hf, Bool.and_true]

namespace Lowering

variable {assigned : List String}

mutual

theorem exprCode_isOk (base : Nat) (slots : List String) :
    ∀ e : Expr, (exprCode assigned base slots e).isOk = e.isLowerable
  | .literal _ => rfl
  | .ident _ _ => rfl
  | .unary _ arg => by
    rw [exprCode, Expr.isLowerable]
    exact isOk_bind_pure (exprCode_isOk base slots arg) fun _ => rfl
  | .binary _ left right => by
    rw [exprCode, Expr.isLowerable]
    exact isOk_bind (exprCode_isOk base slots left) fun _ =>
      isOk_bind_pure (exprCode_isOk _ _ right) fun _ => rfl
  | .call _ args _ => by
    rw [exprCode, Expr.isLowerable]
    refine isOk_bind (argsCode_isOk base slots args) fun _ => ?_
    dsimp only
    split
    · rename_i h
      exact (decide_eq_false (Nat.not_le.2 h)).symm
    · rename_i h
      exact (decide_eq_true (Nat.not_lt.1 h)).symm

theorem argsCode_isOk (base : Nat) (slots : List String) :
    ∀ es : List Expr, (argsCode assigned base slots es).isOk = lowerableArgs es
  | [] => rfl
  | e :: es => by
    rw [argsCode, lowerableArgs]
    exact isOk_bind (exprCode_isOk base slots e) fun _ =>
      isOk_bind_pure (argsCode_isOk _ _ es) fun _ => rfl

end

theorem assignCode_isOk (slots : List String) (op : AssignOp) (old : Op) (value : Expr) :
    (assignCode assigned slots op old value).isOk = value.isLowerable := by
  rw [assignCode]
  refine isOk_bind_pure (exprCode_isOk 0 slots value) fun _ => ?_
  dsimp only
  split <;> rfl

mutual

theorem stmtCode_isOk (slots : List String) :
    ∀ s : Stmt, (stmtCode assigned slots s).isOk = s.isLowerable
  | .expr e => by
    rw [stmtCode, Stmt.isLowerable]
    exact isOk_bind_pure (exprCode_isOk 0 slots e) fun _ => rfl
  | .assign target op value _ => by
    rw [stmtCode, Stmt.isLowerable, bne]
    split
    · rename_i h
      rw [h]
      rfl
    rename_i h
    rw [Bool.eq_false_iff.2 h, Bool.not_false, Bool.true_and]
    split
    · exact isOk_bind_pure (assignCode_isOk slots op .frame value) fun _ => rfl
    · exact isOk_bind_pure (assignCode_isOk _ op _ value) fun _ => rfl
  | .loop count body => by
    rw [stmtCode, Stmt.isLowerable]
    exact isOk_bind (exprCode_isOk 0 slots count) fun _ =>
      isOk_bind_pure (blockCode_isOk _ body) fun _ => rfl
  | .branch condition thenBody elseBody => by
    rw [stmtCode, Stmt.isLowerable, Bool.and_assoc]
    exact isOk_bind (exprCode_isOk 0 slots condition) fun _ =>
      isOk_bind (blockCode_isOk _ thenBody) fun _ =>
        isOk_bind_pure (elseCode_isOk _ elseBody) fun _ => rfl

theorem blockCode_isOk (slots : List String) :
    ∀ stmts : List Stmt, (blockCode assigned slots stmts).isOk = lowerableBlock stmts
  | [] => rfl
  | s :: stmts => by
    rw [blockCode, lowerableBlock]
    exact isOk_bind (stmtCode_isOk slots s) fun _ =>
      isOk_bind_pure (blockCode_isOk _ stmts) fun _ => rfl

theorem elseCode_isOk (slots : List String) :
    ∀ stmts : Option (List Stmt), (elseCode assigned slots stmts).isOk = lowerableElse stmts
  | none => rfl
  | some stmts => blockCode_isOk slots stmts

end

end Lowering

/-- What can be lowered. -/
theorem lower_isOk (stmts : List Stmt) : (lower stmts).isOk = lowerableBlock stmts :=
  isOk_bind_pure (Lowering.blockCode_isOk [] stmts) fun _ => rfl

end LiveSketch.Script

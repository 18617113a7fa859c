import LiveSketch.Proofs.Number.Counts
import LiveSketch.Proofs.Script.Erasure

/-!
# The parts of a sketch

A sketch is a tree in which the bodies of its headers are told from loops (`Part`). A script has loops in
their place, with reports or without (`View`). `run_of_view`: running the script is running the parts, where
each body of a header is entered by its report or by nothing (`Part.run`).
-/
namespace LiveSketch.Script

open Number (toCount digitsOf)

/-- The number with these digits. -/
def numeral (n : Nat) : Float := Number.IsNumeral.value (digitsOf n) []

/-- A statement of a sketch of `n` lines, without its places. -/
inductive Part (n : Nat) where
  | expr (e : Expr)
  | assign (target : String) (op : AssignOp) (value : Expr)
  | loop (count : Expr) (body : List (Part n))
  | branch (condition : Expr) (thenBody : List (Part n)) (elseBody : Option (List (Part n)))
  /-- The body of the header on this line, which stands behind the header or on the next lines. -/
  | once (line : Fin n) (inline : Bool) (body : List (Part n))

/-- What stands in a script in place of the headers of a sketch. -/
inductive View where
  /-- Loops. The one for line `i` runs `count i` times. -/
  | loops (count : Nat → Nat)
  /-- Loops that run once and report their line. -/
  | reports

/-- The call that reports a line. -/
def reportCall (i : Nat) : Expr := .call doOnceMarker [.literal (.number (numeral i))] 0

namespace View

/-- How often the loop for a header runs. -/
def count : View → Nat → Nat
  | loops count, i => count i
  | reports, _ => 1

/-- The statements in front of the body of a header. -/
def lead : View → Nat → List Stmt
  | loops _, _ => []
  | reports, i => [.expr (reportCall i)]

/-- The loop for the header on a line. -/
def loop (v : View) (i : Nat) (body : List Stmt) : Stmt := .loop (.literal (.number (numeral (v.count i)))) body

end View

variable {n : Nat}

mutual

/-- The statements that stand for a part in a script. -/
def Part.view (v : View) : Part n → List Stmt
  | .expr e => [.expr e]
  | .assign target op value => [.assign target op value 0]
  | .loop count body => [.loop count (viewAll v body)]
  | .branch condition thenBody elseBody => [.branch condition (viewAll v thenBody) (viewElse v elseBody)]
  | .once i true body => v.lead i ++ [v.loop i (viewAll v body)]
  | .once i false body => [v.loop i (v.lead i ++ viewAll v body)]

def viewAll (v : View) : List (Part n) → List Stmt
  | [] => []
  | p :: ps => p.view v ++ viewAll v ps

def viewElse (v : View) : Option (List (Part n)) → Option (List Stmt)
  | none => none
  | some ps => some (viewAll v ps)

end

@[simp] theorem viewAll_append (v : View) (ps qs : List (Part n)) :
    viewAll v (ps ++ qs) = viewAll v ps ++ viewAll v qs := by
  induction ps with
  | nil => rfl
  | cons p ps ih => simp [viewAll, ih]

theorem viewAll_singleton (v : View) (p : Part n) : viewAll v [p] = p.view v := by simp [viewAll]

/-! ## What the parts assign -/

mutual

/-- The names that a part assigns. -/
def Part.assigned : Part n → List String
  | .expr _ => []
  | .assign target _ _ => if target == "frame" then [] else [target]
  | .loop _ body => assignedAll body
  | .branch _ thenBody elseBody => assignedAll thenBody ++ assignedOptional elseBody
  | .once _ _ body => assignedAll body

def assignedAll : List (Part n) → List String
  | [] => []
  | p :: ps => p.assigned ++ assignedAll ps

def assignedOptional : Option (List (Part n)) → List String
  | none => []
  | some ps => assignedAll ps

end

theorem assignedInBlock_append (ss ts : List Stmt) : Lowering.assignedInBlock (ss ++ ts) =
    Lowering.assignedInBlock ss ++ Lowering.assignedInBlock ts := by
  induction ss with
  | nil => rfl
  | cons s ss ih => simp [Lowering.assignedInBlock, ih]

theorem assignedInBlock_lead (v : View) (i : Nat) : Lowering.assignedInBlock (v.lead i) = [] := by
  cases v <;> rfl

namespace Part

mutual

theorem assignedInBlock_view (v : View) : ∀ p : Part n, Lowering.assignedInBlock (p.view v) = p.assigned
  | .expr _ => rfl
  | .assign _ _ _ => List.append_nil _
  | .loop _ body => by
    simp [view, assigned, Lowering.assignedInBlock, Lowering.assignedIn, assignedInBlock_viewAll v body]
  | .branch _ thenBody elseBody => by
    simp [view, assigned, Lowering.assignedInBlock, Lowering.assignedIn,
      assignedInBlock_viewAll v thenBody, assignedInElse_viewElse v elseBody]
  | .once _ true body => by
    simp [view, assigned, assignedInBlock_append, assignedInBlock_lead, View.loop,
      Lowering.assignedInBlock, Lowering.assignedIn, assignedInBlock_viewAll v body]
  | .once _ false body => by
    simp [view, assigned, assignedInBlock_append, assignedInBlock_lead, View.loop,
      Lowering.assignedInBlock, Lowering.assignedIn, assignedInBlock_viewAll v body]

theorem assignedInBlock_viewAll (v : View) :
    ∀ ps : List (Part n), Lowering.assignedInBlock (viewAll v ps) = assignedAll ps
  | [] => rfl
  | p :: ps => by
    rw [viewAll, assignedInBlock_append, assignedInBlock_view v p, assignedInBlock_viewAll v ps, assignedAll]

theorem assignedInElse_viewElse (v : View) : ∀ ps : Option (List (Part n)),
    Lowering.assignedInElse (viewElse v ps) = assignedOptional ps
  | none => rfl
  | some ps => assignedInBlock_viewAll v ps

end

end Part

/-! ## What can be lowered -/

theorem lowerableBlock_append (ss ts : List Stmt) :
    lowerableBlock (ss ++ ts) = (lowerableBlock ss && lowerableBlock ts) := by
  induction ss with
  | nil => rfl
  | cons s ss ih => simp [lowerableBlock, ih, Bool.and_assoc]

theorem lowerableBlock_lead (v : View) (i : Nat) : lowerableBlock (v.lead i) = true := by
  cases v <;> rfl

namespace Part

mutual

theorem lowerable_view (v v' : View) :
    ∀ p : Part n, lowerableBlock (p.view v) = lowerableBlock (p.view v')
  | .expr _ => rfl
  | .assign _ _ _ => rfl
  | .loop _ body => by simp [view, lowerableBlock, Stmt.isLowerable, lowerable_viewAll v v' body]
  | .branch _ thenBody elseBody => by
    simp [view, lowerableBlock, Stmt.isLowerable, lowerable_viewAll v v' thenBody,
      lowerable_viewElse v v' elseBody]
  | .once _ true body => by
    simp [view, lowerableBlock_append, lowerableBlock_lead, lowerableBlock, View.loop, Stmt.isLowerable,
      Expr.isLowerable, lowerable_viewAll v v' body]
  | .once _ false body => by
    simp [view, lowerableBlock_append, lowerableBlock_lead, lowerableBlock, View.loop, Stmt.isLowerable,
      Expr.isLowerable, lowerable_viewAll v v' body]

theorem lowerable_viewAll (v v' : View) :
    ∀ ps : List (Part n), lowerableBlock (viewAll v ps) = lowerableBlock (viewAll v' ps)
  | [] => rfl
  | p :: ps => by
    rw [viewAll, viewAll, lowerableBlock_append, lowerableBlock_append, lowerable_view v v' p,
      lowerable_viewAll v v' ps]

theorem lowerable_viewElse (v v' : View) :
    ∀ ps : Option (List (Part n)), lowerableElse (viewElse v ps) = lowerableElse (viewElse v' ps)
  | none => rfl
  | some ps => lowerable_viewAll v v' ps

end

end Part

/-! ## Running the parts -/

namespace Part

variable {σ : Type} (device : Device σ) (assigned : List String) (enter : Nat → Run σ Unit)

mutual

/-- The variables after a part. `enter i` is run when the body of the header on line `i` is entered. -/
def exec : Part n → Env → Run σ Env
  | .expr e, env => Evaluation.stmt device assigned (.expr e) env
  | .assign target op value, env => Evaluation.stmt device assigned (.assign target op value 0) env
  | .loop count body, env => do
    let k ← (← Evaluation.expr device assigned env count).toNumber
    Evaluation.times (execAll body) (toCount k) env
  | .branch condition thenBody elseBody, env => do
    if (← Evaluation.expr device assigned env condition).truthy then execAll thenBody env
    else execOptional elseBody env
  | .once i _ body, env => do
    enter i
    execAll body env

def execAll : List (Part n) → Env → Run σ Env
  | [], env => return env
  | p :: ps, env => do execAll ps (← exec p env)

def execOptional : Option (List (Part n)) → Env → Run σ Env
  | none, env => return env
  | some ps, env => execAll ps env

end

/-- Runs the parts of a sketch. No variable has a value at the start. -/
def run (ps : List (Part n)) : Run σ Unit :=
  discard <| execAll device (assignedAll ps) enter ps .empty

end Part

/-- Reports a line. -/
def Run.report {σ : Type} (i : Nat) : Run σ Unit := modify fun c => { c with doOnce := c.doOnce.push i }

namespace View

/-- What a script does when the body of the header on a line is entered. -/
def enter {σ : Type} : View → Nat → Run σ Unit
  | loops _, _ => pure ()
  | reports, i => Run.report i

end View

namespace Evaluation

variable {σ : Type} {device : Device σ} {assigned : List String}

theorem block_append (ss ts : List Stmt) (env : Env) : block device assigned (ss ++ ts) env =
    block device assigned ss env >>= block device assigned ts := by
  induction ss generalizing env with
  | nil => rw [List.nil_append, block, pure_bind]
  | cons s ss ih => simp only [List.cons_append, block, ih, bind_assoc]

theorem block_singleton (s : Stmt) (env : Env) :
    block device assigned [s] env = stmt device assigned s env := by
  simp only [block, bind_pure]

/-- The marker reports the line with its number. -/
theorem stmt_reportCall (hm : doOnceMarker ∉ assigned) {i : Nat} (hi : i < 2 ^ 53) (env : Env) :
    stmt device assigned (.expr (reportCall i)) env = Run.report i >>= fun _ => pure env := by
  have hb : Builtin.ofName? doOnceMarker = none := by decide
  have hc : Command.ofName? doOnceMarker = none := by decide
  have hn : toCount (numeral i) = i := Number.toCount_digitsOf hi
  simp only [stmt, reportCall, expr, exprs, pure_bind, Literal.toValue, call, hm, hb, hc, if_false,
    if_true, Machine.markDoOnce, Value.toNumber, Run.liftM_ok, hn, Run.discard_eq, bind_assoc, Run.report]

theorem block_lead (hm : doOnceMarker ∉ assigned) (v : View) {i : Nat} (hi : i < 2 ^ 53) (env : Env) :
    block device assigned (v.lead i) env = v.enter i >>= fun _ => pure env := by
  cases v with
  | loops count => rfl
  | reports => exact (block_singleton _ env).trans (stmt_reportCall hm hi env)

/-- A loop that runs once. -/
theorem stmt_loop {v : View} {i : Nat} (hv : v.count i = 1) (body : List Stmt) (env : Env) :
    stmt device assigned (v.loop i body) env = block device assigned body env := by
  have hn : toCount (numeral 1) = 1 := Number.toCount_digitsOf (by decide)
  simp only [View.loop, hv, stmt, expr, pure_bind, Literal.toValue, Value.toNumber, Run.liftM_ok, hn, times,
    bind_pure]

end Evaluation

namespace Part

open Evaluation

variable {σ : Type} {device : Device σ} {assigned : List String} {v : View}

mutual

theorem block_view (hv : ∀ i, v.count i = 1) (hm : doOnceMarker ∉ assigned) (hn : n ≤ 2 ^ 53) :
    ∀ (p : Part n) (env : Env), block device assigned (p.view v) env = exec device assigned v.enter p env
  | .expr _, env => by rw [view, block_singleton, exec]
  | .assign _ _ _, env => by rw [view, block_singleton, exec]
  | .loop _ body, env => by
    have hb : block device assigned (viewAll v body) = execAll device assigned v.enter body :=
      funext (block_viewAll hv hm hn body)
    rw [view, block_singleton, stmt, hb, exec]
  | .branch _ thenBody elseBody, env => by
    rw [view, block_singleton, stmt, block_viewAll hv hm hn thenBody env,
      otherwise_viewElse hv hm hn elseBody env, exec]
  | .once i true body, env => by
    have hi : (i : Nat) < 2 ^ 53 := Nat.lt_of_lt_of_le i.isLt hn
    rw [view, block_append, block_lead hm v hi, bind_assoc, exec]
    simp only [pure_bind, block_singleton, stmt_loop (hv i), block_viewAll hv hm hn body env]
  | .once i false body, env => by
    have hi : (i : Nat) < 2 ^ 53 := Nat.lt_of_lt_of_le i.isLt hn
    rw [view, block_singleton, stmt_loop (hv i), block_append, block_lead hm v hi, bind_assoc, exec]
    simp only [pure_bind, block_viewAll hv hm hn body env]

theorem block_viewAll (hv : ∀ i, v.count i = 1) (hm : doOnceMarker ∉ assigned) (hn : n ≤ 2 ^ 53) :
    ∀ (ps : List (Part n)) (env : Env),
      block device assigned (viewAll v ps) env = execAll device assigned v.enter ps env
  | [], _ => rfl
  | p :: ps, env => by
    have hps : block device assigned (viewAll v ps) = execAll device assigned v.enter ps :=
      funext (block_viewAll hv hm hn ps)
    rw [viewAll, block_append, block_view hv hm hn p env, hps, execAll]

theorem otherwise_viewElse (hv : ∀ i, v.count i = 1) (hm : doOnceMarker ∉ assigned) (hn : n ≤ 2 ^ 53) :
    ∀ (ps : Option (List (Part n))) (env : Env),
      otherwise device assigned (viewElse v ps) env = execOptional device assigned v.enter ps env
  | none, _ => rfl
  | some ps, env => block_viewAll hv hm hn ps env

end

/-- Running a script in which the headers are loops that run once is running its parts. -/
theorem run_of_view {stmts : List Stmt} {ps : List (Part n)} (hv : ∀ i, v.count i = 1)
    (hm : doOnceMarker ∉ assignedAll ps) (hn : n ≤ 2 ^ 53) (h : eraseBlock stmts = viewAll v ps) :
    evaluate device stmts = run device v.enter ps := by
  rw [← evaluate_erase, h, evaluate, assignedInBlock_viewAll, block_viewAll hv hm hn, run]

end Part

end LiveSketch.Script

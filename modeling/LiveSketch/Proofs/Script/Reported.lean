import LiveSketch.Proofs.Script.Faults
import LiveSketch.Proofs.Script.ReportTrees

/-!
# Which lines a run reports

A run reports a line when it calls the marker, and it calls it with the number that stands in the tree. So a
script in whose tree the calls of the marker have the numbers of certain lines reports these lines and no
others (`evaluate_adds`).
-/
namespace LiveSketch.Script

open Number (toCount)

variable {σ : Type} {device : Device σ} {lines : Nat → Prop}

namespace Machine

theorem callBuiltin_adds (f : Builtin) (args : List (Value Float)) :
    (callBuiltin f args : Run σ (Value Float)).Adds lines := by
  refine Run.Adds.get.bind fun _ => (Run.Adds.liftM _).bind fun _ =>
    (Run.Adds.modify _ ?_).bind fun _ => .pure _
  exact fun c n hn => .inl hn

theorem callCommand_adds (command : Command) (args : List (Value Float)) :
    (callCommand device command args).Adds lines := by
  intro c out c' h n hn
  rw [callCommand_apply] at h
  cases h
  exact .inl hn

/-- The first argument of the marker is the line that it reports. -/
theorem markDoOnce_adds {args : List (Value Float)}
    (h : ∀ v ∈ args.head?, ∀ x, v.toNumber = .ok x → lines (toCount x)) :
    (markDoOnce args : Run σ (Value Float)).Adds lines := by
  cases args with
  | nil => exact .throw _
  | cons v vs =>
    cases hv : v.toNumber with
    | error fault =>
      rw [markDoOnce, hv]
      exact .throw fault
    | ok x =>
      rw [markDoOnce, hv]
      refine (Run.Adds.modify _ fun c n hn => ?_).bind fun _ => .pure _
      rw [Log.toList_push, List.mem_append, List.mem_singleton] at hn
      rcases hn with hn | rfl
      · exact .inl hn
      · exact .inr (h v rfl x hv)

end Machine

namespace Evaluation

variable {assigned : List String}

theorem call_adds {function : String} {args : List (Value Float)}
    (h : function = doOnceMarker → ∀ v ∈ args.head?, ∀ x, v.toNumber = .ok x → lines (toCount x)) :
    (call device assigned function args).Adds lines := by
  unfold call
  split
  · exact .throw _
  split
  · exact Machine.callBuiltin_adds _ args
  · exact Machine.callCommand_adds _ args
  · split
    · rename_i hf
      exact Machine.markDoOnce_adds (h hf)
    · exact .throw _

theorem name_adds (env : Env) (n : String) : (name device assigned env n).Adds lines := by
  unfold name
  split
  · exact .liftM _
  split
  · exact Run.Adds.get.bind fun _ => .pure _
  split
  · exact Run.Adds.get.bind fun _ => .pure _
  unfold word
  split
  · exact .pure _
  split
  · exact .pure _
  split
  · exact .pure _
  split
  · exact call_adds fun _ => by simp
  · exact .throw _

/-- The value of a number that stands in front of the arguments. -/
theorem exprs_head (env : Env) {args : List Expr}
    (h : ∀ e ∈ args.head?, ∃ x, e = .literal (.number x) ∧ lines (toCount x)) :
    (exprs device assigned env args).Ensures fun vs =>
      ∀ v ∈ vs.head?, ∀ x, v.toNumber = .ok x → lines (toCount x) := by
  cases args with
  | nil => exact .pure (by simp)
  | cons e es =>
    obtain ⟨x, rfl, hx⟩ := h e rfl
    have hv : (expr device assigned env (.literal (.number x))).Ensures (· = .number x) := .pure rfl
    refine hv.bind fun v hv => (Run.Ensures.trivial _).bind fun vs _ => .pure ?_
    rintro w hw y hy
    cases hw
    rw [hv] at hy
    cases hy
    exact hx

mutual

theorem expr_adds (env : Env) :
    ∀ {e : Expr}, e.Reports lines → (expr device assigned env e).Adds lines
  | .literal _, _ => .pure _
  | .ident n _, _ => name_adds env n
  | .unary _ arg, h => by
    have ha : arg.Reports lines := h
    exact (expr_adds env ha).bind fun _ => .liftM _
  | .binary _ _ _, h =>
    (expr_adds env h.1).bind fun _ => (expr_adds env h.2).bind fun _ => .liftM _
  | .call function args _, h => by
    rw [expr]
    by_cases hf : function = doOnceMarker
    · exact (exprs_adds env h.2).bind_of (exprs_head env (h.1 hf)) fun vs hvs => call_adds fun _ => hvs
    · exact (exprs_adds env h.2).bind fun vs => call_adds fun e => absurd e hf

theorem exprs_adds (env : Env) :
    ∀ {es : List Expr}, Expr.AllReport lines es → (exprs device assigned env es).Adds lines
  | [], _ => .pure _
  | _ :: _, h => (expr_adds env h.1).bind fun _ => (exprs_adds env h.2).bind fun _ => .pure _

end

theorem combine_adds {op : AssignOp} {old value : Run σ (Value Float)} (ho : old.Adds lines)
    (hv : value.Adds lines) : (combine op old value).Adds lines := by
  unfold combine
  split
  · exact hv
  · exact ho.bind fun _ => hv.bind fun _ => .liftM _

theorem times_adds {body : Env → Run σ Env} (h : ∀ env, (body env).Adds lines) :
    ∀ (n : Nat) (env : Env), (times body n env).Adds lines
  | 0, _ => .pure _
  | n + 1, env => (h env).bind fun env' => times_adds h n env'

mutual

theorem stmt_adds : ∀ {s : Stmt} (env : Env), s.Reports lines →
    (stmt device assigned s env).Adds lines
  | .expr e, env, h => by
    rw [stmt, Run.discard_eq]
    exact ((expr_adds env h).bind fun _ => .pure _).bind fun _ => .pure _
  | .assign target op value _, env, h => by
    rw [stmt]
    refine (combine_adds (name_adds env target) (expr_adds env h)).bind fun _ => ?_
    split
    · refine (Run.Adds.liftM _).bind fun _ => (Run.Adds.modify _ ?_).bind fun _ => .pure _
      exact fun c n hn => .inl hn
    · exact .pure _
  | .loop count body, env, h => by
    rw [stmt]
    exact (expr_adds env h.1).bind fun _ => (Run.Adds.liftM _).bind fun _ =>
      times_adds (fun env => block_adds env h.2) _ env
  | .branch condition thenBody elseBody, env, h => by
    rw [stmt]
    refine (expr_adds env h.1).bind fun _ => ?_
    split
    · exact block_adds env h.2.1
    · exact otherwise_adds env h.2.2

theorem block_adds : ∀ {stmts : List Stmt} (env : Env), Stmt.AllReport lines stmts →
    (block device assigned stmts env).Adds lines
  | [], _, _ => .pure _
  | _ :: _, env, h => by
    rw [block]
    exact (stmt_adds env h.1).bind fun env' => block_adds env' h.2

theorem otherwise_adds : ∀ {stmts : Option (List Stmt)} (env : Env), Stmt.ElseReports lines stmts →
    (otherwise device assigned stmts env).Adds lines
  | none, _, _ => .pure _
  | some _, env, h => by
    rw [otherwise]
    exact block_adds env h

end

end Evaluation

/-- Only the lines of the calls in the tree are reported. -/
theorem evaluate_adds {stmts : List Stmt} (h : Stmt.AllReport lines stmts) :
    (evaluate device stmts).Adds lines := by
  rw [evaluate, Run.discard_eq]
  exact (Evaluation.block_adds .empty h).bind fun _ => .pure _

end LiveSketch.Script

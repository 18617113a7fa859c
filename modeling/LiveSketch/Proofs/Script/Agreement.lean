import LiveSketch.Proofs.Script.Parts

/-!
# Runs that agree

A script cannot look at the lines that were reported before. So runs that differ only in what they report have
the same outcome, and leave the same behind in everything else (`Agree`). The relation is closed under
sequences and is derived along the tree; for the parts of a sketch it says that what is done when a body is
entered shows in the reports alone (`Part.run_agree`).
-/
namespace LiveSketch.Script

variable {σ α β : Type}

/-- The contexts are the same but for the reported lines. -/
def Context.SameScene (c c' : Context σ) : Prop :=
  c.graphics = c'.graphics ∧ c.globals = c'.globals ∧ c.chance = c'.chance

namespace Run

/-- The runs have the same outcome and do the same, but for what they report. -/
def Agree (m m' : Run σ α) : Prop :=
  ∀ c c', c.SameScene c' → (m c).1 = (m' c').1 ∧ (m c).2.SameScene (m' c').2

theorem Agree.pure (a : α) : Agree (pure a : Run σ α) (pure a) := fun _ _ h => ⟨rfl, h⟩

theorem Agree.throw (fault : RuntimeFault) : Agree (throw fault : Run σ α) (throw fault) :=
  fun _ _ h => ⟨rfl, h⟩

theorem Agree.liftM (x : Except RuntimeFault α) : Agree (liftM x : Run σ α) (liftM x) := by
  cases x with
  | ok a => exact .pure a
  | error fault => exact .throw fault

theorem Agree.bind {m m' : Run σ α} {k k' : α → Run σ β} (hm : Agree m m') (hk : ∀ a, Agree (k a) (k' a)) :
    Agree (m >>= k) (m' >>= k') := by
  intro c c' h
  obtain ⟨hout, hc⟩ := hm c c' h
  rw [bind_apply, bind_apply]
  rcases hr : m c with ⟨fault | a, c₁⟩ <;> rcases hr' : m' c' with ⟨fault' | a', c₁'⟩ <;>
    rw [hr, hr'] at hout hc <;> cases hout
  · exact ⟨rfl, hc⟩
  · exact hk a c₁ c₁' hc

/-- Two runs that go on from the context agree if they only use what is the same in both. -/
theorem Agree.get_bind {k k' : Context σ → Run σ β} (h : ∀ c c', c.SameScene c' → Agree (k c) (k' c')) :
    Agree (get >>= k) (get >>= k') := fun c c' hc => h c c' hc c c' hc

theorem Agree.modify {f f' : Context σ → Context σ} (h : ∀ c c', c.SameScene c' → (f c).SameScene (f' c')) :
    Agree (modify f : Run σ PUnit) (modify f') := fun c c' hc => ⟨rfl, h c c' hc⟩

/-- Reporting a line and doing nothing agree. -/
theorem report_agree (i : Nat) : Agree (Run.report i : Run σ Unit) (Pure.pure ()) := fun _ _ h => ⟨rfl, h⟩

end Run

namespace Machine

variable (device : Device σ)

theorem callBuiltin_agree (f : Builtin) (args : List (Value Float)) :
    Run.Agree (callBuiltin f args : Run σ (Value Float)) (callBuiltin f args) := by
  refine .get_bind fun c c' hc => ?_
  rw [hc.2.2]
  refine (Run.Agree.liftM _).bind fun found => (Run.Agree.modify ?_).bind fun _ => .pure _
  exact fun _ _ h => ⟨h.1, h.2.1, rfl⟩

theorem callCommand_agree (command : Command) (args : List (Value Float)) :
    Run.Agree (callCommand device command args) (callCommand device command args) := by
  intro c c' h
  rw [callCommand_apply, callCommand_apply, h.1, h.2.1]
  exact ⟨rfl, rfl, rfl, h.2.2⟩

theorem markDoOnce_agree (args : List (Value Float)) :
    Run.Agree (markDoOnce args : Run σ (Value Float)) (markDoOnce args) := by
  cases args with
  | nil => exact .throw _
  | cons v vs =>
    refine (Run.Agree.liftM _).bind fun _ => (Run.Agree.modify ?_).bind fun _ => .pure _
    exact fun _ _ h => h

end Machine

namespace Evaluation

variable (device : Device σ) (assigned : List String)

theorem call_agree (function : String) (args : List (Value Float)) :
    Run.Agree (call device assigned function args) (call device assigned function args) := by
  unfold call
  split
  · exact .throw _
  split
  · exact Machine.callBuiltin_agree _ args
  · exact Machine.callCommand_agree device _ args
  · split
    · exact Machine.markDoOnce_agree args
    · exact .throw _

theorem name_agree (env : Env) (n : String) :
    Run.Agree (name device assigned env n) (name device assigned env n) := by
  unfold name
  split
  · exact .liftM _
  split
  · refine .get_bind fun c c' hc => ?_
    rw [hc.2.1]
    exact .pure _
  split
  · refine .get_bind fun c c' hc => ?_
    rw [hc.2.1]
    exact .pure _
  unfold word
  split
  · exact .pure _
  split
  · exact .pure _
  split
  · exact .pure _
  split
  · exact call_agree device assigned n []
  · exact .throw _

mutual

theorem expr_agree (env : Env) :
    ∀ e : Expr, Run.Agree (expr device assigned env e) (expr device assigned env e)
  | .literal _ => .pure _
  | .ident n _ => name_agree device assigned env n
  | .unary _ arg => (expr_agree env arg).bind fun _ => .liftM _
  | .binary _ left right => (expr_agree env left).bind fun _ => (expr_agree env right).bind fun _ => .liftM _
  | .call function args _ => (exprs_agree env args).bind fun vs => call_agree device assigned function vs

theorem exprs_agree (env : Env) :
    ∀ es : List Expr, Run.Agree (exprs device assigned env es) (exprs device assigned env es)
  | [] => .pure _
  | e :: es => (expr_agree env e).bind fun _ => (exprs_agree env es).bind fun _ => .pure _

end

theorem combine_agree (op : AssignOp) {old value : Run σ (Value Float)} (ho : Run.Agree old old)
    (hv : Run.Agree value value) : Run.Agree (combine op old value) (combine op old value) := by
  unfold combine
  split
  · exact hv
  · exact ho.bind fun _ => hv.bind fun _ => .liftM _

theorem times_agree {body body' : Env → Run σ Env} (h : ∀ env, Run.Agree (body env) (body' env)) :
    ∀ (k : Nat) (env : Env), Run.Agree (times body k env) (times body' k env)
  | 0, _ => .pure _
  | k + 1, env => (h env).bind fun env' => times_agree h k env'

end Evaluation

namespace Part

open Evaluation

variable {n : Nat} (device : Device σ) (assigned : List String) {enter enter' : Nat → Run σ Unit}

mutual

theorem exec_agree (h : ∀ i, Run.Agree (enter i) (enter' i)) : ∀ (p : Part n) (env : Env),
    Run.Agree (exec device assigned enter p env) (exec device assigned enter' p env)
  | .expr e, env => by
    rw [exec, exec, stmt, Run.discard_eq]
    exact ((expr_agree device assigned env e).bind fun _ => .pure _).bind fun _ => .pure _
  | .assign target op value, env => by
    rw [exec, exec, stmt]
    refine (combine_agree op (name_agree device assigned env target)
      (expr_agree device assigned env value)).bind fun v => ?_
    split
    · refine (Run.Agree.liftM _).bind fun _ => (Run.Agree.modify ?_).bind fun _ => .pure _
      exact fun c c' hc => ⟨hc.1, by rw [hc.2.1], hc.2.2⟩
    · exact .pure _
  | .loop count body, env => by
    rw [exec, exec]
    exact (expr_agree device assigned env count).bind fun _ => (Run.Agree.liftM _).bind fun _ =>
      times_agree (execAll_agree h body) _ env
  | .branch condition thenBody elseBody, env => by
    rw [exec, exec]
    refine (expr_agree device assigned env condition).bind fun v => ?_
    split
    · exact execAll_agree h thenBody env
    · exact execOptional_agree h elseBody env
  | .once i _ body, env => by
    rw [exec, exec]
    exact (h i).bind fun _ => execAll_agree h body env

theorem execAll_agree (h : ∀ i, Run.Agree (enter i) (enter' i)) : ∀ (ps : List (Part n)) (env : Env),
    Run.Agree (execAll device assigned enter ps env) (execAll device assigned enter' ps env)
  | [], _ => .pure _
  | p :: ps, env => by
    rw [execAll, execAll]
    exact (exec_agree h p env).bind fun env' => execAll_agree h ps env'

theorem execOptional_agree (h : ∀ i, Run.Agree (enter i) (enter' i)) :
    ∀ (ps : Option (List (Part n))) (env : Env),
      Run.Agree (execOptional device assigned enter ps env) (execOptional device assigned enter' ps env)
  | none, _ => .pure _
  | some ps, env => by
    rw [execOptional, execOptional]
    exact execAll_agree h ps env

end

/-- What happens when a body is entered shows in the reports alone if that is so for each body. -/
theorem run_agree (h : ∀ i, Run.Agree (enter i) (enter' i)) (ps : List (Part n)) :
    Run.Agree (run device enter ps) (run device enter' ps) := by
  rw [run, run, Run.discard_eq, Run.discard_eq]
  exact (execAll_agree device _ h ps .empty).bind fun _ => .pure _

end Part

end LiveSketch.Script

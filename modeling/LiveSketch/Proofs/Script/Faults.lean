import LiveSketch.Proofs.Outcome
import LiveSketch.Proofs.Script.Evaluation

/-!
# Faults that a script can cause

A run takes a context to an outcome and the context after it. `Run.bind_apply` says what one step after
another does. `Ensures`, `Faults` and `Adds` say of a run what its values, its faults and the lines that it
reports can be; all three are closed under sequences, so they are derived along the definition of a run.

The faults of the stack machine (`RuntimeFault.isMachine`) speak of code that no compiler has made. The
evaluation of a script never ends with one of them, unless the device itself reports it
(`evaluate_faults`).
-/
namespace LiveSketch.Script.Run

variable {σ α β : Type}

theorem bind_apply (m : Run σ α) (k : α → Run σ β) (c : Context σ) :
    (m >>= k) c = match m c with
      | (.ok a, c) => k a c
      | (.error fault, c) => (.error fault, c) := by
  simp only [bind, ExceptT.bind, ExceptT.mk, StateT.bind, ExceptT.bindCont, pure]
  rcases m c with ⟨_ | a, c'⟩ <;> rfl

@[simp] theorem liftM_ok (a : α) : (liftM (.ok a : Except RuntimeFault α) : Run σ α) = pure a := rfl

@[simp] theorem liftM_error (fault : RuntimeFault) :
    (liftM (.error fault : Except RuntimeFault α) : Run σ α) = throw fault := rfl

@[simp] theorem throw_bind (fault : RuntimeFault) (k : α → Run σ β) :
    (throw fault >>= k) = throw fault := rfl

theorem discard_eq (m : Run σ α) : discard m = m >>= fun _ => pure () := by
  simp [discard, Functor.discard, LawfulFunctor.map_const]

/-! ## The values of a run -/

/-- Every value of the run satisfies `P`. -/
def Ensures (P : α → Prop) (m : Run σ α) : Prop :=
  ∀ c a c', m c = (.ok a, c') → P a

theorem Ensures.pure {P : α → Prop} {a : α} (h : P a) : Ensures P (pure a : Run σ α) := by
  intro c b c' hb
  cases hb
  exact h

theorem Ensures.trivial (m : Run σ α) : Ensures (fun _ => True) m := fun _ _ _ _ => True.intro

theorem Ensures.bind {P : α → Prop} {Q : β → Prop} {m : Run σ α} {k : α → Run σ β}
    (hm : Ensures P m) (hk : ∀ a, P a → Ensures Q (k a)) : Ensures Q (m >>= k) := by
  intro c b c' h
  rw [bind_apply] at h
  rcases hr : m c with ⟨fault | a, c₁⟩ <;> rw [hr] at h
  · cases h
  · exact hk a (hm c a c₁ hr) c₁ b c' h

/-- Two sequences are the same if they go on in the same way from every value that can occur. -/
theorem Ensures.bind_congr {P : α → Prop} {m : Run σ α} {k l : α → Run σ β} (hm : Ensures P m)
    (h : ∀ a, P a → k a = l a) : (m >>= k) = (m >>= l) := by
  funext c
  rw [bind_apply, bind_apply]
  rcases hr : m c with ⟨fault | a, c₁⟩
  · rfl
  · simp only [h a (hm c a c₁ hr)]

/-! ## The faults of a run -/

/-- Every fault of the run satisfies `P`. -/
def Faults (P : RuntimeFault → Prop) (m : Run σ α) : Prop :=
  ∀ c fault c', m c = (.error fault, c') → P fault

variable {P : RuntimeFault → Prop}

theorem Faults.pure (a : α) : Faults P (pure a : Run σ α) := by
  intro c fault c' h
  cases h

theorem Faults.throw {fault : RuntimeFault} (h : P fault) : Faults P (throw fault : Run σ α) := by
  intro c fault c' hf
  cases hf
  exact h

theorem Faults.bind {m : Run σ α} {k : α → Run σ β} (hm : Faults P m) (hk : ∀ a, Faults P (k a)) :
    Faults P (m >>= k) := by
  intro c fault c' h
  rw [bind_apply] at h
  rcases hr : m c with ⟨f | a, c₁⟩ <;> rw [hr] at h
  · cases h
    exact hm c _ _ hr
  · exact hk a c₁ fault c' h

theorem Faults.liftM {x : Except RuntimeFault α} (h : ∀ fault, x = .error fault → P fault) :
    Faults P (liftM x : Run σ α) := by
  cases x with
  | ok a => exact .pure a
  | error fault => exact .throw (h fault rfl)

theorem Faults.get : Faults P (get : Run σ (Context σ)) := by
  intro c fault c' h
  cases h

theorem Faults.modify (f : Context σ → Context σ) : Faults P (modify f : Run σ PUnit) := by
  intro c fault c' h
  cases h

/-! ## The lines that a run reports -/

/-- Every line that the run reports, whether it fails or not, satisfies `P`. -/
def Adds (P : Nat → Prop) (m : Run σ α) : Prop :=
  ∀ c out c', m c = (out, c') → ∀ n ∈ c'.doOnce.toList, n ∈ c.doOnce.toList ∨ P n

variable {Q : Nat → Prop}

theorem Adds.pure (a : α) : Adds Q (pure a : Run σ α) := by
  intro c out c' h n hn
  cases h
  exact .inl hn

theorem Adds.throw (fault : RuntimeFault) : Adds Q (throw fault : Run σ α) := by
  intro c out c' h n hn
  cases h
  exact .inl hn

/-- What is done with a value adds to what was done to get it. -/
theorem Adds.bind_of {P : α → Prop} {m : Run σ α} {k : α → Run σ β} (hm : Adds Q m)
    (he : Ensures P m) (hk : ∀ a, P a → Adds Q (k a)) : Adds Q (m >>= k) := by
  intro c out c' h n hn
  rw [bind_apply] at h
  rcases hr : m c with ⟨fault | a, c₁⟩ <;> rw [hr] at h
  · cases h
    exact hm c _ _ hr n hn
  · rcases hk a (he c a c₁ hr) c₁ out c' h n hn with hn | hn
    · exact hm c _ c₁ hr n hn
    · exact .inr hn

theorem Adds.bind {m : Run σ α} {k : α → Run σ β} (hm : Adds Q m) (hk : ∀ a, Adds Q (k a)) :
    Adds Q (m >>= k) := hm.bind_of (.trivial m) fun a _ => hk a

theorem Adds.liftM (x : Except RuntimeFault α) : Adds Q (liftM x : Run σ α) := by
  cases x with
  | ok a => exact .pure a
  | error fault => exact .throw fault

theorem Adds.get : Adds Q (get : Run σ (Context σ)) := by
  intro c out c' h n hn
  cases h
  exact .inl hn

theorem Adds.modify (f : Context σ → Context σ)
    (h : ∀ c, ∀ n ∈ (f c).doOnce.toList, n ∈ c.doOnce.toList ∨ Q n) :
    Adds Q (modify f : Run σ PUnit) := by
  intro c out c' hf n hn
  cases hf
  exact h c n hn

theorem Adds.mono {R : Nat → Prop} {m : Run σ α} (h : Adds Q m) (hr : ∀ n, Q n → R n) : Adds R m :=
  fun c out c' hm n hn => (h c out c' hm n hn).imp_right (hr n)

end LiveSketch.Script.Run

namespace LiveSketch

/-- Whether this is a fault of the stack machine. -/
def RuntimeFault.isMachine : RuntimeFault → Bool
  | stackUnderflow | stackUnderflowInCall | stackHeight _ | constantRange | slotRange => true
  | _ => false

/-! ## Values -/

theorem Value.toNumber_fault {v : Value Float} {fault : RuntimeFault} (h : v.toNumber = .error fault) :
    fault.isMachine = false := by
  cases v <;> cases h <;> rfl

theorem Value.toNumbers_fault : ∀ {vs : List (Value Float)} {fault : RuntimeFault},
    Value.toNumbers vs = .error fault → fault.isMachine = false
  | [], _, h => by cases h
  | v :: vs, _, h => by
    rw [Value.toNumbers, List.mapM_cons, bind_eq_error] at h
    rcases h with h | ⟨x, -, h⟩
    · exact Value.toNumber_fault h
    rcases bind_eq_error.1 h with h | ⟨xs, -, h⟩
    · exact Value.toNumbers_fault h
    · cases h

theorem Colour.ofValues_fault {vs : List (Value Float)} {fault : RuntimeFault}
    (h : Colour.ofValues vs = .error fault) : fault.isMachine = false := by
  unfold Colour.ofValues at h
  split at h
  · cases h
  · rcases bind_eq_error.1 h with h | ⟨x, -, h⟩
    · exact Value.toNumber_fault h
    · cases h
  · rcases bind_eq_error.1 h with h | ⟨xs, -, h⟩
    · exact Value.toNumbers_fault h
    · split at h <;> cases h
      rfl

namespace Script

theorem BinaryOp.onNumbers_fault {β : Type} {f : Float → Float → β} {a b : Value Float}
    {fault : RuntimeFault} (h : onNumbers f a b = .error fault) : fault.isMachine = false := by
  rcases bind_eq_error.1 h with h | ⟨y, -, h⟩
  · exact Value.toNumber_fault h
  rcases bind_eq_error.1 h with h | ⟨x, -, h⟩
  · exact Value.toNumber_fault h
  · cases h

theorem BinaryOp.addValues_fault {a b : Value Float} {fault : RuntimeFault}
    (h : addValues a b = .error fault) : fault.isMachine = false := by
  unfold addValues at h
  split at h
  · cases h
  · cases h
  · rcases bind_eq_error.1 h with h | ⟨x, -, h⟩
    · exact Value.toNumber_fault h
    rcases bind_eq_error.1 h with h | ⟨y, -, h⟩
    · exact Value.toNumber_fault h
    · cases h

theorem BinaryOp.apply_fault {op : BinaryOp} {a b : Value Float} {fault : RuntimeFault}
    (h : op.apply a b = .error fault) : fault.isMachine = false := by
  have hmap : ∀ {β : Type} {f : Float → Float → β} {g : β → Value Float},
      (onNumbers f a b).map g = .error fault → fault.isMachine = false := by
    intro β f g h
    cases hx : onNumbers f a b with
    | ok x => simp [hx, Except.map] at h
    | error e =>
      simp only [hx, Except.map, Except.error.injEq] at h
      exact h ▸ onNumbers_fault hx
  cases op with
  | add => exact addValues_fault h
  | eq | ne | and | or => cases h
  | sub | mul | div | mod | lt | le | gt | ge => exact hmap h

theorem UnaryOp.apply_fault {op : UnaryOp} {v : Value Float} {fault : RuntimeFault}
    (h : op.apply v = .error fault) : fault.isMachine = false := by
  cases op with
  | not => cases h
  | neg =>
    cases hx : v.toNumber with
    | ok x => simp [UnaryOp.apply, hx, Except.map] at h
    | error e =>
      simp only [UnaryOp.apply, hx, Except.map, Except.error.injEq] at h
      exact h ▸ Value.toNumber_fault hx

theorem Builtin.call_fault {f : Builtin} {args : List (Value Float)} {c : Chance}
    {fault : RuntimeFault} (h : f.call args c = .error fault) : fault.isMachine = false := by
  unfold Builtin.call at h
  split at h
  · rcases bind_eq_error.1 h with h | ⟨x, -, h⟩
    · exact Colour.ofValues_fault h
    · cases h
  · rcases bind_eq_error.1 h with h | ⟨xs, -, h⟩
    · exact Value.toNumbers_fault h
    · split at h <;> cases h
      rfl

/-! ## Evaluation -/

section

variable {σ : Type} (device : Device σ)

/-- A fault of the machine comes from the device. -/
def Blamed (fault : RuntimeFault) : Prop :=
  fault.isMachine = true → ∃ call g, (device call g).1 = .error fault

variable {device}

theorem Blamed.of_false {fault : RuntimeFault} (h : fault.isMachine = false) : Blamed device fault :=
  fun k => by simp [h] at k

theorem Blamed.liftM {α : Type} {x : Except RuntimeFault α}
    (h : ∀ fault, x = .error fault → fault.isMachine = false) :
    (liftM x : Run σ α).Faults (Blamed device) :=
  .liftM fun fault hf => .of_false (h fault hf)

namespace Machine

theorem callBuiltin_faults (f : Builtin) (args : List (Value Float)) :
    (callBuiltin f args : Run σ (Value Float)).Faults (Blamed device) :=
  Run.Faults.get.bind fun _ => (Blamed.liftM fun _ h => Builtin.call_fault h).bind fun _ =>
    (Run.Faults.modify _).bind fun _ => .pure _

theorem callCommand_apply (command : Command) (args : List (Value Float)) (c : Context σ) :
    callCommand device command args c =
      ((device ⟨command, args, c.globals.time⟩ c.graphics).1.map fun _ => .number 0,
        { c with graphics := (device ⟨command, args, c.globals.time⟩ c.graphics).2 }) := by
  rcases hd : device ⟨command, args, c.globals.time⟩ c.graphics with ⟨fault | _, g⟩
  all_goals
    have hget : (get : Run σ (Context σ)) c = (.ok c, c) := rfl
    simp only [callCommand, Run.bind_apply, hget, hd]
    rfl

theorem callCommand_faults (command : Command) (args : List (Value Float)) :
    (callCommand device command args).Faults (Blamed device) := by
  intro c fault c' h _
  rw [callCommand_apply] at h
  rcases hd : device ⟨command, args, c.globals.time⟩ c.graphics with ⟨f | _, g⟩ <;> rw [hd] at h
  · cases h
    exact ⟨_, _, congrArg Prod.fst hd⟩
  · cases h

theorem markDoOnce_faults (args : List (Value Float)) :
    (markDoOnce args : Run σ (Value Float)).Faults (Blamed device) := by
  cases args with
  | nil => exact .throw (.of_false rfl)
  | cons v vs =>
    exact (Blamed.liftM fun _ h => Value.toNumber_fault h).bind fun _ =>
      (Run.Faults.modify _).bind fun _ => .pure _

end Machine

namespace Evaluation

variable {assigned : List String}

theorem call_faults (function : String) (args : List (Value Float)) :
    (call device assigned function args).Faults (Blamed device) := by
  have hu : (throw (.notFunction function) : Run σ (Value Float)).Faults (Blamed device) :=
    .throw (.of_false rfl)
  unfold call
  split
  · exact hu
  split
  · exact Machine.callBuiltin_faults _ args
  · exact Machine.callCommand_faults _ args
  · split
    · exact Machine.markDoOnce_faults args
    · exact hu

theorem name_faults (env : Env) (n : String) :
    (name device assigned env n).Faults (Blamed device) := by
  unfold name
  split
  · refine Blamed.liftM fun fault h => ?_
    unfold Env.read at h
    split at h <;> cases h
    rfl
  split
  · exact Run.Faults.get.bind fun _ => .pure _
  split
  · exact Run.Faults.get.bind fun _ => .pure _
  unfold word
  split
  · exact .pure _
  split
  · exact .pure _
  split
  · exact .pure _
  split
  · exact call_faults n []
  · exact .throw (.of_false rfl)

mutual

theorem expr_faults (env : Env) : ∀ e : Expr, (expr device assigned env e).Faults (Blamed device)
  | .literal _ => .pure _
  | .ident n _ => name_faults env n
  | .unary _ arg =>
    (expr_faults env arg).bind fun _ => Blamed.liftM fun _ h => UnaryOp.apply_fault h
  | .binary _ left right =>
    (expr_faults env left).bind fun _ => (expr_faults env right).bind fun _ =>
      Blamed.liftM fun _ h => BinaryOp.apply_fault h
  | .call function args _ => (exprs_faults env args).bind fun vs => call_faults function vs

theorem exprs_faults (env : Env) :
    ∀ es : List Expr, (exprs device assigned env es).Faults (Blamed device)
  | [] => .pure _
  | e :: es => (expr_faults env e).bind fun _ => (exprs_faults env es).bind fun _ => .pure _

end

theorem combine_faults {op : AssignOp} {old value : Run σ (Value Float)}
    (ho : old.Faults (Blamed device)) (hv : value.Faults (Blamed device)) :
    (combine op old value).Faults (Blamed device) := by
  unfold combine
  split
  · exact hv
  · exact ho.bind fun _ => hv.bind fun _ => Blamed.liftM fun _ h => BinaryOp.apply_fault h

theorem times_faults {body : Env → Run σ Env} (h : ∀ env, (body env).Faults (Blamed device)) :
    ∀ (n : Nat) (env : Env), (times body n env).Faults (Blamed device)
  | 0, _ => .pure _
  | n + 1, env => (h env).bind fun env' => times_faults h n env'

mutual

theorem stmt_faults : ∀ (s : Stmt) (env : Env), (stmt device assigned s env).Faults (Blamed device)
  | .expr e, env => by
    rw [stmt]
    rw [Run.discard_eq]
    exact ((expr_faults env e).bind fun _ => .pure _).bind fun _ => .pure _
  | .assign target op value _, env => by
    rw [stmt]
    refine (combine_faults (name_faults env target) (expr_faults env value)).bind fun _ => ?_
    split
    · exact (Blamed.liftM fun _ h => Value.toNumber_fault h).bind fun _ =>
        (Run.Faults.modify _).bind fun _ => .pure _
    · exact .pure _
  | .loop count body, env => by
    rw [stmt]
    exact (expr_faults env count).bind fun _ => (Blamed.liftM fun _ h => Value.toNumber_fault h).bind
      fun _ => times_faults (block_faults body) _ env
  | .branch condition thenBody elseBody, env => by
    rw [stmt]
    refine (expr_faults env condition).bind fun _ => ?_
    split
    · exact block_faults thenBody env
    · exact otherwise_faults elseBody env

theorem block_faults :
    ∀ (stmts : List Stmt) (env : Env), (block device assigned stmts env).Faults (Blamed device)
  | [], _ => .pure _
  | s :: rest, env => by
    rw [block]
    exact (stmt_faults s env).bind fun env' => block_faults rest env'

theorem otherwise_faults : ∀ (stmts : Option (List Stmt)) (env : Env),
    (otherwise device assigned stmts env).Faults (Blamed device)
  | none, _ => .pure _
  | some body, env => by
    rw [otherwise]
    exact block_faults body env

end

end Evaluation

end

end Script

end LiveSketch

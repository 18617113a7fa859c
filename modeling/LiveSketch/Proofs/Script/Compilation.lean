import LiveSketch.Proofs.Outcome
import LiveSketch.Proofs.Script.Faults

/-!
# Compiled scripts run like their trees

`run_lower`: a script that can be compiled runs, in every context and on every device, exactly as
`evaluate` runs its tree. Outcome and context after the run are equal, so the commands with their
arguments, the reported lines, the assigned frame and everything random are too, also after a failure.
The faults of the stack machine itself never occur.

`Pushes` is the meaning of a piece of code: it leaves the stack as it is and puts the value of some run on
top. One lemma for each form of code (`Pushes.unary`, `Pushes.binary`, ...) builds up the code of an
expression. The slots of a compiled script are the variables in the order of their names
(`Env.locals`).
-/
namespace LiveSketch.Script

/-! ## Numbers of variables -/

namespace Lowering

/-- `slots'` are the variables `slots` with new ones behind them, none of them twice. -/
structure Extends (slots slots' : List String) : Prop where
  isPrefix : slots <+: slots'
  nodup : slots.Nodup → slots'.Nodup

theorem Extends.refl (slots : List String) : Extends slots slots := ⟨List.prefix_rfl, id⟩

theorem Extends.trans {a b c : List String} (h : Extends a b) (k : Extends b c) : Extends a c :=
  ⟨h.isPrefix.trans k.isPrefix, k.nodup ∘ h.nodup⟩

theorem slotOf_extends (name : String) (slots : List String) :
    Extends slots (slotOf name slots).2 := by
  unfold slotOf
  split
  · exact .refl slots
  · rename_i h
    refine ⟨List.prefix_append _ _, fun hn => ?_⟩
    rw [List.idxOf?_eq_none_iff] at h
    simpa [List.nodup_append] using ⟨hn, fun a ha e => h (e ▸ ha)⟩

theorem slotOf_get (name : String) (slots : List String) :
    (slotOf name slots).2[(slotOf name slots).1]? = some name := by
  unfold slotOf
  split
  · rename_i i h
    obtain ⟨hi, hx, -⟩ := List.idxOf?_eq_some_iff.1 h
    simp [hi, hx]
  · simp

/-- A name that is read from its slot. -/
def slotRead (name : String) (slots : List String) : Code × List String :=
  (⟨[.slot (slotOf name slots).1], []⟩, (slotOf name slots).2)

theorem identOf_eq (assigned : List String) (base : Nat) (slots : List String) (name : String) :
    identOf assigned base slots name =
      if assigned.contains name then slotRead name slots
      else if name == "time" then (⟨[.time], []⟩, slots)
      else if name == "frame" then (⟨[.frame], []⟩, slots)
      else match namedValue? name with
        | some v => (pushConst base v, slots)
        | none =>
          if isCallable name then (callOf assigned base name 0, slots) else slotRead name slots := rfl

theorem identOf_extends (assigned : List String) (base : Nat) (slots : List String) (name : String) :
    Extends slots (identOf assigned base slots name).2 := by
  have hs : Extends slots (slotRead name slots).2 := slotOf_extends name slots
  have hr := Extends.refl slots
  rw [identOf_eq]
  repeat' split
  all_goals assumption

mutual

theorem exprCode_extends {assigned : List String} {base : Nat} {slots slots' : List String}
    {code : Code} : ∀ {e : Expr}, exprCode assigned base slots e = .ok (code, slots') →
      Extends slots slots'
  | .literal v, h => by
    simp only [exprCode, Except.ok.injEq, Prod.mk.injEq] at h
    exact h.2 ▸ .refl slots
  | .ident name _, h => by
    simp only [exprCode, Except.ok.injEq] at h
    simpa [h] using identOf_extends assigned base slots name
  | .unary _ _, h => by
    simp only [exprCode, bind_eq_ok, pure_eq_ok, Prod.exists, Prod.mk.injEq] at h
    obtain ⟨_, _, h, -, rfl⟩ := h
    exact exprCode_extends h
  | .binary _ _ _, h => by
    simp only [exprCode, bind_eq_ok, pure_eq_ok, Prod.exists, Prod.mk.injEq] at h
    obtain ⟨_, _, h, _, _, k, -, rfl⟩ := h
    exact (exprCode_extends h).trans (exprCode_extends k)
  | .call _ args _, h => by
    simp only [exprCode, bind_eq_ok, Prod.exists] at h
    obtain ⟨_, _, h, k⟩ := h
    split at k
    · cases k
    · cases k
      exact argsCode_extends h

theorem argsCode_extends {assigned : List String} {base : Nat} {slots slots' : List String}
    {code : Code} : ∀ {es : List Expr}, argsCode assigned base slots es = .ok (code, slots') →
      Extends slots slots'
  | [], h => by
    simp only [argsCode, Except.ok.injEq, Prod.mk.injEq] at h
    exact h.2 ▸ .refl slots
  | _ :: _, h => by
    simp only [argsCode, bind_eq_ok, pure_eq_ok, Prod.exists, Prod.mk.injEq] at h
    obtain ⟨_, _, h, _, _, k, -, rfl⟩ := h
    exact (exprCode_extends h).trans (argsCode_extends k)

end

theorem assignCode_extends {assigned slots slots' : List String} {op : AssignOp} {old : Op}
    {value : Expr} {code : Code} (h : assignCode assigned slots op old value = .ok (code, slots')) :
    Extends slots slots' := by
  simp only [assignCode, bind_eq_ok, Prod.exists] at h
  obtain ⟨_, _, h, k⟩ := h
  split at k
  all_goals
    cases k
    exact exprCode_extends h

mutual

theorem stmtCode_extends {assigned slots slots' : List String} {instr : Instr} :
    ∀ {s : Stmt}, stmtCode assigned slots s = .ok (instr, slots') → Extends slots slots'
  | .expr _, h => by
    simp only [stmtCode, bind_eq_ok, pure_eq_ok, Prod.exists, Prod.mk.injEq] at h
    obtain ⟨_, _, h, -, rfl⟩ := h
    exact exprCode_extends h
  | .assign target _ _ _, h => by
    simp only [stmtCode] at h
    split at h
    · cases h
    · split at h
      · simp only [bind_eq_ok, pure_eq_ok, Prod.exists, Prod.mk.injEq] at h
        obtain ⟨_, _, h, -, rfl⟩ := h
        exact assignCode_extends h
      · simp only [bind_eq_ok, pure_eq_ok, Prod.exists, Prod.mk.injEq] at h
        obtain ⟨_, _, h, -, rfl⟩ := h
        exact (slotOf_extends target slots).trans (assignCode_extends h)
  | .loop _ _, h => by
    simp only [stmtCode, bind_eq_ok, pure_eq_ok, Prod.exists, Prod.mk.injEq] at h
    obtain ⟨_, _, h, _, _, k, -, rfl⟩ := h
    exact (exprCode_extends h).trans (blockCode_extends k)
  | .branch _ _ _, h => by
    simp only [stmtCode, bind_eq_ok, pure_eq_ok, Prod.exists, Prod.mk.injEq] at h
    obtain ⟨_, _, h, _, _, k, _, _, l, -, rfl⟩ := h
    exact ((exprCode_extends h).trans (blockCode_extends k)).trans (elseCode_extends l)

theorem blockCode_extends {assigned slots slots' : List String} {instrs : List Instr} :
    ∀ {stmts : List Stmt}, blockCode assigned slots stmts = .ok (instrs, slots') →
      Extends slots slots'
  | [], h => by
    simp only [blockCode, Except.ok.injEq, Prod.mk.injEq] at h
    exact h.2 ▸ .refl slots
  | _ :: _, h => by
    simp only [blockCode, bind_eq_ok, pure_eq_ok, Prod.exists, Prod.mk.injEq] at h
    obtain ⟨_, _, h, _, _, k, -, rfl⟩ := h
    exact (stmtCode_extends h).trans (blockCode_extends k)

theorem elseCode_extends {assigned slots slots' : List String} {instrs : List Instr} :
    ∀ {stmts : Option (List Stmt)}, elseCode assigned slots stmts = .ok (instrs, slots') →
      Extends slots slots'
  | none, h => by
    simp only [elseCode, Except.ok.injEq, Prod.mk.injEq] at h
    exact h.2 ▸ .refl slots
  | some _, h => by
    simp only [elseCode] at h
    exact blockCode_extends h

end

theorem Extends.subset {slots slots' names : List String} (h : Extends slots slots') (hn : names ⊆ slots) :
    names ⊆ slots' := fun _ hm => h.isPrefix.subset (hn hm)

mutual

/-- Every name that is assigned has a slot. -/
theorem assignedIn_subset {assigned slots slots' : List String} {instr : Instr} :
    ∀ {s : Stmt}, stmtCode assigned slots s = .ok (instr, slots') → assignedIn s ⊆ slots'
  | .expr _, _ => List.nil_subset _
  | .assign target _ _ _, h => by
    simp only [stmtCode] at h
    rw [assignedIn]
    split at h
    · cases h
    · split at h
      · rename_i hframe
        rw [if_pos hframe]
        exact List.nil_subset _
      · rename_i hframe
        rw [if_neg hframe]
        simp only [bind_eq_ok, pure_eq_ok, Prod.exists, Prod.mk.injEq] at h
        obtain ⟨_, _, h, -, rfl⟩ := h
        refine (assignCode_extends h).subset fun name hm => ?_
        rw [List.mem_singleton.1 hm]
        exact List.mem_of_getElem? (slotOf_get target slots)
  | .loop _ _, h => by
    simp only [stmtCode, bind_eq_ok, pure_eq_ok, Prod.exists, Prod.mk.injEq] at h
    obtain ⟨_, _, -, _, _, h, -, rfl⟩ := h
    exact assignedInBlock_subset h
  | .branch _ _ _, h => by
    simp only [stmtCode, bind_eq_ok, pure_eq_ok, Prod.exists, Prod.mk.injEq] at h
    obtain ⟨_, _, -, _, _, h, _, _, k, -, rfl⟩ := h
    exact List.append_subset.2 ⟨(elseCode_extends k).subset (assignedInBlock_subset h), assignedInElse_subset k⟩

theorem assignedInBlock_subset {assigned slots slots' : List String} {instrs : List Instr} :
    ∀ {stmts : List Stmt}, blockCode assigned slots stmts = .ok (instrs, slots') →
      assignedInBlock stmts ⊆ slots'
  | [], _ => List.nil_subset _
  | _ :: _, h => by
    simp only [blockCode, bind_eq_ok, pure_eq_ok, Prod.exists, Prod.mk.injEq] at h
    obtain ⟨_, _, h, _, _, k, -, rfl⟩ := h
    exact List.append_subset.2 ⟨(blockCode_extends k).subset (assignedIn_subset h), assignedInBlock_subset k⟩

theorem assignedInElse_subset {assigned slots slots' : List String} {instrs : List Instr} :
    ∀ {stmts : Option (List Stmt)}, elseCode assigned slots stmts = .ok (instrs, slots') →
      assignedInElse stmts ⊆ slots'
  | none, _ => List.nil_subset _
  | some _, h => by
    simp only [elseCode] at h
    exact assignedInBlock_subset h

end

end Lowering

/-! ## Pieces of code -/

/-- The values of the variables in the order of their names. -/
def Env.locals (env : Env) (names : List String) : Locals := names.map env

theorem Env.locals_get {names : List String} {i : Nat} {name : String} (env : Env)
    (h : names[i]? = some name) : (env.locals names)[i]? = some (env name) := by
  simp [Env.locals, h]

theorem Env.locals_set {names : List String} {i : Nat} {name : String} (env : Env) (v : Value Float)
    (hn : names.Nodup) (h : names[i]? = some name) :
    (env.locals names).set i (some v) = (env.set name v).locals names := by
  obtain ⟨hi, hx⟩ := List.getElem?_eq_some_iff.1 h
  refine List.ext_getElem (by simp [Env.locals]) fun j hj _ => ?_
  have hj' : j < names.length := by simpa [Env.locals] using hj
  by_cases e : i = j
  · subst e
    simp [Env.locals, Env.set, hx]
  · have hne : names[j] ≠ name := by
      rw [← hx]
      exact fun k => e ((List.getElem_inj hn).1 k.symm)
    simp [Env.locals, Env.set, e, hne]

/-- `cs` stand among the constants from number `base` on. -/
def ConstsAt (base : Nat) (cs consts : List (Value Float)) : Prop :=
  ∃ front back, consts = front ++ (cs ++ back) ∧ front.length = base

theorem ConstsAt.all (consts : List (Value Float)) : ConstsAt 0 consts consts :=
  ⟨[], [], by simp, rfl⟩

theorem ConstsAt.left {base : Nat} {as bs consts : List (Value Float)}
    (h : ConstsAt base (as ++ bs) consts) : ConstsAt base as consts := by
  obtain ⟨front, back, rfl, hf⟩ := h
  exact ⟨front, bs ++ back, by simp, hf⟩

theorem ConstsAt.right {base : Nat} {as bs consts : List (Value Float)}
    (h : ConstsAt base (as ++ bs) consts) : ConstsAt (base + as.length) bs consts := by
  obtain ⟨front, back, rfl, hf⟩ := h
  exact ⟨front ++ as, back, by simp, by simp [hf]⟩

theorem ConstsAt.get {base : Nat} {v : Value Float} {consts : List (Value Float)}
    (h : ConstsAt base [v] consts) : consts[base]? = some v := by
  obtain ⟨front, back, rfl, rfl⟩ := h
  simp

namespace Machine

section

variable {σ : Type} (device : Device σ) (names : List String) (consts : List (Value Float))
  (locals : Locals)

/-- The operations leave the stack as it is and put the value of `m` on top. -/
def Pushes (ops : List Op) (m : Run σ (Value Float)) : Prop :=
  ∀ rest stack, steps device names consts locals (ops ++ rest) stack =
    m >>= fun v => steps device names consts locals rest (v :: stack)

/-- The operations put the values of `m` on the stack, the last one on top. -/
def PushesAll (ops : List Op) (m : Run σ (List (Value Float))) : Prop :=
  ∀ rest stack, steps device names consts locals (ops ++ rest) stack =
    m >>= fun vs => steps device names consts locals rest (vs.reverse ++ stack)

variable {device names consts locals}

theorem pushes_of_step {op : Op} {m : Run σ (Value Float)}
    (h : ∀ stack, step device names consts locals op stack = m >>= fun v => pure (v :: stack)) :
    Pushes device names consts locals [op] m := by
  intro rest stack
  simp [steps, h]

theorem pushes_const {i : Nat} {v : Value Float} (h : consts[i]? = some v) :
    Pushes device names consts locals [.const i] (pure v) :=
  pushes_of_step fun stack => by simp [step, h]

theorem pushes_slot (i : Nat) :
    Pushes device names consts locals [.slot i] (liftM (readSlot names locals i)) :=
  pushes_of_step fun stack => by simp [step]

theorem pushes_time :
    Pushes device names consts locals [.time] (do return .number (← get).globals.time) :=
  pushes_of_step fun stack => by simp [step]

theorem pushes_frame :
    Pushes device names consts locals [.frame]
      (do return .number (Float.ofNat (← get).globals.current)) :=
  pushes_of_step fun stack => by simp [step]

theorem Pushes.unary {ops : List Op} {m : Run σ (Value Float)} (op : UnaryOp)
    (h : Pushes device names consts locals ops m) :
    Pushes device names consts locals (ops ++ [.unary op]) (m >>= fun v => liftM (op.apply v)) := by
  intro rest stack
  rw [List.append_assoc, h]
  simp [steps, step]

theorem Pushes.binary {as bs : List Op} {m n : Run σ (Value Float)} (op : BinaryOp)
    (ha : Pushes device names consts locals as m) (hb : Pushes device names consts locals bs n) :
    Pushes device names consts locals (as ++ bs ++ [.binary op])
      (m >>= fun a => n >>= fun b => liftM (op.apply a b)) := by
  intro rest stack
  rw [List.append_assoc, List.append_assoc, ha]
  simp only [hb _ _, bind_assoc]
  simp [steps, step]

theorem pushesAll_nil : PushesAll device names consts locals [] (pure []) := by
  intro rest stack
  simp

theorem PushesAll.cons {as bs : List Op} {m : Run σ (Value Float)} {ms : Run σ (List (Value Float))}
    (ha : Pushes device names consts locals as m) (hb : PushesAll device names consts locals bs ms) :
    PushesAll device names consts locals (as ++ bs)
      (m >>= fun v => ms >>= fun vs => pure (v :: vs)) := by
  intro rest stack
  rw [List.append_assoc, ha]
  simp [hb _ _]

theorem popArgs_reverse {n : Nat} {vs : List (Value Float)} (stack : List (Value Float))
    (h : vs.length = n) : popArgs n (vs.reverse ++ stack) = .ok (vs, stack) := by
  subst h
  simp [popArgs]

/-- An operation that calls something with the topmost `n` values. -/
theorem PushesAll.call {ops : List Op} {ms : Run σ (List (Value Float))} {n : Nat} {op : Op}
    {k : List (Value Float) → Run σ (Value Float)} (h : PushesAll device names consts locals ops ms)
    (hn : ms.Ensures (·.length = n))
    (hop : ∀ vs stack, vs.length = n →
      step device names consts locals op (vs.reverse ++ stack) = k vs >>= fun v => pure (v :: stack)) :
    Pushes device names consts locals (ops ++ [op]) (ms >>= k) := by
  intro rest stack
  rw [List.append_assoc, h, bind_assoc]
  refine hn.bind_congr fun vs hv => ?_
  simp [steps, hop vs stack hv]

theorem eval_of_pushes {code : Code} {m : Run σ (Value Float)}
    (h : Pushes device names code.consts locals code.ops m) : eval device names locals code = m := by
  have h := h [] []
  rw [List.append_nil] at h
  simp [eval, h, steps]

end

end Machine

/-! ## Expressions -/

namespace Lowering

open Evaluation Machine Run

theorem namedValue?_eq (name : String) :
    namedValue? name = match constants.lookup name with
      | some x => some (.number x)
      | none =>
        match Palette.find? name with
        | some c => some (.colour c)
        | none => if name ∈ AnimationStyle.names then some (.string name) else none := by
  unfold namedValue?
  cases constants.lookup name <;> cases Palette.find? name <;> simp

section

variable {σ : Type} {device : Device σ} {assigned names : List String} {consts : List (Value Float)}

/-- Only variables that some statement assigns have a value. -/
def Within (assigned : List String) (env : Env) : Prop := ∀ name, name ∉ assigned → env name = none

/-- The one operation of a call acts on the topmost values like the call of the word. -/
theorem callOf_step (device : Device σ) (names : List String) {base n : Nat} {function : String}
    (locals : Locals) (hc : ConstsAt base (callOf assigned base function n).consts consts) :
    ∃ op, (callOf assigned base function n).ops = [op] ∧
      ∀ vs stack, vs.length = n → step device names consts locals op (vs.reverse ++ stack) =
        call device assigned function vs >>= fun v => pure (v :: stack) := by
  have hunknown : ConstsAt base [.string function] consts → ∀ vs stack : List (Value Float),
      step device names consts locals (.unknown base n) (vs.reverse ++ stack) =
        throw (.notFunction function) := fun h vs stack => by
    simp [step, unknownFunction, h.get, Value.display]
  simp only [callOf] at hc ⊢
  split at hc
  · rename_i ha
    rw [if_pos ha]
    refine ⟨_, rfl, fun vs stack _ => ?_⟩
    simp [hunknown hc, call, List.contains_iff_mem.1 ha]
  · rename_i ha
    have ha' : function ∉ assigned := fun h => ha (List.contains_iff_mem.2 h)
    rw [if_neg ha]
    simp only [call, ha', if_false]
    cases hb : Builtin.ofName? function with
    | some f =>
      refine ⟨_, rfl, fun vs stack hv => ?_⟩
      simp [step, popArgs_reverse stack hv]
    | none =>
      cases hk : Command.ofName? function with
      | some c =>
        refine ⟨_, rfl, fun vs stack hv => ?_⟩
        simp [step, popArgs_reverse stack hv]
      | none =>
        simp only [hb, hk] at hc ⊢
        by_cases hm : function = doOnceMarker
        · simp only [hm, beq_self_eq_true, if_true]
          refine ⟨_, rfl, fun vs stack hv => ?_⟩
          simp [step, popArgs_reverse stack hv]
        · simp only [beq_iff_eq, hm, if_false] at hc ⊢
          refine ⟨_, rfl, fun vs stack _ => ?_⟩
          simp [hunknown hc]

theorem exprs_length (env : Env) (es : List Expr) :
    (exprs device assigned env es).Ensures (·.length = es.length) := by
  induction es with
  | nil => exact .pure rfl
  | cons e es ih =>
    rw [exprs]
    refine (Ensures.trivial _).bind fun v _ => ih.bind fun vs hv => .pure ?_
    simp [hv]

/-- A name that is read from its slot has the value of the variable. -/
theorem slotRead_pushes {env : Env} {slots : List String} {name : String}
    (hs : (slotRead name slots).2 <+: names) :
    Pushes device names consts (env.locals names) (slotRead name slots).1.ops
      (liftM (env.read name)) := by
  have hi : names[(slotOf name slots).1]? = some name := by
    obtain ⟨back, rfl⟩ := hs
    have hg := slotOf_get name slots
    exact List.getElem?_append_left (List.getElem?_eq_some_iff.1 hg).1 ▸ hg
  have hread : readSlot names (env.locals names) (slotOf name slots).1 = env.read name := by
    simp only [readSlot, env.locals_get hi, Env.read]
    cases env name <;> simp [List.getD_eq_getElem?_getD, hi]
  exact hread ▸ pushes_slot (slotOf name slots).1

theorem identOf_pushes {env : Env} {base : Nat} {slots : List String} {name : String}
    (henv : Within assigned env) (hs : (identOf assigned base slots name).2 <+: names)
    (hc : ConstsAt base (identOf assigned base slots name).1.consts consts) :
    Pushes device names consts (env.locals names) (identOf assigned base slots name).1.ops
      (Evaluation.name device assigned env name) := by
  rw [identOf_eq] at hs hc ⊢
  unfold Evaluation.name
  by_cases ha : name ∈ assigned
  · simp only [List.contains_iff_mem.2 ha, ha, if_true] at hs ⊢
    exact slotRead_pushes hs
  simp only [List.contains_iff_mem, ha, if_false, beq_iff_eq] at hs hc ⊢
  by_cases ht : name = "time"
  · simp only [ht, if_true]
    exact pushes_time
  by_cases hf : name = "frame"
  · simp only [hf, if_true]
    exact pushes_frame
  simp only [ht, hf, if_false] at hs hc ⊢
  rw [namedValue?_eq] at hs hc ⊢
  unfold word
  cases hx : constants.lookup name with
  | some x =>
    simp only [hx] at hc
    exact pushes_const hc.get
  | none =>
    simp only [hx] at hs hc ⊢
    cases hp : Palette.find? name with
    | some c =>
      simp only [hp] at hc
      exact pushes_const hc.get
    | none =>
      simp only [hp] at hs hc ⊢
      by_cases hn : name ∈ AnimationStyle.names
      · simp only [hn, if_true] at hc ⊢
        exact pushes_const hc.get
      simp only [hn, if_false] at hs hc ⊢
      by_cases hk : isCallable name
      · simp only [hk, if_true] at hc ⊢
        obtain ⟨op, ho, hstep⟩ := callOf_step device names (env.locals names) hc
        rw [ho]
        exact pushes_of_step fun stack => hstep [] stack rfl
      · simp only [hk] at hs ⊢
        have hr : env.read name = .error (.notDefined name) := by simp [Env.read, henv name ha]
        have hp : Pushes device names consts (env.locals names) _ _ := slotRead_pushes hs
        simpa [hr] using hp

mutual

/-- The code of an expression pushes its value. -/
theorem exprCode_pushes {env : Env} (henv : Within assigned env) {base : Nat}
    {slots slots' : List String} {code : Code} :
    ∀ {e : Expr}, exprCode assigned base slots e = .ok (code, slots') → slots' <+: names →
      ConstsAt base code.consts consts →
      Pushes device names consts (env.locals names) code.ops (expr device assigned env e)
  | .literal v, h, _, hc => by
    simp only [exprCode, Except.ok.injEq, Prod.mk.injEq] at h
    obtain ⟨rfl, -⟩ := h
    exact pushes_const hc.get
  | .ident name _, h, hs, hc => by
    simp only [exprCode, Except.ok.injEq] at h
    rw [expr]
    have hp : Pushes device names consts _ (identOf assigned base slots name).1.ops _ :=
      identOf_pushes henv (by rwa [h]) (by rwa [h])
    rwa [h] at hp
  | .unary op arg, h, hs, hc => by
    simp only [exprCode, bind_eq_ok, pure_eq_ok, Prod.exists, Prod.mk.injEq] at h
    obtain ⟨a, _, h, rfl, rfl⟩ := h
    exact (exprCode_pushes henv h hs hc.left).unary op
  | .binary op left right, h, hs, hc => by
    simp only [exprCode, bind_eq_ok, pure_eq_ok, Prod.exists, Prod.mk.injEq] at h
    obtain ⟨a, s, h, b, _, k, rfl, rfl⟩ := h
    have hl := exprCode_pushes henv h ((exprCode_extends k).isPrefix.trans hs) hc.left.left
    exact hl.binary op (exprCode_pushes henv k hs hc.left.right)
  | .call function args _, h, hs, hc => by
    simp only [exprCode, bind_eq_ok, Prod.exists] at h
    obtain ⟨a, s, h, k⟩ := h
    split at k
    · cases k
    · cases k
      obtain ⟨op, ho, hstep⟩ := callOf_step device names (env.locals names) hc.right
      change Pushes _ _ _ _ (a.ops ++ (callOf assigned _ function args.length).ops) _
      rw [ho, expr]
      exact (argsCode_pushes henv h hs hc.left).call (exprs_length env args) hstep

/-- The code of arguments pushes their values. -/
theorem argsCode_pushes {env : Env} (henv : Within assigned env) {base : Nat}
    {slots slots' : List String} {code : Code} :
    ∀ {es : List Expr}, argsCode assigned base slots es = .ok (code, slots') → slots' <+: names →
      ConstsAt base code.consts consts →
      PushesAll device names consts (env.locals names) code.ops (exprs device assigned env es)
  | [], h, _, _ => by
    simp only [argsCode, Except.ok.injEq, Prod.mk.injEq] at h
    obtain ⟨rfl, -⟩ := h
    exact pushesAll_nil
  | _ :: _, h, hs, hc => by
    simp only [argsCode, bind_eq_ok, pure_eq_ok, Prod.exists, Prod.mk.injEq] at h
    obtain ⟨a, s, h, b, _, k, rfl, rfl⟩ := h
    have he := exprCode_pushes henv h ((argsCode_extends k).isPrefix.trans hs) hc.left
    exact PushesAll.cons he (argsCode_pushes henv k hs hc.right)

end

/-! ## Statements -/

theorem Within.set {env : Env} {name : String} (h : Within assigned env) (hn : name ∈ assigned)
    (v : Value Float) : Within assigned (env.set name v) := by
  intro n hm
  have hne : n ≠ name := fun e => hm (e ▸ hn)
  simp [Env.set, hne, h n hm]

theorem times_within {body : Env → Run σ Env}
    (h : ∀ env, Within assigned env → (body env).Ensures (Within assigned)) :
    ∀ (n : Nat) {env : Env}, Within assigned env → (times body n env).Ensures (Within assigned)
  | 0, _, henv => .pure henv
  | n + 1, env, henv => (h env henv).bind fun _ h' => times_within h n h'

mutual

/-- A statement gives values to variables that it assigns and to no others. -/
theorem stmt_within : ∀ {s : Stmt} {env : Env}, (∀ n ∈ assignedIn s, n ∈ assigned) →
    Within assigned env → (stmt device assigned s env).Ensures (Within assigned)
  | .expr e, env, _, henv => by
    rw [stmt]
    exact (Ensures.trivial _).bind fun _ _ => .pure henv
  | .assign target op value _, env, ha, henv => by
    rw [stmt]
    refine (Ensures.trivial _).bind fun v _ => ?_
    split
    · exact (Ensures.trivial _).bind fun _ _ => (Ensures.trivial _).bind fun _ _ => .pure henv
    · rename_i hf
      exact .pure (henv.set (ha target (by simp [assignedIn, hf])) v)
  | .loop count body, env, ha, henv => by
    rw [stmt]
    rw [assignedIn] at ha
    exact (Ensures.trivial _).bind fun _ _ => (Ensures.trivial _).bind fun x _ =>
      times_within (fun _ => block_within ha) _ henv
  | .branch condition thenBody elseBody, env, ha, henv => by
    rw [stmt]
    simp only [assignedIn, List.mem_append] at ha
    refine (Ensures.trivial _).bind fun v _ => ?_
    split
    · exact block_within (fun n hn => ha n (.inl hn)) henv
    · exact otherwise_within (fun n hn => ha n (.inr hn)) henv

theorem block_within : ∀ {stmts : List Stmt} {env : Env},
    (∀ n ∈ assignedInBlock stmts, n ∈ assigned) → Within assigned env →
    (block device assigned stmts env).Ensures (Within assigned)
  | [], _, _, henv => .pure henv
  | s :: rest, env, ha, henv => by
    rw [block]
    simp only [assignedInBlock, List.mem_append] at ha
    exact (stmt_within (fun n hn => ha n (.inl hn)) henv).bind fun _ h' =>
      block_within (fun n hn => ha n (.inr hn)) h'

theorem otherwise_within : ∀ {stmts : Option (List Stmt)} {env : Env},
    (∀ n ∈ assignedInElse stmts, n ∈ assigned) → Within assigned env →
    (otherwise device assigned stmts env).Ensures (Within assigned)
  | none, _, _, henv => .pure henv
  | some _, env, ha, henv => by
    rw [otherwise]
    rw [assignedInElse] at ha
    exact block_within ha henv

end

/-- The code of an assignment computes the new value of its target. -/
theorem assignCode_eval {env : Env} (henv : Within assigned env) {op : AssignOp} {old : Op}
    {value : Expr} {slots slots' : List String} {code : Code} {o : Run σ (Value Float)}
    (h : assignCode assigned slots op old value = .ok (code, slots')) (hs : slots' <+: names)
    (ho : ∀ consts, Pushes device names consts (env.locals names) [old] o) :
    eval device names (env.locals names) code = combine op o (expr device assigned env value) := by
  simp only [assignCode, bind_eq_ok, Prod.exists] at h
  obtain ⟨a, s, h, k⟩ := h
  unfold combine
  cases hop : op.toBinary? with
  | none =>
    simp only [hop, pure_eq_ok, Prod.mk.injEq] at k
    obtain ⟨rfl, rfl⟩ := k
    exact eval_of_pushes (exprCode_pushes henv h hs (.all _))
  | some f =>
    simp only [hop, pure_eq_ok, Prod.mk.injEq] at k
    obtain ⟨rfl, rfl⟩ := k
    refine eval_of_pushes (Pushes.binary f (ho _) (exprCode_pushes henv h hs ?_))
    exact ⟨[], [], rfl, rfl⟩

theorem iterate_succ (code : Locals → Run σ Locals) (n : Nat) (locals : Locals) :
    iterate code (n + 1) locals = code locals >>= iterate code n := by
  funext c
  rw [bind_apply]
  simp only [iterate]
  rcases code locals c with ⟨_ | _, _⟩ <;> rfl

theorem iterate_eq {body : Env → Run σ Env} {code : Locals → Run σ Locals}
    (hw : ∀ env, Within assigned env → (body env).Ensures (Within assigned))
    (h : ∀ env, Within assigned env →
      code (env.locals names) = body env >>= fun env' => pure (env'.locals names)) :
    ∀ (n : Nat) {env : Env}, Within assigned env →
      iterate code n (env.locals names) = times body n env >>= fun env' => pure (env'.locals names)
  | 0, _, _ => rfl
  | n + 1, env, henv => by
    rw [iterate_succ, h env henv, times, bind_assoc, bind_assoc]
    refine (hw env henv).bind_congr fun env' henv' => ?_
    rw [pure_bind, iterate_eq hw h n henv']

mutual

/-- A compiled statement does on the slots what the statement does on the variables. -/
theorem exec_stmtCode (hf : "frame" ∉ assigned) (hn : names.Nodup) :
    ∀ {s : Stmt} {instr : Instr} {slots slots' : List String} {env : Env},
      (∀ n ∈ assignedIn s, n ∈ assigned) → Within assigned env →
      stmtCode assigned slots s = .ok (instr, slots') → slots' <+: names →
      exec device names instr (env.locals names) =
        stmt device assigned s env >>= fun env' => pure (env'.locals names)
  | .expr e, instr, slots, slots', env, _, henv, h, hs => by
    simp only [stmtCode, bind_eq_ok, pure_eq_ok, Prod.exists, Prod.mk.injEq] at h
    obtain ⟨code, s, h, rfl, rfl⟩ := h
    rw [exec, stmt, eval_of_pushes (exprCode_pushes henv h hs (.all _))]
    simp
  | .assign target op value _, instr, slots, slots', env, ha, henv, h, hs => by
    simp only [stmtCode] at h
    split at h
    · cases h
    rename_i ht
    by_cases hframe : target = "frame"
    · subst hframe
      simp only [beq_self_eq_true, if_true, bind_eq_ok, pure_eq_ok, Prod.exists, Prod.mk.injEq] at h
      obtain ⟨code, s, h, rfl, rfl⟩ := h
      have hold : Evaluation.name device assigned env "frame" =
          (do return .number (Float.ofNat (← get).globals.current)) := by
        simp [Evaluation.name, hf]
      rw [exec, stmt, hold, assignCode_eval henv h hs fun _ => pushes_frame]
      simp
    · have hmem : target ∈ assigned := ha target (by simp [assignedIn, hframe])
      simp only [beq_iff_eq, hframe, if_false, bind_eq_ok, pure_eq_ok, Prod.exists,
        Prod.mk.injEq] at h
      obtain ⟨code, s, h, rfl, rfl⟩ := h
      have hslot : (slotRead target slots).2 <+: names := (assignCode_extends h).isPrefix.trans hs
      have hold : Evaluation.name device assigned env target = liftM (env.read target) := by
        simp [Evaluation.name, hmem]
      have hi : names[(slotOf target slots).1]? = some target := by
        obtain ⟨back, rfl⟩ := hslot
        have hg := slotOf_get target slots
        exact List.getElem?_append_left (List.getElem?_eq_some_iff.1 hg).1 ▸ hg
      have hlt : (slotOf target slots).1 < (env.locals names).length := by
        simpa [Env.locals] using (List.getElem?_eq_some_iff.1 hi).1
      rw [exec, stmt, hold, assignCode_eval henv h hs fun _ => slotRead_pushes hslot, bind_assoc]
      refine bind_congr fun v => ?_
      simp [hlt, hframe, env.locals_set v hn hi]
  | .loop count body, instr, slots, slots', env, ha, henv, h, hs => by
    simp only [stmtCode, bind_eq_ok, pure_eq_ok, Prod.exists, Prod.mk.injEq] at h
    obtain ⟨code, s, h, instrs, _, k, rfl, rfl⟩ := h
    rw [assignedIn] at ha
    have hpre := (blockCode_extends k).isPrefix.trans hs
    rw [exec, stmt, eval_of_pushes (exprCode_pushes henv h hpre (.all _))]
    simp only [bind_assoc]
    refine bind_congr fun v => bind_congr fun x => ?_
    exact iterate_eq (fun _ => block_within ha)
      (fun _ henv' => exec_blockCode hf hn ha henv' k hs) _ henv
  | .branch condition thenBody elseBody, instr, slots, slots', env, ha, henv, h, hs => by
    simp only [stmtCode, bind_eq_ok, pure_eq_ok, Prod.exists, Prod.mk.injEq] at h
    obtain ⟨code, s, h, thens, t, k, elses, _, l, rfl, rfl⟩ := h
    simp only [assignedIn, List.mem_append] at ha
    have hthen := (elseCode_extends l).isPrefix.trans hs
    have hpre := (blockCode_extends k).isPrefix.trans hthen
    rw [exec, stmt, eval_of_pushes (exprCode_pushes henv h hpre (.all _)), bind_assoc]
    refine bind_congr fun v => ?_
    split
    · exact exec_blockCode hf hn (fun n m => ha n (.inl m)) henv k hthen
    · exact exec_elseCode hf hn (fun n m => ha n (.inr m)) henv l hs

theorem exec_blockCode (hf : "frame" ∉ assigned) (hn : names.Nodup) :
    ∀ {stmts : List Stmt} {instrs : List Instr} {slots slots' : List String} {env : Env},
      (∀ n ∈ assignedInBlock stmts, n ∈ assigned) → Within assigned env →
      blockCode assigned slots stmts = .ok (instrs, slots') → slots' <+: names →
      execBlock device names instrs (env.locals names) =
        block device assigned stmts env >>= fun env' => pure (env'.locals names)
  | [], _, _, _, _, _, _, h, _ => by
    simp only [blockCode, Except.ok.injEq, Prod.mk.injEq] at h
    obtain ⟨rfl, -⟩ := h
    rfl
  | s :: rest, _, _, _, _, ha, henv, h, hs => by
    simp only [blockCode, bind_eq_ok, pure_eq_ok, Prod.exists, Prod.mk.injEq] at h
    obtain ⟨instr, t, h, instrs, _, k, rfl, rfl⟩ := h
    simp only [assignedInBlock, List.mem_append] at ha
    rw [execBlock, block, exec_stmtCode hf hn (fun n m => ha n (.inl m)) henv h
      ((blockCode_extends k).isPrefix.trans hs), bind_assoc, bind_assoc]
    refine (stmt_within (fun n m => ha n (.inl m)) henv).bind_congr fun env' henv' => ?_
    rw [pure_bind]
    exact exec_blockCode hf hn (fun n m => ha n (.inr m)) henv' k hs

theorem exec_elseCode (hf : "frame" ∉ assigned) (hn : names.Nodup) :
    ∀ {stmts : Option (List Stmt)} {instrs : List Instr} {slots slots' : List String} {env : Env},
      (∀ n ∈ assignedInElse stmts, n ∈ assigned) → Within assigned env →
      elseCode assigned slots stmts = .ok (instrs, slots') → slots' <+: names →
      execBlock device names instrs (env.locals names) =
        otherwise device assigned stmts env >>= fun env' => pure (env'.locals names)
  | none, _, _, _, _, _, _, h, _ => by
    simp only [elseCode, Except.ok.injEq, Prod.mk.injEq] at h
    obtain ⟨rfl, -⟩ := h
    rfl
  | some body, _, _, _, _, ha, henv, h, hs => by
    simp only [elseCode] at h
    rw [assignedInElse] at ha
    exact exec_blockCode hf hn ha henv h hs

end

end

mutual

theorem frame_not_assignedIn : ∀ s : Stmt, "frame" ∉ assignedIn s
  | .expr _ => by simp [assignedIn]
  | .assign target _ _ _ => by
    by_cases h : target = "frame"
    · simp [assignedIn, h]
    · simpa [assignedIn, h] using fun e => h e.symm
  | .loop _ body => by
    rw [assignedIn]
    exact frame_not_assignedInBlock body
  | .branch _ thenBody elseBody => by
    simp [assignedIn, frame_not_assignedInBlock thenBody, frame_not_assignedInElse elseBody]

theorem frame_not_assignedInBlock : ∀ stmts : List Stmt, "frame" ∉ assignedInBlock stmts
  | [] => by simp [assignedInBlock]
  | s :: rest => by simp [assignedInBlock, frame_not_assignedIn s, frame_not_assignedInBlock rest]

theorem frame_not_assignedInElse : ∀ stmts : Option (List Stmt), "frame" ∉ assignedInElse stmts
  | none => by simp [assignedInElse]
  | some body => by
    rw [assignedInElse]
    exact frame_not_assignedInBlock body

end

end Lowering

/-! ## Scripts -/

/-- A compiled script runs like its tree. -/
theorem lower_run {σ : Type} (device : Device σ) {stmts : List Stmt} {p : Program}
    (h : lower stmts = .ok p) : p.run device = evaluate device stmts := by
  simp only [lower, bind_eq_ok, pure_eq_ok, Prod.exists] at h
  obtain ⟨instrs, slots, h, rfl⟩ := h
  have hn : slots.Nodup := (Lowering.blockCode_extends h).nodup List.nodup_nil
  have hw : Lowering.Within (Lowering.assignedInBlock stmts) .empty := fun _ _ => rfl
  have hf := Lowering.frame_not_assignedInBlock stmts
  change (discard <| Machine.execBlock device slots instrs (Env.empty.locals slots)) = _
  rw [Lowering.exec_blockCode hf hn (fun _ m => m) hw h List.prefix_rfl]
  simp [evaluate, Run.discard_eq]

end LiveSketch.Script

import LiveSketch.Proofs.Script.Compilation
import LiveSketch.Proofs.Script.Faults
import LiveSketch.Script.Routine

/-!
# Frames that a run assigns

A script reads the frame and the time, and it can assign the frame. `Program.assignments` lists the frames that a
run assigns, in their order, up to the place where the run fails if it does. Nothing else changes what a script
reads of the frame, and the last assignment wins (`Routine.invoke_globals`).
-/
namespace LiveSketch

namespace Script

open Number (toCount)

variable {σ α β : Type}

namespace Run

/-- What is listed after a run, if that succeeds. -/
def listing (m : Run σ α) (l : α → Context σ → List Nat) (c : Context σ) : List Nat :=
  match m c with
  | (.ok a, c) => l a c
  | (.error _, _) => []

/-- The run assigns these frames, and leaves the frame and the time that the script sees as they are. -/
def Assigns (m : Run σ α) (l : Context σ → List Nat) : Prop :=
  ∀ c, (m c).2.globals = { c.globals with assigned := (l c).getLast?.or c.globals.assigned }

/-- The run assigns no frame. -/
def Silent (m : Run σ α) : Prop := m.Assigns fun _ => []

theorem Silent.pure (a : α) : (pure a : Run σ α).Silent := fun _ => rfl

theorem Silent.throw (fault : RuntimeFault) : (throw fault : Run σ α).Silent := fun _ => rfl

theorem Silent.liftM (x : Except RuntimeFault α) : (liftM x : Run σ α).Silent := by
  cases x with
  | ok a => exact .pure a
  | error fault => exact .throw fault

theorem Silent.get : (get : Run σ (Context σ)).Silent := fun _ => rfl

theorem Silent.modify (f : Context σ → Context σ) (h : ∀ c, (f c).globals = c.globals) :
    (modify f : Run σ PUnit).Silent := h

/-- What is assigned by one run after another. -/
theorem Assigns.bind {m : Run σ α} {k : α → Run σ β} {l : Context σ → List Nat}
    {l' : α → Context σ → List Nat} (hm : m.Assigns l) (hk : ∀ a, (k a).Assigns (l' a)) :
    (m >>= k).Assigns fun c => l c ++ m.listing l' c := by
  intro c
  have hmc := hm c
  rcases h : m c with ⟨fault | a, c₁⟩ <;> rw [h] at hmc <;> simp only [bind_apply, listing, h]
  · rw [List.append_nil]
    exact hmc
  · rw [hk a c₁, hmc, List.getLast?_append, Option.or_assoc]

theorem Silent.bind_assigns {m : Run σ α} {k : α → Run σ β} {l' : α → Context σ → List Nat}
    (hm : m.Silent) (hk : ∀ a, (k a).Assigns (l' a)) : (m >>= k).Assigns (m.listing l') :=
  Assigns.bind hm hk

theorem Assigns.bind_silent {m : Run σ α} {k : α → Run σ β} {l : Context σ → List Nat} (hm : m.Assigns l)
    (hk : ∀ a, (k a).Silent) : (m >>= k).Assigns l := by
  intro c
  have hmc := hm c
  rcases h : m c with ⟨fault | a, c₁⟩ <;> rw [h] at hmc <;> simp only [bind_apply, h]
  · exact hmc
  · exact (hk a c₁).trans hmc

theorem Silent.bind {m : Run σ α} {k : α → Run σ β} (hm : m.Silent) (hk : ∀ a, (k a).Silent) :
    (m >>= k).Silent := Assigns.bind_silent hm hk

end Run

namespace Machine

variable (device : Device σ)

theorem callBuiltin_silent (f : Builtin) (args : List (Value Float)) :
    (callBuiltin f args : Run σ (Value Float)).Silent := by
  refine Run.Silent.get.bind fun _ => (Run.Silent.liftM _).bind fun _ =>
    (Run.Silent.modify _ ?_).bind fun _ => .pure _
  exact fun _ => rfl

theorem callCommand_silent (command : Command) (args : List (Value Float)) :
    (callCommand device command args).Silent := by
  intro c
  rw [callCommand_apply]
  rfl

theorem markDoOnce_silent (args : List (Value Float)) : (markDoOnce args : Run σ (Value Float)).Silent := by
  cases args with
  | nil => exact .throw _
  | cons v vs =>
    refine (Run.Silent.liftM _).bind fun _ => (Run.Silent.modify _ ?_).bind fun _ => .pure _
    exact fun _ => rfl

/-- No operation assigns a frame. -/
theorem step_silent (names : List String) (consts : List (Value Float)) (locals : Locals) (op : Op)
    (stack : List (Value Float)) : (step device names consts locals op stack).Silent := by
  unfold step
  split
  · split
    · exact .pure _
    · exact .throw _
  · exact (Run.Silent.liftM _).bind fun _ => .pure _
  · exact Run.Silent.get.bind fun _ => .pure _
  · exact Run.Silent.get.bind fun _ => .pure _
  · split
    · exact (Run.Silent.liftM _).bind fun _ => .pure _
    · exact .throw _
  · split
    · exact (Run.Silent.liftM _).bind fun _ => .pure _
    · exact .throw _
  · exact (Run.Silent.liftM _).bind fun _ => (callBuiltin_silent _ _).bind fun _ => .pure _
  · exact (Run.Silent.liftM _).bind fun _ => (callCommand_silent device _ _).bind fun _ => .pure _
  · exact (Run.Silent.liftM _).bind fun _ => (markDoOnce_silent _).bind fun _ => .pure _
  · exact .throw _

theorem eval_silent (names : List String) (locals : Locals) (code : Code) :
    (eval device names locals code).Silent := by
  have steps_silent : ∀ (ops : List Op) (stack : List (Value Float)),
      (steps device names code.consts locals ops stack).Silent := by
    intro ops
    induction ops with
    | nil => exact fun _ => .pure _
    | cons op ops ih => exact fun _ => (step_silent device names _ locals op _).bind fun _ => ih _
  refine (steps_silent code.ops []).bind fun stack => ?_
  split
  · exact .pure _
  · exact .throw _

variable (names : List String)

/-- The frames that are assigned by a body that is run `n` times. -/
def iterateAssignments (body : Locals → Run σ Locals) (l : Locals → Context σ → List Nat) :
    Nat → Locals → Context σ → List Nat
  | 0, _ => fun _ => []
  | n + 1, locals => fun c =>
    l locals c ++ (body locals).listing (iterateAssignments body l n) c

/-- A number that a statement is about. -/
def evalNumber (locals : Locals) (code : Code) : Run σ Float := do
  (← eval device names locals code).toNumber

theorem evalNumber_silent (locals : Locals) (code : Code) : (evalNumber device names locals code).Silent :=
  (eval_silent device names locals code).bind fun _ => .liftM _

mutual

/-- The frames that a statement assigns, in their order. -/
def assignments : Instr → Locals → Context σ → List Nat
  | .eval _, _ => fun _ => []
  | .store _ _, _ => fun _ => []
  | .storeFrame code, locals => (evalNumber device names locals code).listing fun x _ => [toCount x]
  | .loop count body, locals => (evalNumber device names locals count).listing fun n =>
    iterateAssignments (execBlock device names body) (blockAssignments body) (toCount n) locals
  | .branch condition thenBody elseBody, locals => (eval device names locals condition).listing fun v =>
    if v.truthy then blockAssignments thenBody locals else blockAssignments elseBody locals

/-- The frames that a block assigns, in their order. -/
def blockAssignments : List Instr → Locals → Context σ → List Nat
  | [], _ => fun _ => []
  | i :: rest, locals => fun c =>
    assignments i locals c ++ (exec device names i locals).listing (blockAssignments rest) c

end

theorem iterate_assigns {body : Locals → Run σ Locals} {l : Locals → Context σ → List Nat}
    (h : ∀ locals, (body locals).Assigns (l locals)) : ∀ (n : Nat) (locals : Locals),
      (iterate body n locals).Assigns (iterateAssignments body l n locals)
  | 0, _ => Run.Silent.pure _
  | n + 1, locals => by
    rw [Lowering.iterate_succ]
    exact (h locals).bind fun locals' => iterate_assigns h n locals'

mutual

theorem exec_assigns : ∀ (i : Instr) (locals : Locals),
    (exec device names i locals).Assigns (assignments device names i locals)
  | .eval code, locals => by
    rw [exec, Run.discard_eq]
    exact ((eval_silent device names locals code).bind fun _ => .pure _).bind fun _ => .pure _
  | .store i code, locals => by
    rw [exec]
    refine (eval_silent device names locals code).bind fun v => ?_
    split
    · exact .pure _
    · exact .throw _
  | .storeFrame code, locals => by
    rw [exec, assignments, ← bind_assoc]
    exact (evalNumber_silent device names locals code).bind_assigns fun x c => rfl
  | .loop count body, locals => by
    rw [exec, assignments, ← bind_assoc]
    exact (evalNumber_silent device names locals count).bind_assigns fun n =>
      iterate_assigns (fun locals => execBlock_assigns body locals) _ locals
  | .branch condition thenBody elseBody, locals => by
    rw [exec, assignments]
    refine (eval_silent device names locals condition).bind_assigns fun v => ?_
    split
    · exact execBlock_assigns thenBody locals
    · exact execBlock_assigns elseBody locals

theorem execBlock_assigns : ∀ (is : List Instr) (locals : Locals),
    (execBlock device names is locals).Assigns (blockAssignments device names is locals)
  | [], _ => Run.Silent.pure _
  | i :: rest, locals => by
    rw [execBlock]
    exact (exec_assigns i locals).bind fun locals' => execBlock_assigns rest locals'

end

end Machine

/-- The frames that a run assigns, in their order. -/
def Program.assignments (device : Device σ) (p : Program) : Context σ → List Nat :=
  Machine.blockAssignments device p.slots p.body (p.slots.map fun _ => none)

end Script

open Script

namespace Routine

variable {σ : Type}

/-- The frames that are assigned when a routine is run once, in their order. -/
def assignments (device : Device σ) (r : Routine) (c : Context σ) : List Nat :=
  match r.program with
  | some p => p.assignments device c
  | none => []

/-- A run leaves the frame and the time that it sees as they are, and the frame that it has assigned last is the
assigned one. -/
theorem invoke_globals (device : Device σ) (r : Routine) (c : Context σ) :
    (r.invoke device c).2.globals =
      { c.globals with assigned := (r.assignments device c).getLast?.or c.globals.assigned } := by
  unfold invoke assignments
  cases r.program with
  | none => rfl
  | some p =>
    have h := Machine.execBlock_assigns device p.slots p.body (p.slots.map fun _ => none)
    simp only [Program.run, Run.discard_eq]
    exact h.bind_silent (fun _ => .pure _) c

end Routine

end LiveSketch

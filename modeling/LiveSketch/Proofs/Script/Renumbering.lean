import LiveSketch.Proofs.Script.Attaching
import LiveSketch.Script.Lowering

/-!
# Scripts up to the numbers of their reports

`renumber g` applies `g` to the number of each report, in statements and in code, and forgets the places of the
statements. Statements that are then equal have code that is then equal (`lower_renumber`): of the report itself
the code keeps nothing but the number. With a constant `g` this compares scripts up to the numbers that they
report, and with the identity exactly.
-/
namespace LiveSketch.Script

open LiveSketch.Script.Parser

variable (g : Float → Float)

/-! ## Trees -/

/-- The call that reports a number. -/
def reportOf (x : Float) : Expr := .call doOnceMarker [.literal (.number x)] 0

/-- What happens to the number in a call of this function. -/
def onMarker (function : String) : Float → Float := if function = doOnceMarker then g else id

/-- The expression without its places, and with the number changed if it is a report. -/
def Expr.renumber (e : Expr) : Expr :=
  match e.erase with
  | .call function [.literal (.number x)] _ =>
    .call function [.literal (.number (onMarker g function x))] 0
  | e => e

mutual

/-- The statement without its places, and with the numbers of its reports changed. -/
def Stmt.renumber : Stmt → Stmt
  | .expr e => .expr (e.renumber g)
  | .assign target op value _ => .assign target op value.erase 0
  | .loop count body => .loop count.erase (renumberBlock body)
  | .branch condition thenBody elseBody =>
    .branch condition.erase (renumberBlock thenBody) (renumberElse elseBody)

def renumberBlock : List Stmt → List Stmt
  | [] => []
  | s :: rest => s.renumber :: renumberBlock rest

def renumberElse : Option (List Stmt) → Option (List Stmt)
  | none => none
  | some body => some (renumberBlock body)

end

theorem renumberBlock_eq_map (stmts : List Stmt) : renumberBlock g stmts = stmts.map (Stmt.renumber g) := by
  induction stmts with
  | nil => rfl
  | cons s stmts ih => simp [renumberBlock, ih]

theorem keeps_renumber : Keeps (Stmt.renumber g) Expr.erase where
  branch c t e := by cases e <;> simp [Stmt.renumber, renumberElse, renumberBlock_eq_map]
  other s hs := by
    cases s with
    | branch c t e => exact absurd rfl (hs c t e)
    | _ => exact nofun

variable {g}

theorem Expr.renumber_of_erase {e e' : Expr} (h : e'.erase = e.erase) : e'.renumber g = e.renumber g := by
  rw [renumber, renumber, h]

theorem renumber_reportOf {x y : Float} (h : g x = g y) : (reportOf x).renumber g = (reportOf y).renumber g := by
  simp [Expr.renumber, reportOf, onMarker, Expr.erase, eraseArgs, h]

/-- Expressions that differ in no more than the numbers of reports are equal, or both are reports. -/
theorem Expr.renumber_eq {e e' : Expr} (h : e'.renumber g = e.renumber g) : e'.erase = e.erase ∨
    ∃ x y, e.erase = reportOf x ∧ e'.erase = reportOf y ∧ g y = g x := by
  have place : ∀ {e : Expr} {function args offset}, e.erase = .call function args offset → offset = 0 := by
    intro e function args offset he
    cases e <;> simp [erase] at he
    exact he.2.2.symm
  unfold renumber at h
  split at h <;> split at h
  · rename_i f' y o' he' _ f x o he
    obtain rfl := place he
    obtain rfl := place he'
    simp only [call.injEq, List.cons.injEq, literal.injEq, Literal.number.injEq, and_true] at h
    obtain ⟨rfl, hn⟩ := h
    by_cases hf : f' = doOnceMarker
    · subst hf
      exact .inr ⟨x, y, he, he', by simpa [onMarker] using hn⟩
    · rw [onMarker, if_neg hf, id, id] at hn
      exact .inl (by rw [he, he', hn])
  · rename_i hno
    exact absurd h.symm (hno _ _ _)
  · rename_i hno _ _ _ _ _
    exact absurd h (hno _ _ _)
  · exact .inl h

/-! ## Code -/

/-- The code with the number changed if it reports one. A script can hide the marker by a variable. -/
def Code.renumber (g : Float → Float) : Code → Code
  | ⟨[.const 0, .mark 1], [.number x]⟩ => ⟨[.const 0, .mark 1], [.number (g x)]⟩
  | ⟨[.const 0, .unknown 1 1], [.number x, .string function]⟩ =>
    ⟨[.const 0, .unknown 1 1], [.number (onMarker g function x), .string function]⟩
  | code => code

mutual

/-- The instruction with the numbers of its reports changed. -/
def Instr.renumber (g : Float → Float) : Instr → Instr
  | .eval code => .eval (code.renumber g)
  | .store slot code => .store slot code
  | .storeFrame code => .storeFrame code
  | .loop count body => .loop count (renumberInstrs g body)
  | .branch condition thenBody elseBody =>
    .branch condition (renumberInstrs g thenBody) (renumberInstrs g elseBody)

def renumberInstrs (g : Float → Float) : List Instr → List Instr
  | [] => []
  | i :: rest => i.renumber g :: renumberInstrs g rest

end

/-- The program with the numbers of its reports changed. -/
def Program.renumber (g : Float → Float) (p : Program) : Program := ⟨renumberInstrs g p.body, p.slots⟩

theorem Code.renumber_id (code : Code) : code.renumber id = code := by
  unfold Code.renumber
  split <;> simp [onMarker]

mutual

theorem Instr.renumber_id : ∀ i : Instr, i.renumber id = i
  | .eval code => congrArg Instr.eval code.renumber_id
  | .store _ _ => rfl
  | .storeFrame _ => rfl
  | .loop count body => congrArg (Instr.loop count) (renumberInstrs_id body)
  | .branch condition thenBody elseBody => by
    rw [Instr.renumber, renumberInstrs_id thenBody, renumberInstrs_id elseBody]

theorem renumberInstrs_id : ∀ is : List Instr, renumberInstrs id is = is
  | [] => rfl
  | i :: rest => by rw [renumberInstrs, i.renumber_id, renumberInstrs_id rest]

end

@[simp] theorem Program.renumber_id (p : Program) : p.renumber id = p := by
  rw [Program.renumber, renumberInstrs_id]

/-! ## Lowering -/

/-- Both computations fail, or their results are equal up to what `f` forgets. -/
def EqualUpTo {α β : Type} (f : α → β) (x y : Except Rejection α) : Prop := x.toOption.map f = y.toOption.map f

namespace EqualUpTo

variable {α β γ δ : Type} {f : α → β}

theorem refl (x : Except Rejection α) : EqualUpTo f x x := rfl

theorem ok {a b : α} (h : f a = f b) : EqualUpTo f (.ok a) (.ok b) := congrArg some h

theorem error (r r' : Rejection) : EqualUpTo f (.error r) (.error r') := rfl

theorem bind {x y : Except Rejection α} {h : γ → δ} {k k' : α → Except Rejection γ} (hxy : EqualUpTo f x y)
    (hk : ∀ a b, f a = f b → EqualUpTo h (k a) (k' b)) : EqualUpTo h (x >>= k) (y >>= k') := by
  cases x with
  | error r =>
    cases y with
    | error r' => rfl
    | ok b => cases hxy
  | ok a =>
    cases y with
    | error r => cases hxy
    | ok b => exact hk a b (Option.some.inj hxy)

theorem exists_ok {x y : Except Rejection α} {a : α} (hxy : EqualUpTo f x y) (hx : x = .ok a) :
    ∃ b, y = .ok b ∧ f b = f a := by
  subst hx
  cases y with
  | error r => cases hxy
  | ok b => exact ⟨b, rfl, (Option.some.inj hxy).symm⟩

end EqualUpTo

namespace Lowering

variable (assigned : List String)

mutual

/-- The code of an expression does not hang on its places. -/
theorem exprCode_erase (base : Nat) (slots : List String) :
    ∀ e : Expr, EqualUpTo id (exprCode assigned base slots e.erase) (exprCode assigned base slots e)
  | .literal _ => .refl _
  | .ident _ _ => .refl _
  | .unary op arg => by
    rw [Expr.erase, exprCode, exprCode]
    refine (exprCode_erase base slots arg).bind fun a b hab => ?_
    obtain rfl : a = b := hab
    exact .refl _
  | .binary op left right => by
    rw [Expr.erase, exprCode, exprCode]
    refine (exprCode_erase base slots left).bind fun a b hab => ?_
    obtain rfl : a = b := hab
    refine (exprCode_erase _ a.2 right).bind fun c d hcd => ?_
    obtain rfl : c = d := hcd
    exact .refl _
  | .call function args offset => by
    rw [Expr.erase, exprCode, exprCode, length_eraseArgs]
    refine (argsCode_erase base slots args).bind fun a b hab => ?_
    obtain rfl : a = b := hab
    dsimp only
    split
    · exact .error _ _
    · exact .refl _

theorem argsCode_erase (base : Nat) (slots : List String) :
    ∀ es : List Expr, EqualUpTo id (argsCode assigned base slots (eraseArgs es)) (argsCode assigned base slots es)
  | [] => .refl _
  | e :: es => by
    rw [eraseArgs, argsCode, argsCode]
    refine (exprCode_erase base slots e).bind fun a b hab => ?_
    obtain rfl : a = b := hab
    refine (argsCode_erase _ a.2 es).bind fun c d hcd => ?_
    obtain rfl : c = d := hcd
    exact .refl _

end

theorem exprCode_of_erase {e e' : Expr} (h : e'.erase = e.erase) (base : Nat) (slots : List String) :
    EqualUpTo id (exprCode assigned base slots e') (exprCode assigned base slots e) :=
  (exprCode_erase assigned base slots e').symm.trans (by rw [h]; exact exprCode_erase assigned base slots e)

theorem exprCode_reportOf (x : Float) (slots : List String) : exprCode assigned 0 slots (reportOf x) =
    .ok (if assigned.contains doOnceMarker then ⟨[.const 0, .unknown 1 1], [.number x, .string doOnceMarker]⟩
      else ⟨[.const 0, .mark 1], [.number x]⟩, slots) := by
  have hbuiltin : Builtin.ofName? doOnceMarker = none := by decide
  have hcommand : Command.ofName? doOnceMarker = none := by decide
  have hfew : ¬ maxArguments < [Expr.literal (.number x)].length := by simp [maxArguments]
  have hargs : argsCode assigned 0 slots [.literal (.number x)] = .ok (⟨[.const 0], [.number x]⟩, slots) := rfl
  rw [reportOf, exprCode, hargs, ok_bind]
  simp only [hfew, if_false, callOf, hbuiltin, hcommand]
  cases assigned.contains doOnceMarker <;> rfl

/-- The code of an expression statement. -/
theorem evalCode_renumber {e e' : Expr} (h : e'.renumber g = e.renumber g) (slots : List String) :
    EqualUpTo (fun found => (found.1.renumber g, found.2)) (exprCode assigned 0 slots e')
      (exprCode assigned 0 slots e) := by
  have upTo : ∀ {x y : Except Rejection (Code × List String)}, EqualUpTo id x y →
      EqualUpTo (fun found : Code × List String => (found.1.renumber g, found.2)) x y := fun {x y} hxy => by
    have he : x.toOption = y.toOption := by simpa [EqualUpTo] using hxy
    rw [EqualUpTo, he]
  rcases Expr.renumber_eq h with he | ⟨x, y, he, he', hg⟩
  · exact upTo (exprCode_of_erase assigned he 0 slots)
  · have hcode := upTo (exprCode_erase assigned 0 slots e)
    have hcode' := upTo (exprCode_erase assigned 0 slots e')
    rw [he, exprCode_reportOf] at hcode
    rw [he', exprCode_reportOf] at hcode'
    refine hcode'.symm.trans (.trans (congrArg some ?_) hcode)
    split <;> simp [Code.renumber, onMarker, hg]

theorem assignCode_of_erase {e e' : Expr} (h : e'.erase = e.erase) (slots : List String) (op : AssignOp) (old : Op) :
    EqualUpTo id (assignCode assigned slots op old e') (assignCode assigned slots op old e) := by
  rw [assignCode, assignCode]
  refine (exprCode_of_erase assigned h 0 slots).bind fun a b hab => ?_
  obtain rfl : a = b := hab
  exact .refl _

/-- An instruction with its numbers changed, and the names of the local variables. -/
def renumberFirst (g : Float → Float) (found : Instr × List String) : Instr × List String :=
  (found.1.renumber g, found.2)

/-- Instructions with their numbers changed, and the names of the local variables. -/
def renumberAll (g : Float → Float) (found : List Instr × List String) : List Instr × List String :=
  (renumberInstrs g found.1, found.2)

mutual

theorem stmtCode_renumber (slots : List String) : ∀ {s s' : Stmt}, s'.renumber g = s.renumber g →
    EqualUpTo (renumberFirst g) (stmtCode assigned slots s') (stmtCode assigned slots s)
  | .expr e, .expr e', h => by
    rw [stmtCode, stmtCode]
    refine (evalCode_renumber assigned (Stmt.expr.inj h) slots).bind fun a b hab => .ok ?_
    simp only [Prod.mk.injEq] at hab
    simp [renumberFirst, Instr.renumber, hab]
  | .assign target op value offset, .assign target' op' value' offset', h => by
    simp only [Stmt.renumber, Stmt.assign.injEq, and_true] at h
    obtain ⟨rfl, rfl, hvalue⟩ := h
    rw [stmtCode, stmtCode]
    split
    · exact .error _ _
    split
    · refine (assignCode_of_erase assigned hvalue slots _ _).bind fun a b hab => ?_
      obtain rfl : a = b := hab
      exact .refl _
    · refine (assignCode_of_erase assigned hvalue _ _ _).bind fun a b hab => ?_
      obtain rfl : a = b := hab
      exact .refl _
  | .loop count body, .loop count' body', h => by
    simp only [Stmt.renumber, Stmt.loop.injEq] at h
    rw [stmtCode, stmtCode]
    refine (exprCode_of_erase assigned h.1 0 slots).bind fun a b hab => ?_
    obtain rfl : a = b := hab
    refine (blockCode_renumber a.2 h.2).bind fun c d hcd => .ok ?_
    simp only [renumberAll, Prod.mk.injEq] at hcd
    simp [renumberFirst, Instr.renumber, hcd]
  | .branch condition thenBody elseBody, .branch condition' thenBody' elseBody', h => by
    simp only [Stmt.renumber, Stmt.branch.injEq] at h
    rw [stmtCode, stmtCode]
    refine (exprCode_of_erase assigned h.1 0 slots).bind fun a b hab => ?_
    obtain rfl : a = b := hab
    refine (blockCode_renumber a.2 h.2.1).bind fun c d hcd => ?_
    simp only [renumberAll, Prod.mk.injEq] at hcd
    obtain ⟨c, slots₁⟩ := c
    obtain ⟨d, slots₂⟩ := d
    obtain ⟨hcd, rfl⟩ := hcd
    refine (elseCode_renumber slots₁ h.2.2).bind fun e f hef => .ok ?_
    simp only [renumberAll, Prod.mk.injEq] at hef
    simp [renumberFirst, Instr.renumber, hcd, hef]

theorem blockCode_renumber (slots : List String) : ∀ {stmts stmts' : List Stmt},
    renumberBlock g stmts' = renumberBlock g stmts →
      EqualUpTo (renumberAll g) (blockCode assigned slots stmts') (blockCode assigned slots stmts)
  | [], [], _ => .refl _
  | s :: stmts, s' :: stmts', h => by
    simp only [renumberBlock, List.cons.injEq] at h
    rw [blockCode, blockCode]
    refine (stmtCode_renumber slots h.1).bind fun a b hab => ?_
    obtain ⟨a, slots₁⟩ := a
    obtain ⟨b, slots₂⟩ := b
    simp only [renumberFirst, Prod.mk.injEq] at hab
    obtain ⟨hab, rfl⟩ := hab
    refine (blockCode_renumber slots₁ h.2).bind fun c d hcd => .ok ?_
    simp only [renumberAll, Prod.mk.injEq] at hcd
    simp [renumberAll, renumberInstrs, hab, hcd]

theorem elseCode_renumber (slots : List String) : ∀ {stmts stmts' : Option (List Stmt)},
    renumberElse g stmts' = renumberElse g stmts →
      EqualUpTo (renumberAll g) (elseCode assigned slots stmts') (elseCode assigned slots stmts)
  | none, none, _ => .refl _
  | some _, some _, h => blockCode_renumber slots (Option.some.inj h)

end

mutual

theorem assignedIn_renumber : ∀ s : Stmt, assignedIn (s.renumber g) = assignedIn s
  | .expr _ => rfl
  | .assign _ _ _ _ => rfl
  | .loop _ body => assignedInBlock_renumber body
  | .branch _ thenBody elseBody => by
    rw [Stmt.renumber, assignedIn, assignedIn, assignedInBlock_renumber thenBody, assignedInElse_renumber elseBody]

theorem assignedInBlock_renumber : ∀ stmts : List Stmt, assignedInBlock (renumberBlock g stmts) = assignedInBlock stmts
  | [] => rfl
  | s :: stmts => by
    rw [renumberBlock, assignedInBlock, assignedInBlock, assignedIn_renumber s, assignedInBlock_renumber stmts]

theorem assignedInElse_renumber :
    ∀ stmts : Option (List Stmt), assignedInElse (renumberElse g stmts) = assignedInElse stmts
  | none => rfl
  | some stmts => assignedInBlock_renumber stmts

end

end Lowering

/-- Scripts that differ in no more than places and the numbers of reports have such programs. -/
theorem lower_renumber {stmts stmts' : List Stmt} {p : Program} (h : renumberBlock g stmts' = renumberBlock g stmts)
    (hp : lower stmts = .ok p) : ∃ p', lower stmts' = .ok p' ∧ p'.renumber g = p.renumber g := by
  have hassigned : Lowering.assignedInBlock stmts' = Lowering.assignedInBlock stmts := by
    rw [← Lowering.assignedInBlock_renumber (g := g), h, Lowering.assignedInBlock_renumber]
  obtain ⟨found, hb, he⟩ := bind_eq_ok.1 hp
  obtain rfl := pure_eq_ok.1 he
  obtain ⟨found', hb', hf⟩ := (Lowering.blockCode_renumber (Lowering.assignedInBlock stmts) [] h.symm).exists_ok hb
  simp only [Lowering.renumberAll, Prod.mk.injEq] at hf
  refine ⟨⟨found'.1, found'.2⟩, ?_, by simp [Program.renumber, hf]⟩
  rw [lower, hassigned, hb']
  rfl

/-! ## Scripts without places -/

mutual

theorem Expr.erase_erase : ∀ e : Expr, e.erase.erase = e.erase
  | .literal _ | .ident _ _ => rfl
  | .unary op arg => by rw [Expr.erase, Expr.erase, arg.erase_erase]
  | .binary op left right => by rw [Expr.erase, Expr.erase, left.erase_erase, right.erase_erase]
  | .call function args _ => by rw [Expr.erase, Expr.erase, eraseArgs_eraseArgs args]

theorem eraseArgs_eraseArgs : ∀ es : List Expr, eraseArgs (eraseArgs es) = eraseArgs es
  | [] => rfl
  | e :: es => by rw [eraseArgs, eraseArgs, e.erase_erase, eraseArgs_eraseArgs es]

end

mutual

theorem Stmt.renumber_erase : ∀ s : Stmt, s.erase.renumber g = s.renumber g
  | .expr e => congrArg Stmt.expr (Expr.renumber_of_erase e.erase_erase)
  | .assign target op value _ => by rw [Stmt.erase, Stmt.renumber, Stmt.renumber, value.erase_erase]
  | .loop count body => by rw [Stmt.erase, Stmt.renumber, Stmt.renumber, count.erase_erase, renumberBlock_eraseBlock body]
  | .branch condition thenBody elseBody => by
    rw [Stmt.erase, Stmt.renumber, Stmt.renumber, condition.erase_erase, renumberBlock_eraseBlock thenBody,
      renumberElse_eraseElse elseBody]

theorem renumberBlock_eraseBlock : ∀ stmts : List Stmt, renumberBlock g (eraseBlock stmts) = renumberBlock g stmts
  | [] => rfl
  | s :: stmts => by rw [eraseBlock, renumberBlock, renumberBlock, s.renumber_erase, renumberBlock_eraseBlock stmts]

theorem renumberElse_eraseElse :
    ∀ stmts : Option (List Stmt), renumberElse g (eraseElse stmts) = renumberElse g stmts
  | none => rfl
  | some stmts => congrArg some (renumberBlock_eraseBlock stmts)

end

/-- Scripts that differ in no more than places have the same program. -/
theorem lower_of_erase {stmts stmts' : List Stmt} {p : Program} (h : eraseBlock stmts' = eraseBlock stmts)
    (hp : lower stmts = .ok p) : lower stmts' = .ok p := by
  have hsame : renumberBlock id stmts' = renumberBlock id stmts := by
    rw [← renumberBlock_eraseBlock, h, renumberBlock_eraseBlock]
  obtain ⟨p', hp', he⟩ := lower_renumber hsame hp
  rw [Program.renumber_id, Program.renumber_id] at he
  exact he ▸ hp'

end LiveSketch.Script

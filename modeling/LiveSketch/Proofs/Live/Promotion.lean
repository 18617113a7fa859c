import Mathlib.Data.List.Induction
import LiveSketch.Proofs.Live.Steps

/-!
# When a routine becomes stable

Here the loop is taken by itself: whoever drives it gives the orders, and whatever bookkeeping there is after
executed `doOnce` blocks may change the runner at will (`Clerk`). Beside the loop a history is kept of what
happened to the runner, the newest first. `Runner.Traced` says how the runner follows from the history: its
streak is the number of runs since the active routine was made active. So a routine becomes stable, and this
is announced, with the fifth run in a row, then only, and once (`Engine.promotion`).
-/
namespace LiveSketch.Live

open Script (Context)

/-! ## Changes of a runner -/

/-- What can be done to a runner beside running its routine. -/
inductive Change where
  | install (routine : Routine)
  | clear
  | revert

/-- The change makes the runner forget its routines. -/
def Change.clears : Change → Bool
  | .clear => true
  | _ => false

/-- What happened to a runner. -/
inductive Deed where
  /-- This routine was made active, or none. -/
  | activated (routine : Option Installed)
  | succeeded (routine : Installed)
  | failed (routine : Installed)

namespace Runner

/-- The runner after a change. -/
def change (r : Runner) : Change → Runner
  | .install routine => r.install routine
  | .clear => r.clear
  | .revert => r.revert

/-- The runner after one change after another. -/
def changeAll (r : Runner) (cs : List Change) : Runner := cs.foldl change r

/-- What the changes do, the newest first. -/
def changeDeeds (r : Runner) : List Change → List Deed
  | [] => []
  | c :: cs => (r.change c).changeDeeds cs ++ [.activated (r.change c).active]

@[simp] theorem changeAll_nil (r : Runner) : r.changeAll [] = r := rfl

@[simp] theorem changeAll_cons (r : Runner) (c : Change) (cs : List Change) :
    r.changeAll (c :: cs) = (r.change c).changeAll cs := rfl

@[simp] theorem change_streak (r : Runner) (c : Change) : (r.change c).streak = 0 := by
  cases c <;> rfl

theorem change_stable (r : Runner) (c : Change) :
    (r.change c).stable = if c.clears then none else r.stable := by
  cases c <;> rfl

/-- No change makes a routine stable. -/
theorem changeAll_stable (r : Runner) (cs : List Change) :
    (r.changeAll cs).stable = if cs.any Change.clears then none else r.stable := by
  induction cs generalizing r with
  | nil => rfl
  | cons c cs ih =>
    rw [changeAll_cons, ih, change_stable, List.any_cons]
    cases c.clears
    · rfl
    · exact ite_self none

end Runner

/-! ## Bookkeeping -/

@[simp] theorem Bus.events_publish (b : Bus) (e : Event) : (b.publish e).events = b.events ++ [e] := by
  simp [Bus.events]

/-- How often it was announced that a routine is stable. -/
def Bus.announcements (b : Bus) : Nat := b.events.count .stable

theorem Bus.announcements_publish {e : Event} (h : e ≠ .stable) (b : Bus) :
    (b.publish e).announcements = b.announcements := by
  simp [announcements, List.count_append, h]

@[simp] theorem Bus.announcements_publish_stable (b : Bus) :
    (b.publish .stable).announcements = b.announcements + 1 := by
  simp [announcements, List.count_append]

/-- A bookkeeping together with the changes that it makes. Announcements are not its business. -/
structure Clerk (δ : Type) where
  keep : Bookkeeping δ
  changes : List Nat → Workbench δ → List Change
  runner : ∀ lines w, (keep lines w).runner = w.runner.changeAll (changes lines w)
  announcements : ∀ lines w, (keep lines w).bus.announcements = w.bus.announcements

namespace Clerk

/-- Nothing is done. -/
def none {δ : Type} : Clerk δ where
  keep := Bookkeeping.none
  changes _ _ := []
  runner _ _ := rfl
  announcements _ _ := rfl

/-- What putting a text into effect does to the runner. -/
def installChanges (text : List Char) : List Change :=
  match Routine.ofSketch text with
  | .ok (some routine) => [.install routine]
  | .ok Option.none => [.clear]
  | .error _ => []

theorem install_runner {δ : Type} (text : List Char) (w : Workbench δ) :
    (install text w).2.runner = w.runner.changeAll (installChanges text) := by
  rcases h : Routine.ofSketch text with failure | _ | routine <;> simp [install, installChanges, h] <;> rfl

theorem install_announcements {δ : Type} (text : List Char) (w : Workbench δ) :
    (install text w).2.bus.announcements = w.bus.announcements := by
  rcases install_cases text w with ⟨-, h⟩ | ⟨_, -, -, h⟩ | ⟨_, -, -, h⟩ <;> rw [h] <;>
    exact Bus.announcements_publish (by simp) w.bus

/-- The headers of executed `doOnce` blocks are ticked, and the text is put into effect again. -/
def headers : Clerk Document where
  keep := tickHeaders
  changes lines w :=
    let ticked := Sketch.markLines lines w.desk.source
    if ticked = w.desk.source then [] else installChanges ticked
  runner lines w := by
    by_cases h : Sketch.markLines lines w.desk.source = w.desk.source
    · simp [tickHeaders_of_eq h, h]
    · obtain ⟨w', hr, -, ht⟩ := tickHeaders_of_ne h
      simp [ht, h, ← hr, install_runner]
  announcements lines w := by
    by_cases h : Sketch.markLines lines w.desk.source = w.desk.source
    · rw [tickHeaders_of_eq h]
    · obtain ⟨w', -, hb, ht⟩ := tickHeaders_of_ne h
      rw [ht]
      change (install _ w').2.bus.announcements = _
      rw [install_announcements, hb, Bus.announcements_publish (by simp)]

end Clerk

/-! ## A loop that is given orders -/

/-- A loop with its workbench. -/
structure Engine (δ : Type) where
  scheduler : Scheduler
  bench : Workbench δ

/-- What a loop can be told to do. -/
inductive Order (δ : Type) where
  | change (c : Change)
  | start
  | stop
  | wake
  | wait
  | setTime (ms : Float)
  | tick (clerk : Clerk δ)

/-- How an order goes: the run of the active routine, if it is run, and the changes after that. -/
structure Course where
  ran : Option Deed := none
  changes : List Change := []

namespace Engine

variable {δ : Type}

/-- A loop that has never run anything. -/
def fresh (s : Scheduler) (bus : Bus) (desk : δ) : Engine δ := ⟨s, {}, bus, desk⟩

def runner (e : Engine δ) : Runner := e.bench.runner

/-- The loop after an order. -/
def step (e : Engine δ) : Order δ → Engine δ
  | .change c => { e with bench := { e.bench with runner := e.runner.change c } }
  | .start => { e with scheduler := e.scheduler.start }
  | .stop => { e with scheduler := e.scheduler.stop }
  | .wake => { e with scheduler := e.scheduler.wake.2 }
  | .wait => { e with scheduler := e.scheduler.wait.2 }
  | .setTime ms => { e with scheduler := { e.scheduler with now := ms } }
  | .tick clerk =>
    ⟨(e.scheduler.tick clerk.keep e.bench).2.1, (e.scheduler.tick clerk.keep e.bench).2.2⟩

/-- The loop after one order after another. -/
def run (e : Engine δ) (orders : List (Order δ)) : Engine δ := orders.foldl step e

/-- What comes of a routine in the next tick. -/
def invoke (e : Engine δ) (x : Installed) : Except RuntimeFault Unit × Context (Recorder Float) :=
  x.routine.invoke Recorder.command
    { (e.scheduler.prepare e.runner).context with doOnce := .empty }

/-- How an order goes. A failure is followed by falling back, a success by the bookkeeping if `doOnce`
blocks were executed. -/
def course (e : Engine δ) : Order δ → Course
  | .change c => { changes := [c] }
  | .tick clerk =>
    match e.runner.active with
    | none => {}
    | some x =>
      match e.invoke x with
      | (.error _, _) => ⟨some (.failed x), [.revert]⟩
      | (.ok (), c) =>
        ⟨some (.succeeded x),
          if c.doOnce.toList = [] then [] else clerk.changes c.doOnce.toList e.bench.succeed⟩
  | _ => {}

/-- The runner between the run and the changes. -/
def afterRun (e : Engine δ) (o : Order δ) : Runner :=
  match (e.course o).ran with
  | some (.succeeded _) => e.runner.succeed
  | _ => e.runner

/-- What an order does, the newest first. -/
def deeds (e : Engine δ) (o : Order δ) : List Deed :=
  (e.afterRun o).changeDeeds (e.course o).changes ++ (e.course o).ran.toList

/-- What one order after another does, the newest first. -/
def history (e : Engine δ) : List (Order δ) → List Deed
  | [] => []
  | o :: orders => (e.step o).history orders ++ e.deeds o

@[simp] theorem run_append (e : Engine δ) (orders : List (Order δ)) (o : Order δ) :
    e.run (orders ++ [o]) = (e.run orders).step o := by simp [run]

theorem history_append (e : Engine δ) (orders : List (Order δ)) (o : Order δ) :
    e.history (orders ++ [o]) = (e.run orders).deeds o ++ e.history orders := by
  induction orders generalizing e with
  | nil => simp [history, run]
  | cons o' orders ih => simp [history, ih, run]

/-! ## One order -/

/-- Only lines that were reported are kept. -/
theorem tick_guard (keep : Bookkeeping δ) (s : Scheduler) (w : Workbench δ) :
    s.tick (fun lines w => if lines = [] then w else keep lines w) w = s.tick keep w := by
  have finish_guard : ∀ assigned s w t,
      Scheduler.finish (fun lines w => if lines = [] then w else keep lines w) assigned s w t =
        Scheduler.finish keep assigned s w t := by
    intro assigned s w t
    cases t with
    | ran promoted doOnce => cases doOnce <;> rfl
    | _ => rfl
  simp only [Scheduler.tick, finish_guard]

/-- What an order can do. Without a run there is nothing but the changes; a failed run is followed by falling
back; and a run that succeeds is announced if it brings the streak to the threshold. -/
theorem step_cases (e : Engine δ) (o : Order δ) :
    ((e.course o).ran = none ∧ e.deeds o = e.runner.changeDeeds (e.course o).changes ∧
      (e.step o).runner = e.runner.changeAll (e.course o).changes ∧
      (e.step o).bench.bus.announcements = e.bench.bus.announcements) ∨
    ∃ x, e.runner.active = some x ∧
      (((e.course o).ran = some (.failed x) ∧ (e.course o).changes = [.revert] ∧
          e.deeds o = [.activated e.runner.stable, .failed x] ∧
          (e.step o).runner = e.runner.revert ∧
          (e.step o).bench.bus.announcements = e.bench.bus.announcements) ∨
        ((e.course o).ran = some (.succeeded x) ∧
          e.deeds o = e.runner.succeed.changeDeeds (e.course o).changes ++ [.succeeded x] ∧
          (e.step o).runner = e.runner.succeed.changeAll (e.course o).changes ∧
          (e.step o).bench.bus.announcements = e.bench.bus.announcements +
            if e.runner.succeed.streak = Runner.threshold then 1 else 0)) := by
  cases o with
  | tick clerk =>
    obtain ⟨report, s', w', ht, hcase⟩ := e.scheduler.tick_cases
      (fun lines w => if lines = [] then w else clerk.keep lines w) (by simp) e.bench
    rw [tick_guard] at ht
    have hstep : e.step (.tick clerk) = ⟨s', w'⟩ := by simp [step, ht]
    rw [hstep]
    rcases hcase with ⟨ha, -, -, rfl⟩ | ⟨x, c, ha, -, ⟨fault, hi, -, rfl⟩ | ⟨hi, -, rfl⟩⟩
    · have hc : e.course (.tick clerk) = {} := by simp [course, runner, ha]
      exact .inl (by simp [deeds, afterRun, hc, Runner.changeDeeds, runner])
    · have hc : e.course (.tick clerk) = ⟨some (.failed x), [.revert]⟩ := by
        have hi' : e.invoke x = (.error fault, c) := hi
        simp [course, runner, ha, hi']
      refine .inr ⟨x, ha, .inl ⟨by rw [hc], by rw [hc], ?_, rfl, ?_⟩⟩
      · simp [deeds, afterRun, hc, Runner.changeDeeds, Runner.change, Runner.revert]
      · exact Bus.announcements_publish (by simp) e.bench.bus
    · have hc : e.course (.tick clerk) = ⟨some (.succeeded x),
          if c.doOnce.toList = [] then [] else clerk.changes c.doOnce.toList e.bench.succeed⟩ := by
        have hi' : e.invoke x = (.ok (), c) := hi
        simp [course, runner, ha, hi']
      have hann : e.bench.succeed.bus.announcements = e.bench.bus.announcements +
          if e.runner.succeed.streak = Runner.threshold then 1 else 0 := by
        unfold Workbench.succeed
        change _ = _ + if e.bench.runner.succeed.streak = Runner.threshold then 1 else 0
        split
        · exact Bus.announcements_publish_stable e.bench.bus
        · rfl
      refine .inr ⟨x, ha, .inr ⟨by rw [hc], by simp [deeds, afterRun, hc], ?_⟩⟩
      rw [hc, ← hann]
      by_cases hl : c.doOnce.toList = []
      · simp [hl, runner]
      · simp [hl, runner, clerk.runner, clerk.announcements]
  | change c => exact .inl ⟨rfl, by simp [deeds, afterRun, course], rfl, rfl⟩
  | _ => exact .inl ⟨rfl, rfl, rfl, rfl⟩

end Engine

/-! ## The runner and its history -/

/-- The last thing that happened, but for `n` runs without a failure, is that this routine was made
active. -/
def Streak (x : Installed) (n : Nat) (h : List Deed) : Prop :=
  ∃ rest, h = List.replicate n (.succeeded x) ++ .activated (some x) :: rest

theorem Streak.succ {x : Installed} {n : Nat} {h : List Deed} (hs : Streak x n h) :
    Streak x (n + 1) (.succeeded x :: h) := by
  obtain ⟨rest, rfl⟩ := hs
  exact ⟨rest, rfl⟩

/-- The history tells how many runs there were. -/
theorem Streak.unique {x : Installed} {n m : Nat} {h : List Deed} (hn : Streak x n h)
    (hm : Streak x m h) : n = m := by
  induction n generalizing m h with
  | zero =>
    obtain ⟨rest, rfl⟩ := hn
    cases m with
    | zero => rfl
    | succ m =>
      obtain ⟨rest', hm⟩ := hm
      cases hm
  | succ n ih =>
    obtain ⟨rest, rfl⟩ := hn
    cases m with
    | zero =>
      obtain ⟨rest', hm⟩ := hm
      cases hm
    | succ m =>
      obtain ⟨rest', hm⟩ := hm
      exact congrArg (· + 1) (ih ⟨rest, rfl⟩ ⟨rest', (List.cons.inj hm).2⟩)

namespace Runner

/-- The streak counts the runs since the active routine was made active, and once it has come to the
threshold, the active routine is the stable one. -/
structure Traced (r : Runner) (h : List Deed) : Prop where
  idle : r.active = none → r.streak = 0
  streak : ∀ x, r.active = some x → ∃ n, r.streak = min n maxStreak ∧ Streak x n h
  stable : threshold ≤ r.streak → r.stable = r.active

/-- A change begins a new streak, whatever was before. -/
theorem change_traced (r : Runner) (c : Change) (h : List Deed) :
    (r.change c).Traced (.activated (r.change c).active :: h) where
  idle _ := r.change_streak c
  streak x hx := ⟨0, by simp, h, by rw [hx]; rfl⟩
  stable hs := by
    rw [r.change_streak c] at hs
    cases hs

theorem Traced.changeAll {r : Runner} {h : List Deed} (ht : r.Traced h) (cs : List Change) :
    (r.changeAll cs).Traced (r.changeDeeds cs ++ h) := by
  induction cs generalizing r h with
  | nil => exact ht
  | cons c cs ih =>
    have := ih (r.change_traced c h)
    simpa [changeDeeds] using this

/-- The streak grows to the threshold and beyond, and never comes back to it. -/
theorem succeed_streak_eq_threshold_iff (r : Runner) :
    r.succeed.streak = threshold ↔ r.streak + 1 = threshold := by
  simp only [succeed, threshold, maxStreak, UInt32.size]
  omega

theorem succeed_streak_le (r : Runner) : r.succeed.streak ≤ r.streak + 1 := Nat.min_le_left _ _

/-- A streak at the threshold goes beyond it and stays there. -/
theorem threshold_lt_succeed {r : Runner} (h : threshold ≤ r.streak) : threshold < r.succeed.streak := by
  simp only [succeed, threshold, maxStreak, UInt32.size] at *
  omega

theorem Traced.succeed {r : Runner} {h : List Deed} {x : Installed} (ht : r.Traced h)
    (hx : r.active = some x) : r.succeed.Traced (.succeeded x :: h) where
  idle hn := by
    rw [succeed_active, hx] at hn
    cases hn
  streak y hy := by
    rw [succeed_active, hx] at hy
    obtain rfl := Option.some.inj hy
    obtain ⟨n, hn, hs⟩ := ht.streak x hx
    refine ⟨n + 1, ?_, hs.succ⟩
    simp only [Runner.succeed, hn]
    omega
  stable hs := by
    rw [succeed_stable]
    split
    · rfl
    · refine ht.stable ?_
      rw [succeed_streak_eq_threshold_iff] at *
      have := r.succeed_streak_le
      omega

/-- The run that brings the streak to the threshold is the fifth in a row. -/
theorem Traced.promotes_iff {r : Runner} {h : List Deed} {x : Installed} (ht : r.Traced h)
    (hx : r.active = some x) : r.succeed.streak = threshold ↔ Streak x 4 h := by
  obtain ⟨n, hn, hs⟩ := ht.streak x hx
  rw [succeed_streak_eq_threshold_iff, hn]
  constructor
  · intro h5
    simp only [threshold, maxStreak, UInt32.size] at h5
    rwa [show n = 4 by omega] at hs
  · intro h4
    rw [hs.unique h4]
    rfl

/-- A run of the active routine will not make it stable, unless another one is made active before. -/
def Spent (r : Runner) : Prop := r.active = none ∨ threshold ≤ r.streak

theorem Spent.succeed {r : Runner} (h : r.Spent) : r.succeed.Spent :=
  h.imp id fun hs => Nat.le_of_lt (threshold_lt_succeed hs)

theorem Spent.changeAll {r : Runner} (h : r.Spent) {cs : List Change}
    (hcs : ∀ x, .activated (some x) ∉ r.changeDeeds cs) : (r.changeAll cs).Spent := by
  induction cs generalizing r with
  | nil => exact h
  | cons c cs ih =>
    have hnone : (r.change c).active = none := by
      rw [Option.eq_none_iff_forall_ne_some]
      intro x hx
      exact hcs x (by simp [changeDeeds, hx])
    exact ih (.inl hnone) fun x hx => hcs x (List.mem_append_left _ hx)

end Runner

namespace Engine

variable {δ : Type}

theorem Traced.step {e : Engine δ} {h : List Deed} (ht : e.runner.Traced h) (o : Order δ) :
    (e.step o).runner.Traced (e.deeds o ++ h) := by
  rcases e.step_cases o with ⟨-, hd, hr, -⟩ | ⟨x, hx, ⟨-, -, hd, hr, -⟩ | ⟨-, hd, hr, -⟩⟩
  · rw [hd, hr]
    exact ht.changeAll _
  · rw [hd, hr]
    exact e.runner.change_traced .revert (.failed x :: h)
  · rw [hd, hr, List.append_assoc]
    exact (ht.succeed hx).changeAll _

theorem run_traced (s : Scheduler) (bus : Bus) (desk : δ) (orders : List (Order δ)) :
    ((fresh s bus desk).run orders).runner.Traced ((fresh s bus desk).history orders) := by
  induction orders using List.reverseRecOn with
  | nil =>
    refine ⟨fun _ => rfl, fun x hx => ?_, fun hs => ?_⟩
    · cases hx
    · cases hs
  | append_singleton orders o ih =>
    rw [run_append, history_append]
    exact Traced.step ih o

/-- The order makes this routine run without a failure, the fifth time in a row since the routine was made
active. -/
def IsFifth (e : Engine δ) (h : List Deed) (o : Order δ) (x : Installed) : Prop :=
  (e.course o).ran = some (.succeeded x) ∧ Streak x 4 h

/-- An order that runs a routine for the fifth time makes it stable and announces it, unless a change that
comes with it makes the runner forget its routines. Any other order makes no routine stable. -/
theorem step_promotes {e : Engine δ} {h : List Deed} (ht : e.runner.Traced h) (o : Order δ) :
    (∃ x, e.IsFifth h o x ∧
        (e.step o).runner.stable =
          (if (e.course o).changes.any Change.clears then none else some x) ∧
        (e.step o).bench.bus.announcements = e.bench.bus.announcements + 1) ∨
      ((∀ x, ¬e.IsFifth h o x) ∧
        (e.step o).runner.stable =
          (if (e.course o).changes.any Change.clears then none else e.runner.stable) ∧
        (e.step o).bench.bus.announcements = e.bench.bus.announcements) := by
  rcases e.step_cases o with ⟨hran, -, hr, ha⟩ | ⟨x, hx, ⟨hran, hc, -, hr, ha⟩ | ⟨hran, -, hr, ha⟩⟩
  · refine .inr ⟨fun x hf => ?_, by rw [hr, Runner.changeAll_stable], ha⟩
    cases hran.symm.trans hf.1
  · refine .inr ⟨fun x hf => ?_, by rw [hr, hc]; rfl, ha⟩
    cases hran.symm.trans hf.1
  · rw [hr, ha, Runner.changeAll_stable, Runner.succeed_stable]
    by_cases h5 : e.runner.succeed.streak = Runner.threshold
    · refine .inl ⟨x, ⟨hran, (ht.promotes_iff hx).1 h5⟩, ?_⟩
      simp [h5, hx]
    · refine .inr ⟨fun y hf => h5 ((ht.promotes_iff hx).2 ?_), by simp [h5]⟩
      cases hran.symm.trans hf.1
      exact hf.2

theorem step_spent {e : Engine δ} {o : Order δ} (h : e.runner.Spent)
    (ho : ∀ x, .activated (some x) ∉ e.deeds o) : (e.step o).runner.Spent := by
  rcases e.step_cases o with ⟨-, hd, hr, -⟩ | ⟨x, -, ⟨-, -, hd, hr, -⟩ | ⟨-, hd, hr, -⟩⟩ <;>
    rw [hd] at ho <;> rw [hr]
  · exact h.changeAll ho
  · refine .inl ?_
    change e.runner.stable = none
    rw [Option.eq_none_iff_forall_ne_some]
    intro y hy
    exact ho y (by simp [hy])
  · exact h.succeed.changeAll fun y hy => ho y (List.mem_append_left _ hy)

/-- An order makes one announcement at most. It does so with a runner that is not spent, and leaves one that
is, unless it makes a routine active after the run. -/
theorem step_announcements (e : Engine δ) (o : Order δ) :
    (e.step o).bench.bus.announcements = e.bench.bus.announcements ∨
      ((e.step o).bench.bus.announcements = e.bench.bus.announcements + 1 ∧ ¬e.runner.Spent ∧
        ((∀ x, .activated (some x) ∉ e.deeds o) → (e.step o).runner.Spent)) := by
  rcases e.step_cases o with ⟨-, -, -, ha⟩ | ⟨x, hx, ⟨-, -, -, -, ha⟩ | ⟨-, hd, hr, ha⟩⟩
  · exact .inl ha
  · exact .inl ha
  · by_cases h5 : e.runner.succeed.streak = Runner.threshold
    · refine .inr ⟨by rw [ha, if_pos h5], ?_, fun ho => ?_⟩
      · rintro (hn | hs)
        · cases hx.symm.trans hn
        · exact Nat.ne_of_gt (Runner.threshold_lt_succeed hs) h5
      · have hspent : e.runner.succeed.Spent := .inr (Nat.le_of_eq h5.symm)
        rw [hd] at ho
        rw [hr]
        exact hspent.changeAll fun y hy => ho y (List.mem_append_left _ hy)
    · exact .inl (by rw [ha, if_neg h5, Nat.add_zero])

/-- As long as no routine is made active, there is one announcement at most, and after it none can come. -/
theorem run_announcements (e : Engine δ) {more : List (Order δ)}
    (hmore : ∀ x, .activated (some x) ∉ e.history more) :
    (e.run more).bench.bus.announcements = e.bench.bus.announcements ∨
      ((e.run more).bench.bus.announcements = e.bench.bus.announcements + 1 ∧
        (e.run more).runner.Spent) := by
  induction more using List.reverseRecOn with
  | nil => exact .inl rfl
  | append_singleton more o ih =>
    rw [history_append] at hmore
    have ih := ih fun x hx => hmore x (List.mem_append_right _ hx)
    have ho : ∀ x, .activated (some x) ∉ (e.run more).deeds o :=
      fun x hx => hmore x (List.mem_append_left _ hx)
    rw [run_append]
    rcases (e.run more).step_announcements o with hl | ⟨hl, hspent, hthen⟩ <;>
      rcases ih with h | ⟨h, hs⟩
    · exact .inl (hl.trans h)
    · exact .inr ⟨hl.trans h, step_spent hs ho⟩
    · exact .inr ⟨by rw [hl, h], hthen ho⟩
    · exact absurd hs hspent

/-- **A routine becomes stable with its fifth run in a row, and only then.** Whatever orders a new loop is
given, and whatever the bookkeeping does: once the streak has come to the threshold, the active routine is
the stable one. Whatever the next order is, it makes a routine stable and announces it exactly if it runs the
active routine for the fifth time since that was made active, with no failure in between; otherwise the
stable routine stays as it is or is forgotten. And until a routine is made active again there is no second
announcement, however long that takes. -/
theorem promotion (s : Scheduler) (bus : Bus) (desk : δ) (orders : List (Order δ)) :
    let e := (fresh s bus desk).run orders
    let h := (fresh s bus desk).history orders
    (Runner.threshold ≤ e.runner.streak → e.runner.active.isSome ∧ e.runner.stable = e.runner.active) ∧
      (∀ o,
        (∃ x, e.IsFifth h o x ∧
          (e.step o).runner.stable =
            (if (e.course o).changes.any Change.clears then none else some x) ∧
          (e.step o).bench.bus.announcements = e.bench.bus.announcements + 1) ∨
        ((∀ x, ¬e.IsFifth h o x) ∧
          (e.step o).runner.stable =
            (if (e.course o).changes.any Change.clears then none else e.runner.stable) ∧
          (e.step o).bench.bus.announcements = e.bench.bus.announcements)) ∧
      ∀ more last, (∀ x, .activated (some x) ∉ e.history more) →
        ((e.run more).step last).bench.bus.announcements ≤ e.bench.bus.announcements + 1 := by
  intro e h
  have ht : e.runner.Traced h := run_traced s bus desk orders
  refine ⟨fun hs => ⟨?_, ht.stable hs⟩, step_promotes ht, fun more last hmore => ?_⟩
  · rw [Option.isSome_iff_ne_none]
    intro hn
    rw [ht.idle hn] at hs
    cases hs
  · rcases (e.run more).step_announcements last with hl | ⟨hl, hspent, -⟩ <;>
      rcases e.run_announcements hmore with ha | ⟨ha, hs⟩
    · omega
    · omega
    · omega
    · exact absurd hs hspent

/-- A routine that does nothing has run three times, was installed again and has run four times since. -/
def fourTicks : List (Order Document) :=
  [.change (.install .idle), .start, .tick .none, .tick .none, .tick .none,
    .change (.install .idle), .tick .headers, .tick .none, .stop, .tick .headers, .tick .none]

/-- The next tick makes the second installation stable, not the first one. -/
theorem promotion_fourTicks :
    let e := (fresh (.ofSeed .asFastAsPossible 0 0) {} {}).run fourTicks
    e.runner.stable = none ∧ e.bench.bus.announcements = 0 ∧
      (e.step (.tick .headers)).runner.stable = some ⟨1, .idle⟩ ∧
      (e.step (.tick .headers)).bench.bus.announcements = 1 := by
  intro e
  have hfifth : e.IsFifth ((fresh (.ofSeed .asFastAsPossible 0 0) {} {}).history fourTicks)
      (.tick .headers) ⟨1, .idle⟩ := ⟨rfl, _, rfl⟩
  refine ⟨rfl, rfl, ?_⟩
  rcases (promotion (.ofSeed .asFastAsPossible 0 0) {} {} fourTicks).2.1 (.tick .headers) with
    ⟨x, hx, hstable, ha⟩ | ⟨hno, -⟩
  · cases hx.1
    exact ⟨hstable, ha⟩
  · exact absurd hfifth (hno _)

end Engine

end LiveSketch.Live

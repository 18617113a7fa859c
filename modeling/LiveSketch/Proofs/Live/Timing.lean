import LiveSketch.Proofs.Live.Failing
import LiveSketch.Proofs.Live.Promotion
import LiveSketch.Proofs.Number.Order
import LiveSketch.Proofs.Script.Assignments

/-!
# Time and frames

The time that a routine sees is counted from a clock reading, the origin. The loop takes it when frame zero is due
and when a tick has been shown as frame zero; starting anew and going idle make frame zero due. So if the clock
never goes back, the time is not negative, and it does not go back either as long as none of this happens; and the
frames follow one another, but for those that a routine assigns (`Engine.time_and_frame`). This takes finite
readings: at an infinite one the time of frame zero is not even a number (`Engine.time_infinite`).

`Scheduler.tick_cases_frame` says what a tick does to the frame that is due and to the origin, and
`Engine.step_cases_frame` what any order does. Every origin is one of the readings (`Engine.run_origin`).
-/
namespace LiveSketch.Live

open Script (Context FrameGlobals)

variable {δ : Type}

/-! ## The frame that is due -/

namespace Scheduler

/-- The reading from which the time of the next run is counted. -/
def base (s : Scheduler) : Float := if s.frame.frame = 0 then s.now else s.frame.origin

theorem setOrigin_frame (s : Scheduler) :
    s.setOrigin.frame = { s.frame with origin := s.base } ∧ s.setOrigin.now = s.now := by
  unfold setOrigin base
  split <;> exact ⟨rfl, rfl⟩

theorem prepare_frame (s : Scheduler) (r : Runner) :
    (s.prepare r).frame = ⟨s.frame.frame, s.base, s.now - s.base⟩ ∧ (s.prepare r).now = s.now := by
  have hm : ∀ s : Scheduler, s.measure.frame = ⟨s.frame.frame, s.base, s.now - s.base⟩ ∧
      s.measure.now = s.now := by
    intro s
    obtain ⟨hframe, hnow⟩ := s.setOrigin_frame
    simp only [measure, hframe, hnow, and_self]
  unfold prepare
  split
  · exact hm s.arm.beginFrame
  · exact hm s.beginFrame

theorem jump_frame (s : Scheduler) (assigned : Option Nat) :
    let shown := assigned.getD s.frame.frame
    (s.jump assigned).frame =
        ⟨shown, if shown = 0 then s.now else s.frame.origin, s.frame.elapsed⟩ ∧ (s.jump assigned).now = s.now :=
  setOrigin_frame { s with frame := { s.frame with frame := assigned.getD s.frame.frame } }

variable (keep : Bookkeeping δ) (s : Scheduler) {w : Workbench δ} {x : Installed}
  {c : Context (Recorder Float)}

/-- A run that fails leaves its frame due. -/
theorem tick_failed {fault : RuntimeFault} (hx : w.runner.active = some x)
    (hc : x.routine.invoke Recorder.command { (s.prepare w.runner).context with doOnce := .empty } =
      (.error fault, c)) :
    (s.tick keep w).1 = .failed fault ∧
      (s.tick keep w).2.1.frame = ⟨s.frame.frame, s.base, s.now - s.base⟩ ∧
      (s.tick keep w).2.1.now = s.now := by
  have hrun : w.runner.tick Recorder.command (s.prepare w.runner).context =
      (.failed fault, w.runner, { c with doOnce := .empty }) := by
    have hr : (x.routine.invoke Recorder.command).run
        { (s.prepare w.runner).context with doOnce := .empty } = (.error fault, c) := hc
    simp only [Runner.tick, hx, hr]
  have htick : s.tick keep w = finish keep c.globals.assigned
      ((s.prepare w.runner).takeBack { c with doOnce := .empty }) { w with runner := w.runner }
      (.failed fault) := by simp only [tick, hrun]
  rw [htick]
  exact ⟨rfl, s.prepare_frame w.runner⟩

/-- A run that succeeds is shown as the frame that it has assigned, or else as the one that was due, and makes the
next one due. -/
theorem tick_rendered (hx : w.runner.active = some x)
    (hc : x.routine.invoke Recorder.command { (s.prepare w.runner).context with doOnce := .empty } = (.ok (), c)) :
    let shown := c.globals.assigned.getD s.frame.frame
    (s.tick keep w).1 = .rendered shown ∧
      (s.tick keep w).2.1.frame =
        ⟨Live.nextFrame shown, if shown = 0 then s.now else s.base, s.now - s.base⟩ ∧
      (s.tick keep w).2.1.now = s.now ∧
      (s.tick keep w).2.1.screen.frames.toList = s.screen.frames.toList ++ [(shown, c.graphics.scene)] := by
  have hrun : w.runner.tick Recorder.command (s.prepare w.runner).context =
      (.ran (w.runner.succeed.streak == Runner.threshold) c.doOnce.toList, w.runner.succeed,
        { c with doOnce := .empty }) := by
    have hr : (x.routine.invoke Recorder.command).run
        { (s.prepare w.runner).context with doOnce := .empty } = (.ok (), c) := hc
    simp only [Runner.tick, hx, hr]
  obtain ⟨hframe, hnow⟩ := s.prepare_frame w.runner
  obtain ⟨-, hframes, -⟩ := s.prepare_output w.runner
  let s' := (s.prepare w.runner).takeBack { c with doOnce := .empty }
  have hframe' : s'.frame = ⟨s.frame.frame, s.base, s.now - s.base⟩ := hframe
  have hnow' : s'.now = s.now := hnow
  have hscreen : (s'.jump c.globals.assigned).screen.frames = s.screen.frames ∧
      (s'.jump c.globals.assigned).scene = c.graphics.scene := by
    unfold jump setOrigin
    split <;> exact ⟨hframes, rfl⟩
  obtain ⟨hjump, hjumpnow⟩ := s'.jump_frame c.globals.assigned
  rw [hframe', hnow'] at hjump
  have htick : s.tick keep w = (.rendered (s'.jump c.globals.assigned).frame.frame,
      (s'.jump c.globals.assigned).nextFrame.present (s'.jump c.globals.assigned).frame.frame,
      (finish keep c.globals.assigned s' { w with runner := w.runner.succeed }
        (.ran (w.runner.succeed.streak == Runner.threshold) c.doOnce.toList)).2.2) := by
    simp only [tick, hrun]
    rfl
  rw [htick, hjump]
  refine ⟨rfl, ?_, ?_, ?_⟩
  · change ({ (s'.jump c.globals.assigned).frame with
      frame := Live.nextFrame (s'.jump c.globals.assigned).frame.frame } : FrameState) = _
    rw [hjump]
  · exact hjumpnow.trans hnow'
  · rw [← hscreen.1, ← hscreen.2]
    exact Log.toList_push _ _

end Scheduler

namespace Engine

/-! ## Orders -/

/-- What the routine sees of the frame in the next tick. -/
def seen (e : Engine δ) : FrameGlobals := (e.scheduler.prepare e.runner).context.globals

/-- The frames that a routine would assign in the next tick. -/
def assignments (e : Engine δ) (x : Installed) : List Nat :=
  x.routine.assignments Recorder.command { (e.scheduler.prepare e.runner).context with doOnce := .empty }

/-- What comes of an order, if it is a tick. -/
def report? (e : Engine δ) : Order δ → Option Report
  | .tick clerk => some (e.scheduler.tick clerk.keep e.bench).1
  | _ => none

/-- The frame that an order shows, if it is a tick that runs a routine without a failure. -/
def shown? (e : Engine δ) (o : Order δ) : Option Nat :=
  match e.report? o with
  | some (.rendered n) => some n
  | _ => none

/-- The order makes frame zero due: the loop is started, woken from being idle, or goes idle. -/
def Rewinds (e : Engine δ) : Order δ → Prop
  | .start => True
  | .wake => e.scheduler.state = .idle
  | .tick clerk => e.report? (.tick clerk) = some .dozed
  | _ => False

/-- The order lets the frames go on: none is made to be zero, and none is shown as zero. -/
def Continues (e : Engine δ) (o : Order δ) : Prop := ¬e.Rewinds o ∧ e.shown? o ≠ some 0

/-- The order lets the frame that is due wait: it is not made to be zero, and no frame is shown. -/
def Waits (e : Engine δ) (o : Order δ) : Prop := ¬e.Rewinds o ∧ e.shown? o = none

/-- Each order, given to the loop as it then is, has this property. -/
def Throughout (P : Engine δ → Order δ → Prop) (e : Engine δ) : List (Order δ) → Prop
  | [] => True
  | o :: orders => P e o ∧ (e.step o).Throughout P orders

instance (e : Engine δ) : DecidablePred e.Rewinds
  | .start => .isTrue trivial
  | .wake => inferInstanceAs (Decidable (_ = _))
  | .tick _ => inferInstanceAs (Decidable (_ = _))
  | .change _ | .stop | .wait | .setTime _ => .isFalse id

instance (e : Engine δ) : DecidablePred e.Continues := fun _ => inferInstanceAs (Decidable (_ ∧ _))

instance (e : Engine δ) : DecidablePred e.Waits := fun _ => inferInstanceAs (Decidable (_ ∧ _))

/-- Whether all orders have a property can be decided by giving them. -/
def Throughout.decide (P : Engine δ → Order δ → Prop) [∀ e, DecidablePred (P e)] (e : Engine δ) :
    (orders : List (Order δ)) → Decidable (e.Throughout P orders)
  | [] => .isTrue trivial
  | o :: orders =>
    have := Throughout.decide P (e.step o) orders
    inferInstanceAs (Decidable (_ ∧ _))

instance (P : Engine δ → Order δ → Prop) [∀ e, DecidablePred (P e)] (e : Engine δ) :
    DecidablePred (e.Throughout P) := Throughout.decide P e

/-- The reading of the clock that an order takes, if it is a tick. -/
def reading (e : Engine δ) : Order δ → List Float
  | .tick _ => [e.scheduler.now]
  | _ => []

/-- The readings of the clock, one for each tick. -/
def readings (e : Engine δ) : List (Order δ) → List Float
  | [] => []
  | o :: orders => e.reading o ++ (e.step o).readings orders

theorem readings_append (e : Engine δ) (orders orders' : List (Order δ)) :
    e.readings (orders ++ orders') = e.readings orders ++ (e.run orders).readings orders' := by
  induction orders generalizing e with
  | nil => rfl
  | cons o orders ih => rw [List.cons_append, readings, readings, ih, List.append_assoc]; rfl

theorem seen_eq (e : Engine δ) :
    e.seen = ⟨e.scheduler.frame.frame, e.scheduler.now - e.scheduler.base, none⟩ := by
  have h := (e.scheduler.prepare_frame e.runner).1
  simp only [seen, Scheduler.context, h]

/-- A routine sees the same frame and time all the while, whatever it assigns. -/
theorem invoke_seen (e : Engine δ) (x : Installed) :
    (e.invoke x).2.globals = { e.seen with assigned := (e.assignments x).getLast? } := by
  have h := x.routine.invoke_globals Recorder.command
    { (e.scheduler.prepare e.runner).context with doOnce := .empty }
  have hnone : e.seen.assigned = none := by rw [seen_eq]
  change (e.invoke x).2.globals = { e.seen with
    assigned := (e.assignments x).getLast?.or e.seen.assigned } at h
  rw [h, hnone, Option.or_none]

/-- A run that fails is not shown, and its frame stays due. -/
theorem step_failed {e : Engine δ} {x : Installed} {fault : RuntimeFault} (clerk : Clerk δ)
    (hx : e.runner.active = some x) (h : (e.invoke x).1 = .error fault) :
    e.report? (.tick clerk) = some (.failed fault) ∧
      (e.step (.tick clerk)).scheduler.frame = ⟨e.scheduler.frame.frame, e.scheduler.base, e.seen.time⟩ := by
  obtain ⟨hreport, hframe, -⟩ := Scheduler.tick_failed clerk.keep e.scheduler hx
    (show e.invoke x = (.error fault, (e.invoke x).2) from Prod.ext h rfl)
  rw [seen_eq]
  exact ⟨congrArg some hreport, hframe⟩

/-- A run that succeeds is shown as the frame that it has assigned last, or else as the one that was due. -/
theorem step_rendered {e : Engine δ} {x : Installed} (clerk : Clerk δ) (hx : e.runner.active = some x)
    (h : (e.invoke x).1 = .ok ()) :
    let shown := (e.assignments x).getLast?.getD e.seen.frame
    e.report? (.tick clerk) = some (.rendered shown) ∧
      (e.step (.tick clerk)).scheduler.frame =
        ⟨nextFrame shown, if shown = 0 then e.scheduler.now else e.scheduler.base, e.seen.time⟩ ∧
      (e.step (.tick clerk)).scheduler.screen.frames.toList =
        e.scheduler.screen.frames.toList ++ [(shown, (e.invoke x).2.graphics.scene)] := by
  obtain ⟨hreport, hframe, -, hscreen⟩ := Scheduler.tick_rendered clerk.keep e.scheduler hx
    (show e.invoke x = (.ok (), (e.invoke x).2) from Prod.ext h rfl)
  rw [e.invoke_seen x] at hreport hframe hscreen
  rw [seen_eq]
  exact ⟨congrArg some hreport, hframe, hscreen⟩

/-- What an order does to the frame that is due and to the origin. -/
theorem step_cases_frame (e : Engine δ) (o : Order δ) :
    (e.Rewinds o ∧ e.shown? o = none ∧ (e.step o).scheduler.frame = {}) ∨
    (e.shown? o = none ∧ (e.step o).scheduler.frame = e.scheduler.frame) ∨
    ∃ clerk, o = .tick clerk ∧
      ((e.shown? o = none ∧
          (e.step o).scheduler.frame = ⟨e.scheduler.frame.frame, e.scheduler.base, e.seen.time⟩) ∨
        ∃ shown, e.shown? o = some shown ∧
          (e.step o).scheduler.frame =
            ⟨nextFrame shown, if shown = 0 then e.scheduler.now else e.scheduler.base, e.seen.time⟩) := by
  cases o with
  | change c => exact .inr (.inl ⟨rfl, rfl⟩)
  | start => exact .inl ⟨trivial, rfl, rfl⟩
  | stop => exact .inr (.inl ⟨rfl, rfl⟩)
  | wake =>
    rcases e.scheduler.wake_cases with ⟨hs, h⟩ | ⟨-, h⟩
    · exact .inl ⟨hs, rfl, by rw [step, h]; rfl⟩
    · exact .inr (.inl ⟨rfl, by rw [step, h]⟩)
  | wait => exact .inr (.inl ⟨rfl, rfl⟩)
  | setTime ms => exact .inr (.inl ⟨rfl, rfl⟩)
  | tick clerk =>
    cases hx : e.runner.active with
    | none =>
      have hreport : e.report? (.tick clerk) = some .dozed := by
        have hx' : e.bench.runner.active = none := hx
        simp [report?, Scheduler.tick, Runner.tick, hx', Scheduler.finish]
      exact .inl ⟨hreport, by rw [shown?, hreport], e.scheduler.tick_frame clerk.keep hx⟩
    | some x =>
      rcases hout : (e.invoke x).1 with fault | u
      · obtain ⟨hreport, hframe⟩ := step_failed clerk hx hout
        exact .inr (.inr ⟨clerk, rfl, .inl ⟨by rw [shown?, hreport], hframe⟩⟩)
      · obtain ⟨hreport, hframe, -⟩ := step_rendered clerk hx hout
        exact .inr (.inr ⟨clerk, rfl, .inr ⟨_, by rw [shown?, hreport], hframe⟩⟩)

/-- A tick that is shown makes the next frame due. -/
theorem step_shown {e : Engine δ} {o : Order δ} {shown : Nat} (h : e.shown? o = some shown) :
    (e.step o).scheduler.frame.frame = nextFrame shown := by
  rcases e.step_cases_frame o with ⟨-, hn, -⟩ | ⟨hn, -⟩ | ⟨clerk, -, ⟨hn, -⟩ | ⟨n, hn, hs⟩⟩
  · cases hn.symm.trans h
  · cases hn.symm.trans h
  · cases hn.symm.trans h
  · cases hn.symm.trans h
    rw [hs]

/-! ## Whole runs -/

/-- The base of the next run is one of the readings, the next one included. -/
theorem base_mem {e : Engine δ} {ts : List Float}
    (h : e.scheduler.frame.frame ≠ 0 → e.scheduler.frame.origin ∈ ts) :
    e.scheduler.base ∈ ts ++ [e.scheduler.now] := by
  unfold Scheduler.base
  split
  · exact List.mem_append_right _ (List.mem_singleton_self _)
  · exact List.mem_append_left _ (h ‹_›)

/-- Every origin is a reading of the clock: an order takes a new one, or leaves the origin as it is. -/
theorem run_origin (rate : FrameRate) (seed : UInt64) (now : Float) (bus : Bus) (desk : δ)
    (orders : List (Order δ)) :
    let e := (fresh (.ofSeed rate seed now) bus desk).run orders
    e.scheduler.frame.frame ≠ 0 →
      e.scheduler.frame.origin ∈ (fresh (.ofSeed rate seed now) bus desk).readings orders := by
  induction orders using List.reverseRecOn with
  | nil => exact fun h => absurd rfl h
  | append_singleton orders o ih =>
    have hreadings : (fresh (.ofSeed rate seed now) bus desk).readings (orders ++ [o]) =
        (fresh (.ofSeed rate seed now) bus desk).readings orders ++
          ((fresh (.ofSeed rate seed now) bus desk).run orders).reading o := by
      rw [readings_append, readings, readings, List.append_nil]
    intro e hframe
    rw [hreadings]
    simp only [e, run_append] at hframe ⊢
    rcases step_cases_frame _ o with ⟨-, -, hs⟩ | ⟨-, hs⟩ | ⟨clerk, rfl, ⟨-, hs⟩ | ⟨shown, -, hs⟩⟩
    · rw [hs] at hframe
      exact absurd rfl hframe
    · rw [hs] at hframe ⊢
      exact List.mem_append_left _ (ih hframe)
    · rw [hs]
      exact base_mem ih
    · rw [hs]
      by_cases h0 : shown = 0
      · simp only [h0, if_true]
        exact List.mem_append_right _ (List.mem_singleton_self _)
      · simp only [h0, if_false]
        exact base_mem ih

/-- The origin stays where it is. -/
theorem Throughout.origin {e : Engine δ} {orders : List (Order δ)} (h : e.Throughout Continues orders)
    (h0 : e.scheduler.frame.frame ≠ 0) :
    (e.run orders).scheduler.frame.frame ≠ 0 ∧
      (e.run orders).scheduler.frame.origin = e.scheduler.frame.origin := by
  induction orders generalizing e with
  | nil => exact ⟨h0, rfl⟩
  | cons o orders ih =>
    obtain ⟨⟨hrewinds, hzero⟩, hrest⟩ := h
    have hbase : e.scheduler.base = e.scheduler.frame.origin := if_neg h0
    have hstep : (e.step o).scheduler.frame.frame ≠ 0 ∧
        (e.step o).scheduler.frame.origin = e.scheduler.frame.origin := by
      rcases e.step_cases_frame o with ⟨hr, -⟩ | ⟨-, hs⟩ | ⟨clerk, rfl, ⟨-, hs⟩ | ⟨shown, hreport, hs⟩⟩
      · exact absurd hr hrewinds
      · rw [hs]
        exact ⟨h0, rfl⟩
      · rw [hs]
        exact ⟨h0, hbase⟩
      · have hshown : shown ≠ 0 := by
          rintro rfl
          exact hzero hreport
        rw [hs]
        refine ⟨?_, (if_neg hshown).trans hbase⟩
        simp only [nextFrame, Number.wordMax, UInt64.size]
        omega
    obtain ⟨hframe, horigin⟩ := ih hrest hstep.1
    exact ⟨hframe, horigin.trans hstep.2⟩

/-- The frame that is due stays due. -/
theorem Throughout.frame {e : Engine δ} {orders : List (Order δ)} (h : e.Throughout Waits orders) :
    (e.run orders).scheduler.frame.frame = e.scheduler.frame.frame := by
  induction orders generalizing e with
  | nil => rfl
  | cons o orders ih =>
    obtain ⟨⟨hrewinds, hshown⟩, hrest⟩ := h
    refine (ih hrest).trans ?_
    rcases e.step_cases_frame o with ⟨hr, -⟩ | ⟨-, hs⟩ | ⟨clerk, rfl, ⟨-, hs⟩ | ⟨shown, hreport, -⟩⟩
    · exact absurd hr hrewinds
    · rw [hs]
    · rw [hs]
    · cases hshown.symm.trans hreport

/-- The clock is read as finite times that never decrease. -/
structure Steady (ts : List Float) : Prop where
  finite : ∀ t ∈ ts, t.isFinite
  ordered : ts.Pairwise (· ≤ ·)

theorem Steady.last {ts : List Float} {now : Float} (h : Steady (ts ++ [now])) {t : Float}
    (ht : t ∈ ts) : t ≤ now :=
  (List.pairwise_append.1 h.ordered).2.2 t ht now (List.mem_singleton_self now)

/-- The time is counted from a reading, and from the last one for frame zero. -/
theorem seen_time {e : Engine δ} {ts : List Float} (hclock : Steady (ts ++ [e.scheduler.now]))
    (horigin : e.scheduler.frame.frame ≠ 0 → e.scheduler.frame.origin ∈ ts) :
    0 ≤ e.seen.time ∧ (e.seen.frame = 0 → e.seen.time = 0) := by
  have hnow : e.scheduler.now.isFinite :=
    hclock.finite _ (List.mem_append_right _ (List.mem_singleton_self _))
  rw [seen_eq]
  by_cases h0 : e.scheduler.frame.frame = 0
  · have hzero : e.scheduler.now - e.scheduler.base = 0 := by
      rw [Scheduler.base, if_pos h0]
      exact Number.sub_self hnow
    refine ⟨?_, fun _ => hzero⟩
    dsimp only
    rw [hzero]
    decide
  · have hmem := horigin h0
    rw [Scheduler.base, if_neg h0]
    exact ⟨Number.sub_nonneg (hclock.finite _ (List.mem_append_left _ hmem)) hnow (hclock.last hmem),
      fun h => absurd h h0⟩

/-- The time does not decrease as long as it goes on. -/
theorem seen_time_le {e : Engine δ} {orders : List (Order δ)} {ts : List Float}
    (hclock : Steady (ts ++ [(e.run orders).scheduler.now])) (hearlier : e.scheduler.now ∈ ts)
    (horigin : (e.run orders).scheduler.frame.frame ≠ 0 → (e.run orders).scheduler.frame.origin ∈ ts)
    (hgo : e.Throughout Continues orders) : e.seen.time ≤ (e.run orders).seen.time := by
  by_cases h0 : e.scheduler.frame.frame = 0
  · -- the earlier time is zero
    have hzero : e.seen.time = 0 := by
      rw [seen_eq, Scheduler.base, if_pos h0]
      exact Number.sub_self (hclock.finite _ (List.mem_append_left _ hearlier))
    rw [hzero]
    exact (seen_time hclock horigin).1
  · -- both times are counted from one origin
    obtain ⟨h0', horigin'⟩ := hgo.origin h0
    have hmem := horigin h0'
    rw [seen_eq, seen_eq, Scheduler.base, if_neg h0, Scheduler.base, if_neg h0', ← horigin']
    exact Number.sub_le_sub (hclock.finite _ (List.mem_append_left _ hmem))
      (hclock.finite _ (List.mem_append_left _ hearlier))
      (hclock.finite _ (List.mem_append_right _ (List.mem_singleton_self _))) (hclock.last hearlier)

/-- **Time and frames go on.** A new loop is given any orders, and its clock is read as finite times that never
decrease. Then no run sees a negative time, and a run of frame zero sees the time zero; it sees its frame and its
time all the while. A tick is shown as the frame that its run has assigned last, or else as the one that it saw.
From one run to a later one the time does not decrease, as long as no order between makes frame zero due and nothing
is shown as frame zero; and the run after a tick that was shown, but for runs that fail and if no order between makes
frame zero due, sees the frame next to the shown one. -/
theorem time_and_frame (rate : FrameRate) (seed : UInt64) (now : Float) (bus : Bus) (desk : δ)
    {orders : List (Order δ)} {clerk : Clerk δ} {x : Installed}
    (hclock : Steady ((fresh (.ofSeed rate seed now) bus desk).readings (orders ++ [.tick clerk])))
    (hx : ((fresh (.ofSeed rate seed now) bus desk).run orders).runner.active = some x) :
    let e := (fresh (.ofSeed rate seed now) bus desk).run orders
    (0 ≤ e.seen.time ∧ (e.seen.frame = 0 → e.seen.time = 0)) ∧
      (e.invoke x).2.globals = { e.seen with assigned := (e.assignments x).getLast? } ∧
      ((e.invoke x).1 = .ok () →
        let shown := (e.assignments x).getLast?.getD e.seen.frame
        e.report? (.tick clerk) = some (.rendered shown) ∧
          (e.step (.tick clerk)).scheduler.screen.frames.toList =
            e.scheduler.screen.frames.toList ++ [(shown, (e.invoke x).2.graphics.scene)]) ∧
      ∀ before clerk' between, orders = before ++ .tick clerk' :: between →
        let e' := (fresh (.ofSeed rate seed now) bus desk).run before
        (e'.Throughout Continues (.tick clerk' :: between) → e'.seen.time ≤ e.seen.time) ∧
          ∀ shown, e'.shown? (.tick clerk') = some shown →
            (e'.step (.tick clerk')).Throughout Waits between → e.seen.frame = nextFrame shown := by
  intro e
  rw [readings_append] at hclock
  have horigin := run_origin rate seed now bus desk orders
  refine ⟨seen_time hclock horigin, e.invoke_seen x, fun hok => ?_, fun before clerk' between horders => ?_⟩
  · obtain ⟨hreport, -, hscreen⟩ := step_rendered clerk hx hok
    exact ⟨hreport, hscreen⟩
  · intro e'
    have hrun : e = e'.run (.tick clerk' :: between) := by
      simp only [e, e', horders, run, List.foldl_append]
    have hearlier : e'.scheduler.now ∈ (fresh (.ofSeed rate seed now) bus desk).readings orders := by
      rw [horders, readings_append]
      exact List.mem_append_right _ List.mem_cons_self
    refine ⟨fun hgo => ?_, fun shown hreport hwait => ?_⟩
    · rw [hrun]
      change Steady (_ ++ [e.scheduler.now]) at hclock
      rw [hrun] at hclock
      refine seen_time_le hclock hearlier ?_ hgo
      rw [← hrun]
      exact horigin
    · have hframe := hwait.frame
      have hrun' : e = (e'.step (.tick clerk')).run between := hrun
      rw [← hrun', step_shown hreport] at hframe
      rw [seen_eq]
      exact hframe

/-- A routine that assigns frame seven, and one that fails. -/
def jumping : Routine := ⟨some ⟨[.storeFrame ⟨[.const 0], [.number 4]⟩, .storeFrame ⟨[.const 0], [.number 7]⟩], []⟩⟩

def failing : Routine := ⟨some ⟨[.eval ⟨[.unknown 0 0], [.string "wobble"]⟩], []⟩⟩

/-- A tick that is shown as frame seven, one that fails, and time going on. -/
def interrupted : List (Order Document) :=
  [.setTime 5, .change (.install jumping), .start, .tick .none, .stop, .change (.install failing), .setTime 40,
    .tick .none, .change (.install jumping), .setTime 60]

/-- The next run sees frame eight, and a time no less than that of the failing run. -/
theorem time_and_frame_interrupted :
    let first : Engine Document := fresh (.ofSeed .asFastAsPossible 0 0) {} {}
    let e := first.run interrupted
    let e' := first.run (interrupted.take 7)
    e.seen.frame = 8 ∧ 0 ≤ e.seen.time ∧ e'.seen.time ≤ e.seen.time ∧
      e.report? (.tick .none) = some (.rendered 7) := by
  intro first e e'
  have hclock : Steady (first.readings (interrupted ++ [.tick .none])) :=
    ⟨by decide +kernel, by decide +kernel⟩
  have hrun : e.runner.active.isSome ∧ ∀ y ∈ e.runner.active,
      (e.invoke y).1 = .ok () ∧ (e.assignments y).getLast? = some 7 := by
    decide +kernel
  have hwaits : (first.run (interrupted.take 3)).shown? (.tick .none) = some 7 ∧
      ((first.run (interrupted.take 3)).step (.tick .none)).Throughout Waits (interrupted.drop 4) ∧
      e'.Throughout Continues (.tick .none :: interrupted.drop 8) := by
    decide +kernel
  obtain ⟨hactive, hrun⟩ := hrun
  obtain ⟨x, hx⟩ := Option.isSome_iff_exists.1 hactive
  obtain ⟨hok, hassigned⟩ := hrun x hx
  obtain ⟨⟨hnonneg, -⟩, -, hshown, hearlier⟩ :=
    @time_and_frame Document .asFastAsPossible 0 0 {} {} interrupted .none x hclock hx
  have hframe := (hearlier (interrupted.take 3) .none (interrupted.drop 4) rfl).2 7 hwaits.1 hwaits.2.1
  have htime := (hearlier (interrupted.take 7) .none (interrupted.drop 8) rfl).1 hwaits.2.2
  have hreport := (hshown hok).1
  rw [hassigned] at hreport
  exact ⟨hframe, hnonneg, htime, hreport⟩

/-- **An infinite clock.** Readings may be infinite and equal, so that they never decrease. Their difference is not a
number, and the run of frame zero does not see the time zero. -/
theorem time_infinite :
    (((fresh (.ofSeed .asFastAsPossible 0 (1 / 0)) {} {} : Engine Document).readings
        [.change (.install .idle), .start, .tick .none]).Pairwise (· ≤ ·)) ∧
      ((fresh (.ofSeed .asFastAsPossible 0 (1 / 0)) {} {} : Engine Document).run
        [.change (.install .idle), .start]).runner.active.isSome ∧
      ((fresh (.ofSeed .asFastAsPossible 0 (1 / 0)) {} {} : Engine Document).run
        [.change (.install .idle), .start]).seen.frame = 0 ∧
      ((fresh (.ofSeed .asFastAsPossible 0 (1 / 0)) {} {} : Engine Document).run
        [.change (.install .idle), .start]).seen.time ≠ 0 := by
  decide +kernel

end Engine

end LiveSketch.Live

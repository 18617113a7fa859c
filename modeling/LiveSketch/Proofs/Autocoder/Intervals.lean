import Mathlib.Data.List.Induction
import LiveSketch.Autocoder.Basic
import LiveSketch.Proofs.Number.Nearest

/-!
# When a variation is due

An autocoder is switched, asked whether a variation is due, and made to vary sketches, in any order (`Call`). The stored
instant is the reading of the call that started the current interval (`Started`): the first question after it was
switched on, or the last one that was answered with yes. Between two starts nothing moves it (`last_quiet`).

So no question is answered with yes before the interval from that call has passed, and every one after that is; and as
readings do not decrease, any two that are answered with yes lie an interval apart, also with others between them
(`due_paced`).
-/
namespace LiveSketch.Autocoder

/-- What an autocoder is told to do. -/
inductive Call where
  | toggle (forced : Option Bool)
  /-- It is asked whether a variation is due. -/
  | due (now : Float)
  | mutate (sketch : List Char)

namespace Call

def isToggle : Call → Bool
  | toggle _ => true
  | _ => false

def isDue : Call → Bool
  | due _ => true
  | _ => false

/-- The reading of the clock that comes with a question. -/
def reading? : Call → Option Float
  | due now => some now
  | _ => none

end Call

/-- The autocoder after a call. -/
def call (a : Autocoder) : Call → Autocoder
  | .toggle forced => a.toggle forced
  | .due now => (a.due now).2
  | .mutate sketch => (a.mutate sketch).2

/-- The autocoder after one call after another. -/
def after (a : Autocoder) (calls : List Call) : Autocoder := calls.foldl call a

/-- The call asks, and the answer is yes. -/
def fires (a : Autocoder) : Call → Bool
  | .due now => (a.due now).1
  | _ => false

/-- The readings of the clock, one for each question. -/
def readings (calls : List Call) : List Float := calls.filterMap Call.reading?

/-! ## What calls leave behind -/

/-- The autocoder was switched, and was not asked since. -/
def Unasked (calls : List Call) : Prop :=
  ∃ before forced later, calls = before ++ .toggle forced :: later ∧ ∀ c ∈ later, c.isDue = false

/-- The autocoder was switched, and was asked since. -/
def Asked (calls : List Call) : Prop :=
  ∃ before forced later, calls = before ++ .toggle forced :: later ∧ (∀ c ∈ later, c.isToggle = false) ∧
    ∃ c ∈ later, c.isDue = true

/-- No call switches the autocoder, and no question is answered with yes. -/
def Quiet : Autocoder → List Call → Prop
  | _, [] => True
  | a, c :: calls => (c.isToggle = false ∧ a.fires c = false) ∧ (a.call c).Quiet calls

/-- The last call that started an interval came with this reading: it was the first question after the autocoder was
switched on, or one that was answered with yes. -/
def Started (a : Autocoder) (calls : List Call) (t : Float) : Prop :=
  ∃ before between, calls = before ++ .due t :: between ∧ (a.after before).active = true ∧
    (Unasked before ∨ ((a.after before).due t).1 = true) ∧ ((a.after before).due t).2.Quiet between

/-! ## One call -/

theorem due_cases (a : Autocoder) (now : Float) :
    (a.active = false ∧ a.due now = (false, a)) ∨
    (a.active = true ∧ a.last = none ∧ a.due now = (false, { a with last := some now })) ∨
    ∃ t, a.active = true ∧ a.last = some t ∧
      ((now - t < interval ∧ a.due now = (false, a)) ∨
        (¬now - t < interval ∧ a.due now = (true, { a with last := some now }))) := by
  cases ha : a.active with
  | false => exact .inl ⟨rfl, by simp [due, ha]⟩
  | true =>
    cases hl : a.last with
    | none => exact .inr (.inl ⟨rfl, rfl, by simp [due, ha, hl]⟩)
    | some t =>
      refine .inr (.inr ⟨t, rfl, rfl, ?_⟩)
      by_cases hlt : now - t < interval
      · exact .inl ⟨hlt, by simp [due, ha, hl, hlt]⟩
      · exact .inr ⟨hlt, by simp [due, ha, hl, hlt]⟩

theorem due_of_last {a : Autocoder} {t : Float} (ha : a.active = true) (hl : a.last = some t) (now : Float) :
    (a.due now).1 = true ↔ ¬now - t < interval := by
  rcases a.due_cases now with ⟨hi, -⟩ | ⟨-, hn, -⟩ | ⟨t', -, hl', ⟨hlt, h⟩ | ⟨hlt, h⟩⟩
  · rw [ha] at hi
    cases hi
  · rw [hl] at hn
    cases hn
  all_goals
    obtain rfl : t = t' := Option.some.inj (hl.symm.trans hl')
    simp [h, hlt]

theorem fires_of_last {a : Autocoder} {t : Float} (ha : a.active = true) (hl : a.last = some t) (now : Float) :
    a.fires (.due now) = false ↔ now - t < interval := by
  rw [← Bool.not_eq_true, fires, due_of_last ha hl, Decidable.not_not]

@[simp] theorem due_active (a : Autocoder) (now : Float) : (a.due now).2.active = a.active := by
  rcases a.due_cases now with ⟨-, h⟩ | ⟨-, -, h⟩ | ⟨_, -, -, ⟨-, h⟩ | ⟨-, h⟩⟩ <;> rw [h]

theorem active_of_fires {a : Autocoder} {now : Float} (h : (a.due now).1 = true) : a.active = true := by
  rcases a.due_cases now with ⟨-, hd⟩ | ⟨-, -, hd⟩ | ⟨_, ha, -, -⟩
  · rw [hd] at h
    cases h
  · rw [hd] at h
    cases h
  · exact ha

/-- The reading of a question that starts an interval is stored. -/
theorem due_last {a : Autocoder} {now : Float} (ha : a.active = true)
    (h : a.last = none ∨ (a.due now).1 = true) : (a.due now).2.last = some now := by
  rcases a.due_cases now with ⟨hi, -⟩ | ⟨-, -, hd⟩ | ⟨t, -, hl, ⟨-, hd⟩ | ⟨-, hd⟩⟩
  · rw [ha] at hi
    cases hi
  · rw [hd]
  · rw [hd, hl] at h
    simp at h
  · rw [hd]

theorem mutate_paced (a : Autocoder) (sketch : List Char) :
    (a.mutate sketch).2.active = a.active ∧ (a.mutate sketch).2.last = a.last := by
  unfold mutate
  split
  · exact ⟨rfl, rfl⟩
  · dsimp only
    split <;> exact ⟨rfl, rfl⟩

/-- A call that does not switch the autocoder and is no question with the answer yes leaves the stored instant alone. -/
theorem call_quiet {a : Autocoder} {c : Call} {t : Float} (ha : a.active = true) (hl : a.last = some t)
    (ht : c.isToggle = false) (hf : a.fires c = false) :
    (a.call c).active = true ∧ (a.call c).last = some t := by
  cases c with
  | toggle forced => cases ht
  | due now =>
    have hlt : now - t < interval := (fires_of_last ha hl now).1 hf
    have hd : a.due now = (false, a) := by simp [due, ha, hl, hlt]
    rw [call, hd]
    exact ⟨ha, hl⟩
  | mutate sketch =>
    obtain ⟨hactive, hlast⟩ := a.mutate_paced sketch
    exact ⟨hactive.trans ha, hlast.trans hl⟩

/-! ## Calls one after another -/

@[simp] theorem after_append (a : Autocoder) (calls calls' : List Call) :
    a.after (calls ++ calls') = (a.after calls).after calls' := List.foldl_append

@[simp] theorem after_cons (a : Autocoder) (c : Call) (calls : List Call) :
    a.after (c :: calls) = (a.call c).after calls := rfl

theorem last_quiet {a : Autocoder} {calls : List Call} {t : Float} (ha : a.active = true) (hl : a.last = some t)
    (hq : a.Quiet calls) : (a.after calls).active = true ∧ (a.after calls).last = some t := by
  induction calls generalizing a with
  | nil => exact ⟨ha, hl⟩
  | cons c calls ih =>
    obtain ⟨⟨ht, hf⟩, hq⟩ := hq
    obtain ⟨ha', hl'⟩ := call_quiet ha hl ht hf
    exact ih ha' hl' hq

theorem last_unasked {a : Autocoder} {calls : List Call} (h : Unasked calls) : (a.after calls).last = none := by
  obtain ⟨before, forced, later, rfl, hlater⟩ := h
  rw [after_append, after_cons]
  have hnone : ((a.after before).call (.toggle forced)).last = none := rfl
  generalize (a.after before).call (.toggle forced) = b at hnone
  induction later generalizing b with
  | nil => exact hnone
  | cons c later ih =>
    refine ih (fun c' hc' => hlater c' (List.mem_cons_of_mem _ hc')) _ ?_
    cases c with
    | toggle forced => rfl
    | due now => cases hlater _ List.mem_cons_self
    | mutate sketch => exact (b.mutate_paced sketch).2.trans hnone

/-- The stored instant is the reading of the call that started the interval. -/
theorem Started.last {a : Autocoder} {calls : List Call} {t : Float} (h : a.Started calls t) :
    (a.after calls).active = true ∧ (a.after calls).last = some t := by
  obtain ⟨before, between, rfl, ha, hstart, hq⟩ := h
  rw [after_append, after_cons]
  refine last_quiet ((due_active _ t).trans ha) (due_last ha ?_) hq
  exact hstart.imp_left last_unasked

theorem quiet_concat {a : Autocoder} {calls : List Call} {c : Call} :
    a.Quiet (calls ++ [c]) ↔ a.Quiet calls ∧ c.isToggle = false ∧ (a.after calls).fires c = false := by
  induction calls generalizing a with
  | nil => exact and_comm
  | cons d calls ih =>
    rw [List.cons_append, Quiet, Quiet, ih, after_cons]
    exact and_assoc.symm

theorem call_active {a : Autocoder} {c : Call} (hc : c.isToggle = false) : (a.call c).active = a.active := by
  cases c with
  | toggle forced => cases hc
  | due now => exact due_active a now
  | mutate sketch => exact (a.mutate_paced sketch).1

/-- A question that is answered with yes starts an interval. -/
theorem started_of_fires {a : Autocoder} {calls : List Call} {c : Call} (h : (a.after calls).fires c = true) :
    ∃ t, a.Started (calls ++ [c]) t := by
  cases c with
  | due now => exact ⟨now, calls, [], rfl, active_of_fires h, .inr h, trivial⟩
  | _ => cases h

/-- Without being switched off an interval goes on, or the next one starts. -/
theorem started_concat {a : Autocoder} {calls : List Call} {c : Call} {t : Float} (h : a.Started calls t)
    (hc : c.isToggle = false) : ∃ t', a.Started (calls ++ [c]) t' := by
  cases hf : (a.after calls).fires c with
  | true => exact started_of_fires hf
  | false =>
    obtain ⟨before, between, rfl, ha, hstart, hq⟩ := h
    rw [after_append, after_cons] at hf
    exact ⟨t, before, between ++ [c], by simp, ha, hstart, quiet_concat.2 ⟨hq, hc, hf⟩⟩

/-- An active autocoder that was asked is in an interval. -/
theorem started_of_asked {a : Autocoder} {calls : List Call} (ha : (a.after calls).active = true)
    (h : Asked calls) : ∃ t, a.Started calls t := by
  obtain ⟨before, forced, later, rfl, hlater, hasked⟩ := h
  -- along the calls since it was switched: either it was not asked yet, or it is in an interval
  have hall : (∀ c ∈ later, c.isDue = false) ∨ ∃ t, a.Started (before ++ .toggle forced :: later) t := by
    clear hasked
    induction later using List.reverseRecOn with
    | nil => exact .inl fun c hc => nomatch hc
    | append_singleton later d ih =>
      have hd : d.isToggle = false := hlater d (by simp)
      have hsplit : before ++ .toggle forced :: (later ++ [d]) = (before ++ .toggle forced :: later) ++ [d] := by simp
      rw [hsplit, after_append, after_cons, after, List.foldl_nil, call_active hd] at ha
      rw [hsplit]
      rcases ih ha fun c hc => hlater c (List.mem_append_left _ hc) with hnone | ⟨t, ht⟩
      · cases d with
        | toggle forced => cases hd
        | due now => exact .inr ⟨now, _, [], rfl, ha, .inl ⟨before, forced, later, rfl, hnone⟩, trivial⟩
        | mutate sketch =>
          refine .inl fun c hc => ?_
          rcases List.mem_append.1 hc with hc | hc
          · exact hnone c hc
          · rw [List.mem_singleton.1 hc]
            rfl
      · exact .inr (started_concat ht hd)
  obtain ⟨c, hc, hdue⟩ := hasked
  refine hall.resolve_left fun hnone => ?_
  rw [hnone c hc] at hdue
  cases hdue

/-- As long as it is not switched, what is stored is one of the readings. -/
theorem last_mem_readings {a : Autocoder} {calls : List Call} {t : Float} (ha : a.active = true)
    (hl : a.last = some t) (ht : ∀ c ∈ calls, c.isToggle = false) :
    (a.after calls).active = true ∧ ∃ t' ∈ t :: readings calls, (a.after calls).last = some t' := by
  induction calls generalizing a t with
  | nil => exact ⟨ha, t, List.mem_cons_self, hl⟩
  | cons c calls ih =>
    have hrest := fun c' hc' => ht c' (List.mem_cons_of_mem c hc')
    have hc := ht c List.mem_cons_self
    have ha' : (a.call c).active = true := (call_active hc).trans ha
    cases hf : a.fires c with
    | false =>
      obtain ⟨hactive, t', ht', hlast⟩ := ih ha' (call_quiet ha hl hc hf).2 hrest
      refine ⟨hactive, t', ?_, hlast⟩
      rcases List.mem_cons.1 ht' with rfl | ht'
      · exact List.mem_cons_self
      · exact List.mem_cons_of_mem _ (((List.sublist_cons_self c calls).filterMap _).subset ht')
    | true =>
      cases c with
      | due now =>
        obtain ⟨hactive, t', ht', hlast⟩ := ih ha' (due_last ha (.inr hf)) hrest
        exact ⟨hactive, t', List.mem_cons_of_mem _ ht', hlast⟩
      | _ => cases hf

@[simp] theorem readings_append (calls calls' : List Call) :
    readings (calls ++ calls') = readings calls ++ readings calls' := List.filterMap_append

@[simp] theorem readings_due (now : Float) (calls : List Call) : readings (.due now :: calls) = now :: readings calls := rfl

/-- **Variations keep their distance.** An autocoder is switched, asked and made to vary sketches in any order, and then
asked once more. The answer is not yes if it is switched off or was not asked since it was switched. If an earlier
question was answered with yes, it was not switched since, and the readings never decrease, then a second yes means that
the time between the two readings is not below the interval. An active autocoder that was asked since it was switched is
in an interval, and whenever it is, the answer is yes exactly if the time since that interval started is not below the
interval. -/
theorem due_paced (a : Autocoder) (calls : List Call) (now : Float) :
    let s := a.after calls
    (s.active = false ∨ Unasked calls → (s.due now).1 = false) ∧
      (∀ before t between, calls = before ++ .due t :: between → (∀ c ∈ between, c.isToggle = false) →
        (readings (calls ++ [.due now])).Pairwise (· ≤ ·) → ((a.after before).due t).1 = true → (s.due now).1 = true →
          ¬now - t < interval) ∧
      (s.active = true → Asked calls → ∃ t, a.Started calls t) ∧
      ∀ t, a.Started calls t → ((s.due now).1 = true ↔ ¬now - t < interval) := by
  intro s
  refine ⟨fun h => ?_, fun before t between hcalls hbetween hmono hfirst hsecond => ?_, started_of_asked, fun t ht => ?_⟩
  · rcases s.due_cases now with ⟨-, hd⟩ | ⟨-, -, hd⟩ | ⟨t, hactive, hlast, -⟩
    · rw [hd]
    · rw [hd]
    · rcases h with hoff | hunasked
      · rw [hactive] at hoff
        cases hoff
      · cases hlast.symm.trans (last_unasked hunasked)
  · have hactive := active_of_fires hfirst
    obtain ⟨hactive', t', ht', hlast⟩ :=
      last_mem_readings ((due_active _ t).trans hactive) (due_last hactive (.inr hfirst)) hbetween
    have hs : s = ((a.after before).due t).2.after between := by
      simp only [s, hcalls, after_append, after_cons, call]
    rw [← hs] at hactive' hlast
    have helapsed := (due_of_last hactive' hlast now).1 hsecond
    -- the first reading, those between, and the last one are in order
    rw [hcalls, List.append_assoc, readings_append, List.cons_append, readings_due, readings_append] at hmono
    have hordered : (t :: (readings between ++ [now])).Pairwise (· ≤ ·) := (List.pairwise_append.1 hmono).2.1
    rcases List.mem_cons.1 ht' with rfl | ht'
    · exact helapsed
    · rw [List.pairwise_cons, List.pairwise_append] at hordered
      exact Number.not_sub_lt (hordered.1 t' (List.mem_append_left _ ht'))
        (hordered.2.2.2 t' ht' now (List.mem_singleton_self now)) helapsed
  · obtain ⟨hactive, hlast⟩ := ht.last
    exact due_of_last hactive hlast now

/-- Switched on and asked from a tenth of a second on, with a sketch varied in between. -/
def polls : List Call :=
  [.due 0, .toggle (some true), .due 100, .due 1099, .due 1100, .mutate "box".toList, .due 1500]

/-- The question at 1.1 seconds is the last one that started an interval, which is over a second later and not before. Once
it is switched again the next question only starts an interval. -/
theorem due_paced_polls :
    let s := (ofSeed 1).after polls
    (Asked polls ∧ ∃ t, (ofSeed 1).Started polls t) ∧
      ((ofSeed 1).Started polls 1100 ∧ (s.due 2099).1 = false ∧ (s.due 2100).1 = true) ∧
      ((readings (polls ++ [.due 2100])).Pairwise (· ≤ ·) ∧ ¬(2100 : Float) - 1100 < interval) ∧
      (((ofSeed 1).after (polls ++ [.toggle (some true)])).due 5000).1 = false := by
  intro s
  have hasked : Asked polls :=
    ⟨[.due 0], some true, [.due 100, .due 1099, .due 1100, .mutate "box".toList, .due 1500], rfl,
      by simp [Call.isToggle], .due 100, List.mem_cons_self, rfl⟩
  have hfirst : (((ofSeed 1).after [.due 0, .toggle (some true), .due 100, .due 1099]).due 1100).1 = true := by
    decide +kernel
  have hstarted : (ofSeed 1).Started polls 1100 := by
    have hactive := active_of_fires hfirst
    refine ⟨[.due 0, .toggle (some true), .due 100, .due 1099], [.mutate "box".toList, .due 1500], rfl, hactive,
      .inr hfirst, ⟨rfl, rfl⟩, ⟨rfl, ?_⟩, trivial⟩
    -- the variation between leaves the interval alone, and it is not over
    obtain ⟨hactive', hlast⟩ := call_quiet ((due_active _ 1100).trans hactive) (due_last hactive (.inr hfirst))
      (c := .mutate "box".toList) rfl rfl
    exact (fires_of_last hactive' hlast 1500).2 (by decide +kernel)
  have hmono : (readings (polls ++ [.due 2100])).Pairwise (· ≤ ·) := by decide +kernel
  have hyes : ¬(2100 : Float) - 1100 < interval := by decide +kernel
  have hno : (2099 : Float) - 1100 < interval := by decide +kernel
  have hunasked : Unasked (polls ++ [.toggle (some true)]) := ⟨polls, some true, [], rfl, fun c hc => nomatch hc⟩
  have h5000 := due_paced (ofSeed 1) (polls ++ [.toggle (some true)]) 5000
  have h2100 := due_paced (ofSeed 1) polls 2100
  have h2099 := due_paced (ofSeed 1) polls 2099
  have hsecond := (h2100.2.2.2 1100 hstarted).2 hyes
  refine ⟨⟨hasked, h2100.2.2.1 hstarted.last.1 hasked⟩, ⟨hstarted, ?_, hsecond⟩, ⟨hmono, ?_⟩, ?_⟩
  · exact Bool.eq_false_iff.2 fun h => (h2099.2.2.2 1100 hstarted).1 h hno
  · exact h2100.2.1 _ 1100 [.mutate "box".toList, .due 1500] rfl (by simp [Call.isToggle]) hmono hfirst hsecond
  · exact h5000.1 (.inr hunasked)

end LiveSketch.Autocoder

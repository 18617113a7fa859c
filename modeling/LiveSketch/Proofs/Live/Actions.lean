import Mathlib.Data.List.Induction
import LiveSketch.Live.Session

/-!
# Whatever is done with a session

`Action` lists what a host can do with a session, frames included, and `Session.run` does one thing after
another. The states that a session can get into are the `Session.Reachable` ones. A property of new
sessions that every action keeps holds of them all (`Reachable.invariant`). What happened among the actions
and has not come to an end since (`Session.Since`) is followed action by action (`since_concat`).
-/
namespace LiveSketch.Live

/-- What a host can do with a session. -/
inductive Action where
  | update (text : List Char)
  | load (text : List Char)
  | loadSketch (name : String)
  | start
  | stop
  | frame
  | toggle (forced : Option Bool)
  | poll
  | autocode
  /-- The text in the editor is changed, without putting it into effect. -/
  | edit (text : List Char)
  | subscribe
  | unsubscribe (id : Nat)
  | advance (ms : Float)
  | setTime (ms : Float)

namespace Session

/-- The session after an action. -/
def act (s : Session) : Action → Session
  | .update text => (s.update text).2
  | .load text => (s.load text).2
  | .loadSketch name => (s.loadSketch name).2
  | .start => s.start
  | .stop => s.stop
  | .frame => s.runFrame.2
  | .toggle forced => (s.toggleAutocoder forced).2
  | .poll => s.pollAutocoder.2
  | .autocode => s.autocode.2
  | .edit text => s.setEditor text
  | .subscribe => s.subscribe.2
  | .unsubscribe id => (s.unsubscribe id).2
  | .advance ms => s.advance ms
  | .setTime ms => s.setTime ms

/-- The session after one action after another. -/
def run (s : Session) (acts : List Action) : Session := acts.foldl act s

@[simp] theorem run_append (s : Session) (acts acts' : List Action) :
    s.run (acts ++ acts') = (s.run acts).run acts' := List.foldl_append

/-- The states that a session can get into. -/
inductive Reachable : Session → Prop where
  | ofSeed (rate : FrameRate) (seed : UInt64) (now : Float) (editor : List Char) :
    Reachable (.ofSeed rate seed now editor)
  | act {s : Session} (a : Action) : Reachable s → Reachable (s.act a)

theorem Reachable.run {s : Session} (h : s.Reachable) (acts : List Action) :
    (s.run acts).Reachable := by
  induction acts generalizing s with
  | nil => exact h
  | cons a acts ih => exact ih (h.act a)

/-- What holds of new sessions and is kept by every action holds of all sessions. -/
theorem Reachable.invariant {P : Session → Prop}
    (first : ∀ rate seed now editor, P (.ofSeed rate seed now editor))
    (step : ∀ s a, P s → P (s.act a)) {s : Session} (h : s.Reachable) : P s := by
  induction h with
  | ofSeed rate seed now editor => exact first rate seed now editor
  | act a _ ih => exact step _ a ih

/-! ## What has happened -/

variable {happens ends : Session → Action → Prop}

/-- Among these actions something happened that no later action has ended. -/
def Since (happens ends : Session → Action → Prop) (s : Session) (acts : List Action) : Prop :=
  ∃ before a after, acts = before ++ a :: after ∧ happens (s.run before) a ∧
    ∀ front b back, after = front ++ b :: back → ¬ends (s.run (before ++ a :: front)) b

theorem not_since_nil (s : Session) : ¬s.Since happens ends [] := by
  rintro ⟨before, a, after, h, -⟩
  cases before <;> cases h

/-- The last action decides: it is where it happens, or it happened before and is not ended by it. -/
theorem since_concat (s : Session) (acts : List Action) (a : Action) :
    s.Since happens ends (acts ++ [a]) ↔
      happens (s.run acts) a ∨ (s.Since happens ends acts ∧ ¬ends (s.run acts) a) := by
  constructor
  · rintro ⟨before, b, after, h, hb, hlater⟩
    rcases List.eq_nil_or_concat after with rfl | ⟨after, c, rfl⟩
    · obtain ⟨rfl, hab⟩ := List.append_inj' h rfl
      obtain rfl := List.head_eq_of_cons_eq hab
      exact .inl hb
    · rw [List.concat_eq_append, ← List.cons_append, ← List.append_assoc] at h
      obtain ⟨rfl, hac⟩ := List.append_inj' h rfl
      obtain rfl := List.head_eq_of_cons_eq hac
      refine .inr ⟨⟨before, b, after, rfl, hb, fun front c back hc => ?_⟩, hlater after a [] (by simp)⟩
      exact hlater front c (back ++ [a]) (by simp [hc])
  · rintro (hb | ⟨⟨before, b, after, rfl, hb, hlater⟩, hlast⟩)
    · exact ⟨acts, a, [], rfl, hb, fun front c back hc => by cases front <;> cases hc⟩
    · refine ⟨before, b, after ++ [a], by simp, hb, fun front c back hc => ?_⟩
      rcases List.eq_nil_or_concat back with rfl | ⟨back, d, rfl⟩
      · obtain ⟨rfl, hac⟩ := List.append_inj' hc rfl
        obtain rfl := List.head_eq_of_cons_eq hac
        exact hlast
      · rw [List.concat_eq_append, ← List.cons_append, ← List.append_assoc] at hc
        exact hlater front c back (List.append_inj' hc rfl).1

end Session

end LiveSketch.Live

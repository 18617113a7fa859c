import Mathlib.Data.List.Perm.Subperm
import LiveSketch.Proofs.Pattern.Ways

/-!
# A run finds the preferred way

`found` says what is left of a text when the end is reached from a state in the preferred way. It is read off
the states: `found_take`, `found_fork` and `found_end`, if forks lead to states that take a character in the
end (`Ends`), which they do in the layout of a solid pattern. Three steps connect it to a run:

* from the first state of a pattern it is the first way that goes on behind the pattern (`found_ways`);
* following forks keeps it, although each state is followed only once (`findSome?_followForks`);
* a run keeps it from one character to the next (`run_eq`).

So the match of an automaton is the preferred way of its pattern (`match?_ofPattern`).
-/
namespace LiveSketch

theorem findSome?_congr {α β : Type} {f g : α → Option β} {xs : List α} (h : ∀ x ∈ xs, f x = g x) :
    xs.findSome? f = xs.findSome? g := by
  induction xs with
  | nil => rfl
  | cons x xs ih =>
    rw [List.findSome?_cons, List.findSome?_cons, h x List.mem_cons_self,
      ih fun y hy => h y (List.mem_cons_of_mem x hy)]

theorem findSome?_flatMap {α β γ : Type} (f : α → List β) (g : β → Option γ) (xs : List α) :
    (xs.flatMap f).findSome? g = xs.findSome? fun x => (f x).findSome? g := by
  induction xs with
  | nil => rfl
  | cons x xs ih =>
    rw [List.flatMap_cons, List.findSome?_append, List.findSome?_cons, ih]
    cases (f x).findSome? g <;> rfl

theorem findSome?_filter {α β : Type} {f : α → Bool} {g : α → Option β} {xs : List α}
    (h : ∀ x ∈ xs, f x = false → g x = none) : (xs.filter f).findSome? g = xs.findSome? g := by
  induction xs with
  | nil => rfl
  | cons x xs ih =>
    have ih := ih fun y hy => h y (List.mem_cons_of_mem x hy)
    rw [List.filter_cons, List.findSome?_cons]
    split
    · rw [List.findSome?_cons, ih]
    · rename_i hx
      rw [h x List.mem_cons_self (by simpa using hx), ih]

theorem findSome?_pair {α β : Type} (f : α → Option β) (x y : α) : [x, y].findSome? f = (f x).or (f y) := by
  rw [List.findSome?_cons, List.findSome?_singleton]
  cases f x <;> rfl

namespace Automaton

variable {states : Array State}

/-! ## States -/

/-- Whether the forks from a state on come to an end within so many steps. -/
def endsWithin (states : Array State) : (fuel : Nat) → Nat → Bool
  | 0, _ => false
  | fuel + 1, i => match states[i]? with
    | some (.fork targets) => targets.all (endsWithin states fuel)
    | _ => true

/-- The forks from a state on come to an end. -/
def Ends (states : Array State) (i : Nat) : Prop := ∃ fuel, endsWithin states fuel i

theorem endsWithin_mono {n m i : Nat} (h : endsWithin states n i) (hle : n ≤ m) : endsWithin states m i := by
  induction n generalizing m i with
  | zero => cases h
  | succ n ih =>
    obtain ⟨m, rfl⟩ : ∃ k, m = k + 1 := ⟨m - 1, by omega⟩
    rw [endsWithin] at h ⊢
    split
    · rename_i targets hs
      rw [hs] at h
      exact List.all_eq_true.2 fun t ht => ih (List.all_eq_true.1 h t ht) (Nat.le_of_succ_le_succ hle)
    · rfl

theorem Ends.take {i next : Nat} {k : CharClass} (h : states[i]? = some (.take k next)) : Ends states i :=
  ⟨1, by rw [endsWithin, h]⟩

theorem Ends.fork {i : Nat} {targets : List Nat} (h : states[i]? = some (.fork targets))
    (ht : ∀ t ∈ targets, Ends states t) : Ends states i := by
  obtain ⟨n, hn⟩ : ∃ n, ∀ t ∈ targets, endsWithin states n t := by
    clear h
    induction targets with
    | nil => exact ⟨0, by simp⟩
    | cons t targets ih =>
      obtain ⟨n, hn⟩ := ih fun u hu => ht u (List.mem_cons_of_mem _ hu)
      obtain ⟨m, hm⟩ := ht t List.mem_cons_self
      exact ⟨max n m, List.forall_mem_cons.2 ⟨endsWithin_mono hm (Nat.le_max_right n m),
        fun u hu => endsWithin_mono (hn u hu) (Nat.le_max_left n m)⟩⟩
  exact ⟨n + 1, by rw [endsWithin, h]; exact List.all_eq_true.2 hn⟩

/-- What a state finds, if this is what its characters lead to and what the end finds. -/
def follow (states : Array State) (take : CharClass → Nat → Option (List Char)) (here : List Char) :
    (fuel : Nat) → Nat → Option (List Char)
  | 0, _ => none
  | fuel + 1, i => match states[i]? with
    | some (.take k next) => take k next
    | some (.fork targets) => targets.findSome? (follow states take here fuel)
    | _ => some here

/-- What is left of the text when the end is reached from a state in the preferred way. -/
def found (states : Array State) (fuel : Nat) : List Char → Nat → Option (List Char)
  | [] => follow states (fun _ _ => none) [] fuel
  | c :: cs => follow states (fun k next => if k.contains c then found states fuel cs next else none) (c :: cs) fuel

theorem follow_eq {take : CharClass → Nat → Option (List Char)} {here : List Char} {n m i : Nat}
    (h : endsWithin states n i) (hle : n ≤ m) : follow states take here m i = follow states take here n i := by
  induction n generalizing m i with
  | zero => cases h
  | succ n ih =>
    obtain ⟨m, rfl⟩ : ∃ k, m = k + 1 := ⟨m - 1, by omega⟩
    rw [endsWithin] at h
    rw [follow, follow]
    split
    · rfl
    · rename_i targets hs
      rw [hs] at h
      exact findSome?_congr fun t ht => ih (List.all_eq_true.1 h t ht) (Nat.le_of_succ_le_succ hle)
    · rfl

section

variable {fuel : Nat}

theorem found_take {i next : Nat} {k : CharClass} (he : endsWithin states fuel i)
    (h : states[i]? = some (.take k next)) (c : Char) (cs : List Char) :
    found states fuel (c :: cs) i = if k.contains c then found states fuel cs next else none := by
  cases fuel with
  | zero => cases he
  | succ fuel => rw [found, follow, h]

theorem found_take_nil {i next : Nat} {k : CharClass} (he : endsWithin states fuel i)
    (h : states[i]? = some (.take k next)) : found states fuel [] i = none := by
  cases fuel with
  | zero => cases he
  | succ fuel => rw [found, follow, h]

theorem found_fork {i : Nat} {targets : List Nat} (he : endsWithin states fuel i)
    (h : states[i]? = some (.fork targets)) (cs : List Char) :
    found states fuel cs i = targets.findSome? (found states fuel cs) := by
  have hfollow : ∀ (take : CharClass → Nat → Option (List Char)) (here : List Char),
      follow states take here fuel i = targets.findSome? (follow states take here fuel) := by
    intro take here
    cases fuel with
    | zero => cases he
    | succ fuel =>
      rw [endsWithin, h] at he
      have hshorter : follow states take here (fuel + 1) i = targets.findSome? (follow states take here fuel) := by
        rw [follow, h]
      rw [hshorter]
      exact findSome?_congr fun t ht => (follow_eq (List.all_eq_true.1 he t ht) (Nat.le_succ fuel)).symm
  cases cs <;> exact hfollow _ _

theorem found_end {i : Nat} (he : endsWithin states fuel i) (ht : ∀ k next, states[i]? ≠ some (.take k next))
    (hf : ∀ targets, states[i]? ≠ some (.fork targets)) (cs : List Char) :
    found states fuel cs i = some cs := by
  have hfollow : ∀ (take : CharClass → Nat → Option (List Char)) (here : List Char),
      follow states take here fuel i = some here := by
    intro take here
    cases fuel with
    | zero => cases he
    | succ fuel =>
      rw [follow]
      split
      · rename_i hs
        exact absurd hs (ht _ _)
      · rename_i hs
        exact absurd hs (hf _)
      · rfl
  cases cs <;> exact hfollow _ _

/-- What is found is a suffix of the text. -/
theorem found_suffix {cs rest : List Char} {i : Nat} (h : found states fuel cs i = some rest) : rest <:+ cs := by
  have hfollow : ∀ {take : CharClass → Nat → Option (List Char)} {here : List Char},
      (∀ {k next rest}, take k next = some rest → rest <:+ here) →
      ∀ {fuel i rest}, follow states take here fuel i = some rest → rest <:+ here := by
    intro take here htake fuel
    induction fuel with
    | zero => intro i rest h; cases h
    | succ fuel ih =>
      intro i rest h
      rw [follow] at h
      split at h
      · exact htake h
      · obtain ⟨_, t, _, -, ht, -⟩ := List.findSome?_eq_some_iff.1 h
        exact ih ht
      · cases h
        exact List.suffix_rfl
  induction cs generalizing i rest with
  | nil => exact hfollow (fun h => by cases h) h
  | cons c cs ih =>
    refine hfollow (fun {k next rest} h => ?_) h
    split at h
    · exact (ih h).trans (List.suffix_cons c cs)
    · cases h

end

/-! ## Layouts -/

/-- The pattern is laid out from state `base` on, before state `next`. -/
def Lies (states : Array State) (p : Pattern) (base next : Nat) : Prop :=
  ∀ j < p.size, states[base + j]? = (p.states base next)[j]?

theorem size_pos (p : Pattern) : 0 < p.size := by
  induction p <;> simp only [Pattern.size] <;> omega

namespace Lies

variable {p q : Pattern} {base next : Nat}

theorem text_cons {c : Char} {w : List Char} (h : Lies states (.text (c :: w)) base next) :
    states[base]? = some (State.take (.of [c]) (base + 1)) ∧ Lies states (.text w) (base + 1) next := by
  refine ⟨h 0 (Nat.succ_pos _), fun j hj => ?_⟩
  have hlt : j + 1 < (Pattern.text (c :: w)).size := Nat.succ_lt_succ hj
  have := h (j + 1) hlt
  rwa [show base + (j + 1) = base + 1 + j by omega] at this

theorem seq_left (h : Lies states (.seq p q) base next) : Lies states p base (base + p.size) := by
  intro j hj
  rw [h j (by rw [Pattern.size]; omega), Pattern.states, List.getElem?_append_left (by rwa [Pattern.length_states])]

theorem seq_right (h : Lies states (.seq p q) base next) : Lies states q (base + p.size) next := by
  intro j hj
  have := h (p.size + j) (by rw [Pattern.size]; omega)
  rwa [Pattern.states, List.getElem?_append_right (by rw [Pattern.length_states]; omega), Pattern.length_states,
    Nat.add_sub_cancel_left, ← Nat.add_assoc] at this

theorem either_fork (h : Lies states (.either p q) base next) :
    states[base]? = some (State.fork [base + 1, base + 1 + p.size]) := h 0 (by rw [Pattern.size]; omega)

theorem either_left (h : Lies states (.either p q) base next) : Lies states p (base + 1) next := by
  intro j hj
  have := h (j + 1) (by rw [Pattern.size]; omega)
  rwa [Pattern.states, List.getElem?_cons_succ, List.getElem?_append_left (by rwa [Pattern.length_states]),
    show base + (j + 1) = base + 1 + j by omega] at this

theorem either_right (h : Lies states (.either p q) base next) :
    Lies states q (base + 1 + p.size) next := by
  intro j hj
  have := h (p.size + j + 1) (by rw [Pattern.size]; omega)
  rwa [Pattern.states, List.getElem?_cons_succ, List.getElem?_append_right (by rw [Pattern.length_states]; omega),
    Pattern.length_states, Nat.add_sub_cancel_left, show base + (p.size + j + 1) = base + 1 + p.size + j by omega] at this

theorem rounds_body {greedy : Bool} (h : Lies states (.rounds greedy p) base next) :
    Lies states p base (base + p.size) := by
  intro j hj
  rw [h j (by rw [Pattern.size]; omega), Pattern.states, List.getElem?_append_left (by rwa [Pattern.length_states])]

theorem rounds_fork {greedy : Bool} (h : Lies states (.rounds greedy p) base next) :
    states[base + p.size]? = some (State.fork (if greedy then [base, next] else [next, base])) := by
  rw [h p.size (by rw [Pattern.size]; omega), Pattern.states, List.getElem?_append_right (Nat.le_of_eq (Pattern.length_states _ _ _)),
    Pattern.length_states, Nat.sub_self]
  rfl

end Lies

/-- The forks of a pattern end if those behind it do. Those in front of it end anyway if it takes
something. -/
theorem ends_states {p : Pattern} {base next : Nat} (hs : p.solid) (h : Lies states p base next) :
    (p.nullable = false → Ends states base) ∧ (Ends states next → ∀ j < p.size, Ends states (base + j)) := by
  induction p generalizing base next with
  | text w =>
    induction w generalizing base with
    | nil =>
      refine ⟨fun hn => (by cases hn), fun hnext j hj => ?_⟩
      obtain rfl := Nat.lt_one_iff.1 hj
      exact .fork (h 0 hj) fun t ht => List.mem_singleton.1 ht ▸ hnext
    | cons c w ih =>
      obtain ⟨htake, hrest⟩ := h.text_cons
      refine ⟨fun _ => .take htake, fun hnext j hj => ?_⟩
      cases j with
      | zero => exact .take htake
      | succ j =>
        have hend := (ih rfl hrest).2 hnext j (Nat.lt_of_succ_lt_succ hj)
        rwa [show base + (j + 1) = base + 1 + j by omega]
  | char k =>
    have htake : states[base]? = some (State.take k next) := h 0 Nat.one_pos
    refine ⟨fun _ => .take htake, fun _ j hj => ?_⟩
    obtain rfl := Nat.lt_one_iff.1 hj
    exact .take htake
  | seq p q ihp ihq =>
    obtain ⟨hsp, hsq⟩ := Bool.and_eq_true_iff.1 hs
    obtain ⟨hpn, hp⟩ := ihp hsp h.seq_left
    obtain ⟨hqn, hq⟩ := ihq hsq h.seq_right
    refine ⟨fun hn => ?_, fun hnext j hj => ?_⟩
    · rcases Bool.and_eq_false_iff.1 hn with hn | hn
      · exact hpn hn
      · exact hp (hqn hn) 0 (size_pos p)
    · have hmiddle := hq hnext 0 (size_pos q)
      by_cases hjp : j < p.size
      · exact hp hmiddle j hjp
      · have hend := hq hnext (j - p.size) (by rw [Pattern.size] at hj; omega)
        rwa [show base + p.size + (j - p.size) = base + j by omega] at hend
  | either p q ihp ihq =>
    obtain ⟨hsp, hsq⟩ := Bool.and_eq_true_iff.1 hs
    obtain ⟨hpn, hp⟩ := ihp hsp h.either_left
    obtain ⟨hqn, hq⟩ := ihq hsq h.either_right
    have hfork : Ends states (base + 1) → Ends states (base + 1 + p.size) → Ends states base := fun hl hr =>
      .fork h.either_fork (by simp only [List.forall_mem_cons]; exact ⟨hl, hr, by simp⟩)
    refine ⟨fun hn => ?_, fun hnext j hj => ?_⟩
    · obtain ⟨hn, hn'⟩ := Bool.or_eq_false_iff.1 hn
      exact hfork (hpn hn) (hqn hn')
    · cases j with
      | zero => exact hfork (hp hnext 0 (size_pos p)) (hq hnext 0 (size_pos q))
      | succ j =>
        rw [Pattern.size] at hj
        by_cases hjp : j < p.size
        · have hend := hp hnext j hjp
          rwa [show base + 1 + j = base + (j + 1) by omega] at hend
        · have hend := hq hnext (j - p.size) (by omega)
          rwa [show base + 1 + p.size + (j - p.size) = base + (j + 1) by omega] at hend
  | rounds greedy p ih =>
    obtain ⟨hsp, hn⟩ := Bool.and_eq_true_iff.1 hs
    obtain ⟨hpn, hp⟩ := ih hsp h.rounds_body
    have hbase := hpn (by simpa using hn)
    refine ⟨fun _ => hbase, fun hnext j hj => ?_⟩
    -- the way back from the end of a round leads into a pattern that takes something
    have hlast : Ends states (base + p.size) := .fork h.rounds_fork fun t ht => by
      have : t = base ∨ t = next := by
        cases greedy <;> simpa [or_comm] using ht
      rcases this with rfl | rfl
      · exact hbase
      · exact hnext
    by_cases hjp : j < p.size
    · exact hp hlast j hjp
    · rw [Pattern.size] at hj
      rwa [show j = p.size by omega]
  | group p ih => exact ih hs h

section

variable {fuel : Nat}

theorem found_text {w : List Char} {base next : Nat} (he : ∀ i, endsWithin states fuel i)
    (h : Lies states (.text w) base next) (cs : List Char) :
    found states fuel cs base = ((Pattern.text w).ways cs).findSome? (found states fuel · next) := by
  induction w generalizing base cs with
  | nil =>
    have hfork : states[base]? = some (State.fork [next]) := h 0 Nat.one_pos
    rw [found_fork (he _) hfork]
    simp [Pattern.ways]
  | cons c w ih =>
    obtain ⟨htake, hrest⟩ := h.text_cons
    cases cs with
    | nil =>
      rw [found_take_nil (he _) htake]
      rfl
    | cons d cs =>
      have hclass : (CharClass.of [c]).contains d = (c == d) := by
        have hrange : (c.toNat ≤ d.toNat ∧ d.toNat ≤ c.toNat) ↔ c = d := by
          rw [← Char.toNat_inj]
          omega
        rw [Bool.eq_iff_iff]
        simpa [CharClass.contains, CharClass.of, ClassItem.contains] using hrange
      rw [found_take (he _) htake, hclass]
      by_cases hcd : c = d
      · subst hcd
        rw [beq_self_eq_true, if_pos rfl, ih hrest]
        simp [Pattern.ways]
      · simp [Pattern.ways, hcd]

/-- From the first state of a pattern the first way is found that goes on behind it. -/
theorem found_ways {p : Pattern} {base next : Nat} (hs : p.solid) (he : ∀ i, endsWithin states fuel i)
    (h : Lies states p base next) (cs : List Char) :
    found states fuel cs base = (p.ways cs).findSome? (found states fuel · next) := by
  induction p generalizing base next cs with
  | text w => exact found_text he h cs
  | char k =>
    have htake : states[base]? = some (State.take k next) := h 0 Nat.one_pos
    cases cs with
    | nil =>
      rw [found_take_nil (he _) htake]
      rfl
    | cons c cs =>
      rw [found_take (he _) htake, Pattern.ways]
      split <;> simp
  | seq p q ihp ihq =>
    obtain ⟨hsp, hsq⟩ := Bool.and_eq_true_iff.1 hs
    rw [ihp hsp h.seq_left, Pattern.ways, findSome?_flatMap]
    congr 1
    funext rest
    exact ihq hsq h.seq_right rest
  | either p q ihp ihq =>
    obtain ⟨hsp, hsq⟩ := Bool.and_eq_true_iff.1 hs
    rw [found_fork (he _) h.either_fork, findSome?_pair, Pattern.ways, List.findSome?_append,
      ihp hsp h.either_left, ihq hsq h.either_right]
  | rounds greedy p ih =>
    obtain ⟨hsp, hn⟩ := Bool.and_eq_true_iff.1 hs
    have hn : p.nullable = false := by simpa using hn
    induction hlen : cs.length using Nat.strongRecOn generalizing cs with
    | ind n ihn =>
      rw [Pattern.ways_rounds hn, ih hsp h.rounds_body, findSome?_flatMap]
      refine findSome?_congr fun rest hr => ?_
      have hshort := Pattern.length_of_mem_ways hn hr
      have hround := ihn rest.length (by omega) rest rfl
      rw [found_fork (he _) h.rounds_fork]
      cases greedy
      · rw [if_neg (by simp), if_neg (by simp), findSome?_pair, List.findSome?_cons, ← hround]
        cases found states fuel rest next <;> rfl
      · rw [if_pos rfl, if_pos rfl, findSome?_pair, List.findSome?_append, List.findSome?_singleton, ← hround]
  | group p ih => exact ih hs h cs

end

/-! ## Following forks -/

/-- The first state comes to its end earlier than the second. -/
def Below (states : Array State) (t s : Nat) : Prop :=
  ∃ fuel, endsWithin states fuel t = true ∧ endsWithin states fuel s = false

theorem Below.trans {s t u : Nat} (h : Below states s t) (h' : Below states t u) : Below states s u := by
  obtain ⟨n, hs, ht⟩ := h
  obtain ⟨m, ht', hu⟩ := h'
  have hle : n ≤ m := Nat.le_of_not_lt fun hlt => by
    rw [endsWithin_mono ht' (Nat.le_of_lt hlt)] at ht
    cases ht
  refine ⟨n, hs, Bool.eq_false_iff.2 fun hn => ?_⟩
  rw [endsWithin_mono hn hle] at hu
  cases hu

theorem Below.of_fork {i t : Nat} {targets : List Nat} (he : Ends states i)
    (h : states[i]? = some (.fork targets)) (ht : t ∈ targets) : Below states t i := by
  obtain ⟨n, hn⟩ := he
  induction n with
  | zero => cases hn
  | succ n ih =>
    cases hprev : endsWithin states n i with
    | true => exact ih hprev
    | false =>
      rw [endsWithin, h] at hn
      exact ⟨n, List.all_eq_true.1 hn t ht, hprev⟩

/-- A state that has been followed finds nothing, or what the front of the pending states finds, all of them
below it. -/
def Followed (states : Array State) {β : Type} (value : Nat → Option β) (pending : List Nat) (s : Nat) : Prop :=
  ∃ n, value s = (pending.take n).findSome? value ∧ ∀ t ∈ pending.take n, Below states t s

section

variable {β : Type} {value : Nat → Option β}

theorem Followed.next {s i : Nat} {pending : List Nat} (h : Followed states value (i :: pending) s)
    (hi : value i = none) : Followed states value pending s := by
  obtain ⟨n, hv, hb⟩ := h
  cases n with
  | zero => exact ⟨0, hv, by simp⟩
  | succ n =>
    rw [List.take_succ_cons, List.findSome?_cons, hi] at hv
    exact ⟨n, hv, fun t ht => hb t (by rw [List.take_succ_cons]; exact List.mem_cons_of_mem _ ht)⟩

theorem Followed.fork {s i : Nat} {pending targets : List Nat} (h : Followed states value (i :: pending) s)
    (hi : value i = targets.findSome? value) (hb : ∀ t ∈ targets, Below states t i) :
    Followed states value (targets ++ pending) s := by
  obtain ⟨n, hv, hbelow⟩ := h
  cases n with
  | zero => exact ⟨0, hv, by simp⟩
  | succ n =>
    have htake : (targets ++ pending).take (targets.length + n) = targets ++ pending.take n :=
      List.take_length_add_append n
    refine ⟨targets.length + n, ?_, fun t ht => ?_⟩
    · rw [htake, List.findSome?_append, ← hi, hv, List.take_succ_cons, List.findSome?_cons]
      cases value i <;> rfl
    · rw [htake] at ht
      rcases List.mem_append.1 ht with ht | ht
      · exact (hb t ht).trans (hbelow i (by simp))
      · exact hbelow t (by rw [List.take_succ_cons]; exact List.mem_cons_of_mem _ ht)

/-- Where forks come to an end a state that is met again has been followed to its end and found nothing. -/
theorem Followed.eq_none {s : Nat} {pending : List Nat} (h : Followed states value (s :: pending) s) :
    value s = none := by
  obtain ⟨n, hv, hb⟩ := h
  cases n with
  | zero => exact hv
  | succ n =>
    obtain ⟨_, ht, hf⟩ := hb s (by simp)
    rw [ht] at hf
    cases hf

theorem length_lt_of_nodup {seen : List Nat} {i n : Nat} (hn : seen.Nodup) (hlt : ∀ s ∈ seen, s < n) (hi : i < n)
    (hmem : i ∉ seen) : seen.length < n := by
  have hsub : i :: seen ⊆ List.range n := fun j hj => by
    rcases List.mem_cons.1 hj with rfl | hj
    · exact List.mem_range.2 hi
    · exact List.mem_range.2 (hlt j hj)
  have hle := (List.subperm_of_subset (List.nodup_cons.2 ⟨hmem, hn⟩) hsub).length_le
  rwa [List.length_range] at hle

/-- Following each state once finds what following all of them finds. -/
theorem findSome?_followForks (hends : ∀ i, Ends states i)
    (hfork : ∀ {i targets}, states[i]? = some (.fork targets) →
      targets.length ≤ 2 ∧ value i = targets.findSome? value)
    (hend : ∀ {i}, (∀ k next, states[i]? ≠ some (.take k next)) → (∀ targets, states[i]? ≠ some (.fork targets)) →
      value i ≠ none)
    {fuel : Nat} {pending seen : List Nat} (hf : pending.length + 2 * (states.size - seen.length) < fuel)
    (hn : seen.Nodup) (hlt : ∀ s ∈ seen, s < states.size) (hs : ∀ s ∈ seen, Followed states value pending s) :
    (followForks states fuel pending seen).findSome? value = pending.findSome? value := by
  induction fuel generalizing pending seen with
  | zero => omega
  | succ fuel ih =>
    cases pending with
    | nil => rfl
    | cons i pending =>
      rw [List.length_cons] at hf
      rw [followForks]
      by_cases hmem : i ∈ seen
      · have hi := (hs i hmem).eq_none
        rw [if_pos (List.contains_iff_mem.2 hmem), ih (by omega) hn hlt fun s h => (hs s h).next hi,
          List.findSome?_cons, hi]
      · rw [if_neg (by simpa using hmem)]
        have hroom : i < states.size → seen.length < states.size := fun hi => length_lt_of_nodup hn hlt hi hmem
        have hn' : (i :: seen).Nodup := List.nodup_cons.2 ⟨hmem, hn⟩
        split
        · rename_i targets hstate
          obtain ⟨hi, -⟩ := Array.getElem?_eq_some_iff.1 hstate
          have hlt' : ∀ s ∈ i :: seen, s < states.size := List.forall_mem_cons.2 ⟨hi, hlt⟩
          have hr := hroom hi
          obtain ⟨htwo, hv⟩ := hfork hstate
          have hbelow : ∀ t ∈ targets, Below states t i := fun t ht => .of_fork (hends i) hstate ht
          rw [ih (by rw [List.length_append, List.length_cons]; omega) hn' hlt' ?_, List.findSome?_append, ← hv,
            List.findSome?_cons]
          · cases value i <;> rfl
          · refine List.forall_mem_cons.2 ⟨⟨targets.length, ?_, ?_⟩, fun s h => (hs s h).fork hv hbelow⟩
            · rw [List.take_left, hv]
            · rw [List.take_left]
              exact hbelow
        · rename_i k next hstate
          obtain ⟨hi, -⟩ := Array.getElem?_eq_some_iff.1 hstate
          have hlt' : ∀ s ∈ i :: seen, s < states.size := List.forall_mem_cons.2 ⟨hi, hlt⟩
          have hr := hroom hi
          rw [List.findSome?_cons, List.findSome?_cons]
          cases hv : value i with
          | some v => rfl
          | none =>
            exact ih (by rw [List.length_cons]; omega) hn' hlt'
              (List.forall_mem_cons.2 ⟨⟨0, hv, by simp⟩, fun s h => (hs s h).next hv⟩)
        · rename_i hnf hnt
          have hv := hend (fun k next hstate => hnt k next hstate) (fun targets hstate => hnf targets hstate)
          rw [List.findSome?_singleton, List.findSome?_cons]
          cases hvi : value i with
          | none => exact absurd hvi hv
          | some v => rfl

end

/-! ## Runs -/

/-- The states that a state leads to. -/
def State.targets : State → List Nat
  | .take _ next => [next]
  | .fork targets => targets
  | .finish => []

/-- The states lead to states up to the last one, which alone is the end; forks come to an end and have two
targets at most; and the ways are those behind the forks. -/
structure Sound (a : Automaton) : Prop where
  size : a.states.size = a.last + 1
  last : a.states[a.last]? = some .finish
  inner : ∀ {i : Nat} {s : State}, a.states[i]? = some s → i ≠ a.last → s ≠ .finish
  targets : ∀ {i : Nat} {s : State}, a.states[i]? = some s → s.targets.length ≤ 2 ∧ ∀ t ∈ s.targets, t ≤ a.last
  ends : ∀ i, Ends a.states i
  ways : ∀ {i}, i ≤ a.last → a.waysFrom i = followForks a.states (2 * a.states.size + 2) [i] []

/-- States that take a character, and the end as the last of them if at all. -/
inductive Poised (a : Automaton) : List Nat → Prop where
  | nil : Poised a []
  | last : Poised a [a.last]
  | take {i next : Nat} {k : CharClass} {here : List Nat} : a.states[i]? = some (.take k next) → Poised a here →
      Poised a (i :: here)

section

variable {a : Automaton} {fuel : Nat}

theorem Poised.append {here there : List Nat} (h : Poised a here) (ht : Poised a there) (hl : a.last ∉ here) :
    Poised a (here ++ there) := by
  induction h with
  | nil => exact ht
  | last => exact absurd (List.mem_singleton_self _) hl
  | take hs _ ih => exact .take hs (ih fun hm => hl (List.mem_cons_of_mem _ hm))

theorem Poised.filter {here : List Nat} (h : Poised a here) (f : Nat → Bool) : Poised a (here.filter f) := by
  induction h with
  | nil => exact .nil
  | last =>
    rw [List.filter_cons]
    split
    · exact .last
    · exact .nil
  | take hs _ ih =>
    rw [List.filter_cons]
    split
    · exact .take hs ih
    · exact ih

theorem any_isEnd (here : List Nat) : here.any a.isEnd = decide (a.last ∈ here) := by
  rw [Bool.eq_iff_iff, List.any_eq_true, decide_eq_true_iff]
  simp [isEnd]

theorem merge_eq (xs ys : List Nat) : merge xs ys = xs ++ ys.filter (!xs.contains ·) := by
  unfold merge
  split
  · simp
  · simp
  · rfl

namespace Sound

variable (h : Sound a)

include h

theorem exists_fuel : ∃ fuel, ∀ i, endsWithin a.states fuel i := by
  have hbelow : ∀ n, ∃ fuel, ∀ i < n, endsWithin a.states fuel i := fun n => by
    induction n with
    | zero => exact ⟨0, by simp⟩
    | succ n ih =>
      obtain ⟨f, hf⟩ := ih
      obtain ⟨g, hg⟩ := h.ends n
      refine ⟨max f g, fun i hi => ?_⟩
      rcases Nat.lt_succ_iff_lt_or_eq.1 hi with hi | rfl
      · exact endsWithin_mono (hf i hi) (Nat.le_max_left f g)
      · exact endsWithin_mono hg (Nat.le_max_right f g)
  obtain ⟨fuel, hfuel⟩ := hbelow a.states.size
  refine ⟨fuel + 1, fun i => ?_⟩
  by_cases hi : i < a.states.size
  · exact endsWithin_mono (hfuel i hi) (Nat.le_succ fuel)
  · rw [endsWithin, Array.getElem?_eq_none (Nat.le_of_not_lt hi)]

theorem poised_followForks {fuel : Nat} {pending seen : List Nat} (hp : ∀ i ∈ pending, i ≤ a.last) :
    Poised a (followForks a.states fuel pending seen) := by
  induction fuel generalizing pending seen with
  | zero => exact .nil
  | succ fuel ih =>
    cases pending with
    | nil => exact .nil
    | cons i pending =>
      obtain ⟨hi, hp⟩ := List.forall_mem_cons.1 hp
      rw [followForks]
      split
      · exact ih hp
      split
      · rename_i targets hs
        exact ih fun t ht => (List.mem_append.1 ht).elim ((h.targets hs).2 t) (hp t)
      · rename_i hs
        exact .take hs (ih hp)
      · rename_i hnf hnt
        have hlt : i < a.states.size := by
          rw [h.size]
          omega
        have hs : a.states[i]? = some a.states[i] := Array.getElem?_eq_getElem hlt
        obtain rfl : i = a.last := by
          refine Decidable.byContradiction fun hne => ?_
          cases hk : a.states[i] with
          | take k next => exact hnt k next (hk ▸ hs)
          | fork targets => exact hnf targets (hk ▸ hs)
          | finish => exact h.inner hs hne hk
        exact .last

theorem poised_ways {i : Nat} (hi : i ≤ a.last) : Poised a (a.waysFrom i) := by
  rw [h.ways hi]
  exact h.poised_followForks fun j hj => List.mem_singleton.1 hj ▸ hi

theorem poised_after (c : Char) (i : Nat) : Poised a (a.after c i) := by
  unfold after
  split
  · rename_i hs
    split
    · exact h.poised_ways ((h.targets hs).2 _ (List.mem_singleton_self _))
    · exact .nil
  · exact .nil

theorem poised_step (c : Char) (here : List Nat) : Poised a (a.step c here) := by
  induction here with
  | nil => exact .nil
  | cons i here ih =>
    rw [step]
    split
    · exact h.poised_after c i
    · rename_i hn
      rw [any_isEnd, decide_eq_true_iff] at hn
      rw [merge_eq]
      exact (h.poised_after c i).append (ih.filter _) hn

theorem found_last (he : ∀ i, endsWithin a.states fuel i) (cs : List Char) :
    found a.states fuel cs a.last = some cs :=
  found_end (he _) (fun k next hs => by rw [h.last] at hs; cases hs)
    (fun targets hs => by rw [h.last] at hs; cases hs) cs

theorem found_waysFrom (he : ∀ i, endsWithin a.states fuel i) {i : Nat} (hi : i ≤ a.last) (cs : List Char) :
    (a.waysFrom i).findSome? (found a.states fuel cs) = found a.states fuel cs i := by
  rw [h.ways hi, findSome?_followForks h.ends (fun hs => ⟨(h.targets hs).1, found_fork (he _) hs cs⟩)
    (fun ht hf => by rw [found_end (he _) ht hf]; simp) (by simp; omega) List.nodup_nil (by simp) (by simp),
    List.findSome?_singleton]

/-- A state that comes to the end finds something, so what is given up behind it does not matter. -/
theorem found_step_cons (he : ∀ i, endsWithin a.states fuel i) (c : Char) (i : Nat) (here : List Nat)
    (cs : List Char) :
    (a.step c (i :: here)).findSome? (found a.states fuel cs) =
      ((a.after c i).findSome? (found a.states fuel cs)).or ((a.step c here).findSome? (found a.states fuel cs)) := by
  rw [step, any_isEnd, merge_eq]
  cases hfound : (a.after c i).findSome? (found a.states fuel cs) with
  | some rest =>
    split
    · exact hfound
    · rw [List.findSome?_append, hfound]
      rfl
  | none =>
    have hnone := List.findSome?_eq_none_iff.1 hfound
    have hlast : a.last ∉ a.after c i := fun hm => by
      have hl := hnone _ hm
      rw [h.found_last he] at hl
      cases hl
    rw [if_neg (by simpa using hlast), List.findSome?_append, hfound,
      findSome?_filter fun j _ hj => hnone j (by simpa using hj)]

/-- What is found behind a character. -/
theorem found_step (he : ∀ i, endsWithin a.states fuel i) {here : List Nat} (hp : Poised a here) (c : Char)
    (cs : List Char) :
    here.findSome? (found a.states fuel (c :: cs)) =
      ((a.step c here).findSome? (found a.states fuel cs)).or (if a.last ∈ here then some (c :: cs) else none) := by
  induction hp with
  | nil => rfl
  | last =>
    have hafter : a.after c a.last = [] := by rw [after, h.last]
    rw [step, hafter, List.findSome?_singleton, h.found_last he, if_pos (List.mem_singleton_self _)]
    rfl
  | @take i next k here hs hp ih =>
    have hne : a.last ≠ i := by
      rintro rfl
      rw [h.last] at hs
      cases hs
    have hafter : (a.after c i).findSome? (found a.states fuel cs) = found a.states fuel (c :: cs) i := by
      rw [after, hs, found_take (he _) hs]
      dsimp only
      split
      · exact h.found_waysFrom he ((h.targets hs).2 _ (List.mem_singleton_self _)) cs
      · rfl
    have hmem : a.last ∈ i :: here ↔ a.last ∈ here := by simp [hne]
    rw [List.findSome?_cons, ih, ← hafter, h.found_step_cons he]
    simp only [hmem]
    cases (a.after c i).findSome? (found a.states fuel cs) <;> rfl

theorem found_nil (he : ∀ i, endsWithin a.states fuel i) {here : List Nat} (hp : Poised a here) :
    here.findSome? (found a.states fuel []) = if a.last ∈ here then some [] else none := by
  induction hp with
  | nil => rfl
  | last => rw [List.findSome?_singleton, h.found_last he, if_pos (List.mem_singleton_self _)]
  | @take i next k here hs hp ih =>
    have hne : a.last ≠ i := by
      rintro rfl
      rw [h.last] at hs
      cases hs
    rw [List.findSome?_cons, found_take_nil (he _) hs, ih]
    simp [hne]

/-- A run finds the preferred way from where it is. -/
theorem run_eq (he : ∀ i, endsWithin a.states fuel i) {here : List Nat} (hp : Poised a here) (taken : Nat)
    (best : Option Nat) (cs : List Char) :
    a.run here taken best cs =
      ((here.findSome? (found a.states fuel cs)).map fun rest => taken + (cs.length - rest.length)).or best := by
  induction cs generalizing here taken best with
  | nil =>
    have hrun : a.run here taken best [] = if here.any a.isEnd then some taken else best := by
      cases here <;> rfl
    rw [hrun, h.found_nil he hp, any_isEnd]
    by_cases hl : a.last ∈ here <;> simp [hl]
  | cons c cs ih =>
    have hrun : a.run here taken best (c :: cs) =
        a.run (a.step c here) (taken + 1) (if here.any a.isEnd then some taken else best) cs := by
      cases here with
      | nil =>
        cases cs <;> rfl
      | cons i here => rfl
    rw [hrun, ih (h.poised_step c here), h.found_step he hp, any_isEnd]
    cases hfound : (a.step c here).findSome? (found a.states fuel cs) with
    | none => by_cases hl : a.last ∈ here <;> simp [hl]
    | some rest =>
      obtain ⟨i, -, hi⟩ := List.exists_of_findSome?_eq_some hfound
      have hle := (found_suffix hi).length_le
      simp only [Option.map_some, Option.some_or, List.length_cons]
      congr 1
      omega

end Sound

end

/-! ## The automaton of a pattern -/

theorem targets_states {p : Pattern} {base next : Nat} {s : State} (h : s ∈ p.states base next) :
    s ≠ .finish ∧ s.targets.length ≤ 2 ∧ ∀ t ∈ s.targets, t < base + p.size ∨ t = next := by
  induction p generalizing base next with
  | text w =>
    rw [Pattern.states] at h
    rw [Pattern.size]
    induction w generalizing base with
    | nil =>
      obtain rfl := List.mem_singleton.1 h
      simp [State.targets]
    | cons c w ih =>
      rcases List.mem_cons.1 h with rfl | h
      · simp only [State.targets, List.length_cons, List.mem_singleton]
        exact ⟨by simp, by simp, fun t ht => .inl (by omega)⟩
      · obtain ⟨hne, htwo, hall⟩ := ih h
        refine ⟨hne, htwo, fun t ht => (hall t ht).imp_left fun hlt => ?_⟩
        rw [List.length_cons]
        omega
  | char k =>
    obtain rfl := List.mem_singleton.1 h
    simp [State.targets]
  | seq p q ihp ihq =>
    rw [Pattern.size]
    rcases List.mem_append.1 h with h | h
    · obtain ⟨hne, htwo, hall⟩ := ihp h
      have hpos := size_pos q
      exact ⟨hne, htwo, fun t ht => .inl ((hall t ht).elim (by omega) (by omega))⟩
    · obtain ⟨hne, htwo, hall⟩ := ihq h
      exact ⟨hne, htwo, fun t ht => (hall t ht).imp_left (by omega)⟩
  | either p q ihp ihq =>
    have hpos := size_pos q
    rw [Pattern.size]
    rcases List.mem_cons.1 h with rfl | h
    · simp only [State.targets, List.forall_mem_cons]
      exact ⟨by simp, by simp, .inl (by omega), .inl (by omega), by simp⟩
    rcases List.mem_append.1 h with h | h
    · obtain ⟨hne, htwo, hall⟩ := ihp h
      exact ⟨hne, htwo, fun t ht => (hall t ht).imp_left (by omega)⟩
    · obtain ⟨hne, htwo, hall⟩ := ihq h
      exact ⟨hne, htwo, fun t ht => (hall t ht).imp_left (by omega)⟩
  | rounds greedy p ih =>
    rw [Pattern.size]
    rcases List.mem_append.1 h with h | h
    · obtain ⟨hne, htwo, hall⟩ := ih h
      exact ⟨hne, htwo, fun t ht => .inl ((hall t ht).elim (by omega) (by omega))⟩
    · obtain rfl := List.mem_singleton.1 h
      cases greedy <;> simp [State.targets]
  | group p ih => exact ih h

theorem lies_ofPattern (p : Pattern) : Lies (ofPattern p).states p 0 p.size := by
  intro j hj
  have hstates : (ofPattern p).states = (p.states 0 p.size ++ [State.finish]).toArray := rfl
  rw [hstates, List.getElem?_toArray, List.getElem?_append_left (by rw [Pattern.length_states]; omega),
    Nat.zero_add]

theorem sound_ofPattern {p : Pattern} (hs : p.solid) : Sound (ofPattern p) := by
  have hstates : ∀ i, (ofPattern p).states[i]? = (p.states 0 p.size ++ [State.finish])[i]? := fun i => by
    rw [← List.getElem?_toArray]
    rfl
  have hsize : (ofPattern p).states.size = p.size + 1 := by
    change (p.states 0 p.size ++ [State.finish]).length = p.size + 1
    rw [List.length_append, Pattern.length_states]
    rfl
  have hlast : (ofPattern p).states[p.size]? = some .finish := by
    rw [hstates, List.getElem?_append_right (Nat.le_of_eq (Pattern.length_states p 0 p.size)),
      Pattern.length_states, Nat.sub_self]
    rfl
  have hmem : ∀ {i : Nat} {s : State}, (ofPattern p).states[i]? = some s → i ≠ p.size → s ∈ p.states 0 p.size := by
    intro i s h hne
    have hlt : i < p.size := by
      obtain ⟨hi, -⟩ := Array.getElem?_eq_some_iff.1 h
      omega
    rw [hstates, List.getElem?_append_left (by rwa [Pattern.length_states])] at h
    exact List.mem_of_getElem? h
  have hend : Ends (ofPattern p).states p.size := ⟨1, by rw [endsWithin, hlast]⟩
  have hinside := (ends_states hs (lies_ofPattern p)).2 hend
  refine ⟨hsize, hlast, fun h hne => (targets_states (hmem h hne)).1, fun {i s} h => ?_, fun i => ?_, fun {i} hi => ?_⟩
  · by_cases hne : i = p.size
    · rw [hne, hlast] at h
      cases h
      simp [State.targets]
    · obtain ⟨-, htwo, hall⟩ := targets_states (hmem h hne)
      exact ⟨htwo, fun t ht => (hall t ht).elim (fun hlt => by rw [Nat.zero_add] at hlt; exact Nat.le_of_lt hlt)
        Nat.le_of_eq⟩
  · rcases Nat.lt_trichotomy i p.size with hi | rfl | hi
    · have h := hinside i hi
      rwa [Nat.zero_add] at h
    · exact hend
    · exact ⟨1, by rw [endsWithin, Array.getElem?_eq_none (by omega)]⟩
  · have hways : (ofPattern p).ways = waysOf (ofPattern p).states := rfl
    have hlt : i < (ofPattern p).states.size := by
      rw [hsize]
      exact Nat.lt_succ_of_le hi
    rw [waysFrom, hways, waysOf, Array.getElem?_map, Array.getElem?_range]
    rw [if_pos hlt]
    rfl

/-- The match of a solid pattern is its preferred way. -/
theorem match?_ofPattern {p : Pattern} (hs : p.solid) (cs : List Char) :
    (ofPattern p).match? cs = (p.ways cs).head?.map fun rest => cs.length - rest.length := by
  have h := sound_ofPattern hs
  obtain ⟨fuel, he⟩ := h.exists_fuel
  have hways : found (ofPattern p).states fuel cs 0 = (p.ways cs).head? := by
    rw [found_ways hs he (lies_ofPattern p)]
    have hlast : ∀ rest, found (ofPattern p).states fuel rest p.size = some rest := h.found_last he
    simp only [hlast]
    cases p.ways cs <;> rfl
  rw [match?, h.run_eq he (h.poised_ways (Nat.zero_le _)), h.found_waysFrom he (Nat.zero_le _), hways, Option.or_none]
  simp only [Nat.zero_add]

end Automaton

end LiveSketch

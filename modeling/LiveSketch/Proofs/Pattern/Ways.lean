import LiveSketch.Pattern.Automaton

/-!
# The ways in which a pattern matches

`Pattern.ways` lists what may be left of a text behind a pattern, the preferred way first: the first of two
alternatives before the second, and more rounds of a repetition before fewer if it is greedy. A way leaves a
suffix of the text (`suffix_of_mem_ways`), and a shorter one if the pattern matches something
(`length_of_mem_ways`). So where every round of a repetition matches something (`solid`), what is left of the
text bounds the number of rounds (`ways_rounds`).
-/
namespace LiveSketch

/-- What may be left after one round or more, where a round leaves what `once` says. Each round takes a
character, so `fuel` need not exceed their number. -/
def repeated (greedy : Bool) (once : List Char → List (List Char)) : (fuel : Nat) → List Char → List (List Char)
  | 0, _ => []
  | fuel + 1, cs => (once cs).flatMap fun rest =>
    if greedy then repeated greedy once fuel rest ++ [rest] else rest :: repeated greedy once fuel rest

/-- More fuel than there are characters makes no difference. -/
theorem repeated_eq {greedy : Bool} {once : List Char → List (List Char)}
    (honce : ∀ {cs rest}, rest ∈ once cs → rest.length < cs.length) {fuel : Nat} {cs : List Char}
    (hf : cs.length ≤ fuel) : repeated greedy once fuel cs = repeated greedy once cs.length cs := by
  have h : ∀ (n m : Nat) (cs : List Char), cs.length ≤ n → cs.length ≤ m →
      repeated greedy once n cs = repeated greedy once m cs := by
    intro n
    induction n with
    | zero =>
      intro m cs hn _
      have hnone : once cs = [] := List.eq_nil_iff_forall_not_mem.2 fun rest hr => by
        have := honce hr
        omega
      cases m with
      | zero => rfl
      | succ m => rw [repeated, repeated, hnone, List.flatMap_nil]
    | succ n ih =>
      intro m cs hn hm
      cases m with
      | zero =>
        have hnone : once cs = [] := List.eq_nil_iff_forall_not_mem.2 fun rest hr => by
          have := honce hr
          omega
        rw [repeated, repeated, hnone, List.flatMap_nil]
      | succ m =>
        rw [repeated, repeated]
        refine congrArg List.flatten (List.map_congr_left fun rest hr => ?_)
        have := honce hr
        rw [ih m rest (by omega) (by omega)]
  exact h fuel cs.length cs hf (Nat.le_refl _)

namespace Pattern

/-- What may be left of a text behind a pattern, the preferred way first. -/
def ways : Pattern → List Char → List (List Char)
  | text w, cs => if w.isPrefixOf cs then [cs.drop w.length] else []
  | char _, [] => []
  | char k, c :: cs => if k.contains c then [cs] else []
  | seq p q, cs => (p.ways cs).flatMap q.ways
  | either p q, cs => p.ways cs ++ q.ways cs
  | rounds greedy p, cs => repeated greedy p.ways cs.length cs
  | group p, cs => p.ways cs

/-- Whether the pattern can match without taking anything. -/
def nullable : Pattern → Bool
  | text w => w.isEmpty
  | char _ => false
  | seq p q => p.nullable && q.nullable
  | either p q => p.nullable || q.nullable
  | rounds _ p => p.nullable
  | group p => p.nullable

/-- Whether every round of a repetition takes something. -/
def solid : Pattern → Bool
  | text _ | char _ => true
  | seq p q | either p q => p.solid && q.solid
  | rounds _ p => p.solid && !p.nullable
  | group p => p.solid

theorem suffix_of_mem_repeated {greedy : Bool} {once : List Char → List (List Char)}
    (honce : ∀ {cs rest}, rest ∈ once cs → rest <:+ cs) {fuel : Nat} {cs rest : List Char}
    (h : rest ∈ repeated greedy once fuel cs) : rest <:+ cs := by
  induction fuel generalizing cs with
  | zero => cases h
  | succ fuel ih =>
    rw [repeated] at h
    obtain ⟨mid, hm, hr⟩ := List.mem_flatMap.1 h
    have hcase : rest = mid ∨ rest ∈ repeated greedy once fuel mid := by
      split at hr
      · exact (List.mem_append.1 hr).symm.imp_left List.mem_singleton.1
      · exact List.mem_cons.1 hr
    rcases hcase with rfl | hr
    · exact honce hm
    · exact (ih hr).trans (honce hm)

/-- A way leaves a suffix of the text. -/
theorem suffix_of_mem_ways {p : Pattern} {cs rest : List Char} (h : rest ∈ p.ways cs) : rest <:+ cs := by
  induction p generalizing cs rest with
  | text w =>
    rw [ways] at h
    split at h
    · rw [List.mem_singleton.1 h]
      exact List.drop_suffix _ _
    · cases h
  | char k =>
    cases cs with
    | nil => cases h
    | cons c cs =>
      rw [ways] at h
      split at h
      · rw [List.mem_singleton.1 h]
        exact List.suffix_cons c cs
      · cases h
  | seq p q ihp ihq =>
    obtain ⟨mid, hm, hr⟩ := List.mem_flatMap.1 h
    exact (ihq hr).trans (ihp hm)
  | either p q ihp ihq => exact (List.mem_append.1 h).elim ihp ihq
  | rounds greedy p ih => exact suffix_of_mem_repeated ih h
  | group p ih => exact ih h

/-- A way of a pattern that matches something leaves a shorter text. -/
theorem length_of_mem_ways {p : Pattern} (hn : p.nullable = false) {cs rest : List Char}
    (h : rest ∈ p.ways cs) : rest.length < cs.length := by
  induction p generalizing cs rest with
  | text w =>
    rw [ways] at h
    split at h
    · rename_i hw
      have hle := (List.isPrefixOf_iff_prefix.1 hw).length_le
      have hpos : 0 < w.length := List.length_pos_iff.2 (by simpa [nullable] using hn)
      rw [List.mem_singleton.1 h, List.length_drop]
      omega
    · cases h
  | char k =>
    cases cs with
    | nil => cases h
    | cons c cs =>
      rw [ways] at h
      split at h
      · rw [List.mem_singleton.1 h]
        exact Nat.lt_succ_self _
      · cases h
  | seq p q ihp ihq =>
    obtain ⟨mid, hm, hr⟩ := List.mem_flatMap.1 h
    have hm' := (suffix_of_mem_ways hm).length_le
    have hr' := (suffix_of_mem_ways hr).length_le
    rcases Bool.and_eq_false_iff.1 hn with hp | hq
    · have := ihp hp hm
      omega
    · have := ihq hq hr
      omega
  | either p q ihp ihq =>
    obtain ⟨hp, hq⟩ := Bool.or_eq_false_iff.1 hn
    exact (List.mem_append.1 h).elim (ihp hp) (ihq hq)
  | rounds greedy p ih =>
    rw [ways] at h
    cases hcs : cs.length with
    | zero =>
      rw [hcs] at h
      cases h
    | succ n =>
      rw [hcs, repeated] at h
      obtain ⟨mid, hm, hr⟩ := List.mem_flatMap.1 h
      have hmid := ih hn hm
      have hle : rest.length ≤ mid.length := by
        split at hr
        · rcases List.mem_append.1 hr with hr | hr
          · exact (suffix_of_mem_repeated suffix_of_mem_ways hr).length_le
          · exact Nat.le_of_eq (congrArg List.length (List.mem_singleton.1 hr))
        · rcases List.mem_cons.1 hr with rfl | hr
          · exact Nat.le_refl _
          · exact (suffix_of_mem_repeated suffix_of_mem_ways hr).length_le
      omega
  | group p ih => exact ih hn h

/-- A repetition begins with one round and goes on with what that leaves. -/
theorem ways_rounds {p : Pattern} (hn : p.nullable = false) (greedy : Bool) (cs : List Char) :
    (rounds greedy p).ways cs = (p.ways cs).flatMap fun rest =>
      if greedy then (rounds greedy p).ways rest ++ [rest] else rest :: (rounds greedy p).ways rest := by
  rw [ways, ← repeated_eq (fun hr => length_of_mem_ways hn hr) (Nat.le_succ cs.length), repeated]
  refine congrArg List.flatten (List.map_congr_left fun rest hr => ?_)
  have hlen := length_of_mem_ways hn hr
  rw [repeated_eq (fun hr => length_of_mem_ways hn hr) (Nat.le_of_lt hlen), ways]

end Pattern

end LiveSketch

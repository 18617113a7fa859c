import LiveSketch.Live.Session
import LiveSketch.Proofs.Autocoder.Chains

/-!
# Varying one token

The autocoder draws one of the places of tokens that can be varied and changes the token there (`Varies`). There is
nothing to draw exactly if the text does not split or no token can be varied (`mutate_eq_none_iff`), and then a session
stays as it is: `varies_one` puts this together.
-/
namespace LiveSketch

namespace Autocoder

/-- The text is the sketch with the mutation of one of its tokens in the place of this token, and the autocoder is what
it is after drawing the place and the mutation. -/
inductive Varies (a : Autocoder) (sketch : List Char) : List Char → Autocoder → Prop where
  | token {before after : List Token} {t : Token} {g : Random.Generator} :
      tokenize sketch = .ok (before ++ t :: after) → t.isMutable →
      a.generator.choose? (mutablePlaces (before ++ t :: after)) = (some before.length, g) →
      sketch = emit before ++ (t.text ++ emit after) →
      Varies a sketch (emit before ++ ((t.mutate g).1.text ++ emit after)) { a with generator := (t.mutate g).2 }

theorem mutablePlaces_eq_nil_iff {ts : List Token} : mutablePlaces ts = [] ↔ ∀ t ∈ ts, t.isMutable = false := by
  constructor
  · intro h t ht
    obtain ⟨i, hi⟩ := List.getElem?_of_mem ht
    exact Bool.eq_false_iff.2 fun hm => List.not_mem_nil (h ▸ mem_mutablePlaces.2 ⟨t, hi, hm⟩)
  · intro h
    refine List.eq_nil_iff_forall_not_mem.2 fun i hi => ?_
    obtain ⟨t, ht, hm⟩ := mem_mutablePlaces.1 hi
    rw [h t (List.mem_of_getElem? ht)] at hm
    cases hm

/-- Where nothing can be varied the autocoder draws nothing. -/
theorem mutate_of_nothing {a : Autocoder} {sketch : List Char}
    (h : ∀ ts, tokenize sketch = .ok ts → ∀ t ∈ ts, t.isMutable = false) : a.mutate sketch = (none, a) := by
  unfold mutate
  split
  · rfl
  · rename_i ts hts
    simp [mutablePlaces_eq_nil_iff.2 (h ts hts), Random.Generator.choose?]

theorem mutate_of_choice {a : Autocoder} {sketch : List Char} {before after : List Token} {t : Token} {g : Random.Generator}
    (hts : tokenize sketch = .ok (before ++ t :: after))
    (hdraw : a.generator.choose? (mutablePlaces (before ++ t :: after)) = (some before.length, g)) :
    a.mutate sketch =
      (some (emit before ++ ((t.mutate g).1.text ++ emit after)), { a with generator := (t.mutate g).2 }) := by
  simp only [mutate, hts]
  rw [hdraw]
  simp [emit_append, emit_cons]

theorem exists_eq_of_fst {α β : Type} {x : α × β} {a : α} (h : x.1 = a) : ∃ b, x = (a, b) := ⟨x.2, Prod.ext h rfl⟩

/-- One of the tokens that can be varied is varied. -/
theorem varies_mutate {a : Autocoder} {sketch : List Char} {ts : List Token} {t : Token} (hts : tokenize sketch = .ok ts)
    (ht : t ∈ ts) (hm : t.isMutable) : ∃ text a', a.mutate sketch = (some text, a') ∧ Varies a sketch text a' := by
  have hne : mutablePlaces ts ≠ [] := fun he => by
    rw [mutablePlaces_eq_nil_iff.1 he t ht] at hm
    cases hm
  obtain ⟨i, hi, hc⟩ := Random.Generator.exists_choose? hne a.generator
  obtain ⟨u, hu, humutable⟩ := mem_mutablePlaces.1 hi
  -- the tokens in front of the drawn place and behind it
  obtain ⟨hlt, hu⟩ := List.getElem?_eq_some_iff.1 hu
  have hsplit : ts = ts.take i ++ u :: ts.drop (i + 1) := by
    rw [← hu, ← List.drop_eq_getElem_cons hlt, List.take_append_drop]
  have hlength : (ts.take i).length = i := List.length_take_of_le (Nat.le_of_lt hlt)
  generalize ts.take i = before at hsplit hlength
  generalize ts.drop (i + 1) = after at hsplit
  subst hsplit hlength
  obtain ⟨g, hdraw⟩ := exists_eq_of_fst hc
  have hsketch : sketch = emit before ++ (u.text ++ emit after) := by
    rw [← emit_cons, ← emit_append]
    exact (tokenize_eq_ok.1 hts).emit.symm
  exact ⟨_, _, mutate_of_choice hts hdraw, .token hts humutable hdraw hsketch⟩

theorem mutate_eq_none_iff {a : Autocoder} {sketch : List Char} : (a.mutate sketch).1 = none ↔
    ∀ ts, tokenize sketch = .ok ts → ∀ t ∈ ts, t.isMutable = false := by
  constructor
  · intro hnone ts hts t ht
    refine Bool.eq_false_iff.2 fun hm => ?_
    obtain ⟨text, a', hmutate, -⟩ := varies_mutate (a := a) hts ht hm
    rw [hmutate] at hnone
    cases hnone
  · intro h
    rw [mutate_of_nothing h]

theorem varies_of_mutate {a a' : Autocoder} {sketch text : List Char} (h : a.mutate sketch = (some text, a')) :
    Varies a sketch text a' := by
  by_cases hnothing : ∀ ts, tokenize sketch = .ok ts → ∀ t ∈ ts, t.isMutable = false
  · rw [mutate_of_nothing hnothing] at h
    cases h
  · simp only [not_forall, Bool.not_eq_false] at hnothing
    obtain ⟨ts, hts, t, ht, hm⟩ := hnothing
    obtain ⟨_, _, hmutate, hvaries⟩ := varies_mutate (a := a) hts ht hm
    rw [hmutate] at h
    cases h
    exact hvaries

/-- **A mutation changes one token.** The autocoder makes nothing of a sketch exactly if the sketch does not split into
tokens or none of them can be varied. Otherwise the sketch is some tokens, one that can be varied and some more, and
the text is the same with the mutation of the one in its place. A session that has nothing to vary stays as it is. -/
theorem mutate_varies_one (a : Autocoder) (sketch : List Char) :
    ((a.mutate sketch).1 = none ↔ (∃ fault, tokenize sketch = .error fault) ∨
      ∃ ts, tokenize sketch = .ok ts ∧ ∀ t ∈ ts, t.isMutable = false) ∧
    (∀ text a', a.mutate sketch = (some text, a') → Varies a sketch text a') ∧
    ∀ s : Live.Session, s.autocoder = a → s.editor = sketch → (a.mutate sketch).1 = none → s.autocode = (false, s) := by
  refine ⟨?_, fun text a' h => varies_of_mutate h, ?_⟩
  · rw [mutate_eq_none_iff]
    cases tokenize sketch <;> simp
  · rintro s rfl rfl hnone
    rw [Live.Session.autocode, mutate_of_nothing (mutate_eq_none_iff.1 hnone)]

/-- One of two shapes is varied, and nothing happens to a session whose sketch does not split. -/
theorem mutate_varies_one_shapes :
    (∃ a', (ofSeed 1).mutate "box peg line".toList = (some "box peg rect".toList, a') ∧
      Varies (ofSeed 1) "box peg line".toList "box peg rect".toList a') ∧
    ∀ s : Live.Session, s.editor = "box @".toList → s.autocode = (false, s) := by
  have htext : ((ofSeed 1).mutate "box peg line".toList).1 = some "box peg rect".toList := by decide +kernel
  obtain ⟨a', hmutate⟩ := exists_eq_of_fst htext
  refine ⟨⟨a', hmutate, (mutate_varies_one _ _).2.1 _ _ hmutate⟩, fun s hs => ?_⟩
  have hnothing : ∀ ts, tokenize "box @".toList ≠ .ok ts := by
    have hfault : (tokenize "box @".toList).toOption = none := by decide +kernel
    intro ts hts
    rw [hts] at hfault
    cases hfault
  exact (mutate_varies_one s.autocoder _).2.2 s rfl hs (mutate_eq_none_iff.2 fun ts hts => absurd hts (hnothing ts))

end Autocoder

end LiveSketch

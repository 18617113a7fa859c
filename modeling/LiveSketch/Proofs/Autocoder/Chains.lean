import LiveSketch.Autocoder.Basic
import LiveSketch.Proofs.Autocoder.Mutation

/-!
# One mutation after another

Every character of the alphabet is a token by itself, so a text in the alphabet splits into tokens wherever the longest
matches before happen to end (`exists_splits`). What a token changes into is written in the alphabet again
(`inAlphabet_mutate`). So whatever the autocoder has made of such a text it can vary again, as long as there is
something to vary (`vary_tokenizes`).
-/
namespace LiveSketch.Autocoder

open Text (isWord)

/-! ## Drawn places -/

theorem mem_mutablePlaces {ts : List Token} {i : Nat} : i ∈ mutablePlaces ts ↔ ∃ t, ts[i]? = some t ∧ t.isMutable := by
  simp only [mutablePlaces, List.mem_filter, List.mem_range, Option.any_eq_true]
  constructor
  · exact fun h => h.2
  · rintro ⟨t, ht, hm⟩
    exact ⟨(List.getElem?_eq_some_iff.1 ht).1, t, ht, hm⟩

/-- The autocoder varies one of the tokens that can be varied, if there are any. -/
theorem mutate_cases {sketch : List Char} {ts : List Token} (h : tokenize sketch = .ok ts) (a : Autocoder) :
    ((a.mutate sketch).1 = none ∧ ∀ t ∈ ts, t.isMutable = false) ∨
      ∃ i t g, ts[i]? = some t ∧ t.isMutable ∧ (a.mutate sketch).1 = some (emit (ts.set i (t.mutate g).1)) := by
  by_cases hne : mutablePlaces ts = []
  · refine .inl ⟨by simp [mutate, h, hne, Random.Generator.choose?], fun t ht => Bool.eq_false_iff.2 fun hm => ?_⟩
    obtain ⟨i, hi⟩ := List.getElem?_of_mem ht
    exact List.not_mem_nil (hne ▸ mem_mutablePlaces.2 ⟨t, hi, hm⟩)
  · obtain ⟨i, hi, hc⟩ := Random.Generator.exists_choose? hne a.generator
    obtain ⟨t, ht, hm⟩ := mem_mutablePlaces.1 hi
    refine .inr ⟨i, t, (a.generator.choose? (mutablePlaces ts)).2, ht, hm, ?_⟩
    simp [mutate, h, hc, ht]

/-! ## The alphabet -/

/-- The characters that texts of the autocoder are written in. -/
def InAlphabet (c : Char) : Prop := isWord c ∨ c ∈ signs ∨ c = ' ' ∨ c = '\n' ∨ c = '\r'

/-- Every character of the alphabet is a token by itself. -/
theorem shape_of_inAlphabet {c : Char} (h : InAlphabet c) : Shape [c] := by
  rcases h with hword | hsign | rfl | rfl | rfl
  · exact .word (List.cons_ne_nil _ _) (by simpa using hword)
  · exact .sign hsign
  · exact .spaces (List.cons_ne_nil _ _) (by simp)
  · exact .newline (List.cons_ne_nil _ _) (by simp) (by simp)
  · exact .newline (List.cons_ne_nil _ _) (by simp) (by simp)

/-- There is a longest match wherever the table accepts the next character. -/
theorem exists_finds {es : List Entry} (hes : ∀ e ∈ es, e.Fits) {c : Char} (h : ∃ e ∈ es, e.Accepts [c])
    (cs : List Char) : ∃ t, Finds es (c :: cs) t := by
  have hbest := best_bestMatch hes (c :: cs)
  cases hb : bestMatch (es.map Entry.rule) (c :: cs) with
  | some t =>
    rw [hb] at hbest
    exact ⟨t, hbest⟩
  | none =>
    rw [hb] at hbest
    obtain ⟨e, he, ha⟩ := h
    exact absurd (hbest e he [c] ⟨cs, rfl⟩ ha) (List.cons_ne_nil _ _)

/-- A text splits into tokens if each of its characters is one. -/
theorem exists_splits {cs : List Char} (h : ∀ c ∈ cs, Shape [c]) : ∃ ts, Splits entries cs ts := by
  generalize hn : cs.length = n
  induction n using Nat.strong_induction_on generalizing cs with
  | _ n ih =>
    cases cs with
    | nil => exact ⟨[], .nil⟩
    | cons c cs =>
      obtain ⟨t, ht⟩ := exists_finds entries_fit (accepted_of_shape (h c List.mem_cons_self)) cs
      obtain ⟨rest, hrest⟩ := ht.front
      have hshorter : rest.length < n := by
        rw [← hn, ← hrest, List.length_append]
        exact Nat.lt_add_of_pos_left (List.length_pos_iff.2 ht.ne_nil)
      have hknown : ∀ d ∈ rest, Shape [d] := fun d hd => h d (hrest ▸ List.mem_append_right _ hd)
      obtain ⟨ts, hts⟩ := ih rest.length hshorter hknown rfl
      rw [← hrest] at ht ⊢
      exact ⟨t :: ts, .cons ht hts⟩

/-! ## Mutations in the alphabet -/

theorem inAlphabet_of_isDigit {c : Char} (h : c.isDigit) : InAlphabet c :=
  .inl (Text.isWord_of_isDigit (Text.isDigit_of_ascii h))

theorem inAlphabet_of_mem_names {a : String} (h : a ∈ names) : ∀ c ∈ a.toList, InAlphabet c :=
  fun c hc => .inl (Text.isWord_of_isAlpha ((names_letters a h).2 c hc))

/-- A token that is written in the alphabet becomes one that is. -/
theorem Respelled.inAlphabet {t u : Token} (h : Respelled t u) (ht : ∀ c ∈ t.text, InAlphabet c) :
    ∀ c ∈ u.text, InAlphabet c := by
  cases h with
  | colour _ hb => exact inAlphabet_of_mem_names (List.mem_append_left _ hb)
  | mesh _ hb => exact inAlphabet_of_mem_names (List.mem_append_right _ hb)
  | count _ _ _ hm _ =>
    intro c hc
    rcases List.mem_append.1 hc with hc | hc
    · exact inAlphabet_of_isDigit (hm c hc)
    · exact ht c (List.mem_append_right _ hc)
  | number _ hsign _ hw hf =>
    intro c hc
    simp only [List.mem_append, List.mem_cons] at hc
    rcases hc with hc | hc | rfl | hc
    · rcases hsign with rfl | ⟨rfl, -⟩
      · cases hc
      · obtain rfl := List.mem_singleton.1 hc
        exact .inr (.inl (by decide))
    · exact inAlphabet_of_isDigit (hw c hc)
    · exact .inr (.inl (by decide))
    · exact inAlphabet_of_isDigit (hf c hc)

theorem inAlphabet_special : ∀ s ∈ specialTexts, ∀ c ∈ s, InAlphabet c := by
  have hcases : ∀ s ∈ specialTexts, ∀ c ∈ s, c.isAlpha ∨ c ∈ signs := by decide
  exact fun s hs c hc => (hcases s hs c hc).imp Text.isWord_of_isAlpha .inl

theorem inAlphabet_mutate {t : Token} (h : First entries t.text t.kind) (hm : t.isMutable) (g : Random.Generator)
    (ht : ∀ c ∈ t.text, InAlphabet c) : ∀ c ∈ (t.mutate g).1.text, InAlphabet c := by
  rcases respelled_mutate h hm g with hr | ⟨-, hs⟩
  · exact hr.inAlphabet ht
  · exact inAlphabet_special _ hs

theorem Splits.first {es : List Entry} {cs : List Char} {ts : List Token} (h : Splits es cs ts) :
    ∀ t ∈ ts, First es t.text t.kind := by
  induction h with
  | nil => exact fun t ht => absurd ht List.not_mem_nil
  | cons hf _ ih => exact List.forall_mem_cons.2 ⟨hf.first, ih⟩

theorem Splits.subset {es : List Entry} {cs : List Char} {ts : List Token} (h : Splits es cs ts) {t : Token}
    (ht : t ∈ ts) : t.text ⊆ cs := by
  intro c hc
  rw [← h.emit]
  exact List.mem_flatMap_of_mem ht hc

/-- What the autocoder makes of a text in the alphabet is written in the alphabet. -/
theorem inAlphabet_of_mutate {a : Autocoder} {sketch text : List Char} (h : ∀ c ∈ sketch, InAlphabet c)
    (hm : (a.mutate sketch).1 = some text) : ∀ c ∈ text, InAlphabet c := by
  obtain ⟨ts, hs⟩ := exists_splits fun c hc => shape_of_inAlphabet (h c hc)
  rcases mutate_cases (tokenize_eq_ok.2 hs) a with ⟨hnone, -⟩ | ⟨i, t, g, hi, ht, hsome⟩
  · rw [hnone] at hm
    cases hm
  · obtain rfl := Option.some.inj (hsome.symm.trans hm)
    have hmem : t ∈ ts := List.mem_of_getElem? hi
    intro c hc
    obtain ⟨u, hu, hc⟩ := List.mem_flatMap.1 hc
    rcases List.mem_or_eq_of_mem_set hu with hu | rfl
    · exact h c (hs.subset hu hc)
    · exact inAlphabet_mutate (hs.first t hmem) ht g (fun d hd => h d (hs.subset hmem hd)) c hc

/-! ## Chains -/

/-- What so many mutations in a row make of a sketch, and the autocoder after them. There is nothing if one of them
finds nothing to vary. -/
def vary : (n : Nat) → Autocoder → List Char → Option (List Char × Autocoder)
  | 0, a, sketch => some (sketch, a)
  | n + 1, a, sketch =>
    match a.mutate sketch with
    | (some sketch, a) => vary n a sketch
    | (none, _) => none

theorem vary_succ {a : Autocoder} {sketch text : List Char} (h : (a.mutate sketch).1 = some text) (n : Nat) :
    vary (n + 1) a sketch = vary n (a.mutate sketch).2 text := by
  rw [vary]
  split
  · rename_i next b hnext
    rw [hnext] at h ⊢
    rw [Option.some.inj h]
  · rename_i b hnext
    rw [hnext] at h
    cases h

theorem inAlphabet_of_vary {n : Nat} : ∀ {a a' : Autocoder} {sketch text : List Char}, (∀ c ∈ sketch, InAlphabet c) →
    vary n a sketch = some (text, a') → ∀ c ∈ text, InAlphabet c := by
  induction n with
  | zero =>
    intro a a' sketch text h hv
    cases hv
    exact h
  | succ n ih =>
    intro a a' sketch text h hv
    rw [vary] at hv
    split at hv
    · rename_i next b hnext
      exact ih (inAlphabet_of_mutate h (congrArg Prod.fst hnext)) hv
    · cases hv

/-- However often a text in the alphabet has been mutated, the text it has become is in the alphabet and splits into
tokens, which give it back, and the autocoder goes on from it unless none of them can be varied. -/
theorem vary_tokenizes {sketch : List Char} (h : ∀ c ∈ sketch, InAlphabet c) (a : Autocoder) (n : Nat) :
    ∀ text a', vary n a sketch = some (text, a') →
      (∀ c ∈ text, InAlphabet c) ∧ ∃ ts, tokenize text = .ok ts ∧ emit ts = text ∧
        ((a'.mutate text).1 = none ↔ ∀ t ∈ ts, t.isMutable = false) := by
  intro text a' hv
  have hknown := inAlphabet_of_vary h hv
  obtain ⟨ts, hs⟩ := exists_splits fun c hc => shape_of_inAlphabet (hknown c hc)
  have htokens := tokenize_eq_ok.2 hs
  refine ⟨hknown, ts, htokens, hs.emit, ?_⟩
  rcases mutate_cases htokens a' with ⟨hnone, himmutable⟩ | ⟨i, t, g, hi, hm, hsome⟩
  · exact iff_of_true hnone himmutable
  · refine iff_of_false (fun hnone => ?_) fun himmutable => ?_
    · rw [hsome] at hnone
      cases hnone
    · rw [himmutable t (List.mem_of_getElem? hi)] at hm
      cases hm

/-- One shape after another. -/
theorem vary_tokenizes_shape : (∀ c ∈ ['b', 'o', 'x'], InAlphabet c) ∧ ∀ a : Autocoder, ∃ a',
    vary 1 a ['b', 'o', 'x'] = some (['b', 'a', 'l', 'l'], a') ∧ (∀ c ∈ ['b', 'a', 'l', 'l'], InAlphabet c) ∧
      ∃ ts, tokenize ['b', 'a', 'l', 'l'] = .ok ts ∧ emit ts = ['b', 'a', 'l', 'l'] ∧
        ((a'.mutate ['b', 'a', 'l', 'l']).1 = none ↔ ∀ t ∈ ts, t.isMutable = false) := by
  have hknown : ∀ c ∈ ['b', 'o', 'x'], InAlphabet c := fun c hc => .inl (isWord_box c hc)
  have hbox : Splits entries ['b', 'o', 'x'] [⟨.mesh, ['b', 'o', 'x']⟩] :=
    @Splits.cons _ ⟨.mesh, ['b', 'o', 'x']⟩ [] [] ⟨List.cons_ne_nil _ _, ⟨[], rfl⟩, fun _ _ _ hv _ => hv.length_le,
      @first_mesh "box" (by decide)⟩ .nil
  refine ⟨hknown, fun a => ?_⟩
  have hvary : ∃ a', vary 1 a ['b', 'o', 'x'] = some (['b', 'a', 'l', 'l'], a') := by
    rcases mutate_cases (tokenize_eq_ok.2 hbox) a with ⟨-, himmutable⟩ | ⟨i, t, g, hi, -, hsome⟩
    · exact absurd (himmutable _ List.mem_cons_self) (by decide)
    · have hplace : i = 0 := Nat.lt_one_iff.1 (List.getElem?_eq_some_iff.1 hi).1
      subst hplace
      obtain rfl := Option.some.inj hi
      have hball : emit ([⟨.mesh, ['b', 'o', 'x']⟩].set 0 (Token.mutate ⟨.mesh, ['b', 'o', 'x']⟩ g).1) =
          ['b', 'a', 'l', 'l'] := rfl
      rw [hball] at hsome
      exact ⟨_, vary_succ hsome 0⟩
  obtain ⟨a', hv⟩ := hvary
  exact ⟨a', hv, vary_tokenizes hknown a 1 _ a' hv⟩

end LiveSketch.Autocoder

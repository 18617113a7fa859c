import LiveSketch.Proofs.Pattern.Running

/-!
# What a pattern accepts

`Pattern.Accepts` says which texts a pattern matches from end to end, without any preference: what the ways
of a solid pattern leave is what stands behind such a text (`mem_ways`). If the preferred way is the longest
one (`Longest`), then the match is the longest text accepted (`match?_eq_some`). This is so for single
characters and words, and it stays so for the sequences that rules are made of: a repetition of characters
in front of something that begins with another character, or a character that may be missing in front of
something that does not begin with it.
-/
namespace LiveSketch

namespace Pattern

/-- One part or more of which this holds. -/
inductive Parts (P : List Char → Prop) : List Char → Prop where
  | one {s : List Char} : P s → Parts P s
  | more {s t : List Char} : P s → Parts P t → Parts P (s ++ t)

/-- Whether the pattern matches this text from end to end. -/
def Accepts : Pattern → List Char → Prop
  | text w, s => s = w
  | char k, s => ∃ c, s = [c] ∧ k.contains c
  | seq p q, s => ∃ a b, s = a ++ b ∧ p.Accepts a ∧ q.Accepts b
  | either p q, s => p.Accepts s ∨ q.Accepts s
  | rounds _ p, s => Parts p.Accepts s
  | group p, s => p.Accepts s

/-- What a pattern leaves is what stands behind a text that it accepts. -/
theorem mem_ways {p : Pattern} (hs : p.solid) {cs rest : List Char} :
    rest ∈ p.ways cs ↔ ∃ s, cs = s ++ rest ∧ p.Accepts s := by
  induction p generalizing cs rest with
  | text w =>
    rw [ways]
    constructor
    · intro h
      split at h
      · rename_i hw
        obtain ⟨t, rfl⟩ := List.isPrefixOf_iff_prefix.1 hw
        rw [List.drop_left, List.mem_singleton] at h
        exact ⟨w, by rw [h], rfl⟩
      · cases h
    · rintro ⟨s, rfl, rfl⟩
      rw [if_pos (List.isPrefixOf_iff_prefix.2 (List.prefix_append _ _)), List.drop_left]
      exact List.mem_singleton_self _
  | char k =>
    constructor
    · intro h
      cases cs with
      | nil => cases h
      | cons c cs =>
        rw [ways] at h
        split at h
        · rename_i hk
          obtain rfl := List.mem_singleton.1 h
          exact ⟨[c], rfl, c, rfl, hk⟩
        · cases h
    · rintro ⟨s, rfl, c, rfl, hk⟩
      rw [List.singleton_append, ways, if_pos hk]
      exact List.mem_singleton_self _
  | seq p q ihp ihq =>
    obtain ⟨hsp, hsq⟩ := Bool.and_eq_true_iff.1 hs
    constructor
    · intro h
      obtain ⟨mid, hm, hr⟩ := List.mem_flatMap.1 h
      obtain ⟨a, rfl, ha⟩ := (ihp hsp).1 hm
      obtain ⟨b, rfl, hb⟩ := (ihq hsq).1 hr
      exact ⟨a ++ b, (List.append_assoc _ _ _).symm, a, b, rfl, ha, hb⟩
    · rintro ⟨s, rfl, a, b, rfl, ha, hb⟩
      exact List.mem_flatMap.2 ⟨b ++ rest, (ihp hsp).2 ⟨a, List.append_assoc _ _ _, ha⟩, (ihq hsq).2 ⟨b, rfl, hb⟩⟩
  | either p q ihp ihq =>
    obtain ⟨hsp, hsq⟩ := Bool.and_eq_true_iff.1 hs
    rw [ways, List.mem_append, ihp hsp, ihq hsq]
    constructor
    · rintro (⟨s, rfl, h⟩ | ⟨s, rfl, h⟩)
      · exact ⟨s, rfl, .inl h⟩
      · exact ⟨s, rfl, .inr h⟩
    · rintro ⟨s, rfl, h | h⟩
      · exact .inl ⟨s, rfl, h⟩
      · exact .inr ⟨s, rfl, h⟩
  | rounds greedy p ih =>
    obtain ⟨hsp, hn⟩ := Bool.and_eq_true_iff.1 hs
    have hn : p.nullable = false := by simpa using hn
    have hround : ∀ {cs : List Char}, rest ∈ (rounds greedy p).ways cs ↔
        ∃ mid ∈ p.ways cs, rest = mid ∨ rest ∈ (rounds greedy p).ways mid := by
      intro cs
      rw [ways_rounds hn, List.mem_flatMap]
      refine exists_congr fun mid => and_congr_right fun _ => ?_
      cases greedy <;> simp [or_comm]
    constructor
    · intro h
      induction hlen : cs.length using Nat.strongRecOn generalizing cs with
      | ind n ihn =>
        obtain ⟨mid, hm, hr⟩ := hround.1 h
        obtain ⟨a, rfl, ha⟩ := (ih hsp).1 hm
        rcases hr with rfl | hr
        · exact ⟨a, rfl, .one ha⟩
        · have hshort := length_of_mem_ways hn hm
          obtain ⟨b, rfl, hb⟩ := ihn mid.length (by omega) hr rfl
          exact ⟨a ++ b, (List.append_assoc _ _ _).symm, .more ha hb⟩
    · rintro ⟨s, rfl, h⟩
      induction h with
      | one ha => exact hround.2 ⟨rest, (ih hsp).2 ⟨_, rfl, ha⟩, .inl rfl⟩
      | @more a b ha _ ihb =>
        exact hround.2 ⟨b ++ rest, (ih hsp).2 ⟨a, List.append_assoc _ _ _, ha⟩, .inr ihb⟩
  | group p ih => exact ih hs

/-- The preferred way is the longest one. -/
def Longest (p : Pattern) : Prop :=
  ∀ cs, ∀ rest ∈ p.ways cs, ∃ best, (p.ways cs).head? = Option.some best ∧ best.length ≤ rest.length

/-- The match is the longest text at the front that the pattern accepts. -/
theorem match?_eq_some {p : Pattern} (hs : p.solid) (hl : p.Longest) {cs : List Char} {n : Nat} :
    (Automaton.ofPattern p).match? cs = Option.some n ↔ ∃ s, s <+: cs ∧ s.length = n ∧ p.Accepts s ∧
      ∀ s', s' <+: cs → p.Accepts s' → s'.length ≤ n := by
  have hbest : ∀ {rest : List Char}, (p.ways cs).head? = Option.some rest → ∃ s, cs = s ++ rest ∧ p.Accepts s ∧
      ∀ s', s' <+: cs → p.Accepts s' → s'.length ≤ s.length := by
    intro rest hh
    obtain ⟨s, rfl, ha⟩ := (mem_ways hs).1 (List.mem_of_head? hh)
    refine ⟨s, rfl, ha, ?_⟩
    rintro s' ⟨rest', hr⟩ ha'
    obtain ⟨best, hb, hle⟩ := hl (s ++ rest) rest' ((mem_ways hs).2 ⟨s', hr.symm, ha'⟩)
    rw [hh] at hb
    cases hb
    have hlen := congrArg List.length hr
    simp only [List.length_append] at hlen
    omega
  rw [Automaton.match?_ofPattern hs]
  constructor
  · intro h
    obtain ⟨rest, hh, rfl⟩ := Option.map_eq_some_iff.1 h
    obtain ⟨s, rfl, ha, hmax⟩ := hbest hh
    have hlen : (s ++ rest).length - rest.length = s.length := by simp
    rw [hlen]
    exact ⟨s, List.prefix_append _ _, rfl, ha, hmax⟩
  · rintro ⟨s, ⟨rest, rfl⟩, rfl, ha, hmax⟩
    obtain ⟨best, hb, hle⟩ := hl (s ++ rest) rest ((mem_ways hs).2 ⟨s, rfl, ha⟩)
    obtain ⟨s', hs', ha', -⟩ := hbest hb
    have hle' := hmax s' ⟨best, hs'.symm⟩ ha'
    have hlen := congrArg List.length hs'
    simp only [List.length_append] at hlen
    rw [hb, Option.map_some, List.length_append]
    congr 1
    omega

theorem match?_eq_none {p : Pattern} (hs : p.solid) {cs : List Char} :
    (Automaton.ofPattern p).match? cs = none ↔ ∀ s, s <+: cs → ¬ p.Accepts s := by
  rw [Automaton.match?_ofPattern hs, Option.map_eq_none_iff, List.head?_eq_none_iff]
  constructor
  · rintro h s ⟨rest, rfl⟩ ha
    have hmem : rest ∈ p.ways (s ++ rest) := (mem_ways hs).2 ⟨s, rfl, ha⟩
    rw [h] at hmem
    cases hmem
  · intro h
    refine List.eq_nil_iff_forall_not_mem.2 fun rest hr => ?_
    obtain ⟨s, rfl, ha⟩ := (mem_ways hs).1 hr
    exact h s (List.prefix_append _ _) ha

/-! ## Single ways -/

/-- There is one way at most. -/
def Single (p : Pattern) : Prop := ∀ cs, (p.ways cs).length ≤ 1

theorem single_text (w : List Char) : Single (text w) := fun cs => by
  rw [ways]
  split <;> simp

theorem single_char (k : CharClass) : Single (char k) := fun cs => by
  cases cs with
  | nil => simp [ways]
  | cons c cs =>
    rw [ways]
    split <;> simp

theorem Single.cases {p : Pattern} (h : p.Single) (cs : List Char) :
    p.ways cs = [] ∨ ∃ rest, p.ways cs = [rest] := by
  have hlen := h cs
  cases hw : p.ways cs with
  | nil => exact .inl rfl
  | cons rest others =>
    rw [hw, List.length_cons] at hlen
    have hnil : others = [] := List.length_eq_zero_iff.1 (by omega)
    exact .inr ⟨rest, by rw [hnil]⟩

theorem Single.longest {p : Pattern} (h : p.Single) : p.Longest := by
  intro cs rest hr
  rcases h.cases cs with hw | ⟨best, hw⟩
  · rw [hw] at hr
    cases hr
  · rw [hw, List.mem_singleton] at hr
    exact ⟨best, by rw [hw]; rfl, Nat.le_of_eq (congrArg List.length hr.symm)⟩

theorem Longest.seq {p q : Pattern} (hp : p.Single) (hq : q.Longest) : (Pattern.seq p q).Longest := by
  intro cs rest hr
  rw [ways] at hr ⊢
  rcases hp.cases cs with hw | ⟨mid, hw⟩
  · rw [hw] at hr
    cases hr
  · rw [hw, List.flatMap_cons, List.flatMap_nil, List.append_nil] at hr ⊢
    exact hq mid rest hr

theorem ways_empty (cs : List Char) : empty.ways cs = [cs] := by
  simp [empty, ways]

theorem longest_empty : Longest empty := (single_text []).longest

theorem ways_optional (p : Pattern) (cs : List Char) : (optional p).ways cs = p.ways cs ++ [cs] := by
  rw [optional, optionally, if_pos rfl, ways, ways_empty]

theorem Longest.optional {p : Pattern} (hp : p.Longest) : (optional p).Longest := by
  intro cs rest hr
  rw [ways_optional] at hr ⊢
  cases hw : p.ways cs with
  | nil =>
    rw [hw, List.nil_append, List.mem_singleton] at hr
    exact ⟨cs, rfl, Nat.le_of_eq (congrArg List.length hr.symm)⟩
  | cons best others =>
    refine ⟨best, rfl, ?_⟩
    rcases List.mem_append.1 hr with hr | hr
    · obtain ⟨best', hb, hle⟩ := hp cs rest hr
      rw [hw] at hb
      cases hb
      exact hle
    · rw [List.mem_singleton.1 hr]
      exact (suffix_of_mem_ways (hw ▸ List.mem_cons_self : best ∈ p.ways cs)).length_le

/-- A character of the class in front never gets the pattern further. -/
def NoGain (k : CharClass) (q : Pattern) : Prop :=
  ∀ c cs, k.contains c → ∀ rest ∈ q.ways (c :: cs), ∃ rest' ∈ q.ways cs, rest'.length ≤ rest.length

/-- What begins with other characters gains nothing. -/
theorem noGain_of_ways_eq_nil {k : CharClass} {q : Pattern} (h : ∀ c cs, k.contains c → q.ways (c :: cs) = []) :
    NoGain k q := by
  intro c cs hc rest hr
  rw [h c cs hc] at hr
  cases hr

theorem contains_of {chars : List Char} {c : Char} : (CharClass.of chars).contains c ↔ c ∈ chars := by
  have hany : (CharClass.of chars).contains c ↔ ∃ d ∈ chars, d.toNat ≤ c.toNat ∧ c.toNat ≤ d.toNat := by
    simp [CharClass.contains, CharClass.of, ClassItem.contains]
  rw [hany]
  constructor
  · rintro ⟨d, hd, hle⟩
    rwa [Char.toNat_inj.1 (Nat.le_antisymm hle.2 hle.1)]
  · intro h
    exact ⟨c, h, Nat.le_refl _, Nat.le_refl _⟩

/-- A character that may be missing in front of something that gains nothing from it. -/
theorem Longest.optional_seq {c : Char} {q : Pattern} (hq : q.Longest) (hc : NoGain (.of [c]) q) :
    (Pattern.seq (Pattern.optional (one c)) q).Longest := by
  intro cs rest hr
  rw [ways, ways_optional, List.flatMap_append] at hr ⊢
  simp only [List.flatMap_cons, List.flatMap_nil, List.append_nil] at hr ⊢
  cases cs with
  | nil =>
    simp only [one, ways, List.isPrefixOf, Bool.false_eq_true, if_false, List.flatMap_nil, List.nil_append] at hr ⊢
    exact hq [] rest hr
  | cons d cs =>
    by_cases hd : d = c
    · subst hd
      have hone : (one d).ways (d :: cs) = [cs] := by simp [one, ways]
      rw [hone, List.flatMap_cons, List.flatMap_nil, List.append_nil] at hr ⊢
      have hfront : ∃ rest' ∈ q.ways cs, rest'.length ≤ rest.length := by
        rcases List.mem_append.1 hr with hr | hr
        · exact ⟨rest, hr, Nat.le_refl _⟩
        · exact hc d cs (contains_of.2 (List.mem_singleton_self d)) rest hr
      obtain ⟨rest', hr', hle'⟩ := hfront
      obtain ⟨best, hb, hle⟩ := hq cs rest' hr'
      exact ⟨best, by rw [List.head?_append, hb]; rfl, Nat.le_trans hle hle'⟩
    · have hone : (one c).ways (d :: cs) = [] := by simp [one, ways, Ne.symm hd]
      rw [hone, List.flatMap_nil, List.nil_append] at hr ⊢
      exact hq (d :: cs) rest hr

/-! ## Runs of characters -/

/-- What may be left behind one character or more of a class, the longest run first. -/
def runEnds (k : CharClass) : List Char → List (List Char)
  | [] => []
  | c :: cs => if k.contains c then runEnds k cs ++ [cs] else []

theorem ways_some (k : CharClass) (cs : List Char) : (char k).some.ways cs = runEnds k cs := by
  induction cs with
  | nil => rfl
  | cons c cs ih =>
    rw [Pattern.some, ways_rounds rfl, runEnds, ways]
    by_cases hc : k.contains c
    · rw [if_pos hc, if_pos hc, List.flatMap_cons, List.flatMap_nil, List.append_nil, if_pos rfl, ← ih]
      rfl
    · rw [if_neg hc, if_neg hc, List.flatMap_nil]

theorem ways_many (k : CharClass) (cs : List Char) : (many (char k)).ways cs = runEnds k cs ++ [cs] := by
  rw [many, ways_optional, ways_some]

theorem length_of_mem_runEnds {k : CharClass} {cs rest : List Char} (h : rest ∈ runEnds k cs) :
    rest.length < cs.length := by
  rw [← ways_some] at h
  exact length_of_mem_ways (p := (char k).some) rfl h

/-- Longer runs come first. -/
theorem pairwise_runEnds (k : CharClass) (cs : List Char) :
    (runEnds k cs).Pairwise fun a b => a.length ≤ b.length := by
  induction cs with
  | nil => exact .nil
  | cons c cs ih =>
    rw [runEnds]
    split
    · refine List.pairwise_append.2 ⟨ih, List.pairwise_singleton _ _, fun a ha b hb => ?_⟩
      rw [List.mem_singleton.1 hb]
      exact Nat.le_of_lt (length_of_mem_runEnds ha)
    · exact .nil

theorem longest_some (k : CharClass) : (char k).some.Longest := by
  intro cs rest hr
  rw [ways_some] at hr ⊢
  have hp := pairwise_runEnds k cs
  cases hw : runEnds k cs with
  | nil =>
    rw [hw] at hr
    cases hr
  | cons best others =>
    rw [hw] at hr hp
    refine ⟨best, rfl, ?_⟩
    rcases List.mem_cons.1 hr with rfl | hr
    · exact Nat.le_refl _
    · exact (List.pairwise_cons.1 hp).1 rest hr

theorem longest_many (k : CharClass) : (many (char k)).Longest := (longest_some k).optional

/-- A run that may be empty in front of something that gains nothing from its characters. -/
theorem Longest.many_seq {k : CharClass} {q : Pattern} (hl : q.Longest) (hk : NoGain k q) :
    (Pattern.seq (many (char k)) q).Longest := by
  intro cs
  rw [ways, ways_many]
  induction cs with
  | nil =>
    rw [runEnds, List.nil_append, List.flatMap_cons, List.flatMap_nil, List.append_nil]
    exact hl []
  | cons c cs ih =>
    intro rest hr
    rw [runEnds] at hr ⊢
    by_cases hc : k.contains c
    · rw [if_pos hc, List.flatMap_append] at hr ⊢
      have hfront : ∃ rest' ∈ (runEnds k cs ++ [cs]).flatMap q.ways, rest'.length ≤ rest.length := by
        rcases List.mem_append.1 hr with hr | hr
        · exact ⟨rest, hr, Nat.le_refl _⟩
        · rw [List.flatMap_cons, List.flatMap_nil, List.append_nil] at hr
          obtain ⟨rest', hr', hle⟩ := hk c cs hc rest hr
          exact ⟨rest', List.mem_flatMap.2 ⟨cs, by simp, hr'⟩, hle⟩
      obtain ⟨rest', hr', hle'⟩ := hfront
      obtain ⟨best, hb, hle⟩ := ih rest' hr'
      exact ⟨best, by rw [List.head?_append, hb]; rfl, Nat.le_trans hle hle'⟩
    · rw [if_neg hc, List.nil_append, List.flatMap_cons, List.flatMap_nil, List.append_nil] at hr ⊢
      exact hl _ rest hr

theorem Longest.some_seq {k : CharClass} {q : Pattern} (hl : q.Longest) (hk : NoGain k q) :
    (Pattern.seq (char k).some q).Longest := by
  intro cs rest hr
  rw [ways, ways_some] at hr ⊢
  cases cs with
  | nil => cases hr
  | cons c cs =>
    have hmany := Longest.many_seq hl hk cs
    rw [ways, ways_many] at hmany
    rw [runEnds] at hr ⊢
    split at hr
    · rename_i hc
      rw [if_pos hc]
      exact hmany rest hr
    · cases hr

/-- Something of one length behind a run, where the run may go further. -/
theorem Longest.some_seq_of_length {k : CharClass} {q : Pattern} {n : Nat} (hs : q.Single)
    (hn : ∀ cs, ∀ rest ∈ q.ways cs, rest.length + n = cs.length) : (Pattern.seq (char k).some q).Longest := by
  intro cs rest hr
  rw [ways, ways_some] at hr ⊢
  have hp := pairwise_runEnds k cs
  generalize runEnds k cs = ends at hr hp ⊢
  induction ends with
  | nil => cases hr
  | cons mid others ih =>
    obtain ⟨hle, hp⟩ := List.pairwise_cons.1 hp
    rw [List.flatMap_cons] at hr ⊢
    rcases hs.cases mid with hw | ⟨best, hw⟩
    · rw [hw, List.nil_append] at hr ⊢
      exact ih hr hp
    · refine ⟨best, by rw [hw]; rfl, ?_⟩
      have hbest := hn mid best (by rw [hw]; exact List.mem_singleton_self _)
      rcases List.mem_append.1 hr with hr | hr
      · rw [hw] at hr
        exact Nat.le_of_eq (congrArg List.length (List.mem_singleton.1 hr).symm)
      · obtain ⟨mid', hm, hr⟩ := List.mem_flatMap.1 hr
        have h' := hn mid' rest hr
        have := hle mid' hm
        omega

/-! ## Patterns put together -/

theorem ways_seq_empty (p : Pattern) (cs : List Char) : (seq p empty).ways cs = p.ways cs := by
  rw [ways, funext ways_empty, List.flatMap_singleton']

theorem Longest.seq_empty {p : Pattern} (h : p.Longest) : (Pattern.seq p empty).Longest := by
  intro cs
  rw [ways_seq_empty]
  exact h cs

theorem Single.seq_empty {p : Pattern} (h : p.Single) : (Pattern.seq p empty).Single := by
  intro cs
  rw [ways_seq_empty]
  exact h cs

/-- A sequence that begins with a text does not match one that begins otherwise. -/
theorem ways_text_seq {c d : Char} {w : List Char} {q : Pattern} (h : d ≠ c) (cs : List Char) :
    (seq (text (c :: w)) q).ways (d :: cs) = [] := by
  rw [ways, ways, if_neg, List.flatMap_nil]
  simp [h.symm]

/-- A sequence that begins with a run does not match a text that begins otherwise. -/
theorem ways_some_seq {k : CharClass} {c : Char} {q : Pattern} (h : ¬ k.contains c) (cs : List Char) :
    (seq (char k).some q).ways (c :: cs) = [] := by
  rw [ways, ways_some, runEnds, if_neg h, List.flatMap_nil]

theorem accepts_optional {p : Pattern} {s : List Char} : (optional p).Accepts s ↔ p.Accepts s ∨ s = [] := Iff.rfl

theorem accepts_some {k : CharClass} {s : List Char} :
    (char k).some.Accepts s ↔ s ≠ [] ∧ ∀ c ∈ s, k.contains c := by
  constructor
  · intro h
    change Parts _ s at h
    induction h with
    | one h =>
      obtain ⟨c, rfl, hc⟩ := h
      simpa using hc
    | more h _ ih =>
      obtain ⟨c, rfl, hc⟩ := h
      simpa using And.intro hc ih.2
  · rintro ⟨hne, h⟩
    change Parts _ s
    induction s with
    | nil => exact absurd rfl hne
    | cons c cs ih =>
      obtain ⟨hc, hcs⟩ := List.forall_mem_cons.1 h
      cases cs with
      | nil => exact .one ⟨c, rfl, hc⟩
      | cons d cs => exact .more (s := [c]) ⟨c, rfl, hc⟩ (ih (List.cons_ne_nil d cs) hcs)

/-- Runs of one character, which is a class by itself. -/
theorem ways_some_one (c : Char) (cs : List Char) : (one c).some.ways cs = (char (.of [c])).some.ways cs := by
  have hone : (one c).ways = (char (.of [c])).ways := by
    funext cs
    cases cs with
    | nil => rfl
    | cons d cs =>
      by_cases hd : c = d
      · subst hd
        rw [ways, if_pos (contains_of.2 (List.mem_singleton_self c))]
        simp [one, ways]
      · rw [ways, if_neg fun hc => hd (List.mem_singleton.1 (contains_of.1 hc)).symm]
        simp [one, ways, hd]
  rw [Pattern.some, Pattern.some, ways, ways, hone]

theorem longest_some_one (c : Char) : (one c).some.Longest := by
  intro cs
  rw [ways_some_one]
  exact longest_some _ cs

theorem accepts_some_one {c : Char} {s : List Char} : (one c).some.Accepts s ↔ s ≠ [] ∧ ∀ d ∈ s, d = c := by
  have hone : (one c).Accepts = (char (.of [c])).Accepts := by
    funext s
    refine propext ⟨fun h => ⟨c, h, contains_of.2 (List.mem_singleton_self c)⟩, ?_⟩
    rintro ⟨d, rfl, hd⟩
    rw [List.mem_singleton.1 (contains_of.1 hd)]
    rfl
  have hsome : (one c).some.Accepts s ↔ (char (.of [c])).some.Accepts s := by
    change Parts _ s ↔ Parts _ s
    rw [hone]
  rw [hsome, accepts_some]
  simp [contains_of]

theorem accepts_many {k : CharClass} {s : List Char} :
    (many (char k)).Accepts s ↔ ∀ c ∈ s, k.contains c := by
  rw [many, accepts_optional, accepts_some]
  by_cases hs : s = []
  · simp [hs]
  · simp [hs]

end Pattern

end LiveSketch

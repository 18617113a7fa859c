import LiveSketch.Autocoder.Lexer
import LiveSketch.Proofs.Text.Bytes

/-!
# Streams of tokens lose nothing

A stream takes a character or more off its text with each token, so it ends (`ends_of_rest`). The tokens it
has given are the text between its start and its offset, and a stream that is started at this offset goes
on as the first one does, because it is the same stream (`Stream.Within.restart`). `start_lossless` puts
this together for every table of rules, every text and every start.
-/
namespace LiveSketch.Autocoder

open Text (bytes byteLength IsBoundary)

/-! ## One token -/

/-- A rule finds part of the front of a text. -/
theorem Rule.token?_eq_some {r : Rule} {cs : List Char} {t : Token} (h : r.token? cs = some t) :
    ∃ n, n ≠ 0 ∧ t = ⟨r.kind, cs.take n⟩ := by
  unfold Rule.token? at h
  split at h
  · cases h
  · cases h
  · rename_i n hn _
    cases h
    exact ⟨n, hn, rfl⟩

theorem longer_cases (t u : Option Token) : longer t u = t ∨ longer t u = u := by
  unfold longer
  split
  · exact .inr rfl
  · exact .inl rfl
  · split
    · exact .inr rfl
    · exact .inl rfl

/-- The best match is the match of some rule. -/
theorem exists_rule_of_bestMatch {rules : List Rule} {cs : List Char} {t : Token}
    (h : bestMatch rules cs = some t) : ∃ r ∈ rules, r.token? cs = some t := by
  have hfold : ∀ (rs : List Rule) (best : Option Token),
      rs.foldl (fun best r => longer best (r.token? cs)) best = some t →
        best = some t ∨ ∃ r ∈ rs, r.token? cs = some t := by
    intro rs
    induction rs with
    | nil => exact fun best h => .inl h
    | cons r rs ih =>
      intro best h
      rcases ih _ h with hbest | ⟨r', hr', ht⟩
      · rcases longer_cases best (r.token? cs) with hl | hl
        · exact .inl (hl ▸ hbest)
        · exact .inr ⟨r, List.mem_cons_self, hl ▸ hbest⟩
      · exact .inr ⟨r', List.mem_cons_of_mem _ hr', ht⟩
  rcases hfold rules none h with h | h
  · cases h
  · exact h

/-- The best match is a part of the front of a text that is not empty. -/
theorem text_of_bestMatch {rules : List Rule} {cs : List Char} {t : Token}
    (h : bestMatch rules cs = some t) (hne : cs ≠ []) :
    t.text ≠ [] ∧ t.text ++ cs.drop t.text.length = cs := by
  obtain ⟨r, -, hr⟩ := exists_rule_of_bestMatch h
  obtain ⟨n, hn, rfl⟩ := Rule.token?_eq_some hr
  refine ⟨by simp [hn, hne], ?_⟩
  rcases Nat.le_total n cs.length with hle | hle
  · rw [List.length_take_of_le hle, List.take_append_drop]
  · rw [List.take_of_length_le hle, List.drop_length, List.append_nil]

/-! ## Whole streams -/

namespace Stream

/-- The stream gives these tokens first, and is then `s'`. -/
inductive Reads : Stream → List Token → Stream → Prop where
  | nil {s} : Reads s [] s
  | cons {s s' s'' t ts} : s.next? = some (.ok t, s') → Reads s' ts s'' → Reads s (t :: ts) s''

/-- The stream gives these items, tokens and faults, and then nothing more. It is `last` when it ends. -/
inductive Ends : Stream → List (Except LexFault Token) → Stream → Prop where
  | done {s} : s.next? = none → Ends s [] s
  | next {s s' item items last} : s.next? = some (item, s') → Ends s' items last →
      Ends s (item :: items) last

/-- Tokens and behind them a fault, if there is one. -/
def items (ts : List Token) (fault : Option LexFault) : List (Except LexFault Token) :=
  ts.map .ok ++ fault.toList.map .error

/-- What a stream still gives after some tokens. -/
theorem Ends.after {s last : Stream} {ts : List Token} {is : List (Except LexFault Token)}
    (h : Ends s (ts.map .ok ++ is) last) : ∃ mid, Reads s ts mid ∧ Ends mid is last := by
  induction ts generalizing s with
  | nil => exact ⟨s, .nil, h⟩
  | cons t ts ih =>
    cases h with
    | next hn h =>
      obtain ⟨mid, hr, he⟩ := ih h
      exact ⟨mid, .cons hn hr, he⟩

/-- A stream that has given a fault gives nothing more. -/
theorem next?_fail (s : Stream) : s.fail.next? = none := rfl

theorem fault_of_next? {s last : Stream} {f : LexFault} (h : s.next? = some (.error f, last)) :
    last = s.fail ∧ f.offset = s.offset := by
  unfold next? at h
  split at h
  · cases h
  split at h
  · cases h
    exact ⟨rfl, rfl⟩
  · cases h
  · split at h
    · cases h
    · cases h
      exact ⟨rfl, rfl⟩

/-- Reading within enough fuel gives everything. -/
theorem Ends.runWithin {ts : List Token} {fault : Option LexFault} {last : Stream} :
    ∀ {s : Stream} {fuel : Nat}, Ends s (items ts fault) last → ts.length < fuel →
      s.runWithin fuel = (ts, fault, last.offset) := by
  induction ts with
  | nil =>
    intro s fuel h hf
    obtain ⟨fuel, rfl⟩ : ∃ k, fuel = k + 1 := ⟨fuel - 1, by simp at hf; omega⟩
    cases fault with
    | none =>
      cases h with
      | done hn => simp [Stream.runWithin, hn]
    | some f =>
      cases h with
      | next hn h =>
        cases h with
        | done => simp [Stream.runWithin, hn]
  | cons t ts ih =>
    intro s fuel h hf
    obtain ⟨fuel, rfl⟩ : ∃ k, fuel = k + 1 := ⟨fuel - 1, by simp at hf; omega⟩
    cases h with
    | next hn h => simp [Stream.runWithin, hn, ih h (by simpa using hf)]

/-! ## Streams within a text -/

/-- The stream stands in a text behind `front` and what it has `given`, and has this text `left`. -/
structure Within (s : Stream) (front given left : List Char) : Prop where
  rest : s.rest = some left
  offset : s.offset = byteLength front + byteLength given
  failed : s.failed = false

namespace Within

variable {s s' last : Stream} {front given left : List Char}

/-- A stream that is started where another one has come to is that stream. -/
theorem restart (h : s.Within front given left) : start s.rules (front ++ given ++ left) s.offset = s := by
  have hoffset : s.offset = byteLength (front ++ given) := by rw [h.offset, Text.byteLength_append]
  have hmin : min s.offset (byteLength (front ++ given ++ left)) = byteLength (front ++ given) := by
    rw [hoffset, Text.byteLength_append (front ++ given)]
    omega
  obtain ⟨rules, offset, rest, failed⟩ := s
  cases h.rest
  cases h.failed
  cases hoffset
  simp only [start, hmin, Text.dropBytes?_append]

theorem next?_nil (h : s.Within front given []) : s.next? = none := by
  simp [next?, h.failed, h.rest]

theorem next?_cons (h : s.Within front given left) (hne : left ≠ []) :
    s.next? = match bestMatch s.rules left with
      | some t => some (.ok t, s.skip t left)
      | none => some (.error ⟨s.offset, .noRule (left.take 16)⟩, s.fail) := by
  cases left with
  | nil => exact absurd rfl hne
  | cons c cs =>
    rw [next?, h.failed, h.rest]
    rfl

/-- A token is the front of what is left. -/
theorem step (h : s.Within front given left) {t : Token} (hn : s.next? = some (.ok t, s')) :
    t.text ≠ [] ∧ s'.rules = s.rules ∧
      ∃ left', left = t.text ++ left' ∧ s'.Within front (given ++ t.text) left' := by
  have hne : left ≠ [] := by
    rintro rfl
    rw [h.next?_nil] at hn
    cases hn
  rw [h.next?_cons hne] at hn
  split at hn
  · rename_i hb
    cases hn
    obtain ⟨htext, hsplit⟩ := text_of_bestMatch hb hne
    refine ⟨htext, rfl, _, hsplit.symm, rfl, ?_, h.failed⟩
    simp only [skip, h.offset, Text.byteLength_append]
    omega
  · cases hn

/-- Tokens are the front of what is left. -/
theorem reads {ts : List Token} (h : s.Within front given left) (hr : Reads s ts s') :
    (∀ t ∈ ts, t.text ≠ []) ∧ s'.rules = s.rules ∧
      ∃ left', left = emit ts ++ left' ∧ s'.Within front (given ++ emit ts) left' := by
  induction hr generalizing given left with
  | nil => exact ⟨by simp, rfl, left, rfl, by simpa [emit] using h⟩
  | @cons s s₁ s₂ t ts hn _ ih =>
    obtain ⟨htext, hrules, left₁, rfl, h₁⟩ := h.step hn
    obtain ⟨hts, hrules', left₂, rfl, h₂⟩ := ih h₁
    refine ⟨?_, hrules'.trans hrules, left₂, by simp [emit], by simpa [emit] using h₂⟩
    intro u hu
    rcases List.mem_cons.1 hu with rfl | hu
    · exact htext
    · exact hts u hu

/-- Every stream ends. The induction is on the length of what is left. -/
theorem exists_ends (n : Nat) : ∀ {s : Stream} {given left : List Char}, s.Within front given left →
    left.length ≤ n → ∃ ts fault last, Ends s (items ts fault) last ∧ ts.length ≤ left.length := by
  induction n with
  | zero =>
    intro s given left h hl
    obtain rfl := List.length_eq_zero_iff.1 (Nat.le_zero.1 hl)
    exact ⟨[], none, s, .done h.next?_nil, Nat.le_refl _⟩
  | succ n ih =>
    intro s given left h hl
    by_cases hne : left = []
    · subst hne
      exact ⟨[], none, s, .done h.next?_nil, Nat.le_refl _⟩
    have hn := h.next?_cons hne
    split at hn
    · rename_i t _
      obtain ⟨htext, -, left', rfl, h'⟩ := h.step hn
      have hpos := List.length_pos_iff.2 htext
      rw [List.length_append] at hl
      obtain ⟨ts, fault, last, he, hlen⟩ := ih h' (by omega)
      exact ⟨t :: ts, fault, last, .next hn he, by simp; omega⟩
    · exact ⟨[], some _, _, .next hn (.done (next?_fail s)), Nat.zero_le _⟩

/-- Where a stream has nothing to give but its end or a fault, it has come to the end of its text or it
keeps the place of the fault. -/
theorem ends_items_nil {fault : Option LexFault} (h : s.Within front given left)
    (he : Ends s (items [] fault) last) :
    last.offset = s.offset ∧ (∀ f ∈ fault, f.offset = s.offset) ∧ (fault = none ↔ left = []) := by
  cases fault with
  | none =>
    cases he with
    | done hn =>
      refine ⟨rfl, by simp, fun _ => Classical.byContradiction fun hne => ?_, fun _ => rfl⟩
      rw [h.next?_cons hne] at hn
      split at hn <;> cases hn
  | some f =>
    cases he with
    | next hn he =>
      cases he with
      | done =>
        obtain ⟨rfl, hf⟩ := fault_of_next? hn
        refine ⟨rfl, by simpa using hf, by simp, ?_⟩
        rintro rfl
        rw [h.next?_nil] at hn
        cases hn

end Within

/-- The tokens are the text from the byte `a` up to the byte `b`. -/
def Covers (input : List Char) (a b : Nat) (ts : List Token) : Prop :=
  a ≤ b ∧ b ≤ byteLength input ∧ (bytes input).extract a b = bytes (emit ts)

theorem Within.covers {s : Stream} {front left : List Char} {ts : List Token}
    (h : s.Within front (emit ts) left) :
    Covers (front ++ emit ts ++ left) (byteLength front) s.offset ts := by
  rw [h.offset]
  refine ⟨Nat.le_add_right _ _, ?_, Text.extract_bytes _ _ _⟩
  rw [Text.byteLength_append, Text.byteLength_append]
  omega

/-- What all that a stream gives has to do with its text: `tokens`, a `fault` if there is one, and the stream
at its `last`. -/
structure Lossless (rules : List Rule) (input : List Char) (offset : Nat) (tokens : List Token)
    (fault : Option LexFault) (last : Stream) : Prop where
  ends : (start rules input offset).Ends (items tokens fault) last
  run : (start rules input offset).run = (tokens, fault, last.offset)
  texts : ∀ t ∈ tokens, t.text ≠ []
  covers : Covers input (min offset (byteLength input)) last.offset tokens
  place : ∀ f ∈ fault, f.offset = last.offset
  complete : fault = none ↔ last.offset = byteLength input
  inside : offset ≤ byteLength input → ¬ IsBoundary input offset →
    tokens = [] ∧ fault = some ⟨offset, .insideCharacter⟩
  /-- The stream behind any of the tokens, and what a stream gives that is started there. -/
  restart : ∀ before after, tokens = before ++ after → ∃ mid, (start rules input offset).Reads before mid ∧
    Covers input (min offset (byteLength input)) mid.offset before ∧
    (start rules input mid.offset).Ends (items after fault) last

/-- Inside a character there is nothing but a fault. -/
theorem lossless_inside (rules : List Rule) {input : List Char} {offset : Nat}
    (hle : offset ≤ byteLength input) (hin : ¬ IsBoundary input offset) :
    Lossless rules input offset [] (some ⟨offset, .insideCharacter⟩) ⟨rules, offset, none, true⟩ := by
  have hmin : min offset (byteLength input) = offset := Nat.min_eq_left hle
  have hs : start rules input offset = ⟨rules, offset, none, false⟩ := by
    rw [start, hmin, (Text.dropBytes?_eq_none hle).2 hin]
  have hend : (start rules input offset).Ends (items [] (some ⟨offset, .insideCharacter⟩))
      ⟨rules, offset, none, true⟩ := by
    rw [hs]
    exact .next rfl (.done rfl)
  have hcover : Covers input (min offset (byteLength input)) offset [] := by
    rw [hmin]
    exact ⟨Nat.le_refl _, hle, by simp [emit, bytes]⟩
  have hend_ne : offset ≠ byteLength input := fun h => hin ⟨input, List.prefix_rfl, h.symm⟩
  refine ⟨hend, hend.runWithin (by simp), by simp, hcover, by simp, by simpa using hend_ne,
    fun _ _ => ⟨rfl, rfl⟩, ?_⟩
  intro before after he
  obtain ⟨rfl, rfl⟩ := List.append_eq_nil_iff.1 he.symm
  refine ⟨_, .nil, ?_, ?_⟩
  · rw [hs]
    exact hcover
  · rwa [hs]

/-- At the end of a character the tokens are read off the rest of the text. -/
theorem exists_lossless_boundary (rules : List Rule) (front rest : List Char) {offset : Nat}
    (hf : byteLength front = min offset (byteLength (front ++ rest))) :
    ∃ tokens fault last, Lossless rules (front ++ rest) offset tokens fault last := by
  have hs : start rules (front ++ rest) offset = ⟨rules, byteLength front, some rest, false⟩ := by
    rw [start, ← hf, Text.dropBytes?_append]
  have hw : (start rules (front ++ rest) offset).Within front [] rest := by
    rw [hs]
    exact ⟨rfl, rfl, rfl⟩
  obtain ⟨tokens, fault, last, he, hlen⟩ := hw.exists_ends rest.length (Nat.le_refl _)
  -- behind any of the tokens the stream stands in the text, so it can be started again there
  have hmid : ∀ before after, tokens = before ++ after → ∃ mid left,
      (start rules (front ++ rest) offset).Reads before mid ∧ (∀ t ∈ before, t.text ≠ []) ∧
        rest = emit before ++ left ∧ mid.Within front (emit before) left ∧
        start rules (front ++ rest) mid.offset = mid ∧ mid.Ends (items after fault) last := by
    rintro before after rfl
    rw [items, List.map_append, List.append_assoc] at he
    obtain ⟨mid, hr, hend⟩ := he.after
    obtain ⟨htexts, hrules, left, hrest, hm⟩ := hw.reads hr
    rw [List.nil_append] at hm
    have hrestart := hm.restart
    rw [hrules, hs, List.append_assoc, ← hrest] at hrestart
    exact ⟨mid, left, hr, htexts, hrest, hm, hrestart, hend⟩
  obtain ⟨mid, left, -, htexts, hrest, hm, -, hend⟩ := hmid tokens [] (List.append_nil _).symm
  obtain ⟨hoffset, hplace, hcomplete⟩ := hm.ends_items_nil hend
  have hcovers : ∀ {before : List Token} {left : List Char} {mid : Stream}, rest = emit before ++ left →
      mid.Within front (emit before) left →
      Covers (front ++ rest) (min offset (byteLength (front ++ rest))) mid.offset before := by
    intro before left mid hrest hm
    have hc := hm.covers
    rwa [List.append_assoc, ← hrest, hf] at hc
  refine ⟨tokens, fault, last, he, ?_, htexts, ?_, ?_, ?_, ?_, ?_⟩
  · exact he.runWithin (by rw [hs]; simp; omega)
  · rw [hoffset]
    exact hcovers hrest hm
  · rw [hoffset]
    exact hplace
  · rw [hcomplete, hoffset, hm.offset, hrest, Text.byteLength_append, Text.byteLength_append]
    constructor
    · rintro rfl
      rfl
    · intro h
      refine Classical.byContradiction fun hne => ?_
      have := Text.byteLength_pos hne
      omega
  · intro hle hin
    exact absurd ⟨front, List.prefix_append _ _, by rw [hf, Nat.min_eq_left hle]⟩ hin
  · intro before after hsplit
    obtain ⟨mid, left, hr, -, hrest, hm, hrestart, hend⟩ := hmid before after hsplit
    exact ⟨mid, hr, hcovers hrest hm, by rwa [hrestart]⟩

/-- **Splitting into tokens is lossless and can be restarted.** From every start the stream of every text
ends, with tokens that are not empty and then at most one fault. The tokens read so far are always the text
between the start and the offset. The stream ends without a fault exactly at the end of the text, and with a
fault at its offset otherwise; inside a character there is nothing but that fault. A stream started at the
offset behind any of the tokens gives what the first one had left. -/
theorem start_lossless (rules : List Rule) (input : List Char) (offset : Nat) :
    ∃ tokens fault last, Lossless rules input offset tokens fault last := by
  have hmin := Nat.min_le_right offset (byteLength input)
  cases hd : Text.dropBytes? (min offset (byteLength input)) input with
  | none =>
    have hin := (Text.dropBytes?_eq_none hmin).1 hd
    have hle : offset ≤ byteLength input := by
      refine Classical.byContradiction fun hgt => hin ⟨input, List.prefix_rfl, ?_⟩
      omega
    rw [Nat.min_eq_left hle] at hin
    exact ⟨_, _, _, lossless_inside rules hle hin⟩
  | some rest =>
    obtain ⟨front, rfl, hf⟩ := (Text.dropBytes?_eq_some hmin).1 hd
    exact exists_lossless_boundary rules front rest hf

end Stream

end LiveSketch.Autocoder

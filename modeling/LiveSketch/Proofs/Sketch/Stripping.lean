import LiveSketch.Proofs.Sketch.Headers
import LiveSketch.Proofs.Sketch.Quoted
import LiveSketch.Proofs.Sketch.Settled

/-!
# Comments are removed for good

What is left of a text without its comments has none (`Strips.uncommented`), so checking it again finds what was
found before (`checkDelimiters_again`). Removing a comment can bring a backslash in front of another one or of a
quote, and then a quote that was alone begins a literal. Such a literal ends at a quote that was alone, too
(`Strips.of_behind?`), so it takes whole literals in and no comment comes up behind it.
-/
namespace LiveSketch.Sketch

open Text

/-! ## Where comments begin -/

/-- Whether a comment begins at the front of the text. A block comment must be closed. -/
def beginsComment : List Char → Bool
  | '/' :: '/' :: _ => true
  | '/' :: '*' :: cs => (closeComment? cs).isSome
  | _ => false

theorem beginsComment_eq_false_iff {c : Char} {cs : List Char} : beginsComment (c :: cs) = false ↔
    (c = '/' → cs.head? ≠ some '/' ∧ ∀ ds, cs = '*' :: ds → closeComment? ds = none) := by
  unfold beginsComment
  split
  · simp_all
  · simp_all
  · rename_i h1 h2
    simp only [true_iff]
    rintro rfl
    cases cs with
    | nil => simp
    | cons d ds =>
      refine ⟨?_, ?_⟩
      · rintro ⟨⟩
        exact h1 ds rfl
      · rintro _ ⟨⟩
        exact absurd rfl (h2 ds)

/-- A block comment is closed at the first `*/`. -/
theorem closeComment?_eq_none_iff {cs : List Char} : closeComment? cs = none ↔ ¬ ['*', '/'] <:+: cs := by
  fun_induction closeComment? cs with
  | case1 => simp
  | case2 cs => simpa using ⟨[], cs, rfl⟩
  | case3 c cs hc ih =>
    rw [Option.map_eq_none_iff, ih, List.infix_cons_iff, not_or, and_iff_right]
    rintro ⟨rest, he⟩
    obtain ⟨rfl, rfl⟩ := List.cons.inj he
    exact hc rest rfl rfl

/-- No comment begins in this text, except inside its literals. -/
inductive Uncommented : List Char → Prop where
  | nil : Uncommented []
  | literal {l cs : List Char} : IsLiteral l → Uncommented cs → Uncommented (l ++ cs)
  | char {c : Char} {cs : List Char} : literal? (c :: cs) = none → beginsComment (c :: cs) = false → Uncommented cs →
      Uncommented (c :: cs)

/-! ## What is left of a text -/

/-- The second text is the first one without its comments. -/
inductive Strips : List Char → List Char → Prop where
  | nil : Strips [] []
  | literal {l cs out : List Char} : IsLiteral l → Strips cs out → Strips (l ++ cs) (l ++ out)
  | line {comment cs out : List Char} : (∀ c ∈ cs.head?, c = '\n') → Strips cs out →
      Strips ('/' :: '/' :: comment ++ cs) out
  | block {inside cs out : List Char} : Strips cs out →
      Strips ('/' :: '*' :: inside ++ ['*', '/'] ++ cs) (inside.filter (· == '\n') ++ out)
  | char {c : Char} {cs out : List Char} : literal? (c :: cs) = none → beginsComment (c :: cs) = false →
      Strips cs out → Strips (c :: cs) (c :: out)

theorem head?_dropLine (cs : List Char) : ∀ c ∈ (cs.dropWhile (· != '\n')).head?, c = '\n' := by
  intro c hc
  have := List.head?_dropWhile_not (· != '\n') cs
  rw [Option.mem_def.1 hc] at this
  simpa using this

theorem commentStep_of_uncommented {c : Char} {cs : List Char} (hl : literal? (c :: cs) = none)
    (hb : beginsComment (c :: cs) = false) : commentStep c cs = ([c], cs) := by
  by_cases hc : c = '/'
  · subst hc
    obtain ⟨hs, hclose⟩ := beginsComment_eq_false_iff.1 hb rfl
    cases cs with
    | nil => rfl
    | cons d ds =>
      by_cases hd : d = '*'
      · subst hd
        have hstep : commentStep '/' ('*' :: ds) = (closeComment? ds).getD (['/'], '*' :: ds) := rfl
        rw [hstep, hclose ds rfl]
        rfl
      · exact commentStep_slash (by simpa using hs) hd ds
  · exact commentStep_of_plain hl hc

theorem strips_stripComments (cs : List Char) : Strips cs (stripComments cs) := by
  induction cs using commentInduction with
  | nil => exact .nil
  | step c cs ih =>
    rw [stripComments_cons]
    cases hl : literal? (c :: cs) with
    | some found =>
      rw [commentStep_of_literal hl] at ih ⊢
      rw [(literal?_eq_some hl).1]
      exact .literal (literal?_append hl []).2 ih
    | none =>
      cases hb : beginsComment (c :: cs) with
      | false =>
        rw [commentStep_of_uncommented hl hb] at ih ⊢
        exact .char hl hb ih
      | true =>
        unfold beginsComment at hb
        split at hb
        · rename_i ds he
          cases he
          have hline := @Strips.line (ds.takeWhile (· != '\n')) _ _ (head?_dropLine ds) ih
          rwa [List.cons_append, List.cons_append, List.takeWhile_append_dropWhile] at hline
        · rename_i ds he
          cases he
          obtain ⟨found, hclose⟩ := Option.isSome_iff_exists.1 hb
          have hstep : commentStep '/' ('*' :: ds) = found := by
            have hgetD : commentStep '/' ('*' :: ds) = (closeComment? ds).getD (['/'], '*' :: ds) := rfl
            rw [hgetD, hclose, Option.getD_some]
          rw [hstep] at ih ⊢
          obtain ⟨inside, rfl, hn⟩ := closeComment?_eq_some hclose
          have hblock := @Strips.block inside _ _ ih
          rw [← hn] at hblock
          simpa using hblock
        · cases hb

theorem stripComments_literal {l : List Char} (h : IsLiteral l) (cs : List Char) :
    stripComments (l ++ cs) = l ++ stripComments cs := by
  have hl := h.literal? cs
  obtain ⟨q, ds, rfl, -, -⟩ := h.exists_cons
  rw [List.cons_append] at hl ⊢
  rw [stripComments_cons, commentStep_of_literal hl]

theorem stripComments_char {c : Char} {cs : List Char} (hl : literal? (c :: cs) = none)
    (hb : beginsComment (c :: cs) = false) : stripComments (c :: cs) = c :: stripComments cs := by
  rw [stripComments_cons, commentStep_of_uncommented hl hb]
  rfl

theorem Uncommented.stripComments_eq {cs : List Char} (h : Uncommented cs) : stripComments cs = cs := by
  induction h with
  | nil => rfl
  | literal hl _ ih => rw [stripComments_literal hl, ih]
  | char hl hb _ ih => rw [stripComments_char hl hb, ih]

namespace Strips

variable {cs out : List Char}

/-- Where no slash stands in front, nothing else comes up there. -/
theorem head? (h : Strips cs out) (hs : cs.head? ≠ some '/') : out.head? = cs.head? := by
  cases h with
  | nil | char => rfl
  | literal hl =>
    obtain ⟨q, ds, rfl, -, -⟩ := hl.exists_cons
    rfl
  | line | block => exact absurd rfl hs

/-- What would close a block comment stood in the whole text. -/
theorem infix_star (h : Strips cs out) (hs : ['*', '/'] <:+: out) : ['*', '/'] <:+: cs := by
  induction h with
  | nil => exact hs
  | @literal l cs out hl _ ih =>
    rcases List.infix_append_iff_ne_nil.1 hs with hs | hs | ⟨as, bs, hne, hne', he, hsuffix, -⟩
    · exact hs.trans (List.prefix_append l cs).isInfix
    · exact (ih hs).trans (List.suffix_append l cs).isInfix
    · -- a literal does not end with a star
      obtain ⟨q, body, hq, -, rfl⟩ := isLiteral_iff.1 hl
      obtain rfl : as = ['*'] := by
        rcases as with _ | ⟨a, _ | ⟨a', as⟩⟩
        · exact absurd rfl hne
        · rw [(List.cons.inj he).1]
        · exact absurd (List.append_eq_nil_iff.1 (List.cons.inj (List.cons.inj he).2).2.symm).2 hne'
      have hlast : '*' = q := by
        obtain ⟨front, he⟩ := hsuffix
        have hends := congrArg List.getLast? he
        rw [List.getLast?_concat, ← List.cons_append, List.getLast?_concat] at hends
        exact Option.some.inj hends
      rw [← hlast] at hq
      cases hq
  | line _ _ ih => exact (ih hs).trans (List.suffix_append _ _).isInfix
  | block => exact ⟨_, _, rfl⟩
  | @char c cs out _ _ h ih =>
    rcases List.infix_cons_iff.1 hs with ⟨rest, he⟩ | hs
    · obtain ⟨rfl, rfl⟩ := List.cons.inj he
      have hslash : cs.head? = some '/' := Classical.byContradiction fun hne => hne (h.head? hne).symm
      obtain ⟨ds, rfl⟩ := List.head?_eq_some_iff.1 hslash
      exact ⟨[], ds, rfl⟩
    · exact List.infix_cons (ih hs)

/-- A character that is no quote and no slash stays. -/
theorem tail {c : Char} (hq : isQuote c = false) (hs : c ≠ '/') (h : Strips (c :: cs) out) :
    ∃ rest, out = c :: rest ∧ Strips cs rest := by
  generalize htext : c :: cs = text at h
  cases h with
  | nil => cases htext
  | literal hl =>
    obtain ⟨q, ds, rfl, hquote, -⟩ := hl.exists_cons
    rw [(List.cons.inj htext).1, hquote] at hq
    cases hq
  | line | block => exact absurd (List.cons.inj htext).1 hs
  | char _ _ h =>
    obtain ⟨rfl, rfl⟩ := List.cons.inj htext
    exact ⟨_, rfl, h⟩

theorem beginsComment {c : Char} (h : Strips cs out) (hb : beginsComment (c :: cs) = false) :
    Sketch.beginsComment (c :: out) = false := by
  rw [beginsComment_eq_false_iff] at hb ⊢
  intro hc
  obtain ⟨hs, hclose⟩ := hb hc
  have hhead := h.head? hs
  refine ⟨by rwa [hhead], ?_⟩
  rintro ds rfl
  obtain ⟨ds', rfl⟩ : ∃ ds', cs = '*' :: ds' := List.head?_eq_some_iff.1 hhead.symm
  obtain ⟨rest, he, h⟩ := h.tail rfl (by decide)
  obtain rfl := (List.cons.inj he).2
  exact closeComment?_eq_none_iff.2 fun m => closeComment?_eq_none_iff.1 (hclose ds' rfl) (h.infix_star m)

end Strips

/-! ## Literals -/

/-- What stands behind a literal with this quote, of which the text is the rest. `escaped` tells whether a backslash
stands in front of the text. -/
def behind? (q : Char) : (escaped : Bool) → List Char → Option (List Char)
  | _, [] => none
  | escaped, c :: cs =>
    if c == '\n' then none
    else if !escaped && c == q then some cs
    else behind? q (!escaped && c == '\\') cs

theorem behind?_newline {q : Char} {escaped : Bool} {cs : List Char} (h : ∀ c ∈ cs.head?, c = '\n') :
    behind? q escaped cs = none := by
  cases cs with
  | nil => rfl
  | cons c cs => simp [behind?, h c rfl]

theorem map_closeLiteral? {q : Char} (hq : isQuote q) (cs : List Char) :
    (closeLiteral? q cs).map Prod.snd = behind? q false cs := by
  have hb : ('\\' == q) = false := by simpa using (isQuote_plain hq).1.symm
  fun_induction closeLiteral? q cs with
  | case1 => rfl
  | case2 => simp [behind?, hb]
  | case3 d cs hd => simp [behind?, hb, hd]
  | case4 d cs hd ih => simpa [behind?, hb, hd, Function.comp_def] using ih
  | case5 c cs h1 h2 hc =>
    have hn : c ≠ '\n' := eq_of_beq hc ▸ quote_ne_newline hq
    simp [behind?, hc, hn]
  | case6 c cs h1 h2 hc hn => simp [behind?, hn]
  | case7 c cs h1 h2 hc hn ih =>
    have hb : (c == '\\') = false := by simpa using ne_backslash h1 h2
    simpa [behind?, hc, hn, hb, Function.comp_def] using ih

theorem literal?_eq_none_iff {q : Char} (hq : isQuote q) {cs : List Char} :
    literal? (q :: cs) = none ↔ behind? q false cs = none := by
  rw [literal?, if_pos hq, Option.map_eq_none_iff, ← map_closeLiteral? hq, Option.map_eq_none_iff]

theorem behind?_literal {q : Char} (hq : isQuote q) {inside : List Char} (h : closeLiteral? q inside = some (inside, []))
    (cs : List Char) : behind? q false (inside ++ cs) = some cs := by
  rw [← map_closeLiteral? hq, (closeLiteral?_append h cs).1]
  rfl

theorem behind?_of_literal? {c : Char} {cs l rest : List Char} (h : literal? (c :: cs) = some (l, rest)) :
    isQuote c ∧ behind? c false cs = some rest := by
  rw [literal?] at h
  split at h
  · rename_i hq
    obtain ⟨found, hf, he⟩ := Option.map_eq_some_iff.1 h
    cases he
    exact ⟨hq, by rw [← map_closeLiteral? hq, hf]; rfl⟩
  · cases h

theorem behind?_quote {p q : Char} (hp : isQuote p) (escaped : Bool) (cs : List Char) :
    behind? q escaped (p :: cs) = if !escaped && p == q then some cs else behind? q false cs := by
  have hb : (p == '\\') = false := by simpa using (isQuote_plain hp).1
  simp [behind?, quote_ne_newline hp, hb]

/-- Where no literal ends in a text, what stands behind decides. -/
theorem behind?_append {q : Char} {escaped : Bool} {as bs : List Char} (hn : '\n' ∉ as)
    (h : behind? q escaped (as ++ bs) = none) (cs : List Char) :
    behind? q escaped (as ++ cs) = behind? q (as.foldl (fun escaped c => !escaped && c == '\\') escaped) cs := by
  induction as generalizing escaped with
  | nil => rfl
  | cons c as ih =>
    rw [List.mem_cons, not_or] at hn
    have hc : (c == '\n') = false := by simpa using Ne.symm hn.1
    simp only [List.cons_append, behind?, hc, Bool.false_eq_true, if_false] at h ⊢
    split at h
    · cases h
    · rename_i hclose
      rw [if_neg hclose]
      exact ih hn.2 h

/-- A literal that is closed only when the comments are gone ends at a character outside the literals. -/
theorem Strips.of_behind? {q : Char} (hq : isQuote q) {cs out rest : List Char} (h : Strips cs out)
    {escaped escaped' : Bool} (hopen : behind? q escaped cs = none) (hclose : behind? q escaped' out = some rest) :
    ∃ cs', cs'.length < cs.length ∧ Strips cs' rest := by
  induction h generalizing escaped escaped' with
  | nil => cases hclose
  | @literal l cs out hl hs ih =>
    have hn := hl.newline_notMem
    obtain ⟨p, inside, rfl, hp, hend⟩ := hl.exists_cons
    rw [List.cons_append, behind?_quote hp] at hopen hclose
    by_cases hpq : p = q
    · subst hpq
      rw [behind?_literal hp hend] at hopen
      split at hopen <;> cases hopen
    · rw [if_neg (by simp [hpq])] at hopen hclose
      have hn : '\n' ∉ inside := fun m => hn (List.mem_cons_of_mem _ m)
      obtain ⟨cs', hlen, h⟩ := ih (behind?_append hn hopen cs ▸ hopen) (behind?_append hn hopen out ▸ hclose)
      exact ⟨cs', by rw [List.length_append]; omega, h⟩
  | line hline hs =>
    -- the end of the line stays, and no literal goes over it
    have hhead := hs.head? fun e => absurd (hline _ e) (by decide)
    rw [behind?_newline (hhead ▸ hline)] at hclose
    cases hclose
  | @block inside cs out hs ih =>
    have hfilter : ∀ c ∈ (inside.filter (· == '\n')).head?, c = '\n' := fun c hc => by
      simpa using (List.mem_filter.1 (List.mem_of_mem_head? hc)).2
    cases hkept : inside.filter (· == '\n') with
    | cons c kept =>
      rw [hkept] at hfilter hclose
      have hblocked : behind? q escaped' (c :: kept ++ out) = none := behind?_newline hfilter
      rw [hblocked] at hclose
      cases hclose
    | nil =>
      have hn : '\n' ∉ '/' :: '*' :: inside ++ ['*', '/'] := by
        simpa using List.filter_eq_nil_iff.1 hkept '\n'
      rw [hkept] at hclose
      obtain ⟨cs', hlen, h⟩ := ih (behind?_append hn hopen cs ▸ hopen) hclose
      exact ⟨cs', by rw [List.length_append]; omega, h⟩
  | @char c cs out hl hb hs ih =>
    rw [behind?] at hopen hclose
    split at hclose
    · cases hclose
    · rename_i hn
      rw [if_neg hn] at hopen
      split at hopen
      · cases hopen
      · split at hclose
        · cases hclose
          exact ⟨cs, Nat.lt_succ_self _, hs⟩
        · obtain ⟨cs', hlen, h⟩ := ih hopen hclose
          exact ⟨cs', Nat.lt_succ_of_lt hlen, h⟩

theorem Uncommented.newlines {cs newlines : List Char} (h : Uncommented cs) (hn : ∀ c ∈ newlines, c = '\n') :
    Uncommented (newlines ++ cs) := by
  induction newlines with
  | nil => exact h
  | cons c newlines ih =>
    rw [List.forall_mem_cons] at hn
    rw [hn.1]
    exact .char rfl rfl (ih hn.2)

/-- Without its comments a text has none. -/
theorem Strips.uncommented {cs out : List Char} (h : Strips cs out) : Uncommented out := by
  -- the induction is on the length, since a literal that comes up takes more than one step
  generalize hn : cs.length = n
  induction n using Nat.strongRecOn generalizing cs out with
  | ind n ih =>
    cases h with
    | nil => exact .nil
    | @literal l cs out hl h =>
      have := List.length_pos_iff.2 hl.ne_nil
      rw [List.length_append] at hn
      exact .literal hl (ih _ (by omega) h rfl)
    | line _ h => exact ih _ (by simp at hn; omega) h rfl
    | @block inside cs out h =>
      have hout := ih _ (by simp at hn; omega) h rfl
      have hkept : ∀ c ∈ inside.filter (· == '\n'), c = '\n' := fun c hc => by simpa using (List.mem_filter.1 hc).2
      exact hout.newlines hkept
    | @char c cs out hl hb h =>
      rw [List.length_cons] at hn
      have hbegins := h.beginsComment hb
      cases hl' : literal? (c :: out) with
      | none => exact .char hl' hbegins (ih _ (by omega) h rfl)
      | some found =>
        obtain ⟨l, rest⟩ := found
        -- a quote that was alone begins a literal
        obtain ⟨hq, hclose⟩ := behind?_of_literal? hl'
        obtain ⟨cs', hlen, h⟩ := h.of_behind? hq ((literal?_eq_none_iff hq).1 hl) hclose
        rw [(literal?_eq_some hl').1]
        exact .literal (literal?_append hl' []).2 (ih _ (by omega) h rfl)

theorem uncommented_stripComments (cs : List Char) : Uncommented (stripComments cs) :=
  (strips_stripComments cs).uncommented

/-- The comments make no difference to the check, whether it accepts the text or not. -/
theorem checkDelimiters_stripComments (cs : List Char) : checkDelimiters (stripComments cs) = checkDelimiters cs := by
  rw [checkDelimiters, checkDelimiters, (uncommented_stripComments cs).stripComments_eq]

/-- **Comments are removed completely.** What the check of the delimiters gives is the text without its comments. No
comment begins in it but inside literals, and the check gives it back as it is. -/
theorem checkDelimiters_again {cs out : List Char} (h : checkDelimiters cs = .ok out) :
    Strips cs out ∧ Uncommented out ∧ checkDelimiters out = .ok out := by
  obtain ⟨-, rfl⟩ := checkDelimiters_eq_ok.1 h
  exact ⟨strips_stripComments cs, uncommented_stripComments cs, (checkDelimiters_stripComments cs).trans h⟩

/-- The quote behind `say` is alone until the first comment is gone. -/
def loneQuote : List Char := "say \"\\/* a */\\\" + 'x // y' // it's".toList

def loneQuoteStripped : List Char := "say \"\\\\\" + 'x // y' ".toList

theorem checkDelimiters_again_loneQuote : checkDelimiters loneQuote = .ok loneQuoteStripped ∧
    Uncommented loneQuoteStripped ∧ checkDelimiters loneQuoteStripped = .ok loneQuoteStripped := by
  have hcheck : checkDelimiters loneQuote = .ok loneQuoteStripped := by decide +kernel
  exact ⟨hcheck, (checkDelimiters_again hcheck).2⟩

end LiveSketch.Sketch

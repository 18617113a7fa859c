import LiveSketch.Autocoder.Lexer
import LiveSketch.Proofs.Pattern.Language

/-!
# The longest match

For a table of patterns whose preferred ways are their longest ones, the best match is told by what the
patterns accept (`bestMatch_eq_some`): it is the longest text at the front that one of them accepts, and its
kind is that of the first pattern that accepts it. `Splits` says that a text falls into such tokens one after
the other, and this is how the lexer splits it (`lex_eq_ok`).
-/
namespace LiveSketch.Autocoder

namespace Entry

/-- The entry's match is the longest text that it accepts. -/
def Fits (e : Entry) : Prop := e.pattern.solid ∧ e.pattern.Longest

/-- Whether the entry accepts a text. -/
def Accepts (e : Entry) (s : List Char) : Prop := e.pattern.Accepts s

theorem token?_eq_some {e : Entry} (h : e.Fits) {cs : List Char} {t : Token} :
    e.rule.token? cs = some t ↔ t.kind = e.kind ∧ t.text ≠ [] ∧ t.text <+: cs ∧ e.Accepts t.text ∧
      ∀ s, s <+: cs → e.Accepts s → s.length ≤ t.text.length := by
  have htoken : ∀ n, e.rule.automaton.match? cs = some n → n ≠ 0 →
      e.rule.token? cs = some ⟨e.kind, cs.take n⟩ := by
    intro n hn h0
    unfold Rule.token?
    rw [hn]
    cases n with
    | zero => exact absurd rfl h0
    | succ n => rfl
  constructor
  · intro ht
    cases hm : e.rule.automaton.match? cs with
    | none =>
      rw [Rule.token?, hm] at ht
      cases ht
    | some n =>
      by_cases h0 : n = 0
      · rw [Rule.token?, hm, h0] at ht
        cases ht
      · rw [htoken n hm h0] at ht
        cases ht
        obtain ⟨s, ⟨rest, rfl⟩, rfl, ha, hmax⟩ := (Pattern.match?_eq_some h.1 h.2).1 hm
        rw [List.take_left]
        refine ⟨rfl, ?_, List.prefix_append _ _, ha, hmax⟩
        rintro rfl
        exact h0 rfl
  · rintro ⟨hk, hne, ⟨rest, rfl⟩, ha, hmax⟩
    have hm := (Pattern.match?_eq_some h.1 h.2).2 ⟨t.text, List.prefix_append _ rest, rfl, ha, hmax⟩
    rw [htoken _ hm (by simpa using hne), List.take_left, ← hk]

theorem token?_eq_none {e : Entry} (h : e.Fits) {cs : List Char} (hn : e.rule.token? cs = none) :
    ∀ s, s <+: cs → e.Accepts s → s = [] := by
  intro s hs ha
  cases hm : e.rule.automaton.match? cs with
  | none => exact absurd ha ((Pattern.match?_eq_none h.1).1 hm s hs)
  | some n =>
    obtain ⟨s', -, -, -, hmax⟩ := (Pattern.match?_eq_some h.1 h.2).1 hm
    cases n with
    | zero => exact List.length_eq_zero_iff.1 (Nat.le_zero.1 (hmax s hs ha))
    | succ n =>
      rw [Rule.token?, hm] at hn
      cases hn

end Entry

/-- The first entry of the table that accepts this text has this kind. -/
def First (es : List Entry) (s : List Char) (kind : TokenKind) : Prop :=
  ∃ front e back, es = front ++ e :: back ∧ e.kind = kind ∧ e.Accepts s ∧ ∀ e' ∈ front, ¬ e'.Accepts s

/-- The token is the longest text at the front that the table accepts, with the kind of the first entry that
accepts it. -/
structure Finds (es : List Entry) (cs : List Char) (t : Token) : Prop where
  ne_nil : t.text ≠ []
  front : t.text <+: cs
  longest : ∀ e ∈ es, ∀ s, s <+: cs → e.Accepts s → s.length ≤ t.text.length
  first : First es t.text t.kind

theorem First.append {es : List Entry} {s : List Char} {kind : TokenKind} (h : First es s kind)
    (others : List Entry) : First (es ++ others) s kind := by
  obtain ⟨front, e, back, rfl, hk, ha, hf⟩ := h
  exact ⟨front, e, back ++ others, by simp, hk, ha, hf⟩

theorem First.accepts {es : List Entry} {s : List Char} {kind : TokenKind} (h : First es s kind) :
    ∃ e ∈ es, e.kind = kind ∧ e.Accepts s := by
  obtain ⟨front, e, back, rfl, hk, ha, -⟩ := h
  exact ⟨e, by simp, hk, ha⟩

/-- Entries in front that do not accept the text make no difference. -/
theorem First.behind {es : List Entry} {s : List Char} {kind : TokenKind} (h : First es s kind) {others : List Entry}
    (ho : ∀ e ∈ others, ¬ e.Accepts s) : First (others ++ es) s kind := by
  obtain ⟨front, e, back, rfl, hk, ha, hf⟩ := h
  refine ⟨others ++ front, e, back, by rw [List.append_assoc], hk, ha, fun e' he' => ?_⟩
  exact (List.mem_append.1 he').elim (ho e') (hf e')

/-- Among entries of one kind it does not matter which accepts the text. -/
theorem first_of_kind {es : List Entry} {s : List Char} {kind : TokenKind} (hk : ∀ e ∈ es, e.kind = kind)
    (h : ∃ e ∈ es, e.Accepts s) : First es s kind := by
  induction es with
  | nil =>
    obtain ⟨e, he, -⟩ := h
    cases he
  | cons e es ih =>
    obtain ⟨hke, hk⟩ := List.forall_mem_cons.1 hk
    by_cases ha : e.Accepts s
    · exact ⟨[], e, es, rfl, hke, ha, List.forall_mem_nil _⟩
    · obtain ⟨e', he', ha'⟩ := h
      have hmem : e' ∈ es := (List.mem_cons.1 he').resolve_left fun heq => ha (heq ▸ ha')
      exact First.behind (ih hk ⟨e', hmem, ha'⟩) fun e'' (he'' : e'' ∈ [e]) =>
        List.mem_singleton.1 he'' ▸ ha

theorem First.unique {es : List Entry} {s : List Char} {kind kind' : TokenKind} (h : First es s kind)
    (h' : First es s kind') : kind = kind' := by
  obtain ⟨front, e, back, rfl, rfl, ha, hf⟩ := h
  obtain ⟨front', e', back', he, rfl, ha', hf'⟩ := h'
  rcases List.append_eq_append_iff.1 he with ⟨mid, rfl, hmid⟩ | ⟨mid, rfl, hmid⟩
  · cases mid with
    | nil => cases hmid; rfl
    | cons m mid =>
      cases hmid
      exact absurd ha (hf' e (by simp))
  · cases mid with
    | nil => cases hmid; rfl
    | cons m mid =>
      cases hmid
      exact absurd ha' (hf e' (by simp))

theorem Finds.unique {es : List Entry} {cs : List Char} {t u : Token} (h : Finds es cs t)
    (h' : Finds es cs u) : t = u := by
  obtain ⟨e, he, -, ha⟩ := h.first.accepts
  obtain ⟨e', he', -, ha'⟩ := h'.first.accepts
  have hlen : t.text.length = u.text.length :=
    Nat.le_antisymm (h'.longest e he _ h.front ha) (h.longest e' he' _ h'.front ha')
  have htext : t.text = u.text := List.prefix_of_prefix_length_le h.front h'.front (Nat.le_of_eq hlen) |>.eq_of_length hlen
  have hkind : t.kind = u.kind := h.first.unique (htext ▸ h'.first)
  cases t
  cases u
  cases htext
  cases hkind
  rfl

/-- What is known when some of the table has been tried. -/
def Best (es : List Entry) (cs : List Char) : Option Token → Prop
  | none => ∀ e ∈ es, ∀ s, s <+: cs → e.Accepts s → s = []
  | some t => Finds es cs t

theorem Best.longer {es : List Entry} {cs : List Char} {best : Option Token} (h : Best es cs best) {e : Entry}
    (he : e.Fits) : Best (es ++ [e]) cs (longer best (e.rule.token? cs)) := by
  cases ht : e.rule.token? cs with
  | none =>
    have hnone := e.token?_eq_none he ht
    cases best with
    | none =>
      intro e' he'
      rcases List.mem_append.1 he' with he' | he'
      · exact h e' he'
      · rw [List.mem_singleton.1 he']
        exact hnone
    | some b =>
      refine ⟨h.ne_nil, h.front, fun e' he' s hs ha => ?_, h.first.append _⟩
      rcases List.mem_append.1 he' with he' | he'
      · exact h.longest e' he' s hs ha
      · rw [List.mem_singleton.1 he'] at ha
        rw [hnone s hs ha]
        exact Nat.zero_le _
  | some t =>
    obtain ⟨hk, hne, hp, ha, hmax⟩ := (Entry.token?_eq_some he).1 ht
    -- the new token counts if it is longer than what the entries before it accept
    have hnew : (∀ e' ∈ es, ∀ s, s <+: cs → e'.Accepts s → s.length < t.text.length) →
        Finds (es ++ [e]) cs t := by
      intro hshort
      refine ⟨hne, hp, fun e' he' s hs ha' => ?_, es, e, [], rfl, hk.symm, ha, fun e' he' ha' => ?_⟩
      · rcases List.mem_append.1 he' with he' | he'
        · exact Nat.le_of_lt (hshort e' he' s hs ha')
        · rw [List.mem_singleton.1 he'] at ha'
          exact hmax s hs ha'
      · exact Nat.lt_irrefl _ (hshort e' he' _ hp ha')
    cases best with
    | none =>
      refine hnew fun e' he' s hs ha' => ?_
      rw [h e' he' s hs ha']
      exact List.length_pos_iff.2 hne
    | some b =>
      rw [Autocoder.longer]
      split
      · rename_i hlt
        exact hnew fun e' he' s hs ha' => Nat.lt_of_le_of_lt (h.longest e' he' s hs ha') hlt
      · rename_i hle
        refine ⟨h.ne_nil, h.front, fun e' he' s hs ha' => ?_, h.first.append _⟩
        rcases List.mem_append.1 he' with he' | he'
        · exact h.longest e' he' s hs ha'
        · rw [List.mem_singleton.1 he'] at ha'
          exact Nat.le_trans (hmax s hs ha') (Nat.le_of_not_lt hle)

/-- The best match of a table. -/
theorem best_bestMatch {es : List Entry} (h : ∀ e ∈ es, e.Fits) (cs : List Char) :
    Best es cs (bestMatch (es.map Entry.rule) cs) := by
  have hfold : ∀ (others done : List Entry) (best : Option Token), (∀ e ∈ others, e.Fits) → Best done cs best →
      Best (done ++ others) cs ((others.map Entry.rule).foldl (fun best r => longer best (r.token? cs)) best) := by
    intro others
    induction others with
    | nil =>
      intro done best _ hb
      rwa [List.append_nil]
    | cons e others ih =>
      intro done best hfits hb
      obtain ⟨he, hfits⟩ := List.forall_mem_cons.1 hfits
      have hnext := ih (done ++ [e]) _ hfits (hb.longer he)
      rwa [List.append_assoc] at hnext
  exact hfold es [] none h (fun e he => by cases he)

/-- The best match is the longest text at the front that the table accepts. -/
theorem bestMatch_eq_some {es : List Entry} (h : ∀ e ∈ es, e.Fits) {cs : List Char} {t : Token} :
    bestMatch (es.map Entry.rule) cs = some t ↔ Finds es cs t := by
  have hbest := best_bestMatch h cs
  constructor
  · intro ht
    rwa [ht] at hbest
  · intro ht
    cases hb : bestMatch (es.map Entry.rule) cs with
    | none =>
      rw [hb] at hbest
      obtain ⟨e, he, -, ha⟩ := ht.first.accepts
      exact absurd (hbest e he _ ht.front ha) ht.ne_nil
    | some u =>
      rw [hb] at hbest
      rw [Finds.unique hbest ht]

/-! ## Whole texts -/

/-- A text falls into these tokens, each the longest match where it stands. -/
inductive Splits (es : List Entry) : List Char → List Token → Prop where
  | nil : Splits es [] []
  | cons {t : Token} {cs : List Char} {ts : List Token} : Finds es (t.text ++ cs) t → Splits es cs ts →
      Splits es (t.text ++ cs) (t :: ts)

theorem Splits.emit {es : List Entry} {cs : List Char} {ts : List Token} (h : Splits es cs ts) :
    Autocoder.emit ts = cs := by
  induction h with
  | nil => rfl
  | cons _ _ ih => rw [Autocoder.emit, List.flatMap_cons, ← ih]; rfl

theorem Stream.runWithin_of_some {rules : List Rule} {offset fuel : Nat} {cs : List Char} {t : Token}
    (hne : cs ≠ []) (hb : bestMatch rules cs = some t) {ts : List Token} {fault : Option LexFault} {last : Nat}
    (hr : Stream.runWithin fuel ⟨rules, offset + Text.byteLength t.text, some (cs.drop t.text.length), false⟩ =
      (ts, fault, last)) :
    Stream.runWithin (fuel + 1) ⟨rules, offset, some cs, false⟩ = (t :: ts, fault, last) := by
  cases cs with
  | nil => exact absurd rfl hne
  | cons c cs =>
    simp only [Stream.runWithin, Stream.next?, Bool.false_eq_true, if_false, hb, Stream.skip, hr]

theorem Stream.runWithin_of_none {rules : List Rule} (offset fuel : Nat) {cs : List Char} (hne : cs ≠ [])
    (hb : bestMatch rules cs = none) : ∃ fault, Stream.runWithin (fuel + 1) ⟨rules, offset, some cs, false⟩ =
      ([], some fault, offset) := by
  cases cs with
  | nil => exact absurd rfl hne
  | cons c cs =>
    exact ⟨_, by simp only [Stream.runWithin, Stream.next?, Bool.false_eq_true, if_false, hb, Stream.fail]; rfl⟩

theorem splits_of_runWithin {es : List Entry} (h : ∀ e ∈ es, e.Fits) {fuel : Nat} (offset : Nat)
    {cs : List Char} (hf : cs.length < fuel) {ts : List Token} :
    (∃ last, Stream.runWithin fuel ⟨es.map Entry.rule, offset, some cs, false⟩ = (ts, none, last)) ↔
      Splits es cs ts := by
  induction fuel generalizing offset cs ts with
  | zero => omega
  | succ fuel ih =>
    cases cs with
    | nil =>
      have hrun : Stream.runWithin (fuel + 1) ⟨es.map Entry.rule, offset, some [], false⟩ = ([], none, offset) := rfl
      rw [hrun]
      constructor
      · rintro ⟨last, he⟩
        cases he
        exact .nil
      · intro hs
        generalize hcs : ([] : List Char) = cs at hs
        cases hs with
        | nil => exact ⟨offset, rfl⟩
        | cons hfind _ => exact absurd (List.append_eq_nil_iff.1 hcs.symm).1 hfind.ne_nil
    | cons c cs =>
      cases hb : bestMatch (es.map Entry.rule) (c :: cs) with
      | none =>
        have hbest := best_bestMatch h (c :: cs)
        rw [hb] at hbest
        obtain ⟨fault, hrun⟩ := Stream.runWithin_of_none offset fuel (List.cons_ne_nil c cs) hb
        rw [hrun]
        constructor
        · rintro ⟨last, he⟩
          cases he
        · intro hs
          generalize hcs : c :: cs = text at hs hbest
          cases hs with
          | nil => cases hcs
          | cons hfind _ =>
            obtain ⟨e, he, -, ha⟩ := hfind.first.accepts
            exact absurd (hbest e he _ (List.prefix_append _ _) ha) hfind.ne_nil
      | some t =>
        have hfind := (bestMatch_eq_some h).1 hb
        obtain ⟨rest, hrest⟩ := hfind.front
        have hpos := List.length_pos_iff.2 hfind.ne_nil
        have hlen := congrArg List.length hrest
        rw [List.length_append] at hlen
        have hdrop : (c :: cs).drop t.text.length = rest := by rw [← hrest, List.drop_left]
        have ih := fun us => @ih (offset + Text.byteLength t.text) rest (by omega) us
        constructor
        · rintro ⟨last, he⟩
          cases hr : Stream.runWithin fuel
            ⟨es.map Entry.rule, offset + Text.byteLength t.text, some ((c :: cs).drop t.text.length), false⟩ with
          | mk us found =>
            obtain ⟨fault, last'⟩ := found
            rw [Stream.runWithin_of_some (List.cons_ne_nil c cs) hb hr] at he
            cases he
            rw [hdrop] at hr
            rw [← hrest]
            exact .cons (hrest ▸ hfind) ((ih us).1 ⟨_, hr⟩)
        · intro hs
          generalize hcs : c :: cs = text at hs
          cases hs with
          | nil => cases hcs
          | @cons u cs' us hfind' hs =>
            obtain rfl : t = u := Finds.unique hfind (hcs ▸ hfind')
            obtain rfl := List.append_cancel_left (hrest.trans hcs)
            obtain ⟨last, hr⟩ := (ih us).2 hs
            exact ⟨last, hcs ▸ Stream.runWithin_of_some (List.cons_ne_nil c cs) hb (by rw [hdrop, hr])⟩

/-- The lexer splits a text into longest matches. -/
theorem lex_eq_ok {es : List Entry} (h : ∀ e ∈ es, e.Fits) {cs : List Char} {ts : List Token} :
    lex (es.map Entry.rule) cs = .ok ts ↔ Splits es cs ts := by
  have hstart : Stream.start (es.map Entry.rule) cs 0 = ⟨es.map Entry.rule, 0, some cs, false⟩ := by
    rw [Stream.start, Nat.zero_min]
    cases cs <;> rfl
  rw [← splits_of_runWithin h 0 (show cs.length < cs.length + 2 by omega), lex, Stream.run, hstart]
  simp only [Option.getD_some]
  generalize Stream.runWithin (cs.length + 2) _ = found
  obtain ⟨us, fault, last⟩ := found
  cases fault with
  | none =>
    constructor
    · intro ho
      cases ho
      exact ⟨last, rfl⟩
    · rintro ⟨_, he⟩
      cases he
      rfl
  | some fault =>
    constructor
    · intro ho
      cases ho
    · rintro ⟨_, he⟩
      cases he

/-! ## Texts one behind the other -/

theorem Finds.of_prefix {es : List Entry} {cs text : List Char} {t : Token} (h : Finds es text t)
    (hp : cs <+: text) (ht : t.text <+: cs) : Finds es cs t :=
  ⟨h.ne_nil, ht, fun e he s hs ha => h.longest e he s (hs.trans hp) ha, h.first⟩

/-- Nothing that the table accepts reaches from one of the tokens into the text behind them. -/
def Apart (es : List Entry) (ts : List Token) (cs : List Char) : Prop :=
  ∀ back, back ≠ [] → back <:+ ts → ∀ w, w ≠ [] → w <+: cs → ∀ e ∈ es, ¬ e.Accepts (emit back ++ w)

theorem emit_cons (t : Token) (ts : List Token) : emit (t :: ts) = t.text ++ emit ts := List.flatMap_cons

theorem emit_append (ts us : List Token) : emit (ts ++ us) = emit ts ++ emit us := List.flatMap_append

/-- What stands at the front of two texts stands in the first one or reaches into the second. -/
theorem prefix_append_cases {s a b : List Char} (h : s <+: a ++ b) :
    s <+: a ∨ ∃ w, w ≠ [] ∧ w <+: b ∧ s = a ++ w := by
  obtain ⟨rest, hr⟩ := h
  rcases List.append_eq_append_iff.1 hr with ⟨mid, ha, -⟩ | ⟨mid, hs, hb⟩
  · exact .inl ⟨mid, ha.symm⟩
  · cases mid with
    | nil => exact .inl ⟨[], by rw [hs, List.append_nil, List.append_nil]⟩
    | cons c mid => exact .inr ⟨c :: mid, List.cons_ne_nil c mid, ⟨rest, hb.symm⟩, hs⟩

/-- Two texts split one behind the other as they split alone if nothing reaches from the first into the
second. -/
theorem splits_append {es : List Entry} {ts us : List Token} {cs : List Char} :
    Splits es (emit ts ++ cs) (ts ++ us) ↔ Splits es (emit ts) ts ∧ Splits es cs us ∧ Apart es ts cs := by
  induction ts with
  | nil =>
    refine ⟨fun h => ⟨.nil, h, fun back hne hb => ?_⟩, fun h => h.2.1⟩
    exact absurd (List.suffix_nil.1 hb) hne
  | cons t ts ih =>
    rw [emit_cons, List.append_assoc, List.cons_append]
    constructor
    · intro h
      generalize hcs : t.text ++ (emit ts ++ cs) = text at h
      cases h with
      | @cons _ rest _ hfind hrest =>
        obtain rfl := List.append_cancel_left hcs
        obtain ⟨hts, hus, hapart⟩ := ih.1 hrest
        have hprefix : t.text ++ emit ts <+: t.text ++ (emit ts ++ cs) := ⟨cs, List.append_assoc _ _ _⟩
        refine ⟨.cons (hfind.of_prefix hprefix (List.prefix_append _ _)) hts, hus, ?_⟩
        intro back hne hb w hw hp e he ha
        rcases List.suffix_cons_iff.1 hb with rfl | hb
        · -- a text that is longer than the first token
          rw [emit_cons, List.append_assoc] at ha
          have hlong : t.text ++ (emit ts ++ w) <+: t.text ++ (emit ts ++ cs) :=
            (List.prefix_append_right_inj _).2 ((List.prefix_append_right_inj _).2 hp)
          have hle := hfind.longest e he _ hlong ha
          have hpos := List.length_pos_iff.2 hw
          simp only [List.length_append] at hle
          omega
        · exact hapart back hne hb w hw hp e he ha
    · rintro ⟨hts, hus, hapart⟩
      generalize hcs : t.text ++ emit ts = text at hts
      cases hts with
      | @cons _ rest _ hfind hts =>
        obtain rfl := List.append_cancel_left hcs
        have hrest := ih.2 ⟨hts, hus, fun back hne hb => hapart back hne (hb.trans (List.suffix_cons t ts))⟩
        refine .cons ⟨hfind.ne_nil, List.prefix_append _ _, fun e he s hs ha => ?_, hfind.first⟩ hrest
        rw [← List.append_assoc] at hs
        rcases prefix_append_cases hs with hs | ⟨w, hw, hp, rfl⟩
        · exact hfind.longest e he s hs ha
        · exact absurd ha (emit_cons t ts ▸ hapart (t :: ts) (List.cons_ne_nil t ts) (List.suffix_refl _) w hw hp e he)

end LiveSketch.Autocoder

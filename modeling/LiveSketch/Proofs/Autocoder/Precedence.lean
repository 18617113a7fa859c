import LiveSketch.Autocoder.Lexer
import LiveSketch.Proofs.Pattern.Running

/-!
# Which rule gives the token

`Rule.reach` is the number of characters that a rule matches at the front of a text, each rule for itself. Among the
rules of a table those that reach farthest count, and of these the first (`Wins`). The table is gone through once, and
what is known of the rules tried so far is kept by each step (`leads_longer`). `next?_longest` says what this means for
a stream.
-/
namespace LiveSketch

namespace Automaton

/-- A match ends in the text, or it was found before. -/
theorem run_le {a : Automaton} {cs : List Char} {here : List Nat} {taken n : Nat} {best : Option Nat}
    (h : a.run here taken best cs = some n) : best = some n ∨ n ≤ taken + cs.length := by
  have hbest {here : List Nat} {taken : Nat} {best : Option Nat}
      (h : (if here.any a.isEnd then some taken else best) = some n) : best = some n ∨ n = taken := by
    split at h
    · exact .inr (Option.some.inj h).symm
    · exact .inl h
  fun_induction run a here taken best cs with
  | case1 taken best cs => exact (hbest h).imp_right fun e => by omega
  | case2 here taken best => exact (hbest h).imp_right fun e => by omega
  | case3 here taken best found c cs _ ih =>
    rw [List.length_cons]
    rcases ih h with hfound | hle
    · exact (hbest hfound).imp_right fun e => by omega
    · exact .inr (by omega)

theorem match?_le {a : Automaton} {cs : List Char} {n : Nat} (h : a.match? cs = some n) : n ≤ cs.length := by
  rcases run_le h with hbest | hle
  · cases hbest
  · rwa [Nat.zero_add] at hle

end Automaton

namespace Autocoder

/-- How many characters the rule matches at the front of the text; none if it does not match. -/
def Rule.reach (r : Rule) (cs : List Char) : Nat := (r.automaton.match? cs).getD 0

theorem Rule.reach_le (r : Rule) (cs : List Char) : r.reach cs ≤ cs.length := by
  unfold reach
  cases h : r.automaton.match? cs with
  | none => exact Nat.zero_le _
  | some n => exact Automaton.match?_le h

theorem Rule.token?_eq (r : Rule) (cs : List Char) :
    r.token? cs = if r.reach cs = 0 then none else some ⟨r.kind, cs.take (r.reach cs)⟩ := by
  unfold token? reach
  rcases r.automaton.match? cs with _ | _ | n <;> rfl

/-- The token is what the first of the rules matches that reach farthest. -/
def Wins (rules : List Rule) (cs : List Char) (t : Token) : Prop :=
  ∃ front r back, rules = front ++ r :: back ∧ t = ⟨r.kind, cs.take (r.reach cs)⟩ ∧ 0 < r.reach cs ∧
    (∀ r' ∈ front, r'.reach cs < r.reach cs) ∧ ∀ r' ∈ back, r'.reach cs ≤ r.reach cs

theorem length_take_reach (r : Rule) (cs : List Char) : (cs.take (r.reach cs)).length = r.reach cs :=
  List.length_take_of_le (r.reach_le cs)

/-- What is known when some of the rules have been tried. -/
def Leads (rules : List Rule) (cs : List Char) : Option Token → Prop
  | none => ∀ r ∈ rules, r.reach cs = 0
  | some t => Wins rules cs t

/-- One more rule that does not reach farther makes no difference. -/
theorem Wins.append {rules : List Rule} {cs : List Char} {t : Token} (h : Wins rules cs t) {r : Rule}
    (hr : r.reach cs ≤ t.text.length) : Wins (rules ++ [r]) cs t := by
  obtain ⟨front, first, back, rfl, rfl, hpos, hfront, hback⟩ := h
  rw [length_take_reach] at hr
  refine ⟨front, first, back ++ [r], by simp, rfl, hpos, hfront, fun r' hr' => ?_⟩
  rcases List.mem_append.1 hr' with hr' | hr'
  · exact hback r' hr'
  · rwa [List.mem_singleton.1 hr']

theorem Wins.reach_le {rules : List Rule} {cs : List Char} {t : Token} (h : Wins rules cs t) :
    ∀ r ∈ rules, r.reach cs ≤ t.text.length := by
  obtain ⟨front, first, back, rfl, rfl, -, hfront, hback⟩ := h
  intro r hr
  rw [length_take_reach]
  rcases List.mem_append.1 hr with hr | hr
  · exact Nat.le_of_lt (hfront r hr)
  · rcases List.mem_cons.1 hr with rfl | hr
    · exact Nat.le_refl _
    · exact hback r hr

theorem Wins.unique {rules : List Rule} {cs : List Char} {t u : Token} (h : Wins rules cs t) (h' : Wins rules cs u) :
    t = u := by
  obtain ⟨front, r, back, rfl, rfl, -, hfront, hback⟩ := h
  obtain ⟨front', r', back', he, rfl, -, hfront', hback'⟩ := h'
  -- of two rules of which one stands in front of the other, both cannot win
  rcases List.append_eq_append_iff.1 he with ⟨mid, rfl, hmid⟩ | ⟨mid, rfl, hmid⟩
  · cases mid with
    | nil => cases hmid; rfl
    | cons m mid =>
      obtain ⟨rfl, rfl⟩ := List.cons.inj hmid
      exact absurd (hback r' (by simp)) (Nat.not_le_of_lt (hfront' r (by simp)))
  · cases mid with
    | nil => cases hmid; rfl
    | cons m mid =>
      obtain ⟨rfl, rfl⟩ := List.cons.inj hmid
      exact absurd (hback' r (by simp)) (Nat.not_le_of_lt (hfront r' (by simp)))

theorem leads_longer {rules : List Rule} {cs : List Char} {best : Option Token} (h : Leads rules cs best) (r : Rule) :
    Leads (rules ++ [r]) cs (longer best (r.token? cs)) := by
  -- the new rule wins if it reaches farther than the rules before it
  have hnew (hlt : ∀ r' ∈ rules, r'.reach cs < r.reach cs) (hpos : 0 < r.reach cs) :
      Wins (rules ++ [r]) cs ⟨r.kind, cs.take (r.reach cs)⟩ :=
    ⟨rules, r, [], rfl, rfl, hpos, hlt, by simp⟩
  rw [r.token?_eq]
  split
  · rename_i hzero
    cases best with
    | none =>
      intro r' hr'
      rcases List.mem_append.1 hr' with hr' | hr'
      · exact h r' hr'
      · rw [List.mem_singleton.1 hr', hzero]
    | some t => exact Wins.append h (hzero ▸ Nat.zero_le _)
  · rename_i hpos
    have hpos := Nat.pos_of_ne_zero hpos
    cases best with
    | none => exact hnew (fun r' hr' => h r' hr' ▸ hpos) hpos
    | some t =>
      rw [longer, length_take_reach]
      split
      · rename_i hlt
        exact hnew (fun r' hr' => Nat.lt_of_le_of_lt (Wins.reach_le h r' hr') hlt) hpos
      · rename_i hle
        exact Wins.append h (Nat.le_of_not_lt hle)

theorem leads_bestMatch (rules : List Rule) (cs : List Char) : Leads rules cs (bestMatch rules cs) := by
  have hfold : ∀ (others tried : List Rule) (best : Option Token), Leads tried cs best →
      Leads (tried ++ others) cs (others.foldl (fun best r => longer best (r.token? cs)) best) := by
    intro others
    induction others with
    | nil =>
      intro tried best h
      rwa [List.append_nil]
    | cons r others ih =>
      intro tried best h
      have hnext := ih (tried ++ [r]) _ (leads_longer h r)
      rwa [List.append_assoc] at hnext
  exact hfold rules [] none fun r hr => absurd hr List.not_mem_nil

/-- The best match is what the first of the rules matches that reach farthest. -/
theorem bestMatch_eq_some_iff {rules : List Rule} {cs : List Char} {t : Token} :
    bestMatch rules cs = some t ↔ Wins rules cs t := by
  have hleads := leads_bestMatch rules cs
  cases hb : bestMatch rules cs with
  | none =>
    rw [hb] at hleads
    constructor
    · rintro ⟨⟩
    · rintro ⟨front, r, back, rfl, -, hpos, -⟩
      rw [hleads r (by simp)] at hpos
      cases hpos
  | some u =>
    rw [hb] at hleads
    constructor
    · rintro ⟨⟩
      exact hleads
    · exact fun h => congrArg some (Wins.unique hleads h)

theorem bestMatch_eq_none_iff {rules : List Rule} {cs : List Char} :
    bestMatch rules cs = none ↔ ∀ r ∈ rules, r.reach cs = 0 := by
  have hleads := leads_bestMatch rules cs
  constructor
  · intro h
    rwa [h] at hleads
  · intro h
    cases hb : bestMatch rules cs with
    | none => rfl
    | some t =>
      rw [hb] at hleads
      obtain ⟨front, r, back, rfl, -, hpos, -⟩ := hleads
      rw [h r (by simp)] at hpos
      cases hpos

/-- A rule that matches nothing plays no part. -/
theorem bestMatch_remove {front back : List Rule} {r : Rule} {cs : List Char} (h : r.reach cs = 0) :
    bestMatch (front ++ r :: back) cs = bestMatch (front ++ back) cs := by
  have hnone : r.token? cs = none := by rw [r.token?_eq, if_pos h]
  have hlonger (best : Option Token) : longer best none = best := by cases best <;> rfl
  rw [bestMatch, bestMatch, List.foldl_append, List.foldl_append, List.foldl_cons, hnone, hlonger]

/-- A stream that stands in front of more text. -/
def Stream.at (rules : List Rule) (offset : Nat) (rest : List Char) : Stream := ⟨rules, offset, some rest, false⟩

theorem Stream.next?_at (rules : List Rule) (offset : Nat) (c : Char) (cs : List Char) :
    (Stream.at rules offset (c :: cs)).next? = some (match bestMatch rules (c :: cs) with
      | some t => (.ok t, (Stream.at rules offset (c :: cs)).skip t (c :: cs))
      | none => (.error ⟨offset, .noRule ((c :: cs).take 16)⟩, (Stream.at rules offset (c :: cs)).fail)) := by
  cases h : bestMatch rules (c :: cs) <;> simp [Stream.at, next?, h]

/-- **The longest match counts, and of equally long ones that of the first rule.** In front of more text a stream of any
table gives the token of the first rule that reaches farthest, and goes on behind it. It gives a fault exactly if no
rule matches anything, and rules that match nothing can be left out. Each rule reaches as far as its own match does:
for a pattern of which each round of a repetition takes something, that is the first of its ways. -/
theorem Stream.next?_longest (rules : List Rule) (offset : Nat) (c : Char) (cs : List Char) :
    (Stream.at rules offset (c :: cs)).next?.isSome ∧
      (∀ t s, (Stream.at rules offset (c :: cs)).next? = some (.ok t, s) ↔
        Wins rules (c :: cs) t ∧ s = (Stream.at rules offset (c :: cs)).skip t (c :: cs)) ∧
      ((∃ fault s, (Stream.at rules offset (c :: cs)).next? = some (.error fault, s)) ↔
        ∀ r ∈ rules, r.reach (c :: cs) = 0) ∧
      (∀ front r back, rules = front ++ r :: back → r.reach (c :: cs) = 0 →
        (Stream.at rules offset (c :: cs)).next?.map Prod.fst =
          (Stream.at (front ++ back) offset (c :: cs)).next?.map Prod.fst) ∧
      ∀ e : Entry, e.pattern.solid → e.rule.reach (c :: cs) =
        ((e.pattern.ways (c :: cs)).head?.map fun rest => (c :: cs).length - rest.length).getD 0 := by
  refine ⟨by rw [next?_at]; rfl, fun t s => ?_, ?_, ?_, fun e he => ?_⟩
  · rw [next?_at, ← bestMatch_eq_some_iff]
    cases bestMatch rules (c :: cs) with
    | none => simp
    | some u =>
      simp only [Option.some.injEq, Prod.mk.injEq, Except.ok.injEq]
      constructor
      · rintro ⟨rfl, rfl⟩
        exact ⟨rfl, rfl⟩
      · rintro ⟨rfl, rfl⟩
        exact ⟨rfl, rfl⟩
  · rw [next?_at, ← bestMatch_eq_none_iff]
    cases bestMatch rules (c :: cs) with
    | none => simp
    | some u => simp
  · rintro front r back rfl hr
    rw [next?_at, next?_at, bestMatch_remove hr]
    cases bestMatch (front ++ back) (c :: cs) <;> rfl
  · exact congrArg (Option.getD · 0) (Automaton.match?_ofPattern he (c :: cs))

example : bestMatch [.ofPattern (.many (.one 'z')) .space, .ofPattern (.word "box") .mesh, .ofPattern (.word "box") .num,
    .ofPattern (.word "bo") .op] "boxes".toList = some ⟨.mesh, "box".toList⟩ := by decide +kernel

end Autocoder

end LiveSketch

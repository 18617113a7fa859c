import LiveSketch.Proofs.Script.Spelling
import LiveSketch.Proofs.Sketch.Quoted
import LiveSketch.Proofs.Sketch.Settled

/-!
# Texts without comments

A text is free of comments if no hash sign stands outside its literals and there is nothing to remove; a `/*` that is
never closed is no comment. If the lexer reads such a text, its lines are clean (`clean_lexLines`), and the texts
among its tokens are what the literals of the lines say (`strings_lexLines`).
-/
namespace LiveSketch.Sketch

open Text Script
open Script.Lexer

variable {stops : List Char}

/-! ## Texts without comments -/

/-- Nothing in this text is a comment: no hash sign stands outside its literals, and there is nothing to remove. -/
structure CommentFree (cs : List Char) : Prop where
  hash : '#' ∉ dropLiterals cs
  kept : stripComments cs = cs

instance (cs : List Char) : Decidable (CommentFree cs) :=
  decidable_of_iff ('#' ∉ dropLiterals cs ∧ stripComments cs = cs) ⟨fun h => ⟨h.1, h.2⟩, fun h => ⟨h.hash, h.kept⟩⟩

theorem closeComment?_length {cs newlines rest : List Char} (h : closeComment? cs = some (newlines, rest)) :
    newlines.length + rest.length + 2 ≤ cs.length := by
  obtain ⟨inside, rfl, rfl⟩ := closeComment?_eq_some h
  have := List.length_filter_le (· == '\n') inside
  simp only [List.length_append, List.length_cons]
  omega

/-- A step keeps a literal or a character, or it makes the text shorter. -/
theorem commentStep_cases {c : Char} {cs : List Char} (h : literal? (c :: cs) = none) :
    (commentStep c cs = ([c], cs) ∧ (c = '/' → cs.head? ≠ some '/')) ∨
      (commentStep c cs).1.length + (commentStep c cs).2.length ≤ cs.length := by
  by_cases hc : c = '/'
  · subst hc
    cases cs with
    | nil => exact .inl ⟨rfl, by simp⟩
    | cons d ds =>
      by_cases hs : d = '/'
      · subst hs
        refine .inr ?_
        have hstep : commentStep '/' ('/' :: ds) = ([], ds.dropWhile (· != '\n')) := rfl
        have hl := (List.dropWhile_sublist (· != '\n') (l := ds)).length_le
        rw [hstep]
        simp only [List.length_nil, List.length_cons]
        omega
      · by_cases hb : d = '*'
        · subst hb
          have hstep : commentStep '/' ('*' :: ds) = (closeComment? ds).getD (['/'], '*' :: ds) := rfl
          rw [hstep]
          cases hclose : closeComment? ds with
          | none => exact .inl ⟨rfl, by simp⟩
          | some found =>
            refine .inr ?_
            have := closeComment?_length hclose
            rw [Option.getD_some, List.length_cons]
            omega
        · exact .inl ⟨commentStep_slash hs hb ds, by simpa using hs⟩
  · exact .inl ⟨commentStep_of_plain h hc, fun e => absurd e hc⟩

theorem length_stripComments (cs : List Char) : (stripComments cs).length ≤ cs.length := by
  induction cs using commentInduction with
  | nil => exact Nat.le_refl _
  | step c cs ih =>
    rw [stripComments_cons, List.length_append]
    cases hl : literal? (c :: cs) with
    | some found =>
      obtain ⟨l, rest⟩ := found
      rw [commentStep_of_literal hl] at ih ⊢
      rw [(literal?_eq_some hl).1, List.length_append]
      exact Nat.add_le_add_left ih _
    | none =>
      rcases commentStep_cases hl with ⟨hstep, -⟩ | hshort
      · rw [hstep] at ih ⊢
        simp only [List.length_cons, List.length_nil] at ih ⊢
        omega
      · rw [List.length_cons]
        omega

namespace CommentFree

variable {cs : List Char}

theorem of_literal {l rest : List Char} (hl : literal? cs = some (l, rest)) (h : CommentFree cs) : CommentFree rest := by
  refine ⟨dropLiterals_of_some hl ▸ h.hash, ?_⟩
  have hkept := h.kept
  cases cs with
  | nil => cases hl
  | cons c cs =>
    rw [stripComments_cons, commentStep_of_literal hl, (literal?_eq_some hl).1] at hkept
    exact List.append_cancel_left hkept

theorem of_none {c : Char} (hl : literal? (c :: cs) = none) (h : CommentFree (c :: cs)) :
    c ≠ '#' ∧ (c = '/' → cs.head? ≠ some '/') ∧ CommentFree cs := by
  obtain ⟨hhash, hkept⟩ := h
  rw [dropLiterals_of_none hl, List.mem_cons, not_or] at hhash
  rw [stripComments_cons] at hkept
  rcases commentStep_cases hl with ⟨hstep, hs⟩ | hshort
  · rw [hstep] at hkept
    exact ⟨Ne.symm hhash.1, hs, hhash.2, List.append_cancel_left hkept⟩
  · have hlength := congrArg List.length hkept
    have := length_stripComments (commentStep c cs).2
    rw [List.length_append, List.length_cons] at hlength
    omega

theorem of_append {stops rest as : List Char} (hc : Clean stops rest as) (h : CommentFree (as ++ rest)) :
    CommentFree rest := by
  induction hc with
  | nil => exact h
  | char hq _ _ _ ih => exact ih (h.of_none (literal?_of_not_quote hq _)).2.2
  | literal hl _ ih =>
    rw [List.append_assoc] at h
    exact ih (h.of_literal (hl.literal? _))

theorem startsComment_eq_false (h : CommentFree cs) : startsComment cs = false := by
  unfold startsComment
  split
  · exact absurd rfl (h.of_none rfl).1
  · exact absurd rfl ((h.of_none rfl).2.1 rfl)
  · rfl

end CommentFree

/-! ## What the lexer says of a text without comments -/

theorem clean_return : Clean ['/'] [] ['\r'] := .char rfl (by decide) (by decide) .nil

/-- On the lines of a text without comments every quote belongs to a literal. -/
theorem clean_lexLines {pos : Nat} {levels : List Nat} {lines : List (List Char)} {ts : List Token}
    (hn : ∀ line ∈ lines, '\n' ∉ line) (h : lexLines pos levels lines = .ok ts) (hfree : CommentFree (joinLines lines)) :
    ∀ line ∈ lines, Clean ['/'] [] line := by
  induction lines generalizing pos levels ts with
  | nil => simp
  | cons line lines ih =>
    rw [List.forall_mem_cons] at hn
    obtain ⟨code, tail, -, us, -, pos', levels', ts', rfl, ht, hspelt, -, -, hl⟩ :=
      lexLines_cons_spelt (show ∀ d ∈ ['/'], d = '/' ∨ d = '*' by simp) hn.1 (by simp) h
    obtain ⟨more, hmore, hrest⟩ : ∃ more, joinLines ((code ++ tail) :: lines) = code ++ (tail ++ more) ∧
        (lines = [] ∧ more = [] ∨ lines ≠ [] ∧ more = '\n' :: joinLines lines) := by
      cases lines with
      | nil => exact ⟨[], by simp [joinLines], .inl ⟨rfl, rfl⟩⟩
      | cons next lines =>
        exact ⟨'\n' :: joinLines (next :: lines), by simp [joinLines], .inr ⟨List.cons_ne_nil _ _, rfl⟩⟩
    have hhead : ∀ d ∈ (tail ++ more).head?, d ∈ ['/'] → d ∈ tail.head? := by
      intro d hd hs
      cases tail with
      | cons => exact hd
      | nil =>
        rcases hrest with ⟨-, rfl⟩ | ⟨-, rfl⟩
        · exact hd
        · obtain rfl : '\n' = d := Option.some.inj hd
          cases hs with
          | tail _ hs => cases hs
    have hcode := hspelt.clean (by simp)
    rw [hmore] at hfree
    have hback := hfree.of_append (hcode.of_head? hhead)
    have htail : Clean ['/'] [] tail := by
      rcases ht with rfl | rfl | hstart
      · exact .nil
      · exact clean_return
      · have hfalse := hback.startsComment_eq_false
        rw [Script.startsComment_append hstart] at hfalse
        cases hfalse
    refine List.forall_mem_cons.2 ⟨.append (by rwa [List.append_nil]) htail, ?_⟩
    rcases hrest with ⟨rfl, -⟩ | ⟨-, rfl⟩
    · simp
    · have hmore : Clean ['/'] ('\n' :: joinLines lines) tail := htail.of_head? (by simp)
      exact ih hn.2 hl ((hback.of_append hmore).of_none (literal?_of_not_quote rfl _)).2.2

theorem tick_notMem_spelt {rest code : List Char} {ts : List Token} (h : Spelt stops rest ts code) :
    tick ∉ dropLiterals code := by
  have unmarked : ∀ {l cs : List Char}, (∀ c ∈ l, c ∉ marks) → tick ∉ dropLiterals cs → tick ∉ dropLiterals (l ++ cs) := by
    intro l cs hl hcs
    induction l with
    | nil => exact hcs
    | cons c l ih =>
      rw [List.forall_mem_cons] at hl
      rw [List.cons_append, dropLiterals_of_none (literal?_of_not_quote (Spelt.not_isQuote hl.1) _), List.mem_cons]
      rintro (rfl | hm)
      · exact hl.1 (by simp [marks, tick])
      · exact ih hl.2 hm
  have single : ∀ {c : Char} {cs : List Char}, isQuote c = false → c ≠ tick → tick ∉ dropLiterals cs →
      tick ∉ dropLiterals (c :: cs) := by
    intro c cs hq hc hcs
    rw [dropLiterals_of_none (literal?_of_not_quote hq _), List.mem_cons]
    exact fun hm => hm.elim (fun e => hc e.symm) hcs
  induction h with
  | nil => exact List.not_mem_nil
  | @blank c _ cs hi _ ih => exact unmarked (l := [c]) (by simpa using notMem_marks_of_isIndent hi) ih
  | @token t l ts cs hl _ _ ih =>
    generalize t.kind = kind at hl
    cases hl with
    | text hl =>
      rw [dropLiterals_of_some (hl.literal? cs)]
      exact ih
    | slash | leftParen | rightParen => exact single rfl (by decide) ih
    | slashAssign => exact single rfl (by decide) (single rfl (by decide) ih)
    | plain _ _ _ _ hl => exact unmarked hl ih

theorem strings_layout {ts : List Token} (h : ∀ t ∈ ts, t.kind.isWord = false) : strings ts = [] := by
  refine List.filterMap_eq_nil_iff.2 fun t ht => ?_
  have := h t ht
  split
  · rename_i hk
    rw [hk] at this
    cases this
  · rfl

/-- The texts of clean lines are what their literals say, and no tick stands outside these. -/
theorem strings_lexLines {pos : Nat} {levels : List Nat} {lines : List (List Char)} {ts : List Token}
    (hn : ∀ line ∈ lines, '\n' ∉ line) (h : lexLines pos levels lines = .ok ts)
    (hclean : ∀ line ∈ lines, Clean ['/'] [] line) :
    strings ts = (lines.flatMap literals).map literalText ∧ ∀ line ∈ lines, tick ∉ dropLiterals line := by
  induction lines generalizing pos levels ts with
  | nil =>
    cases h
    refine ⟨strings_layout ?_, by simp⟩
    simp only [List.forall_mem_append, List.forall_mem_singleton]
    exact ⟨fun t ht => by rw [List.eq_of_mem_replicate ht]; rfl, rfl⟩
  | cons line lines ih =>
    rw [List.forall_mem_cons] at hn hclean
    obtain ⟨code, tail, front, us, back, pos', levels', ts', rfl, ht, hspelt, rfl, hlayout, hl⟩ :=
      lexLines_cons_spelt (show ∀ d ∈ ['/'], d = '/' ∨ d = '*' by simp) hn.1 (by simp) h
    obtain ⟨hstrings, htick⟩ := ih hn.2 hl hclean.2
    have hcode := hspelt.clean (by simp)
    have hback : Clean ['/'] [] tail := .of_append (by rwa [List.append_nil]) hclean.1
    have htail : literals tail = [] ∧ tick ∉ dropLiterals tail := by
      rcases ht with rfl | rfl | hstart
      · exact ⟨rfl, List.not_mem_nil⟩
      · exact ⟨rfl, by decide⟩
      · unfold startsComment at hstart
        split at hstart
        · exact absurd rfl (hback.tail rfl).1
        · exact absurd (by simp) ((hback.tail rfl).2.1 rfl '/' rfl)
        · cases hstart
    rw [List.forall_mem_append] at hlayout
    refine ⟨?_, List.forall_mem_cons.2 ⟨?_, htick⟩⟩
    · rw [strings_append, strings_append, strings_append, strings_layout hlayout.1, strings_layout hlayout.2, hstrings,
        hspelt.strings_eq, List.flatMap_cons, hcode.literals_append, htail.1]
      simp
    · rw [hcode.dropLiterals_append, List.mem_append]
      exact fun hm => hm.elim (tick_notMem_spelt hspelt) htail.2

end LiveSketch.Sketch

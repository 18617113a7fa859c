import LiveSketch.Proofs.Script.Spelling
import LiveSketch.Proofs.Sketch.Postfix

/-!
# Literals in rewritten texts

Putting words in front of their operands goes over each literal by itself: what stands between two quotes is
rewritten there, and the quotes stay (`Rewrites.clean`). The rewriting replaces letters, digits and blanks by such
(`Swapped`), so a literal stays a literal and no comment comes up between the literals.
-/
namespace LiveSketch.Sketch

open Text
open Script (marks)
open Script.Lexer (isIndent)

/-! ## The inside of a literal -/

/-- Whether a literal with this quote goes on to the end of the text. `escaped` tells whether a backslash stands in
front of the text. -/
def staysOpen (q : Char) : (escaped : Bool) → List Char → Bool
  | escaped, [] => !escaped
  | true, c :: cs => c != '\n' && staysOpen q false cs
  | false, c :: cs =>
    if c == '\\' then staysOpen q true cs else c != q && c != '\n' && staysOpen q false cs

theorem staysOpen_cons {q c : Char} (hc : c ≠ '\\') (cs : List Char) :
    staysOpen q false (c :: cs) = (c != q && c != '\n' && staysOpen q false cs) := by
  rw [staysOpen, if_neg (by simpa using hc)]

theorem closeLiteral?_of_staysOpen {q : Char} (hq : q ≠ '\\') {body : List Char} (h : staysOpen q false body)
    (rest : List Char) : closeLiteral? q (body ++ q :: rest) = some (body ++ [q], rest) := by
  fun_induction closeLiteral? q body with
  | case1 => simp [closeLiteral?_cons hq]
  | case2 => cases h
  | case3 d cs hd => simp_all [staysOpen]
  | case4 d cs hd ih =>
    simp only [staysOpen, beq_self_eq_true, if_true, Bool.and_eq_true] at h
    simp [closeLiteral?, hd, ih h.2]
  | case5 c cs h1 h2 hc =>
    rw [staysOpen_cons (ne_backslash h1 h2)] at h
    simp_all
  | case6 c cs h1 h2 hc hn =>
    rw [staysOpen_cons (ne_backslash h1 h2)] at h
    simp_all
  | case7 c cs h1 h2 hc hn ih =>
    have hb := ne_backslash h1 h2
    rw [staysOpen_cons hb, Bool.and_eq_true, Bool.and_eq_true] at h
    have hc' : c ≠ q := by simpa using hc
    have hn' : c ≠ '\n' := by simpa using hn
    rw [List.cons_append, closeLiteral?_cons hb, if_neg hc', if_neg hn', ih h.2]
    rfl

theorem exists_staysOpen {q : Char} {cs inside rest : List Char} (h : closeLiteral? q cs = some (inside, rest)) :
    ∃ body, inside = body ++ [q] ∧ staysOpen q false body := by
  fun_induction closeLiteral? q cs generalizing inside with
  | case1 | case2 | case3 | case6 => cases h
  | case4 d cs hd ih =>
    obtain ⟨found, hf, he⟩ := Option.map_eq_some_iff.1 h
    cases he
    obtain ⟨body, hbody, hopen⟩ := ih hf
    have hd' : d ≠ '\n' := by simpa using hd
    exact ⟨'\\' :: d :: body, by simp [hbody], by simp [staysOpen, hd', hopen]⟩
  | case5 c cs h1 h2 hc =>
    cases h
    exact ⟨[], by rw [eq_of_beq hc]; rfl, rfl⟩
  | case7 c cs h1 h2 hc hn ih =>
    obtain ⟨found, hf, he⟩ := Option.map_eq_some_iff.1 h
    cases he
    obtain ⟨body, hbody, hopen⟩ := ih hf
    refine ⟨c :: body, by simp [hbody], ?_⟩
    have hc' : c ≠ q := by simpa using hc
    have hn' : c ≠ '\n' := by simpa using hn
    simp [staysOpen_cons (ne_backslash h1 h2), hc', hn', hopen]

theorem isQuote_plain {q : Char} (h : isQuote q) : q ≠ '\\' ∧ q ≠ '/' ∧ q ≠ '#' := by
  simp only [isQuote, Bool.or_eq_true, beq_iff_eq] at h
  rcases h with rfl | rfl <;> decide

/-- A literal is a text between two quotes. -/
theorem isLiteral_iff {l : List Char} :
    IsLiteral l ↔ ∃ q body, isQuote q ∧ staysOpen q false body ∧ l = q :: (body ++ [q]) := by
  constructor
  · intro h
    obtain ⟨q, cs, rfl, hq, hclose⟩ := h.exists_cons
    obtain ⟨body, rfl, hopen⟩ := exists_staysOpen hclose
    exact ⟨q, body, hq, hopen, rfl⟩
  · rintro ⟨q, body, hq, hopen, rfl⟩
    simp [IsLiteral, literal?, hq, closeLiteral?_of_staysOpen (isQuote_plain hq).1 hopen []]

/-! ## Parts of clean texts -/

namespace Clean

variable {stops rest as bs : List Char}

theorem of_head? {rest' : List Char} (h : Clean stops rest as) (hr : ∀ d ∈ rest'.head?, d ∈ stops → d ∈ rest.head?) :
    Clean stops rest' as := by
  induction h with
  | nil => exact .nil
  | @char c cs hq hh hs _ ih =>
    refine .char hq hh (fun he d hd hstop => hs he d ?_ hstop) ih
    cases cs with
    | nil => exact hr d hd hstop
    | cons e cs => exact hd
  | literal hl _ ih => exact .literal hl ih

theorem append (h : Clean stops (bs ++ rest) as) (hb : Clean stops rest bs) : Clean stops rest (as ++ bs) := by
  induction h with
  | nil => exact hb
  | char hq hh hs _ ih => exact .char hq hh (by simpa [List.append_assoc] using hs) ih
  | @literal l cs hl _ ih =>
    rw [List.append_assoc]
    exact .literal hl ih

theorem tail {c : Char} (hc : isQuote c = false) (h : Clean stops rest (c :: as)) :
    c ≠ '#' ∧ (c = '/' → ∀ d ∈ (as ++ rest).head?, d ∉ stops) ∧ Clean stops rest as := by
  generalize hcs : c :: as = cs at h
  cases h with
  | nil => cases hcs
  | char _ hh hs h =>
    cases hcs
    exact ⟨hh, hs, h⟩
  | literal hl _ =>
    obtain ⟨q, ds, rfl, hq, -⟩ := hl.exists_cons
    rw [(List.cons.inj hcs).1, hq] at hc
    cases hc

theorem of_literal {l : List Char} (hl : IsLiteral l) (h : Clean stops rest (l ++ as)) : Clean stops rest as := by
  generalize hcs : l ++ as = cs at h
  cases h with
  | nil => exact absurd (List.append_eq_nil_iff.1 hcs).1 hl.ne_nil
  | @char c cs hq _ _ _ =>
    obtain ⟨q, ds, rfl, hq', -⟩ := hl.exists_cons
    rw [(List.cons.inj hcs).1, hq] at hq'
    cases hq'
  | @literal l' cs hl' h =>
    have hread := hl.literal? as
    rw [hcs, hl'.literal? cs] at hread
    cases hread
    exact h

/-- Behind a clean text, a clean text goes on with one. -/
theorem of_append (h : Clean stops (bs ++ rest) as) (hall : Clean stops rest (as ++ bs)) : Clean stops rest bs := by
  induction h with
  | nil => exact hall
  | char hq _ _ _ ih => exact ih (hall.tail hq).2.2
  | @literal l cs hl _ ih =>
    rw [List.append_assoc] at hall
    exact ih (hall.of_literal hl)

/-- A clean text has no quotes, or a first literal. -/
theorem split (h : Clean stops rest as) : (∀ c ∈ as, isQuote c = false) ∨
    ∃ gap l bs, as = gap ++ (l ++ bs) ∧ (∀ c ∈ gap, isQuote c = false) ∧ Clean stops (l ++ bs ++ rest) gap ∧ IsLiteral l ∧
      Clean stops rest bs := by
  induction h with
  | nil => exact .inl (by simp)
  | @char c cs hq hh hs _ ih =>
    rcases ih with hnone | ⟨gap, l, bs, rfl, hgap, hclean, hl, hbs⟩
    · exact .inl (by simpa [hq] using hnone)
    · exact .inr ⟨c :: gap, l, bs, rfl, by simpa [hq] using hgap, .char hq hh (by simpa using hs) hclean, hl, hbs⟩
  | @literal l cs hl h _ => exact .inr ⟨[], l, cs, rfl, by simp, .nil, hl, h⟩

end Clean

/-! ## Rewriting between quotes -/

/-- Neither a mark nor a backslash. -/
def isInert (c : Char) : Bool := !('\\' :: marks).contains c

/-- The second text is the first one with some words of inert characters replaced by others. -/
inductive Swapped : List Char → List Char → Prop where
  | nil : Swapped [] []
  | keep (c : Char) {as as' : List Char} : Swapped as as' → Swapped (c :: as) (c :: as')
  | swap {old new as as' : List Char} : old ≠ [] → new ≠ [] → (∀ c ∈ old, isInert c) → (∀ c ∈ new, isInert c) →
    ('\n' ∈ new → '\n' ∈ old) → Swapped as as' → Swapped (old ++ as) (new ++ as')

theorem isInert_plain {c : Char} (h : isInert c) : c ≠ '\\' ∧ c ∉ marks ∧ isQuote c = false := by
  simp only [isInert, List.contains_cons, Bool.not_eq_true', Bool.or_eq_false_iff, beq_eq_false_iff_ne] at h
  have hm : c ∉ marks := by simpa using h.2
  exact ⟨h.1, hm, Script.Spelt.not_isQuote hm⟩

theorem staysOpen_inert {q : Char} (hq : isQuote q) {old : List Char} (hne : old ≠ []) (hold : ∀ c ∈ old, isInert c)
    (escaped : Bool) (cs : List Char) :
    staysOpen q escaped (old ++ cs) = (!old.contains '\n' && staysOpen q false cs) := by
  induction old generalizing escaped with
  | nil => exact absurd rfl hne
  | cons c old ih =>
    rw [List.forall_mem_cons] at hold
    obtain ⟨hb, -, hc⟩ := isInert_plain hold.1
    have hcq : c ≠ q := by
      rintro rfl
      rw [hq] at hc
      cases hc
    have hfirst : staysOpen q escaped (c :: (old ++ cs)) = (c != '\n' && staysOpen q false (old ++ cs)) := by
      cases escaped with
      | true => rfl
      | false => rw [staysOpen_cons hb, bne_iff_ne.2 hcq, Bool.true_and]
    have hnewline : (c != '\n') = !('\n' == c) := by rw [bne, BEq.comm]
    rw [List.cons_append, hfirst, hnewline, List.contains_cons, Bool.not_or]
    cases old with
    | nil => simp
    | cons d old => rw [ih (List.cons_ne_nil d old) hold.2, Bool.and_assoc]

namespace Swapped

variable {as as' : List Char}

/-- A literal that goes on does so when words in it are replaced. -/
theorem staysOpen (h : Swapped as as') {q : Char} (hq : isQuote q) {escaped : Bool}
    (ho : Sketch.staysOpen q escaped as) : Sketch.staysOpen q escaped as' := by
  induction h generalizing escaped with
  | nil => exact ho
  | keep c _ ih =>
    cases escaped with
    | true =>
      rw [Sketch.staysOpen, Bool.and_eq_true] at ho ⊢
      exact ⟨ho.1, ih ho.2⟩
    | false =>
      rw [Sketch.staysOpen] at ho ⊢
      split at ho
      · rename_i hc
        rw [if_pos hc]
        exact ih ho
      · rename_i hc
        rw [if_neg hc]
        rw [Bool.and_eq_true] at ho ⊢
        exact ⟨ho.1, ih ho.2⟩
  | swap hold hnew hi hi' hn _ ih =>
    rw [staysOpen_inert hq hold hi, Bool.and_eq_true] at ho
    rw [staysOpen_inert hq hnew hi', Bool.and_eq_true]
    refine ⟨?_, ih ho.2⟩
    have hfree := ho.1
    simp only [Bool.not_eq_true', List.contains_eq_mem, decide_eq_false_iff_not] at hfree ⊢
    exact mt hn hfree

/-- A character that is not inert stands at the front of both or of none. -/
theorem head? (h : Swapped as as') {rest : List Char} {d : Char} (hd : d ∈ (as' ++ rest).head?) (hi : isInert d = false) :
    d ∈ (as ++ rest).head? := by
  cases h with
  | nil => exact hd
  | keep c _ => exact hd
  | swap _ hnew _ hi' _ _ =>
    obtain ⟨c, new, rfl⟩ := List.exists_cons_of_ne_nil hnew
    obtain rfl : c = d := Option.some.inj hd
    rw [hi' c List.mem_cons_self] at hi
    cases hi

/-- A clean text without quotes stays one. -/
theorem clean (h : Swapped as as') {stops rest : List Char} (hstops : ∀ d ∈ stops, isInert d = false)
    (hq : ∀ c ∈ as, isQuote c = false) (hclean : Clean stops rest as) :
    Clean stops rest as' ∧ ∀ c ∈ as', isQuote c = false := by
  induction h with
  | nil => exact ⟨hclean, hq⟩
  | keep c h ih =>
    rw [List.forall_mem_cons] at hq
    obtain ⟨hh, hs, hclean⟩ := hclean.tail hq.1
    obtain ⟨hclean', hq'⟩ := ih hq.2 hclean
    refine ⟨.char hq.1 hh (fun hc d hd hm => hs hc d (h.head? hd (hstops d hm)) hm) hclean', ?_⟩
    rw [List.forall_mem_cons]
    exact ⟨hq.1, hq'⟩
  | @swap old new as as' _ _ hi hi' _ _ ih =>
    rw [List.forall_mem_append] at hq
    have hold : Clean stops (as ++ rest) old := by
      simpa using Script.Spelt.clean_unmarked (fun c hc => (isInert_plain (hi c hc)).2.1) .nil
    obtain ⟨hclean', hq'⟩ := ih hq.2 (hold.of_append hclean)
    refine ⟨Script.Spelt.clean_unmarked (fun c hc => (isInert_plain (hi' c hc)).2.1) hclean', ?_⟩
    rw [List.forall_mem_append]
    exact ⟨fun c hc => (isInert_plain (hi' c hc)).2.2, hq'⟩

end Swapped

/-! ## Words in front of their operands -/

/-- A search for what follows a run that looks at inert characters only, and does not look over a quote. -/
structure Gentle (isOperand : Char → Bool) (follow? : List Char → Option (List Char × List Char))
    (build : (run kept : List Char) → List Char) : Prop extends Follow follow? build where
  operand : ∀ {c}, isOperand c → isInert c ∧ c ≠ '\n'
  front : ∀ {cs kept rest}, follow? cs = some (kept, rest) →
    ∃ front, cs = front ++ (kept ++ rest) ∧ ∀ c ∈ front ++ kept, isInert c
  built : ∀ {run kept}, (∀ c ∈ run ++ kept, isInert c) → build run kept ≠ [] ∧ ∀ c ∈ build run kept, isInert c
  quote : ∀ {q}, isQuote q → ∀ as,
    (∀ bs, follow? (as ++ q :: bs) = (follow? as).map fun found => (found.1, found.2 ++ q :: bs)) ∨
      ∀ bs, follow? (as ++ q :: bs) = none

namespace Gentle

variable {isOperand : Char → Bool} {follow? : List Char → Option (List Char × List Char)}
  {build : (run kept : List Char) → List Char}

theorem not_operand (h : Gentle isOperand follow? build) {q : Char} (hq : isQuote q) : isOperand q = false :=
  Bool.eq_false_iff.2 fun ho => by
    have hinert := (isInert_plain (h.operand ho).1).2.2
    rw [hq] at hinert
    cases hinert

theorem keeps (run : List Char) {as as' : List Char} (h : Swapped as as') : Swapped (run ++ as) (run ++ as') := by
  induction run with
  | nil => exact h
  | cons c run ih => exact .keep c ih

/-- A run with its word, and what is built of them. -/
theorem swapped (h : Gentle isOperand follow? build) {c : Char} {cs kept rest out : List Char} (hc : isOperand c)
    (hf : follow? ((c :: cs).dropWhile isOperand) = some (kept, rest)) (ho : Swapped rest out) :
    Swapped (c :: cs) (build ((c :: cs).takeWhile isOperand) kept ++ out) := by
  obtain ⟨front, he, hfront⟩ := h.front hf
  have hsplit := List.takeWhile_append_dropWhile (p := isOperand) (l := c :: cs)
  have hrun : ∀ d ∈ (c :: cs).takeWhile isOperand, isOperand d := List.all_eq_true.1 List.all_takeWhile
  have hrne : (c :: cs).takeWhile isOperand ≠ [] := by simp [hc]
  generalize (c :: cs).takeWhile isOperand = run at hsplit hrun hrne ⊢
  rw [List.forall_mem_append] at hfront
  have hinert : ∀ d ∈ run ++ kept, isInert d := fun d hd =>
    (List.mem_append.1 hd).elim (fun hd => (h.operand (hrun d hd)).1) (hfront.2 d)
  obtain ⟨hne, hbuilt⟩ := h.built hinert
  rw [← hsplit, he, ← List.append_assoc front, ← List.append_assoc]
  refine .swap (by simp [hrne]) hne ?_ hbuilt (fun hn => ?_) ho
  · intro d hd
    rcases List.mem_append.1 hd with hd | hd
    · exact (h.operand (hrun d hd)).1
    · exact (List.mem_append.1 hd).elim (hfront.1 d) (hfront.2 d)
  · rcases h.build_newline hn with hn | hn
    · exact absurd rfl (h.operand (hrun _ hn)).2
    · simp [hn]

/-- The pass replaces words by others. -/
theorem swapRuns_swapped (h : Gentle isOperand follow? build) (cs : List Char) :
    Swapped cs (swapRuns isOperand follow? build cs) := by
  generalize hn : cs.length = n
  induction n using Nat.strongRecOn generalizing cs with
  | ind n ih =>
    cases cs with
    | nil => exact .nil
    | cons c cs =>
      rw [List.length_cons] at hn
      cases hc : isOperand c with
      | false =>
        rw [swapRuns_of_not hc]
        exact .keep c (ih _ (by omega) cs rfl)
      | true =>
        have hl := dropWhile_length hc cs
        cases hf : follow? ((c :: cs).dropWhile isOperand) with
        | none =>
          rw [swapRuns_of_none h.toFollow hc hf]
          have hrest := keeps ((c :: cs).takeWhile isOperand) (ih _ (by omega) ((c :: cs).dropWhile isOperand) rfl)
          rwa [List.takeWhile_append_dropWhile] at hrest
        | some found =>
          obtain ⟨kept, rest⟩ := found
          rw [swapRuns_of_some h.toFollow hc hf]
          refine h.swapped hc hf (ih rest.length ?_ rest rfl)
          obtain ⟨front, he, -⟩ := h.front hf
          rw [he] at hl
          simp only [List.length_append] at hl
          omega

/-- The pass does not look over a quote. -/
theorem swapRuns_quote (h : Gentle isOperand follow? build) {q : Char} (hq : isQuote q) (as : List Char) :
    ∃ out, Swapped as out ∧ ∀ bs, swapRuns isOperand follow? build (as ++ q :: bs) =
      out ++ q :: swapRuns isOperand follow? build bs := by
  have hqo := h.not_operand hq
  generalize hn : as.length = n
  induction n using Nat.strongRecOn generalizing as with
  | ind n ih =>
    cases as with
    | nil => exact ⟨[], .nil, swapRuns_of_not hqo⟩
    | cons c as =>
      rw [List.length_cons] at hn
      cases hc : isOperand c with
      | false =>
        obtain ⟨out, ho, hout⟩ := ih _ (by omega) as rfl
        refine ⟨c :: out, .keep c ho, fun bs => ?_⟩
        rw [List.cons_append, swapRuns_of_not hc, hout]
        rfl
      | true =>
        have htake : ∀ bs, ((c :: as) ++ q :: bs).takeWhile isOperand = (c :: as).takeWhile isOperand ∧
            ((c :: as) ++ q :: bs).dropWhile isOperand = (c :: as).dropWhile isOperand ++ q :: bs := fun bs =>
          takeWhile_stop hqo (c :: as) bs
        have hl := dropWhile_length hc as
        have hnone : (∀ bs, follow? ((c :: as).dropWhile isOperand ++ q :: bs) = none) → ∃ out, Swapped (c :: as) out ∧
            ∀ bs, swapRuns isOperand follow? build (c :: as ++ q :: bs) =
              out ++ q :: swapRuns isOperand follow? build bs := fun hf => by
          obtain ⟨out, ho, hout⟩ := ih _ (by omega) ((c :: as).dropWhile isOperand) rfl
          have hrest := keeps ((c :: as).takeWhile isOperand) ho
          rw [List.takeWhile_append_dropWhile] at hrest
          refine ⟨_, hrest, fun bs => ?_⟩
          obtain ⟨ht, hd⟩ := htake bs
          rw [List.cons_append] at ht hd ⊢
          rw [swapRuns_of_none h.toFollow hc (by rw [hd, hf]), ht, hd, hout, List.append_assoc]
        rcases h.quote hq ((c :: as).dropWhile isOperand) with hf | hf
        · cases hfound : follow? ((c :: as).dropWhile isOperand) with
          | none => exact hnone fun bs => by rw [hf, hfound]; rfl
          | some found =>
            obtain ⟨kept, rest⟩ := found
            obtain ⟨front, he, -⟩ := h.front hfound
            have hrest : rest.length < n := by
              rw [he] at hl
              simp only [List.length_append] at hl
              omega
            obtain ⟨out, ho, hout⟩ := ih _ hrest rest rfl
            refine ⟨_, h.swapped hc hfound ho, fun bs => ?_⟩
            obtain ⟨ht, hd⟩ := htake bs
            rw [List.cons_append] at ht hd ⊢
            rw [swapRuns_of_some h.toFollow hc (by rw [hd, hf, hfound]; rfl), ht, hout, List.append_assoc]
        · exact hnone hf

/-- The pass rewrites each literal by itself, and keeps the text clean. -/
theorem swapRuns_clean (h : Gentle isOperand follow? build) {stops : List Char} (hstops : ∀ d ∈ stops, isInert d = false)
    {cs : List Char} (hcs : Clean stops [] cs) : Clean stops [] (swapRuns isOperand follow? build cs) ∧
      literals (swapRuns isOperand follow? build cs) = (literals cs).map (swapRuns isOperand follow? build) := by
  generalize hn : cs.length = n
  induction n using Nat.strongRecOn generalizing cs with
  | ind n ih =>
    rcases hcs.split with hq | ⟨gap, l, rest, rfl, hq, hgap, hl, hrest⟩
    · obtain ⟨hclean, hq'⟩ := (h.swapRuns_swapped cs).clean hstops hq hcs
      exact ⟨hclean, by rw [literals_eq_nil hq, literals_eq_nil hq']; rfl⟩
    · obtain ⟨q, body, hquote, hopen, rfl⟩ := isLiteral_iff.1 hl
      obtain ⟨gap', hswap, hgap'⟩ := h.swapRuns_quote hquote gap
      obtain ⟨body', hbody, hbody'⟩ := h.swapRuns_quote hquote body
      obtain ⟨hfree, hq'⟩ := hswap.clean hstops hq hgap
      have hl' : IsLiteral (q :: (body' ++ [q])) :=
        isLiteral_iff.2 ⟨q, body', hquote, hbody.staysOpen hquote hopen, rfl⟩
      obtain ⟨hrest', hliterals⟩ := ih rest.length (by simp at hn; omega) hrest rfl
      have hliteral : swapRuns isOperand follow? build (q :: (body ++ [q])) = q :: (body' ++ [q]) := by
        rw [swapRuns_of_not (h.not_operand hquote), hbody']
        rfl
      have hall : swapRuns isOperand follow? build (gap ++ (q :: (body ++ [q]) ++ rest)) =
          gap' ++ (q :: (body' ++ [q]) ++ swapRuns isOperand follow? build rest) := by
        simp only [List.cons_append, List.append_assoc, List.nil_append, hgap', hbody']
      have hclean : Clean stops [] (q :: (body' ++ [q]) ++ swapRuns isOperand follow? build rest) := .literal hl' hrest'
      rw [hall]
      refine ⟨.append (hfree.of_head? fun d hd _ => hd) hclean, ?_⟩
      rw [literals_unquoted hq, literals_unquoted hq', literals_of_some (hl.literal? _),
        literals_of_some (hl'.literal? _), hliterals, List.map_cons, hliteral]

end Gentle

/-! ## The passes -/

/-- What tells a character from all marks tells that it is inert. -/
theorem isInert_of {p : Char → Bool} (hp : ('\\' :: marks).all fun d => !p d) {c : Char} (h : p c) : isInert c := by
  simp only [isInert, Bool.not_eq_true', List.contains_eq_mem, decide_eq_false_iff_not]
  intro hm
  have hc := List.all_eq_true.1 hp c hm
  rw [h] at hc
  cases hc

theorem isInert_of_isBlank {c : Char} (h : isBlank c) : isInert c := isInert_of (by decide) h

theorem isInert_of_isAlphanum {c : Char} (h : c.isAlphanum) : isInert c := isInert_of (by decide) h

theorem exists_skipSpaces (cs : List Char) : ∃ spaces, cs = spaces ++ skipSpaces cs ∧ ∀ c ∈ spaces, isInert c := by
  refine ⟨_, (List.takeWhile_append_dropWhile (p := (· == ' ')) (l := cs)).symm, fun c hc => ?_⟩
  have he : c = ' ' := eq_of_beq (List.all_eq_true.1 List.all_takeWhile c hc)
  rw [he]
  rfl

theorem gentle_spacedWord {isOperand : Char → Bool} {word : List Char} (ho : ∀ {c}, isOperand c → isInert c ∧ c ≠ '\n')
    (hw : ∀ c ∈ word, c.isAlphanum) : Gentle isOperand (spacedWord? word) (wordFirst word) where
  toFollow := spacedWord?_follow fun hm => by cases hw _ hm
  operand := ho
  front := by
    intro cs kept rest h
    simp only [spacedWord?, Option.bind_eq_bind, Option.bind_eq_some_iff, after?_eq_some] at h
    obtain ⟨cs, rfl, tail, hs, ht⟩ := h
    obtain ⟨spaces, hc, hspaces⟩ := exists_skipSpaces cs
    have htail : tail = kept ++ rest ∧ ∀ c ∈ kept, isInert c := by
      split at ht
      · cases ht
        exact ⟨rfl, by simp⟩
      · split at ht
        · rename_i hb
          cases ht
          exact ⟨rfl, by simpa using isInert_of_isBlank hb⟩
        · cases ht
    refine ⟨' ' :: spaces ++ word, ?_, fun c hc => ?_⟩
    · rw [hc, hs, htail.1]
      simp
    · simp only [List.mem_append, List.mem_cons] at hc
      rcases hc with ((rfl | hc) | hc) | hc
      · rfl
      · exact hspaces c hc
      · exact isInert_of_isAlphanum (hw c hc)
      · exact htail.2 c hc
  built := by
    intro run kept h
    refine ⟨by simp [wordFirst], fun c hc => ?_⟩
    simp only [wordFirst, List.mem_append, List.mem_cons] at hc
    rcases hc with (hc | rfl | hc) | hc
    · exact isInert_of_isAlphanum (hw c hc)
    · rfl
    · exact h c (List.mem_append_left _ hc)
    · exact h c (List.mem_append_right _ hc)
  quote := by
    intro q hq as
    have hne : ∀ d, isQuote d = false → q ≠ d := by
      rintro d hd rfl
      rw [hd] at hq
      cases hq
    have hspace : ∀ bs, after? [' '] (as ++ q :: bs) = (after? [' '] as).map (· ++ q :: bs) := fun bs =>
      after?_stop (by simpa using hne ' ' rfl) as bs
    have hblank : isBlank q = false := Bool.eq_false_iff.2 fun hb => by
      rw [(isInert_plain (isInert_of_isBlank hb)).2.2] at hq
      cases hq
    unfold spacedWord?
    simp only [hspace]
    cases after? [' '] as with
    | none => exact .inl fun _ => rfl
    | some cs =>
      have hword : ∀ bs, after? word (skipSpaces (cs ++ q :: bs)) = (after? word (skipSpaces cs)).map (· ++ q :: bs) :=
        fun bs => by
          rw [skipSpaces_stop (hne ' ' rfl)]
          refine after?_stop (fun hm => ?_) _ bs
          have hquote := (isInert_plain (isInert_of_isAlphanum (hw q hm))).2.2
          rw [hq] at hquote
          cases hquote
      cases hc : after? word (skipSpaces cs) with
      | none => exact .inl fun bs => by simp [hword, hc]
      | some tail =>
        cases tail with
        | nil => exact .inr fun bs => by simp [hword, hc, hblank]
        | cons c tail =>
          refine .inl fun bs => ?_
          cases hb : isBlank c <;> simp [hword, hc, hb]

theorem isInert_of_mem {word : List Char} (hw : word.all isInert) {c : Char} (hc : c ∈ word) : isInert c :=
  List.all_eq_true.1 hw c hc

theorem isInert_times : "times".toList.all isInert ∧ "->".toList.all isInert := by decide

theorem isInert_repeatFirst : ";repeat ".toList.all isInert ∧ " ->".toList.all isInert := by decide

theorem isInert_of_isIndent {c : Char} (h : isIndent c) : isInert c := isInert_of (by decide) h

/-- A quote does not stand in a word of inert characters. -/
theorem quote_notMem {q : Char} (hq : isQuote q) {word : List Char} (hw : word.all isInert) : q ∉ word := fun hm => by
  have hquote := (isInert_plain (isInert_of_mem hw hm)).2.2
  rw [hq] at hquote
  cases hquote

theorem gentle_timesArrow : Gentle isDigit timesArrow? repeatFirst where
  toFollow := timesArrow?_follow
  operand := fun {c} hc => ⟨isInert_of (by decide) hc, by rintro rfl; cases hc⟩
  front := by
    intro cs kept rest h
    cases cs with
    | nil => cases h
    | cons c cs =>
      rw [timesArrow?_cons] at h
      split at h
      · rename_i hc
        obtain ⟨tail, ht, hr⟩ := Option.bind_eq_some_iff.1 h
        obtain ⟨rest', ha, he⟩ := Option.map_eq_some_iff.1 hr
        cases he
        obtain ⟨spaces, hs, hspaces⟩ := exists_skipSpaces tail
        rw [after?_eq_some] at ht ha
        have hindent : ∀ d ∈ cs.takeWhile isIndent, isIndent d := List.all_eq_true.1 List.all_takeWhile
        refine ⟨c :: cs.takeWhile isIndent ++ "times".toList ++ spaces ++ "->".toList, ?_, fun d hd => ?_⟩
        · conv => lhs; rw [← List.takeWhile_append_dropWhile (p := isIndent) (l := cs), ht, hs, ha]
          simp only [List.cons_append, List.append_assoc, List.nil_append]
        · simp only [List.append_nil, List.mem_append, List.mem_cons] at hd
          rcases hd with (((rfl | hd) | hd) | hd) | hd
          · exact isInert_of_isIndent hc
          · exact isInert_of_isIndent (hindent d hd)
          · exact isInert_of_mem isInert_times.1 hd
          · exact hspaces d hd
          · exact isInert_of_mem isInert_times.2 hd
      · cases h
  built := by
    intro run kept h
    have hbuild : repeatFirst run kept = ";repeat ".toList ++ run ++ " ->".toList := rfl
    rw [hbuild]
    refine ⟨by simp, fun c hc => ?_⟩
    rcases List.mem_append.1 hc with hc | hc
    · exact (List.mem_append.1 hc).elim (isInert_of_mem isInert_repeatFirst.1) fun hc => h c (List.mem_append_left _ hc)
    · exact isInert_of_mem isInert_repeatFirst.2 hc
  quote := by
    intro q hq as
    have hindent : isIndent q = false := Bool.eq_false_iff.2 fun hi => by
      have hquote := (isInert_plain (isInert_of_isIndent hi)).2.2
      rw [hq] at hquote
      cases hquote
    have hspace : q ≠ ' ' := by
      rintro rfl
      cases hq
    refine .inl fun bs => ?_
    cases as with
    | nil =>
      rw [List.nil_append, timesArrow?_cons, if_neg (by simp [hindent])]
      rfl
    | cons c as =>
      rw [List.cons_append, timesArrow?_cons, timesArrow?_cons, (takeWhile_stop hindent as bs).2,
        after?_stop (quote_notMem hq isInert_times.1)]
      split
      · cases after? "times".toList (as.dropWhile isIndent) with
        | none => rfl
        | some tail =>
          simp only [Option.map_some, Option.bind_some, skipSpaces_stop hspace,
            after?_stop (quote_notMem hq isInert_times.2), Option.map_map]
          rfl
      · rfl

theorem gentle_colour {word : List Char} (h : word ∈ colourWords) :
    Gentle Char.isAlpha (spacedWord? word) (wordFirst word) := by
  have hwords : colourWords.all (·.all Char.isAlphanum) := by decide
  have halnum : ∀ {c : Char}, c.isAlpha → c.isAlphanum := fun hc => by simp [Char.isAlphanum, hc]
  refine gentle_spacedWord (fun {c} hc => ⟨isInert_of_isAlphanum (halnum hc), ?_⟩)
    (List.all_eq_true.1 (List.all_eq_true.1 hwords word h))
  rintro rfl
  cases hc

theorem gentle_bpm : Gentle isDigit (spacedWord? "bpm".toList) (wordFirst "bpm".toList) := by
  have hword : "bpm".toList.all Char.isAlphanum := by decide
  exact gentle_spacedWord gentle_timesArrow.operand (List.all_eq_true.1 hword)

/-- What becomes of a literal when words are put in front of their operands. -/
def rewritten (cs : List Char) : List Char := desugarTimes (swapPostfix cs)

/-- Putting words in front of their operands goes over each literal by itself. -/
theorem Clean.rewritten {stops cs : List Char} (hstops : ∀ d ∈ stops, isInert d = false) (h : Clean stops [] cs) :
    Clean stops [] (Sketch.rewritten cs) ∧ literals (Sketch.rewritten cs) = (literals cs).map Sketch.rewritten := by
  obtain ⟨h₁, hl₁⟩ := gentle_bpm.swapRuns_clean hstops h
  obtain ⟨h₂, hl₂⟩ := (gentle_colour (by decide : "fill".toList ∈ colourWords)).swapRuns_clean hstops h₁
  obtain ⟨h₃, hl₃⟩ := (gentle_colour (by decide : "stroke".toList ∈ colourWords)).swapRuns_clean hstops h₂
  obtain ⟨h₄, hl₄⟩ := (gentle_colour (by decide : "background".toList ∈ colourWords)).swapRuns_clean hstops h₃
  obtain ⟨h₅, hl₅⟩ := gentle_timesArrow.swapRuns_clean hstops h₄
  rw [hl₄, hl₃, hl₂, hl₁] at hl₅
  simp only [List.map_map] at hl₅
  exact ⟨h₅, hl₅⟩

end LiveSketch.Sketch

import LiveSketch.Proofs.Script.Parentheses
import LiveSketch.Proofs.Sketch.Reports
import LiveSketch.Proofs.Sketch.Settled
import LiveSketch.Script.Lowering

/-!
# The delimiters of scripts that compile

`checkDelimiters_compiled`: in a text that is a script, the check of the delimiters finds those of its hash
comments and no others. Line by line the marks outside literals and comments are the parentheses among the tokens
(`openMarks_line`), and a program has an even number of them. The check does not know hash comments, so it counts
what stands in them, too.
-/
namespace LiveSketch.Sketch

open Text
open Script (Token Spelt IsTail StarFree marks parens)
open Script.Lexer (startsComment)

/-! ## Hash comments -/

/-- The comment of a line if it begins with a hash sign; each step takes a character off the line. -/
def hashCommentWithin : (fuel : Nat) → List Char → List Char
  | 0, _ => []
  | _ + 1, [] => []
  | fuel + 1, c :: cs =>
    match literal? (c :: cs) with
    | some (_, rest) => hashCommentWithin fuel rest
    | none =>
      if startsComment (c :: cs) then if c == '#' then c :: cs else []
      else hashCommentWithin fuel cs

/-- The comment of a line if it begins with a hash sign. -/
def hashComment (line : List Char) : List Char := hashCommentWithin line.length line

/-- The hash comments of a text, each on its line. -/
def hashComments (cs : List Char) : List Char := mapLines hashComment cs

theorem hashCommentWithin_eq {fuel fuel' : Nat} {cs : List Char} (h : cs.length ≤ fuel) (h' : cs.length ≤ fuel') :
    hashCommentWithin fuel cs = hashCommentWithin fuel' cs := by
  induction fuel generalizing fuel' cs with
  | zero =>
    obtain rfl := List.length_eq_zero_iff.1 (Nat.le_zero.1 h)
    cases fuel' <;> rfl
  | succ fuel ih =>
    cases cs with
    | nil => cases fuel' <;> rfl
    | cons c cs =>
      rw [List.length_cons] at h h'
      obtain ⟨fuel', rfl⟩ : ∃ n, fuel' = n + 1 := ⟨fuel' - 1, by omega⟩
      simp only [hashCommentWithin]
      split
      · rename_i l rest hl
        have := literal?_length hl
        rw [List.length_cons] at this
        exact ih (by omega) (by omega)
      · rw [@ih fuel' _ (by omega) (by omega)]

theorem hashComment_of_none {c : Char} {cs : List Char} (h : literal? (c :: cs) = none) :
    hashComment (c :: cs) =
      if startsComment (c :: cs) then if c == '#' then c :: cs else [] else hashComment cs := by
  simp [hashComment, hashCommentWithin, h]

theorem hashComment_of_some {cs l rest : List Char} (h : literal? cs = some (l, rest)) :
    hashComment cs = hashComment rest := by
  cases cs with
  | nil => cases h
  | cons c cs =>
    have hlen := literal?_length h
    rw [List.length_cons] at hlen
    rw [hashComment, List.length_cons, hashCommentWithin, h]
    exact hashCommentWithin_eq (by omega) (Nat.le_refl _)

theorem hashComment_suffix (line : List Char) : hashComment line <:+ line := by
  unfold hashComment
  generalize line.length = fuel
  fun_induction hashCommentWithin fuel line with
  | case1 | case2 => exact List.nil_suffix
  | case3 fuel c cs l rest hl ih => exact ih.trans ⟨l, (literal?_eq_some hl).1.symm⟩
  | case4 => exact List.suffix_refl _
  | case5 => exact List.nil_suffix
  | case6 fuel c cs _ _ ih => exact ih.trans (List.suffix_cons c cs)

/-- A block comment does not begin in the hash comments of these lines. -/
theorem settled_hashComment {cs line : List Char} (h : occurs ['/', '*'] (hashComments cs) = false)
    (hl : line ∈ (splitLines cs).map hashComment) : settled line := by
  have hlines : splitLines (hashComments cs) = (splitLines cs).map hashComment := by
    refine splitLines_joinLines (by simpa using splitLines_ne_nil cs) ?_
    rw [List.forall_mem_map]
    exact fun l hl m => newline_notMem_of_mem_splitLines hl ((hashComment_suffix l).subset m)
  refine settled_of_unopened fun back hb => ?_
  suffices hsuffix : ∃ back, ['/', '*'] ++ back <:+ hashComments cs by
    obtain ⟨back, hback⟩ := hsuffix
    rw [occurs_of_suffix hback] at h
    cases h
  rcases suffix_of_mem_splitLines (hlines ▸ hl) with hs | ⟨rest, hs⟩
  · exact ⟨back, hb.trans hs⟩
  · obtain ⟨front, rfl⟩ := hb
    exact ⟨back ++ '\n' :: rest, .trans ⟨front, by simp⟩ hs⟩

theorem Clean.hashComment_append {code rest : List Char} (h : Clean ['/', '*'] rest code) :
    hashComment (code ++ rest) = hashComment rest := by
  induction h with
  | nil => rfl
  | @char c cs hq hh hs _ ih =>
    have hcomment : startsComment (c :: (cs ++ rest)) = false := by
      unfold startsComment
      split
      · rename_i e
        exact absurd (List.cons.inj e).1 hh
      · rename_i e
        obtain ⟨rfl, he⟩ := List.cons.inj e
        exact absurd (by simp) (hs rfl '/' (by simp [he]))
      · rfl
    rw [List.cons_append, hashComment_of_none (literal?_of_not_quote hq _), hcomment, ih]
    rfl
  | literal hl _ ih => rw [List.append_assoc, hashComment_of_some (hl.literal? _), ih]

/-! ## Counting marks -/

/-- How often a delimiter stands outside literals and comments. -/
def openMarks (d : Delimiter) (cs : List Char) : Nat :=
  (dropLiterals (stripComments cs)).countP fun c => d.chars.contains c

theorem openMarks_newline (d : Delimiter) {as : List Char} (h : settled as) (bs : List Char) :
    openMarks d (as ++ '\n' :: bs) = openMarks d as + openMarks d bs := by
  have hn : d.chars.contains '\n' = false := by cases d <;> rfl
  rw [openMarks, stripComments_settled h, dropLiterals_newline, List.countP_append, List.countP_cons, hn]
  rfl

theorem openMarks_joinLines (d : Delimiter) {lines : List (List Char)} (h : ∀ line ∈ lines, settled line) :
    openMarks d (joinLines lines) = (lines.map (openMarks d)).sum := by
  induction lines with
  | nil => rfl
  | cons line lines ih =>
    rw [List.forall_mem_cons] at h
    cases lines with
    | nil => simp [joinLines]
    | cons next lines =>
      rw [joinLines_cons (List.cons_ne_nil next lines), openMarks_newline d h.1, ih h.2]
      rfl

/-- How many of these tokens are this delimiter. -/
def markTokens (d : Delimiter) (ts : List Token) : Nat := if d = .paren then parens ts else 0

theorem markTokens_append (d : Delimiter) (ts us : List Token) :
    markTokens d (ts ++ us) = markTokens d ts + markTokens d us := by
  unfold markTokens
  split
  · exact List.countP_append
  · rfl

theorem markTokens_layout (d : Delimiter) {ts : List Token} (h : ∀ t ∈ ts, t.kind.isWord = false) :
    markTokens d ts = 0 := by
  unfold markTokens
  split
  · refine List.countP_eq_zero.2 fun t ht hk => ?_
    rcases of_decide_eq_true hk with hk | hk <;>
      · have := h t ht
        rw [hk] at this
        cases this
  · rfl

theorem countP_unmarked (d : Delimiter) {l : List Char} (h : ∀ c ∈ l, c ∉ marks) (cs : List Char) :
    (dropLiterals (l ++ cs)).countP (fun c => d.chars.contains c) =
      (dropLiterals cs).countP fun c => d.chars.contains c := by
  have hd : ∀ c ∈ d.chars, c ∈ marks := by cases d <;> simp [Delimiter.chars, marks]
  induction l with
  | nil => rfl
  | cons c l ih =>
    rw [List.forall_mem_cons] at h
    have hc : d.chars.contains c = false := by simpa using mt (hd c) h.1
    rw [List.cons_append, dropLiterals_of_none (literal?_of_not_quote (Spelt.not_isQuote h.1) _), List.countP_cons,
      hc, ih h.2]
    rfl

/-- Outside its literals a line of code holds the parentheses of its tokens and no other delimiters. -/
theorem countP_spelt (d : Delimiter) {stops rest code : List Char} {ts : List Token} (h : Spelt stops rest ts code) :
    (dropLiterals code).countP (fun c => d.chars.contains c) = markTokens d ts := by
  induction h with
  | nil => cases d <;> rfl
  | @blank c _ cs hi _ ih =>
    rw [← List.singleton_append, countP_unmarked d (by simpa using Script.notMem_marks_of_isIndent hi), ih]
  | @token t l ts cs hl _ _ ih =>
    have single : ∀ {c : Char}, isQuote c = false → (dropLiterals (c :: cs)).countP (fun c => d.chars.contains c) =
        (dropLiterals cs).countP (fun c => d.chars.contains c) + if d.chars.contains c then 1 else 0 := fun hq => by
      rw [dropLiterals_of_none (literal?_of_not_quote hq _), List.countP_cons]
    rw [← List.singleton_append (l := ts), markTokens_append, ← ih]
    generalize hk : t.kind = kind at hl
    cases hl with
    | text hl =>
      rw [dropLiterals_of_some (hl.literal? cs)]
      simp [markTokens, parens, hk]
    | slash =>
      rw [List.singleton_append, single rfl]
      cases d <;> simp [Delimiter.chars, markTokens, parens, hk]
    | slashAssign =>
      rw [List.cons_append, List.singleton_append, dropLiterals_of_none rfl, List.countP_cons, single rfl]
      cases d <;> simp [Delimiter.chars, markTokens, parens, hk]
    | leftParen =>
      rw [List.singleton_append, single rfl]
      cases d <;> simp [Delimiter.chars, markTokens, parens, hk, Nat.add_comm]
    | rightParen =>
      rw [List.singleton_append, single rfl]
      cases d <;> simp [Delimiter.chars, markTokens, parens, hk, Nat.add_comm]
    | plain _ _ hl hr h =>
      rw [countP_unmarked d h]
      simp [markTokens, parens, hk, hl, hr]

/-! ## Lines -/

/-- What stands behind the code of a line is its hash comment, or holds nothing that the check looks at. -/
theorem hashComment_tail {tail : List Char} (h : IsTail tail) (hn : '\n' ∉ tail) :
    hashComment tail = tail ∨ hashComment tail = [] ∧ settled tail ∧ ∀ d, openMarks d tail = 0 := by
  rcases h with rfl | rfl | h
  · exact .inl rfl
  · exact .inr ⟨rfl, by decide, fun d => by cases d <;> decide⟩
  · unfold startsComment at h
    split at h
    · exact .inl (hashComment_of_none rfl)
    · rename_i cs
      have hcs : cs.dropWhile (· != '\n') = [] :=
        dropWhile_of_all (ne_newline_of_notMem fun m => hn (by simp [m]))
      have hstrip : stripComments ('/' :: '/' :: cs) = stripComments (cs.dropWhile (· != '\n')) :=
        stripComments_cons '/' ('/' :: cs)
      have hsettled : settled ('/' :: '/' :: cs) = settled (cs.dropWhile (· != '\n')) :=
        settled_cons '/' ('/' :: cs)
      refine .inr ⟨hashComment_of_none rfl, by rw [hsettled, hcs]; rfl, fun d => ?_⟩
      rw [openMarks, hstrip, hcs]
      rfl
    · cases h

/-- On a line of a script the check counts the parentheses and what stands in its hash comment. -/
theorem openMarks_line (d : Delimiter) {code tail : List Char} {ts : List Token} (ht : IsTail tail)
    (hn : '\n' ∉ tail) (h : Spelt ['/', '*'] tail ts code) :
    openMarks d (code ++ tail) = openMarks d (hashComment (code ++ tail)) + markTokens d ts := by
  have hclean := h.clean (by simp)
  have htail : openMarks d tail = openMarks d (hashComment tail) := by
    rcases hashComment_tail ht hn with he | ⟨he, -, hz⟩
    · rw [he]
    · rw [he, hz d]
      rfl
  rw [hclean.hashComment_append, ← htail, openMarks, hclean.stripComments_append,
    hclean.dropLiterals_append, List.countP_append, countP_spelt d h, Nat.add_comm]
  rfl

/-- A line of a script is settled if its hash comment is. -/
theorem settled_line {code tail : List Char} {ts : List Token} (ht : IsTail tail) (hn : '\n' ∉ tail)
    (h : Spelt ['/', '*'] tail ts code) (hs : settled (hashComment (code ++ tail))) : settled (code ++ tail) := by
  have hclean := h.clean (by simp)
  rw [hclean.hashComment_append] at hs
  rw [hclean.settled_append]
  rcases hashComment_tail ht hn with he | ⟨-, h, -⟩
  · rwa [he] at hs
  · exact h

/-- Over all lines of a script: -/
theorem openMarks_lines (d : Delimiter) {pos : Nat} {levels : List Nat} {lines : List (List Char)} {ts : List Token}
    (h : Script.Lexer.lexLines pos levels lines = .ok ts) (hts : StarFree ts) (hn : ∀ line ∈ lines, '\n' ∉ line)
    (hs : ∀ line ∈ lines, settled (hashComment line)) :
    (∀ line ∈ lines, settled line) ∧ (lines.map (openMarks d)).sum =
      (lines.map fun line => openMarks d (hashComment line)).sum + markTokens d ts := by
  induction lines generalizing pos levels ts with
  | nil =>
    cases h
    rw [markTokens_layout]
    · simp
    · simp only [List.forall_mem_append, List.forall_mem_singleton]
      exact ⟨fun t ht => by rw [List.eq_of_mem_replicate ht]; rfl, rfl⟩
  | cons line lines ih =>
    rw [List.forall_mem_cons] at hn hs
    have hstops : ∀ d ∈ ['/', '*'], d = '/' ∨ d = '*' := by simp
    obtain ⟨code, tail, front, us, back, pos', levels', ts', rfl, ht, hspelt, rfl, hlayout, hl⟩ :=
      Script.lexLines_cons_spelt hstops hn.1 (fun _ => hts) h
    obtain ⟨hsettled, hsum⟩ := ih hl (hts.right_of_append) hn.2 hs.2
    have htail : '\n' ∉ tail := fun m => hn.1 (List.mem_append_right code m)
    refine ⟨List.forall_mem_cons.2 ⟨settled_line ht htail hspelt hs.1, hsettled⟩, ?_⟩
    rw [List.forall_mem_append] at hlayout
    rw [List.map_cons, List.sum_cons, List.map_cons, List.sum_cons, hsum, openMarks_line d ht htail hspelt,
      markTokens_append, markTokens_append, markTokens_append, markTokens_layout d hlayout.1,
      markTokens_layout d hlayout.2]
    omega

/-! ## Texts -/

/-- The check of the delimiters fails just if one of them is unpaired. -/
theorem checkDelimiters_eq_error {cs : List Char} {fault : Fault} : checkDelimiters cs = .error fault ↔
    ∃ d, Delimiter.all.find? (fun d => openMarks d cs % 2 == 1) = some d ∧ fault = .unpaired d := by
  have hfind : Delimiter.all.find? (·.isUnpaired (dropLiterals (stripComments cs))) =
      Delimiter.all.find? (fun d => openMarks d cs % 2 == 1) := rfl
  rw [checkDelimiters, hfind]
  cases Delimiter.all.find? (fun d => openMarks d cs % 2 == 1) with
  | none => simp
  | some d => simp [eq_comm]

/-- In a text that is a script the check of the delimiters finds those of the hash comments and no others. So it
rejects no script whose hash comments it does not reject. -/
theorem checkDelimiters_compiled {cs : List Char} {p : Script.Program} (h : Script.compile cs = .ok p)
    (hopen : occurs ['/', '*'] (hashComments cs) = false) (fault : Fault) :
    checkDelimiters cs = .error fault ↔ checkDelimiters (hashComments cs) = .error fault := by
  obtain ⟨stmts, hparse, -⟩ := bind_eq_ok.1 (mapError_eq_ok.1 h)
  obtain ⟨ts, hlex, hprogram⟩ := bind_eq_ok.1 hparse
  obtain ⟨heven, hoperands⟩ := Script.Parser.program_matched (Script.nested_lex hlex) hprogram
  have hcomments : ∀ line ∈ (splitLines cs).map hashComment, settled line := fun _ => settled_hashComment hopen
  rw [checkDelimiters_eq_error, checkDelimiters_eq_error]
  suffices hd : ∀ d, openMarks d cs % 2 = openMarks d (hashComments cs) % 2 by simp only [hd]
  intro d
  obtain ⟨hsettled, hsum⟩ := openMarks_lines d hlex hoperands.starFree (fun line => newline_notMem_of_mem_splitLines)
    fun line hl => hcomments _ (List.mem_map_of_mem hl)
  have hjoin := openMarks_joinLines d hsettled
  rw [joinLines_splitLines] at hjoin
  rw [hjoin, hsum, hashComments, mapLines, openMarks_joinLines d hcomments, List.map_map]
  unfold markTokens
  split
  · rw [Nat.add_mod, heven]
    simp [Function.comp_def]
  · rfl

/-- Literals, comments of both kinds, and parentheses in all three. -/
def mixedComments : List Char := "text \"# (\" # 'old\nbox (1 + 2) // it's\nball 2 # don't (yet)".toList

theorem checkDelimiters_compiled_mixedComments :
    (Script.compile mixedComments).isOk ∧ occurs ['/', '*'] (hashComments mixedComments) = false ∧
      ∀ fault, checkDelimiters mixedComments = .error fault ↔
        checkDelimiters (hashComments mixedComments) = .error fault := by
  have hcompiled : (Script.compile mixedComments).isOk := by decide +kernel
  have hopen : occurs ['/', '*'] (hashComments mixedComments) = false := by decide
  refine ⟨hcompiled, hopen, ?_⟩
  cases hp : Script.compile mixedComments with
  | error e =>
    rw [hp] at hcompiled
    cases hcompiled
  | ok p => exact checkDelimiters_compiled hp hopen

/-- A script with an apostrophe in a hash comment is rejected. -/
theorem checkDelimiters_apostrophe :
    (Script.compile "box # it's".toList).isOk ∧
      checkDelimiters "box # it's".toList = .error (.unpaired .singleQuote) := by
  decide +kernel

end LiveSketch.Sketch

import LiveSketch.Proofs.Script.Scanning

/-!
# Indentation that adds up

`Nested` follows the blocks through a list of tokens: with `k` blocks open an `indent` opens one more, a
`dedent` closes one, and the end of the program comes once all are closed. The lexer's stack of depths is
such a count (`nested_lexLines`), so what it makes is balanced.
-/
namespace LiveSketch.Script

open Lexer
open LiveSketch.Script.Parser

/-- Tokens in front of which `k` blocks are open. -/
inductive Nested : Nat → List Token → Prop where
  | eof {t : Token} : t.kind = .eof → Nested 0 [t]
  | indent {t : Token} {k : Nat} {ts : List Token} : t.kind = .indent → Nested (k + 1) ts → Nested k (t :: ts)
  | dedent {t : Token} {k : Nat} {ts : List Token} : t.kind = .dedent → Nested k ts → Nested (k + 1) (t :: ts)
  | newline {t : Token} {k : Nat} {ts : List Token} : t.kind = .newline → Nested k ts → Nested k (t :: ts)
  | word {t : Token} {k : Nat} {ts : List Token} : t.kind.isWord → Nested k ts → Nested k (t :: ts)

/-- How many of the tokens are of this kind. -/
def countKind (kind : TokenKind) (ts : List Token) : Nat := ts.countP fun t => t.kind = kind

theorem countKind_cons (kind : TokenKind) (t : Token) (ts : List Token) :
    countKind kind (t :: ts) = countKind kind ts + if t.kind = kind then 1 else 0 := by
  simp [countKind, List.countP_cons]

/-- The end of the program is the last token and no other one, there are as many ends of blocks as
beginnings, and at no place have more ended than begun. -/
structure Balanced (ts : List Token) : Prop where
  ends : ∃ front last, ts = front ++ [last] ∧ last.kind = .eof ∧ ∀ t ∈ front, t.kind ≠ .eof
  equal : countKind .indent ts = countKind .dedent ts
  prefixes : ∀ front, front <+: ts → countKind .dedent front ≤ countKind .indent front

namespace Nested

variable {k : Nat} {ts : List Token}

theorem ne_nil (h : Nested k ts) : ts ≠ [] := by cases h <;> simp

theorem length_pos (h : Nested k ts) : 0 < ts.length := List.length_pos_iff.2 h.ne_nil

theorem length_tail (h : Nested k ts) : ts.tail.length + 1 = ts.length := by
  have := h.length_pos
  rw [List.length_tail]
  omega

theorem peek_append (h : Nested k ts) (more : List Token) : peek (ts ++ more) = peek ts := by
  cases h <;> rfl

theorem peekKind_append (h : Nested k ts) (more : List Token) : peekKind (ts ++ more) = peekKind ts :=
  congrArg Token.kind (h.peek_append more)

theorem tail_append (h : Nested k ts) (more : List Token) : (ts ++ more).tail = ts.tail ++ more := by
  cases h <;> rfl

/-! ## The next token -/

theorem tail_word (h : Nested k ts) (hw : (peekKind ts).isWord) : Nested k ts.tail := by
  cases h <;> simp_all [peekKind, peek, TokenKind.isWord]

theorem tail_newline (h : Nested k ts) (hn : peekKind ts = .newline) : Nested k ts.tail := by
  cases h <;> simp_all [peekKind, peek, TokenKind.isWord]

theorem tail_indent (h : Nested k ts) (hi : peekKind ts = .indent) : Nested (k + 1) ts.tail := by
  cases h <;> simp_all [peekKind, peek, TokenKind.isWord]

theorem tail_dedent (h : Nested (k + 1) ts) (hd : peekKind ts = .dedent) : Nested k ts.tail := by
  cases h <;> simp_all [peekKind, peek, TokenKind.isWord]

/-- Where no block is open none can end. -/
theorem peekKind_ne_dedent (h : Nested 0 ts) : peekKind ts ≠ .dedent := by
  intro hd
  cases h <;> simp_all [peekKind, peek, TokenKind.isWord]

/-- The program ends only where no block is open, and nothing stands behind its end. -/
theorem of_eof (h : Nested k ts) (he : peekKind ts = .eof) : k = 0 ∧ ∃ t, ts = [t] := by
  cases h <;> simp_all [peekKind, peek, TokenKind.isWord]

/-! ## The whole list -/

theorem of_suffix (h : Nested k ts) {left : List Token} (hs : left <:+ ts) (hne : left ≠ []) :
    ∃ k, Nested k left := by
  have hself := h
  induction h with
  | eof _ =>
    rcases List.suffix_cons_iff.1 hs with rfl | hnil
    · exact ⟨_, hself⟩
    · exact absurd (List.suffix_nil.1 hnil) hne
  | _ _ h ih =>
    rcases List.suffix_cons_iff.1 hs with rfl | hs
    · exact ⟨_, hself⟩
    · exact ih hs h

theorem ends (h : Nested k ts) :
    ∃ front last, ts = front ++ [last] ∧ last.kind = .eof ∧ ∀ t ∈ front, t.kind ≠ .eof := by
  have hcons : ∀ {t : Token} {ts : List Token}, t.kind ≠ .eof →
      (∃ front last, ts = front ++ [last] ∧ last.kind = .eof ∧ ∀ t ∈ front, t.kind ≠ .eof) →
      ∃ front last, t :: ts = front ++ [last] ∧ last.kind = .eof ∧ ∀ t ∈ front, t.kind ≠ .eof := by
    rintro t _ hne ⟨front, last, rfl, hl, hf⟩
    exact ⟨t :: front, last, rfl, hl, List.forall_mem_cons.2 ⟨hne, hf⟩⟩
  induction h with
  | eof hk => exact ⟨[], _, rfl, hk, by simp⟩
  | word hw _ ih => exact hcons (fun he => by rw [he] at hw; cases hw) ih
  | _ hk _ ih => exact hcons (by rw [hk]; simp) ih

theorem not_isWord {t : Token} {kind : TokenKind} (hw : t.kind.isWord) (hk : kind.isWord = false) :
    t.kind ≠ kind := by
  rintro rfl
  rw [hk] at hw
  cases hw

theorem count (h : Nested k ts) : countKind .indent ts + k = countKind .dedent ts := by
  induction h with
  | eof hk => simp [countKind, hk]
  | indent hk _ ih => rw [countKind_cons, countKind_cons, hk]; simp; omega
  | dedent hk _ ih => rw [countKind_cons, countKind_cons, hk]; simp; omega
  | newline hk _ ih => rw [countKind_cons, countKind_cons, hk]; simpa using ih
  | word hw _ ih =>
    rw [countKind_cons, countKind_cons, if_neg (not_isWord hw rfl), if_neg (not_isWord hw rfl)]
    exact ih

theorem count_prefix (h : Nested k ts) {front : List Token} (hf : front <+: ts) :
    countKind .dedent front ≤ countKind .indent front + k := by
  induction h generalizing front with
  | eof hk =>
    rcases List.prefix_cons_iff.1 hf with rfl | ⟨rest, rfl, hrest⟩
    · simp [countKind]
    · simp [List.prefix_nil.1 hrest, countKind, hk]
  | _ hk _ ih =>
    rcases List.prefix_cons_iff.1 hf with rfl | ⟨rest, rfl, hrest⟩
    · simp [countKind]
    · have hle := ih hrest
      rw [countKind_cons, countKind_cons]
      first
        | rw [hk]; simp; omega
        | rw [if_neg (not_isWord hk rfl), if_neg (not_isWord hk rfl)]; exact hle

theorem balanced (h : Nested 0 ts) : Balanced ts where
  ends := h.ends
  equal := h.count
  prefixes _ hf := h.count_prefix hf

end Nested

/-! ## What the lexer makes -/

theorem nested_words {k : Nat} {words ts : List Token} (hw : ∀ t ∈ words, t.kind.isWord)
    (h : Nested k ts) : Nested k (words ++ ts) := by
  induction words with
  | nil => exact h
  | cons t words ih =>
    obtain ⟨ht, hw⟩ := List.forall_mem_cons.1 hw
    exact .word ht (ih hw)

theorem nested_dedents {k : Nat} {ts : List Token} (h : Nested k ts) (n pos : Nat) :
    Nested (k + n) (List.replicate n ⟨.dedent, pos, pos⟩ ++ ts) := by
  induction n with
  | zero => exact h
  | succ n ih => exact .dedent rfl ih

theorem length_closeLevels {width n : Nat} {levels levels' : List Nat}
    (h : closeLevels width levels = some (levels', n)) : levels'.length + n = levels.length := by
  induction levels generalizing n with
  | nil =>
    rw [closeLevels] at h
    split at h <;> cases h
    rfl
  | cons level levels ih =>
    rw [closeLevels] at h
    split at h
    · obtain ⟨found, hf, he⟩ := Option.map_eq_some_iff.1 h
      cases he
      have := ih hf
      simp only [List.length_cons]
      omega
    split at h <;> cases h
    rfl

theorem nested_indentation {width pos : Nat} {levels levels' : List Nat} {front ts : List Token}
    (h : indentation width pos levels = .ok (front, levels')) (hts : Nested levels'.length ts) :
    Nested levels.length (front ++ ts) := by
  unfold indentation at h
  split at h
  · cases h
    exact .indent rfl hts
  split at h
  · rename_i hc
    cases h
    rw [← length_closeLevels hc]
    exact nested_dedents hts _ pos
  · cases h

/-- The stack of depths holds the blocks that are open. -/
theorem nested_lexLines {pos : Nat} {levels : List Nat} {lines : List (List Char)} {ts : List Token}
    (h : lexLines pos levels lines = .ok ts) : Nested levels.length ts := by
  induction lines generalizing pos levels ts with
  | nil =>
    cases h
    have hclose := nested_dedents (.eof rfl : Nested 0 [⟨.eof, pos - 1, pos - 1⟩]) levels.length (pos - 1)
    rwa [Nat.zero_add] at hclose
  | cons raw lines ih =>
    rcases lexLines_cases raw with hskip | ⟨indent, body, hr, hi, hb⟩
    · exact ih (lexLines_skip hskip pos levels lines ▸ h)
    · rw [lexLines_begins hr hi hb] at h
      obtain ⟨⟨front, levels'⟩, hf, h⟩ := bind_eq_ok.1 h
      obtain ⟨words, hw, h⟩ := bind_eq_ok.1 h
      obtain ⟨rest, hrest, h⟩ := bind_eq_ok.1 h
      obtain rfl := pure_eq_ok.1 h
      rw [List.append_assoc]
      exact nested_indentation hf (nested_words (isWord_of_scanLine hw) (.newline rfl (ih hrest)))

theorem nested_lex {text : List Char} {ts : List Token} (h : lex text = .ok ts) : Nested 0 ts :=
  nested_lexLines h

end LiveSketch.Script

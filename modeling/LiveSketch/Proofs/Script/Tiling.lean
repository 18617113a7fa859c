import LiveSketch.Proofs.Script.Delimiting

/-!
# Tokens tile their text

A text that the lexer accepts falls into the lexemes of its tokens, and between them into blanks, line ends and
comments (`Tiles`), with nothing left over and nothing counted twice. A token covers just its lexeme, which is spelt as
tokens of its kind are (`Spells`). So the tokens stand one behind the other, each on whole characters of the text
(`tokens_tile`).
-/
namespace LiveSketch.Script

open Lexer
open Text (byteLength byteLength_append byteLength_cons byteLength_pos isQuote joinLines splitLines)

/-! ## Lexemes -/

/-- How operators and delimiters are written. -/
def TokenKind.spelling? : TokenKind → Option (List Char)
  | .leftParen => some ['(']
  | .rightParen => some [')']
  | .comma => some [',']
  | .semicolon => some [';']
  | .arrow => some ['-', '>']
  | .plus => some ['+']
  | .minus => some ['-']
  | .star => some ['*']
  | .slash => some ['/']
  | .percent => some ['%']
  | .bang => some ['!']
  | .assign => some ['=']
  | .plusAssign => some ['+', '=']
  | .minusAssign => some ['-', '=']
  | .starAssign => some ['*', '=']
  | .slashAssign => some ['/', '=']
  | .equal => some ['=', '=']
  | .notEqual => some ['!', '=']
  | .less => some ['<']
  | .lessEqual => some ['<', '=']
  | .greater => some ['>']
  | .greaterEqual => some ['>', '=']
  | .and => some ['&', '&']
  | .or => some ['|', '|']
  | .increment => some ['+', '+']
  | .decrement => some ['-', '-']
  | _ => none

/-- What stands between these quotes denotes the text. -/
inductive Denotes (quote : Char) : (inside text : List Char) → Prop where
  | nil : Denotes quote [] []
  | char {c : Char} {inside text : List Char} : c ≠ quote → c ≠ '\\' → Denotes quote inside text →
      Denotes quote (c :: inside) (c :: text)
  | escape {c : Char} {inside text : List Char} : Denotes quote inside text →
      Denotes quote ('\\' :: c :: inside) (unescape c :: text)

/-- How a token of this kind is written. -/
inductive Spells : TokenKind → List Char → Prop where
  | name {name : String} : Spells (.ident name) name.toList
  | number {x : Float} {lexeme : List Char} : Number.read? lexeme = some x → Spells (.number x) lexeme
  | string {quote : Char} {inside text : List Char} : isQuote quote → Denotes quote inside text →
      Spells (.string (String.ofList text)) (quote :: (inside ++ [quote]))
  | operator {kind : TokenKind} {lexeme : List Char} : kind.spelling? = some lexeme → Spells kind lexeme

theorem spells_of_operator? {c : Char} {kind : TokenKind} (h : operator? c = some kind) : Spells kind [c] := by
  unfold operator? at h
  split at h <;> cases h <;> exact .operator rfl

theorem spells_of_pair {c d : Char} {kind : TokenKind}
    (h : pairOperator? c d = some kind ∨ stepOperator? c d = some kind) : Spells kind [c, d] := by
  rcases h with h | h
  · unfold pairOperator? at h
    split at h <;> cases h <;> exact .operator rfl
  · unfold stepOperator? at h
    split at h <;> cases h <;> exact .operator rfl

theorem spells_of_scanOperator {afterName : Bool} {cs : List Char} {s : Scanned TokenKind}
    (h : scanOperator afterName cs = some s) : Spells s.value s.lexeme := by
  unfold scanOperator at h
  split at h
  · cases h
  · obtain ⟨kind, hk, rfl⟩ := Option.map_eq_some_iff.1 h
    exact spells_of_operator? hk
  · split at h
    · rename_i hk
      cases h
      rcases Option.or_eq_some_iff.1 hk with hk | ⟨-, hk⟩
      · split at hk
        · exact spells_of_pair (.inr hk)
        · cases hk
      · exact spells_of_pair (.inl hk)
    · obtain ⟨kind, hk, rfl⟩ := Option.map_eq_some_iff.1 h
      exact spells_of_operator? hk

theorem denotes_of_scanString {quote : Char} {cs : List Char} {s : Scanned (List Char)}
    (h : scanString quote cs = some s) : ∃ inside, s.lexeme = inside ++ [quote] ∧ Denotes quote inside s.value := by
  fun_induction scanString quote cs generalizing s with
  | case1 | case2 => cases h
  | case3 c cs ih =>
    obtain ⟨s', hs, rfl⟩ := Option.map_eq_some_iff.1 h
    obtain ⟨inside, hl, hd⟩ := ih hs
    exact ⟨'\\' :: c :: inside, by rw [hl]; rfl, .escape hd⟩
  | case4 c cs _ _ hq =>
    cases h
    exact ⟨[], by rw [beq_iff_eq.1 hq]; rfl, .nil⟩
  | case5 c cs h1 h2 hq ih =>
    obtain ⟨s', hs, rfl⟩ := Option.map_eq_some_iff.1 h
    obtain ⟨inside, hl, hd⟩ := ih hs
    have hbackslash : c ≠ '\\' := by
      rintro rfl
      cases cs with
      | nil => exact h1 rfl rfl
      | cons d cs => exact h2 d cs rfl rfl
    exact ⟨c :: inside, by rw [hl]; rfl, .char (by simpa using hq) hbackslash hd⟩

/-! ## Numbers -/

/-- Digits up to the end of the text. -/
theorem digits_of_dropWhile {cs : List Char} (h : cs.dropWhile Char.isDigit = []) :
    cs.takeWhile Char.isDigit = cs ∧ cs.all Char.isDigit := by
  have hall := Text.all_of_dropWhile_eq_nil h
  exact ⟨Text.takeWhile_of_all hall, List.all_eq_true.2 hall⟩

/-- An exponent up to the end of the text. -/
theorem exponent?_of_scanExponent {cs : List Char} {s : Scanned Int} (h : scanExponent cs = .ok s) (hr : s.rest = []) :
    Number.Numeral.exponent? cs = some s.value := by
  cases cs with
  | nil =>
    cases h
    rfl
  | cons mark cs =>
    by_cases hm : mark = 'e' ∨ mark = 'E'
    · cases cs with
      | nil => simp [scanExponent, hm] at h
      | cons d cs =>
        by_cases hminus : d = '-'
        · simp [scanExponent, hm, hminus] at h
          split at h
          · cases h
          · rename_i hd
            cases h
            obtain ⟨htake, hall⟩ := digits_of_dropWhile hr
            have hne : cs ≠ [] := by
              rintro rfl
              exact hd (by simp)
            rw [htake]
            simp [Number.Numeral.exponent?, hm, hminus, hne, hall]
        by_cases hplus : d = '+'
        · simp [scanExponent, hm, hplus] at h
          split at h
          · cases h
          · rename_i hd
            cases h
            obtain ⟨htake, hall⟩ := digits_of_dropWhile hr
            have hne : cs ≠ [] := by
              rintro rfl
              exact hd (by simp)
            rw [htake]
            simp [Number.Numeral.exponent?, hm, hplus, hne, hall]
        · simp [scanExponent, hm, hminus, hplus] at h
          split at h
          · cases h
          · rename_i hd
            cases h
            obtain ⟨htake, hall⟩ := digits_of_dropWhile hr
            rw [htake]
            simp [Number.Numeral.exponent?, hm, hminus, hplus, hall]
    · simp [scanExponent, hm] at h
      subst h
      cases hr

/-- No word for a special number begins like a numeral. -/
theorem read?_numeral {c : Char} (hc : c.isDigit ∨ c = '.') (cs : List Char) :
    Number.read? (c :: cs) = (Number.Numeral.read? (c :: cs)).map Number.Numeral.toFloat := by
  have hlower : c.toLower.isDigit ∨ c.toLower = '.' := by
    rcases hc with hc | rfl
    · exact .inl (by rwa [Number.IsNumeral.toLower_eq_of_isDigit hc])
    · exact .inr rfl
  have hword : ∀ w : Char, w.isDigit = false → w ≠ '.' → ∀ ws : List Char,
      String.ofList ((c :: cs).map Char.toLower) ≠ String.ofList (w :: ws) := by
    intro w hd hp ws e
    rw [String.ofList_inj, List.map_cons, List.cons.injEq] at e
    rw [e.1, hd] at hlower
    exact hlower.elim nofun hp
  have hunsigned : Number.readUnsigned? (c :: cs) = (Number.Numeral.read? (c :: cs)).map Number.Numeral.toFloat := by
    unfold Number.readUnsigned?
    split
    · rename_i e
      exact absurd e (hword 'i' rfl (by decide) _)
    · rename_i e
      exact absurd e (hword 'i' rfl (by decide) _)
    · rename_i e
      exact absurd e (hword 'n' rfl (by decide) _)
    · rfl
  unfold Number.read?
  split
  · rename_i e
    rw [(List.cons.inj e).1] at hc
    exact absurd hc (by decide)
  · rename_i e
    rw [(List.cons.inj e).1] at hc
    exact absurd hc (by decide)
  · exact hunsigned

/-- A number up to the end of the text is read as it is scanned. -/
theorem read?_of_scanNumber {cs : List Char} {s : Scanned Float} (hn : startsNumber cs) (h : scanNumber cs = .ok s)
    (hr : s.rest = []) : Number.read? cs = some s.value := by
  obtain ⟨c, cs, rfl⟩ : ∃ d ds, cs = d :: ds := List.exists_cons_of_ne_nil fun hnil => by
    rw [hnil] at hn
    cases hn
  have hc : c.isDigit ∨ c = '.' := by
    by_cases hp : c = '.'
    · exact .inr hp
    · exact .inl (by rwa [startsNumber_cons hp] at hn)
  rw [read?_numeral hc]
  by_cases hpoint : ∃ rest, (c :: cs).dropWhile Char.isDigit = '.' :: rest
  · obtain ⟨rest, hd⟩ := hpoint
    simp only [scanNumber, hd] at h
    split at h
    · cases h
    · rename_i e he
      cases h
      have hexponent := exponent?_of_scanExponent he hr
      have hdigits : ((c :: cs).takeWhile Char.isDigit).isEmpty = false ∨ (rest.takeWhile Char.isDigit).isEmpty = false := by
        by_cases hdigit : c.isDigit
        · exact .inl (by rw [List.takeWhile_cons_of_pos hdigit]; rfl)
        · rw [List.dropWhile_cons_of_neg hdigit] at hd
          obtain ⟨rfl, rfl⟩ := List.cons.inj hd
          obtain ⟨d, ds, rfl⟩ : ∃ d ds, cs = d :: ds := List.exists_cons_of_ne_nil fun hnil => by
            rw [hnil] at hn
            cases hn
          have hsecond : d.isDigit := hn
          exact .inr (by rw [List.takeWhile_cons_of_pos hsecond]; rfl)
      have hsome : (((c :: cs).takeWhile Char.isDigit).isEmpty && (rest.takeWhile Char.isDigit).isEmpty) = false := by
        rcases hdigits with hw | hf
        · rw [hw, Bool.false_and]
        · rw [hf, Bool.and_false]
      simp only [Number.Numeral.read?, hd, hexponent, hsome]
      rfl
  · rw [not_exists] at hpoint
    obtain ⟨e, he, rfl⟩ := (scanNumber_whole hpoint).1 h
    have hexponent := exponent?_of_scanExponent he hr
    have hdigit : c.isDigit := hc.resolve_right fun hp => hpoint cs (by rw [hp]; rfl)
    have hwhole : ((c :: cs).takeWhile Char.isDigit).isEmpty = false := by
      rw [List.takeWhile_cons_of_pos hdigit]
      rfl
    cases hd : (c :: cs).dropWhile Char.isDigit with
    | nil =>
      rw [hd] at hexponent
      simp [Number.Numeral.read?, hd, hexponent, hwhole]
    | cons d rest =>
      have hd' : d ≠ '.' := fun hp => hpoint rest (hp ▸ hd)
      rw [hd] at hexponent
      simp [Number.Numeral.read?, hd, hd', hexponent, hwhole]

/-- What the scanner finds is spelt as a token of its kind is. -/
theorem Scans.spells {afterName : Bool} {kind : TokenKind} {lexeme rest : List Char}
    (h : Scans afterName kind lexeme rest) : Spells kind lexeme := by
  -- the lexeme alone is scanned in the same way
  have hfront : SameFront rest [] := .inr (fun d hd => absurd hd (by simp))
  obtain ⟨c, cs, rfl, -, -, hscan⟩ := h.of_front hfront
  have hscan := hscan 0
  rw [List.append_nil] at hscan
  unfold scanToken at hscan
  split at hscan
  · rename_i hn
    split at hscan
    · rename_i s hs
      obtain ⟨rfl, -, hr⟩ := Scanned.mk.inj (Except.ok.inj hscan)
      exact .number (read?_of_scanNumber hn hs hr)
    · cases hscan
  split at hscan
  · obtain ⟨rfl, hl, -⟩ := Scanned.mk.inj (Except.ok.inj hscan)
    have hname : Spells (.ident (String.ofList ((c :: cs).takeWhile isNamePart))) _ := .name
    rw [String.toList_ofList] at hname
    rwa [hl] at hname ⊢
  split at hscan
  · rename_i hq
    split at hscan
    · rename_i s hs
      obtain ⟨rfl, hl, -⟩ := Scanned.mk.inj (Except.ok.inj hscan)
      obtain ⟨inside, hlexeme, hd⟩ := denotes_of_scanString hs
      rw [← hl, hlexeme]
      exact .string hq hd
    · cases hscan
  · split at hscan
    · rename_i s hs
      obtain rfl := Except.ok.inj hscan
      exact spells_of_scanOperator hs
    · cases hscan

/-! ## Tiles -/

/-- A line ends here. -/
def AtLineEnd (rest : List Char) : Prop := ∀ c ∈ rest.head?, c = '\n'

/-- The text from the byte `pos` on falls into these tokens, and between them into blanks, line ends and comments. A
carriage return belongs to the line end behind it, and a comment goes on to the end of its line. -/
inductive Tiles : (pos : Nat) → List Token → List Char → Prop where
  | nil {pos : Nat} : Tiles pos [] []
  | blank {pos : Nat} {c : Char} {ts : List Token} {rest : List Char} : c = ' ' ∨ c = '\t' →
      Tiles (pos + 1) ts rest → Tiles pos ts (c :: rest)
  | newline {pos : Nat} {ts : List Token} {rest : List Char} : Tiles (pos + 1) ts rest → Tiles pos ts ('\n' :: rest)
  | carriageReturn {pos : Nat} {ts : List Token} {rest : List Char} : AtLineEnd rest → Tiles (pos + 1) ts rest →
      Tiles pos ts ('\r' :: rest)
  | comment {pos : Nat} {ts : List Token} {comment rest : List Char} : ['/', '/'] <+: comment ∨ ['#'] <+: comment →
      '\n' ∉ comment → AtLineEnd rest → Tiles (pos + byteLength comment) ts rest → Tiles pos ts (comment ++ rest)
  | token {pos : Nat} {kind : TokenKind} {lexeme rest : List Char} {ts : List Token} : kind.isWord →
      Spells kind lexeme → lexeme ≠ [] → Tiles (pos + byteLength lexeme) ts rest →
      Tiles pos (⟨kind, pos, pos + byteLength lexeme⟩ :: ts) (lexeme ++ rest)

theorem prefix_of_startsComment {cs : List Char} (h : startsComment cs) : ['/', '/'] <+: cs ∨ ['#'] <+: cs := by
  unfold startsComment at h
  split at h
  · exact .inr ⟨_, rfl⟩
  · exact .inl ⟨_, rfl⟩
  · cases h

/-- The tokens of a line, the carriage return at its end, and what stands behind the line. -/
theorem Lexed.tiles {pos : Nat} {afterName : Bool} {cs tail rest : List Char} {us ts : List Token}
    (h : Lexed pos afterName cs us) (hn : '\n' ∉ cs) (ht : tail = [] ∨ tail = ['\r']) (hr : AtLineEnd rest)
    (hrest : Tiles (pos + byteLength cs + byteLength tail) ts rest) : Tiles pos (us ++ ts) (cs ++ (tail ++ rest)) := by
  induction h with
  | nil =>
    rcases ht with rfl | rfl
    · exact hrest
    · exact .carriageReturn hr hrest
  | @blank pos afterName c cs us hi _ ih =>
    have hc : c = ' ' ∨ c = '\t' := by simpa [isIndent] using hi
    have hsize : c.utf8Size = 1 := by rcases hc with rfl | rfl <;> rfl
    rw [byteLength_cons, hsize, ← Nat.add_assoc] at hrest
    rw [hsize] at ih
    exact .blank hc (ih (fun hm => hn (List.mem_cons_of_mem _ hm)) hrest)
  | @comment pos afterName cs hc =>
    have hcomment := prefix_of_startsComment (startsComment_append hc tail)
    have hline : '\n' ∉ cs ++ tail := by
      rw [List.mem_append, not_or]
      refine ⟨hn, ?_⟩
      rcases ht with rfl | rfl <;> decide
    rw [List.nil_append, ← List.append_assoc]
    rw [Nat.add_assoc, ← byteLength_append] at hrest
    exact .comment hcomment hline hr hrest
  | @lexeme pos afterName kind lexeme back us hs hw _ ih =>
    rw [byteLength_append, ← Nat.add_assoc] at hrest
    obtain ⟨c, cs, hl, -⟩ := id hs
    have hne : lexeme ≠ [] := hl ▸ List.cons_ne_nil c cs
    rw [List.append_assoc]
    exact .token hw hs.spells hne (ih (fun hm => hn (List.mem_append_right _ hm)) hrest)

/-- Nothing but blanks, or a comment behind them. -/
theorem lexed_skip {line : List Char} (h : (line.dropWhile isIndent).isEmpty || startsComment (line.dropWhile isIndent))
    (pos : Nat) : Lexed pos false line [] := by
  induction line generalizing pos with
  | nil => exact .nil
  | cons c cs ih =>
    by_cases hc : isIndent c
    · rw [List.dropWhile_cons_of_pos hc] at h
      exact .blank hc (ih h _)
    · rw [List.dropWhile_cons_of_neg hc] at h
      exact .comment (by simpa using h)

theorem Lexed.blanks {pos : Nat} {indent body : List Char} {us : List Token} (hi : ∀ c ∈ indent, isIndent c)
    (h : Lexed (pos + indent.length) false body us) : Lexed pos false (indent ++ body) us := by
  induction indent generalizing pos with
  | nil => exact h
  | cons c indent ih =>
    rw [List.forall_mem_cons] at hi
    have hsize : c.utf8Size = 1 := by
      have hc : c = ' ' ∨ c = '\t' := by simpa [isIndent] using hi.1
      rcases hc with rfl | rfl <;> rfl
    rw [List.length_cons, Nat.add_comm indent.length, ← Nat.add_assoc, ← hsize] at h
    exact .blank hi.1 (ih hi.2 h)

/-- The words among the tokens. -/
def words (ts : List Token) : List Token := ts.filter (·.kind.isWord)

theorem words_end (n pos : Nat) :
    words (List.replicate n ⟨.dedent, pos, pos⟩ ++ [⟨.eof, pos, pos⟩]) = [] := by
  simp [words, TokenKind.isWord]

/-- The words of a line and of the lines below it. -/
theorem words_line {kinds : List TokenKind} (hk : ∀ kind ∈ kinds, kind.isWord = false) {us : List Token}
    (hu : ∀ t ∈ us, t.kind.isWord) (place start stop : Nat) (ts : List Token) :
    words (kinds.map (⟨·, place, place⟩) ++ us ++ ⟨.newline, start, stop⟩ :: ts) = us ++ words ts := by
  have hfront : words (kinds.map (⟨·, place, place⟩)) = [] := by
    refine List.filter_eq_nil_iff.2 fun t ht => ?_
    obtain ⟨kind, hkind, rfl⟩ := List.mem_map.1 ht
    simp [hk kind hkind]
  have hline : words us = us := List.filter_eq_self.2 hu
  have hback : words (⟨.newline, start, stop⟩ :: ts) = words ts := List.filter_cons_of_neg (by simp [TokenKind.isWord])
  rw [words, List.filter_append, List.filter_append]
  exact congrArg₂ _ (congrArg₂ _ hfront hline) hback

theorem tiles_lexLines {lines : List (List Char)} (hn : ∀ line ∈ lines, '\n' ∉ line) {pos : Nat} {levels : List Nat}
    {ts : List Token} (h : lexLines pos levels lines = .ok ts) : Tiles pos (words ts) (joinLines lines) := by
  induction lines generalizing pos levels ts with
  | nil =>
    cases h
    rw [words_end]
    exact .nil
  | cons raw lines ih =>
    rw [List.forall_mem_cons] at hn
    obtain ⟨tail, hraw, htail⟩ : ∃ tail, raw = dropReturn raw ++ tail ∧ (tail = [] ∨ tail = ['\r']) := by
      rcases dropReturn_cases raw with hraw | hraw
      · exact ⟨[], by rwa [List.append_nil], .inl rfl⟩
      · exact ⟨['\r'], hraw, .inr rfl⟩
    have hline : '\n' ∉ dropReturn raw := fun hm => hn.1 (hraw ▸ List.mem_append_left _ hm)
    have hlength : byteLength (dropReturn raw) + byteLength tail = byteLength raw := by
      rw [← byteLength_append, ← hraw]
    -- the tiles of the line in front of those of the lines below it
    have hassemble : ∀ {us ts' : List Token} {levels' : List Nat}, Lexed pos false (dropReturn raw) us →
        lexLines (pos + byteLength raw + 1) levels' lines = .ok ts' →
        Tiles pos (us ++ words ts') (joinLines (raw :: lines)) := by
      intro us ts' levels' hs hl
      cases lines with
      | nil =>
        cases hl
        have hend : AtLineEnd [] := fun c hc => absurd hc (by simp)
        have htiles := hs.tiles hline htail hend .nil
        rw [List.append_nil tail, ← hraw] at htiles
        rwa [words_end]
      | cons next lines =>
        have hrest := ih hn.2 hl
        rw [Text.joinLines_cons (List.cons_ne_nil _ _), hraw, List.append_assoc]
        refine hs.tiles hline htail (fun c hc => by cases hc; rfl) ?_
        rw [Nat.add_assoc, hlength]
        exact .newline hrest
    rcases lexLines_cases raw with hskip | ⟨indent, body, hr, hi, hb⟩
    · rw [lexLines_skip hskip] at h
      exact hassemble (lexed_skip hskip pos) h
    · obtain ⟨kinds, levels', us, ts', hind, hs, hl, rfl⟩ := (lexLines_begins_iff hr hi hb).1 h
      rw [words_line hind.1 hs.isWord]
      exact hassemble (hr ▸ hs.blanks hi) hl

/-! ## Tokens in their order -/

namespace Tiles

variable {pos : Nat} {ts : List Token} {rest : List Char}

/-- Every token covers a lexeme of the text. -/
theorem covers (h : Tiles pos ts rest) : ∀ t ∈ ts, ∃ front lexeme back, rest = front ++ (lexeme ++ back) ∧
    lexeme ≠ [] ∧ t.start = pos + byteLength front ∧ t.stop = t.start + byteLength lexeme ∧ Spells t.kind lexeme := by
  induction h with
  | nil => exact fun t ht => absurd ht List.not_mem_nil
  | @blank pos c ts rest hc _ ih =>
    intro t ht
    obtain ⟨front, lexeme, back, rfl, hne, hstart, hstop, hs⟩ := ih t ht
    have hsize : c.utf8Size = 1 := by rcases hc with rfl | rfl <;> rfl
    exact ⟨c :: front, lexeme, back, rfl, hne, by rw [hstart, byteLength_cons, hsize, Nat.add_assoc], hstop, hs⟩
  | @newline pos ts rest _ ih =>
    intro t ht
    obtain ⟨front, lexeme, back, rfl, hne, hstart, hstop, hs⟩ := ih t ht
    exact ⟨'\n' :: front, lexeme, back, rfl, hne, by rw [hstart, Nat.add_assoc]; rfl, hstop, hs⟩
  | @carriageReturn pos ts rest _ _ ih =>
    intro t ht
    obtain ⟨front, lexeme, back, rfl, hne, hstart, hstop, hs⟩ := ih t ht
    exact ⟨'\r' :: front, lexeme, back, rfl, hne, by rw [hstart, Nat.add_assoc]; rfl, hstop, hs⟩
  | @comment pos ts comment rest _ _ _ _ ih =>
    intro t ht
    obtain ⟨front, lexeme, back, rfl, hne, hstart, hstop, hs⟩ := ih t ht
    exact ⟨comment ++ front, lexeme, back, (List.append_assoc ..).symm, hne,
      by rw [hstart, byteLength_append, Nat.add_assoc], hstop, hs⟩
  | @token pos kind word rest ts _ hspells hne _ ih =>
    refine List.forall_mem_cons.2 ⟨⟨[], word, rest, rfl, hne, rfl, rfl, hspells⟩, fun t ht => ?_⟩
    obtain ⟨front, lexeme, back, rfl, hne, hstart, hstop, hs⟩ := ih t ht
    exact ⟨word ++ front, lexeme, back, (List.append_assoc ..).symm, hne,
      by rw [hstart, byteLength_append, Nat.add_assoc], hstop, hs⟩

/-- No token reaches into the next one. -/
theorem pairwise (h : Tiles pos ts rest) : ts.Pairwise fun t u => t.stop ≤ u.start := by
  induction h with
  | nil => exact .nil
  | blank _ _ ih | newline _ ih | carriageReturn _ _ ih | comment _ _ _ _ ih => exact ih
  | token _ _ _ hrest ih =>
    refine .cons (fun u hu => ?_) ih
    obtain ⟨front, lexeme, back, -, -, hstart, -, -⟩ := hrest.covers u hu
    rw [hstart]
    exact Nat.le_add_right _ _

end Tiles

/-- A text that the lexer accepts falls into the lexemes of its words, blanks, line ends and comments. Each word covers
a lexeme that is spelt as its kind is, and they stand one behind the other. -/
theorem tokens_tile {text : List Char} {ts : List Token} (h : lex text = .ok ts) : Tiles 0 (words ts) text ∧
    (words ts).Pairwise (fun t u => t.stop ≤ u.start) ∧
      ∀ t ∈ words ts, ∃ front lexeme back, text = front ++ (lexeme ++ back) ∧ lexeme ≠ [] ∧
        t.start = byteLength front ∧ t.stop = t.start + byteLength lexeme ∧ Spells t.kind lexeme := by
  have htiles : Tiles 0 (words ts) text := by
    have hlines := tiles_lexLines (fun _ hl => Text.newline_notMem_of_mem_splitLines hl) h
    rwa [Text.joinLines_splitLines] at hlines
  refine ⟨htiles, htiles.pairwise, fun t ht => ?_⟩
  obtain ⟨front, lexeme, back, htext, hne, hstart, hstop, hs⟩ := htiles.covers t ht
  exact ⟨front, lexeme, back, htext, hne, by rw [hstart, Nat.zero_add], hstop, hs⟩

/-- A carriage return, two comments, a text of two bytes and a step. -/
theorem tokens_tile_comments : ∃ text ts, text = "a++ 'é'# b\r\n\tbox // c".toList ∧ lex text = .ok ts ∧
    words ts = [⟨.ident "a", 0, 1⟩, ⟨.increment, 1, 3⟩, ⟨.string "é", 4, 8⟩, ⟨.ident "box", 14, 17⟩] ∧
      Tiles 0 (words ts) text ∧ (words ts).Pairwise (fun t u => t.stop ≤ u.start) ∧
        ∀ t ∈ words ts, ∃ front lexeme back, text = front ++ (lexeme ++ back) ∧ lexeme ≠ [] ∧
          t.start = byteLength front ∧ t.stop = t.start + byteLength lexeme ∧ Spells t.kind lexeme :=
  ⟨_, _, rfl, rfl, by decide, tokens_tile rfl⟩

end LiveSketch.Script

import Mathlib
import LiveSketch.Proofs.Number.Counts
import LiveSketch.Proofs.Outcome
import LiveSketch.Proofs.Script.Lexemes
import LiveSketch.Proofs.Sketch.Reports

/-!
# Reports among the tokens

`lex_reporting`: the calls of the marker in a text become calls of the marker among its tokens, in which the
number counts to the same line. Every scanner takes its lexeme off the front of the line
(`scanToken_split`), so what holds of every suffix of the line holds again behind the lexeme.
-/
namespace LiveSketch.Script

open Lexer
open Number (toCount digitsOf)
open Sketch (Reporting markerWord)

/-! ## Lexemes -/

namespace Lexer

theorem scanString_split {quote : Char} {cs : List Char} {s : Scanned (List Char)}
    (h : scanString quote cs = some s) : cs = s.lexeme ++ s.rest := by
  fun_induction scanString quote cs generalizing s with
  | case1 | case2 => cases h
  | case3 e cs ih =>
    obtain ⟨s', hs, rfl⟩ := Option.map_eq_some_iff.1 h
    rw [ih hs]
    rfl
  | case4 c cs _ _ hc =>
    cases h
    rfl
  | case5 c cs _ _ hc ih =>
    obtain ⟨s', hs, rfl⟩ := Option.map_eq_some_iff.1 h
    rw [ih hs]
    rfl

theorem digits_split (cs : List Char) : cs.takeWhile Char.isDigit ++ cs.dropWhile Char.isDigit = cs :=
  List.takeWhile_append_dropWhile

theorem scanExponent_split {cs : List Char} {s : Scanned Int} (h : scanExponent cs = .ok s) :
    cs = s.lexeme ++ s.rest := by
  cases cs with
  | nil =>
    cases h
    rfl
  | cons mark cs =>
    by_cases hm : mark = 'e' ∨ mark = 'E'
    · cases cs with
      | nil => simp [scanExponent, hm] at h
      | cons d cs =>
        by_cases hminus : d = '-'
        · simp [scanExponent, hm, hminus] at h
          split at h
          · cases h
          · cases h
            simp [hminus]
        by_cases hplus : d = '+'
        · simp [scanExponent, hm, hplus] at h
          split at h
          · cases h
          · cases h
            simp [hplus]
        · simp [scanExponent, hm, hminus, hplus] at h
          split at h
          · cases h
          · cases h
            simp
    · simp [scanExponent, hm] at h
      subst h
      rfl

theorem scanNumber_split {cs : List Char} {s : Scanned Float} (hn : startsNumber cs)
    (h : scanNumber cs = .ok s) : cs = s.lexeme ++ s.rest ∧ s.lexeme ≠ [] := by
  have hcs := digits_split cs
  have hwhole : (∀ rest, cs.dropWhile Char.isDigit ≠ '.' :: rest) →
      cs.takeWhile Char.isDigit ≠ [] := by
    intro hd ht
    rw [ht, List.nil_append] at hcs
    rw [hcs] at hd
    unfold startsNumber at hn
    split at hn
    · exact hd _ rfl
    · simp [hn] at ht
    · cases hn
  cases hd : cs.dropWhile Char.isDigit with
  | nil =>
    have hne := hwhole (by simp [hd])
    simp [scanNumber, hd, scanExponent] at h
    cases h
    rw [hd, List.append_nil] at hcs
    simpa [hne] using hcs.symm
  | cons d rest =>
    by_cases hpoint : d = '.'
    · simp [scanNumber, hd, hpoint] at h
      split at h
      · cases h
      · rename_i e he
        cases h
        refine ⟨?_, by simp⟩
        calc cs = cs.takeWhile Char.isDigit ++ '.' :: rest := by rw [← hpoint, ← hd, hcs]
          _ = cs.takeWhile Char.isDigit ++
              '.' :: (rest.takeWhile Char.isDigit ++ rest.dropWhile Char.isDigit) := by
            rw [digits_split]
          _ = _ := by simp [scanExponent_split he]
    · have hne := hwhole (by simp [hd, hpoint])
      simp [scanNumber, hd, hpoint] at h
      split at h
      · cases h
      · rename_i e he
        cases h
        refine ⟨?_, by simp [hne]⟩
        calc cs = cs.takeWhile Char.isDigit ++ d :: rest := by rw [← hd, hcs]
          _ = _ := by simp [scanExponent_split he]

theorem operator_ne_ident {c d : Char} {kind : TokenKind}
    (h : operator? c = some kind ∨ pairOperator? c d = some kind ∨ stepOperator? c d = some kind) :
    ∀ name, kind ≠ .ident name := by
  rintro name rfl
  rcases h with h | h | h
  · unfold operator? at h
    split at h <;> cases h
  · unfold pairOperator? at h
    split at h <;> cases h
  · unfold stepOperator? at h
    split at h <;> cases h

theorem scanOperator_split {afterName : Bool} {cs : List Char} {s : Scanned TokenKind}
    (h : scanOperator afterName cs = some s) :
    cs = s.lexeme ++ s.rest ∧ s.lexeme ≠ [] ∧ ∀ name, s.value ≠ .ident name := by
  unfold scanOperator at h
  split at h
  · cases h
  · obtain ⟨kind, hk, rfl⟩ := Option.map_eq_some_iff.1 h
    exact ⟨rfl, List.cons_ne_nil _ _, operator_ne_ident (d := ' ') (.inl hk)⟩
  · split at h
    · rename_i c d cs _ kind hk
      cases h
      refine ⟨rfl, List.cons_ne_nil _ _, operator_ne_ident (c := c) (d := d) ?_⟩
      rcases Option.or_eq_some_iff.1 hk with hk | ⟨-, hk⟩
      · split at hk
        · exact .inr (.inr hk)
        · cases hk
      · exact .inr (.inl hk)
    · obtain ⟨kind, hk, rfl⟩ := Option.map_eq_some_iff.1 h
      exact ⟨rfl, List.cons_ne_nil _ _, operator_ne_ident (d := ' ') (.inl hk)⟩

/-- What was found stands at the front of the line; a name is its own lexeme. -/
theorem scanToken_split {pos : Nat} {afterName : Bool} {c : Char} {cs : List Char}
    {s : Scanned TokenKind} (h : scanToken pos afterName c cs = .ok s) :
    c :: cs = s.lexeme ++ s.rest ∧ s.lexeme ≠ [] ∧
      ∀ name, s.value = .ident name → s.lexeme = name.toList := by
  unfold scanToken at h
  split at h
  · rename_i hnumber
    split at h
    · rename_i s' hs
      cases h
      obtain ⟨he, hne⟩ := scanNumber_split hnumber hs
      exact ⟨he, hne, nofun⟩
    · cases h
  · split at h
    · rename_i hname
      cases h
      refine ⟨(List.takeWhile_append_dropWhile).symm, ?_, ?_⟩
      · simp [isNamePart_of_isNameStart hname]
      · intro name hn
        rw [← TokenKind.ident.inj hn, String.toList_ofList]
    · split at h
      · split at h
        · rename_i s' hs
          cases h
          exact ⟨congrArg (c :: ·) (scanString_split hs), by simp, nofun⟩
        · cases h
      · split at h
        · rename_i s' hs
          cases h
          obtain ⟨he, hne, hk⟩ := scanOperator_split hs
          exact ⟨he, hne, fun name hn => absurd hn (hk name)⟩
        · cases h

/-- The first step of the scanner on a word that is read as a token. -/
theorem scanLine_scans {fuel pos : Nat} {afterName : Bool} {kind : TokenKind} {text rest : List Char}
    {ts : List Token} (hs : Scans afterName kind text rest)
    (h : scanLine (fuel + 1) pos afterName (text ++ rest) = .ok ts) :
    ∃ ts', ts = ⟨kind, pos, pos + Text.byteLength text⟩ :: ts' ∧
      scanLine fuel (pos + Text.byteLength text) (isName kind) rest = .ok ts' := by
  obtain ⟨c, cs, rfl, hi, hc, ht⟩ := hs
  simp only [List.cons_append, scanLine, hi, hc, ht pos, ok_bind, Bool.false_eq_true, if_false] at h
  obtain ⟨ts', hts, he⟩ := bind_eq_ok.1 h
  exact ⟨ts', (pure_eq_ok.1 he).symm, hts⟩

end Lexer

/-! ## Calls of the marker -/

/-- Wherever the marker stands among the tokens, a number that counts to one of these lines follows in
parentheses, and the first parenthesis touches the marker. -/
def ReportingTokens (lines : Nat → Prop) (ts : List Token) : Prop :=
  ∀ start stop back, (⟨.ident doOnceMarker, start, stop⟩ :: back) <:+ ts →
    ∃ left number right rest x, back = left :: number :: right :: rest ∧
      left.kind = .leftParen ∧ left.start = stop ∧ number.kind = .number x ∧ lines (toCount x) ∧
      right.kind = .rightParen

namespace ReportingTokens

variable {lines : Nat → Prop} {ts us : List Token}

theorem suffix (h : ReportingTokens lines ts) (hs : us <:+ ts) : ReportingTokens lines us :=
  fun start stop back hb => h start stop back (hb.trans hs)

theorem nil : ReportingTokens lines [] := fun _ _ _ hb => nomatch List.suffix_nil.1 hb

theorem cons {t : Token} (ht : t.kind ≠ .ident doOnceMarker) (h : ReportingTokens lines ts) :
    ReportingTokens lines (t :: ts) := by
  intro start stop back hb
  rcases List.suffix_cons_iff.1 hb with he | hb
  · rw [← (List.cons.inj he).1] at ht
    exact absurd rfl ht
  · exact h start stop back hb

theorem append (ht : ReportingTokens lines ts) (hu : ReportingTokens lines us) :
    ReportingTokens lines (ts ++ us) := by
  rintro start stop back ⟨front, he⟩
  rcases List.append_eq_append_iff.1 he with ⟨between, rfl, hm⟩ | ⟨between, rfl, hm⟩
  · cases between with
    | nil => exact hu start stop back ⟨[], hm⟩
    | cons t between =>
      obtain ⟨rfl, rfl⟩ := List.cons.inj hm
      obtain ⟨left, number, right, rest, x, rfl, h⟩ := ht start stop between ⟨front, rfl⟩
      exact ⟨left, number, right, rest ++ us, x, rfl, h⟩
  · exact hu start stop back ⟨between, hm.symm⟩

theorem of_kinds (h : ∀ t ∈ ts, t.kind ≠ .ident doOnceMarker) : ReportingTokens lines ts := by
  induction ts with
  | nil => exact nil
  | cons t ts ih =>
    exact cons (h t List.mem_cons_self) (ih fun t ht => h t (List.mem_cons_of_mem _ ht))

end ReportingTokens

namespace Lexer

variable {lines : Nat → Prop}

theorem scans_paren {c : Char} {kind : TokenKind} (hc : c = '(' ∨ c = ')')
    (hk : operator? c = some kind) {afterName : Bool} (rest : List Char) :
    Scans afterName kind [c] rest := by
  have hslash : c ≠ '/' := by rcases hc with rfl | rfl <;> decide
  refine scans_single hk fun d _ => ⟨?_, fun _ => ?_, fun e => absurd e hslash⟩
  · rcases hc with rfl | rfl <;> rfl
  · rcases hc with rfl | rfl <;> rfl

/-- The tokens of a number in parentheses. -/
theorem scanLine_call {fuel pos i : Nat} {afterName : Bool} {rest : List Char} {ts : List Token}
    (hi : i < 2 ^ 53) (hf : (digitsOf i).length + 2 ≤ fuel)
    (h : scanLine fuel pos afterName ('(' :: (digitsOf i ++ ')' :: rest)) = .ok ts) :
    ∃ left number right ts' x, ts = left :: number :: right :: ts' ∧ left.kind = .leftParen ∧
      left.start = pos ∧ number.kind = .number x ∧ toCount x = i ∧ right.kind = .rightParen := by
  have hdigits := Number.digitsOf_isNumeral i
  have hlength : 0 < (digitsOf i).length := List.length_pos_iff.2 (Number.digitsOf_ne_nil i)
  obtain ⟨fuel, rfl⟩ : ∃ n, fuel = n + 1 + 1 + 1 := ⟨fuel - 3, by omega⟩
  obtain ⟨ts₁, rfl, h₁⟩ := scanLine_scans (scans_paren (.inl rfl) rfl _) h
  have hnumber : Scans (isName .leftParen) _ (digitsOf i) (')' :: rest) :=
    scans_number hdigits hdigits.read?_eq (by simp; decide)
  obtain ⟨ts₂, rfl, h₂⟩ := scanLine_scans hnumber h₁
  obtain ⟨ts₃, rfl, -⟩ := scanLine_scans (scans_paren (.inr rfl) rfl rest) h₂
  exact ⟨_, _, _, ts₃, _, rfl, rfl, rfl, rfl, Number.toCount_digitsOf hi, rfl⟩

theorem scanLine_reporting (hlines : ∀ i, lines i → i < 2 ^ 53) {fuel pos : Nat} {afterName : Bool}
    {cs : List Char} {ts : List Token} (hf : cs.length ≤ fuel) (hr : Reporting lines cs)
    (h : scanLine fuel pos afterName cs = .ok ts) : ReportingTokens lines ts := by
  induction fuel generalizing pos afterName cs ts with
  | zero =>
    cases h
    exact .nil
  | succ fuel ih =>
    cases cs with
    | nil =>
      cases h
      exact .nil
    | cons c cs =>
      unfold scanLine at h
      split at h
      · exact ih (Nat.le_of_succ_le_succ hf) (hr.suffix (List.suffix_cons c cs)) h
      split at h
      · cases h
        exact .nil
      · obtain ⟨s, hs, h⟩ := bind_eq_ok.1 h
        obtain ⟨ts', hts, h⟩ := bind_eq_ok.1 h
        obtain rfl := pure_eq_ok.1 h
        obtain ⟨he, hne, hname⟩ := scanToken_split hs
        have hlength : 0 < s.lexeme.length := List.length_pos_iff.2 hne
        rw [he] at hr hf
        rw [List.length_append] at hf
        have hrest := ih (by omega) (hr.suffix (List.suffix_append _ _)) hts
        intro start stop back hb
        rcases List.suffix_cons_iff.1 hb with hb | hb
        · obtain ⟨ht, rfl⟩ := List.cons.inj hb
          obtain ⟨hkind, -, rfl⟩ := Token.mk.inj ht
          have hword : s.lexeme = markerWord := hname _ hkind.symm
          rw [hword] at hr
          obtain ⟨i, rest, hi, hback⟩ := hr _ List.suffix_rfl
          rw [hback] at hts hf
          obtain ⟨left, number, right, rest, x, hcall⟩ := scanLine_call (hlines i hi)
            (by simp only [List.length_cons, List.length_append] at hf; omega) hts
          obtain ⟨rfl, hleft, hstart, hnumber, rfl, hright⟩ := hcall
          exact ⟨left, number, right, rest, x, rfl, hleft, hstart, hnumber, hi, hright⟩
        · exact hrest start stop back hb

theorem reporting_dropReturn {line : List Char} (h : Reporting lines line) :
    Reporting lines (dropReturn line) := by
  unfold dropReturn
  split
  · rename_i hr
    obtain ⟨front, rfl⟩ := List.getLast?_eq_some_iff.1 (beq_iff_eq.1 hr)
    rw [List.dropLast_concat]
    exact h.of_append_cons (by decide)
  · exact h

theorem indentation_kinds {width pos : Nat} {levels : List Nat} {found : List Token × List Nat}
    (h : indentation width pos levels = .ok found) :
    ∀ t ∈ found.1, t.kind ≠ .ident doOnceMarker := by
  unfold indentation at h
  split at h
  · cases h
    simp
  · split at h
    · cases h
      simp +contextual [List.mem_replicate]
    · cases h

theorem lexLines_reporting (hlines : ∀ i, lines i → i < 2 ^ 53) {pos : Nat} {levels : List Nat}
    {ls : List (List Char)} {ts : List Token} (hr : ∀ line ∈ ls, Reporting lines line)
    (h : lexLines pos levels ls = .ok ts) : ReportingTokens lines ts := by
  induction ls generalizing pos levels ts with
  | nil =>
    cases h
    refine .of_kinds fun t ht => ?_
    simp only [List.mem_append, List.mem_replicate, List.mem_singleton] at ht
    rcases ht with ⟨-, rfl⟩ | rfl <;> simp
  | cons raw ls ih =>
    have hls : ∀ line ∈ ls, Reporting lines line := fun line hm => hr line (List.mem_cons_of_mem _ hm)
    simp only [lexLines] at h
    split at h
    · exact ih hls h
    · obtain ⟨found, hfront, h⟩ := bind_eq_ok.1 h
      obtain ⟨tokens, hs, h⟩ := bind_eq_ok.1 h
      obtain ⟨rest, hrest, h⟩ := bind_eq_ok.1 h
      obtain rfl := pure_eq_ok.1 h
      have hbody := (reporting_dropReturn (hr raw List.mem_cons_self)).suffix
        (List.dropWhile_suffix isIndent)
      have htokens := scanLine_reporting hlines (Nat.le_refl _) hbody hs
      exact (ReportingTokens.append (.of_kinds (indentation_kinds hfront)) htokens).append
        (.cons (by simp) (ih hls hrest))

end Lexer

theorem lex_reporting {lines : Nat → Prop} (hlines : ∀ i, lines i → i < 2 ^ 53) {text : List Char}
    {ts : List Token} (hr : Reporting lines text) (h : lex text = .ok ts) :
    ReportingTokens lines ts :=
  lexLines_reporting hlines (Sketch.reporting_lines hr) h

end LiveSketch.Script

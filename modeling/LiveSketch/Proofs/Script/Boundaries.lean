import LiveSketch.Proofs.Script.Scanning

/-!
# Lexemes and what stands behind them

Of what stands behind a lexeme its scanner looks at one character at most (`Scans.of_front`), and none goes on with a
blank, a semicolon or a parenthesis.
-/
namespace LiveSketch.Script

open Lexer
open Text (byteLength byteLength_append byteLength_pos)

/-- A character that goes on with no lexeme. -/
def endsLexeme (c : Char) : Bool := isIndent c || c == ';' || c == '(' || c == ')'

/-- What none of these characters does. -/
theorem of_endsLexeme {P : Char → Prop} (space : P ' ') (tab : P '\t') (semicolon : P ';') (opening : P '(')
    (closing : P ')') {d : Char} (hd : endsLexeme d) : P d := by
  simp only [endsLexeme, isIndent, Bool.or_eq_true, beq_iff_eq] at hd
  rcases hd with (((rfl | rfl) | rfl) | rfl) | rfl <;> assumption

theorem isDigit_of_endsLexeme (d : Char) (h : endsLexeme d) : d.isDigit = false :=
  of_endsLexeme (P := fun d => d.isDigit = false) rfl rfl rfl rfl rfl h

/-- The second text begins with the same character as the first, or with nothing that goes on with a lexeme. -/
def SameFront (rest rest' : List Char) : Prop := rest'.head? = rest.head? ∨ ∀ d ∈ rest'.head?, endsLexeme d

namespace SameFront

variable {cs back rest rest' : List Char} {p : Char → Bool}

theorem refl (rest : List Char) : SameFront rest rest := .inl rfl

theorem prepend (h : SameFront rest rest') (back : List Char) : SameFront (back ++ rest) (back ++ rest') := by
  cases back with
  | nil => exact h
  | cons c back => exact .inl rfl

theorem not_head (h : SameFront rest rest') (hp : ∀ d, endsLexeme d → p d = false)
    (hr : ∀ d ∈ rest.head?, p d = false) : ∀ d ∈ rest'.head?, p d = false := by
  intro d hd
  rcases h with h | h
  · exact hr d (h ▸ hd)
  · exact hp d (h d hd)

/-- Characters of one sort at the front of a lexeme. -/
theorem span (h : SameFront rest rest') (hp : ∀ d, endsLexeme d → p d = false) (hd : cs.dropWhile p = back ++ rest) :
    (cs.takeWhile p ++ (back ++ rest')).takeWhile p = cs.takeWhile p ∧
      (cs.takeWhile p ++ (back ++ rest')).dropWhile p = back ++ rest' := by
  have hall : ∀ c ∈ cs.takeWhile p, p c := List.all_eq_true.1 List.all_takeWhile
  have hhead : ∀ d ∈ (back ++ rest).head?, p d = false := by
    intro d hmem
    have hr := List.head?_dropWhile_not p cs
    rw [hd, hmem] at hr
    exact hr
  have hhead' := (h.prepend back).not_head hp hhead
  exact ⟨Text.takeWhile_append hall hhead', Text.dropWhile_append hall hhead'⟩

end SameFront

/-! ## Numbers -/

variable {rest' : List Char}

theorem scanExponent_none {cs : List Char} (h : ∀ d ∈ cs.head?, d ≠ 'e' ∧ d ≠ 'E') :
    scanExponent cs = .ok ⟨0, [], cs⟩ := by
  cases cs with
  | nil => rfl
  | cons c cs => simp [scanExponent, h c rfl]

theorem digits_front {cs : List Char} (hf : SameFront (cs.dropWhile Char.isDigit) rest') :
    (cs.takeWhile Char.isDigit ++ rest').takeWhile Char.isDigit = cs.takeWhile Char.isDigit ∧
      (cs.takeWhile Char.isDigit ++ rest').dropWhile Char.isDigit = rest' :=
  hf.span isDigit_of_endsLexeme (List.nil_append _).symm

theorem scanExponent_front {cs : List Char} {s : Scanned Int} (h : scanExponent cs = .ok s)
    (hf : SameFront s.rest rest') : scanExponent (s.lexeme ++ rest') = .ok ⟨s.value, s.lexeme, rest'⟩ := by
  have hnone : ∀ d, endsLexeme d → (d == 'e' || d == 'E') = false :=
    fun d => of_endsLexeme (P := fun d => (d == 'e' || d == 'E') = false) rfl rfl rfl rfl rfl
  have hrest : (∀ d ∈ s.rest.head?, d ≠ 'e' ∧ d ≠ 'E') → scanExponent rest' = .ok ⟨0, [], rest'⟩ := fun hs =>
    scanExponent_none (by simpa using hf.not_head hnone (by simpa using hs))
  cases cs with
  | nil =>
    cases h
    exact hrest (by simp)
  | cons mark cs =>
    by_cases hm : mark = 'e' ∨ mark = 'E'
    · cases cs with
      | nil => simp [scanExponent, hm] at h
      | cons d cs =>
        by_cases hminus : d = '-'
        · simp [scanExponent, hm, hminus] at h
          split at h
          · cases h
          · rename_i hd
            cases h
            simp [scanExponent, hm, digits_front hf, hd]
        by_cases hplus : d = '+'
        · simp [scanExponent, hm, hplus] at h
          split at h
          · cases h
          · rename_i hd
            cases h
            simp [scanExponent, hm, digits_front hf, hd]
        · simp [scanExponent, hm, hminus, hplus] at h
          split at h
          · cases h
          · rename_i hd
            cases h
            rw [Bool.not_eq_false] at hd
            have hsame := digits_front hf
            rw [List.takeWhile_cons_of_pos hd] at hsame ⊢
            simp only [List.cons_append] at hsame ⊢
            simp [scanExponent, hm, hminus, hplus, hsame]
    · simp [scanExponent, hm] at h
      subst h
      exact hrest (by simpa using hm)

/-- A number without a point. -/
theorem scanNumber_whole {cs : List Char} {s : Scanned Float} (h : ∀ rest, cs.dropWhile Char.isDigit ≠ '.' :: rest) :
    scanNumber cs = .ok s ↔ ∃ e, scanExponent (cs.dropWhile Char.isDigit) = .ok e ∧
      s = ⟨(⟨cs.takeWhile Char.isDigit, [], e.value⟩ : Number.Numeral).toFloat,
        cs.takeWhile Char.isDigit ++ e.lexeme, e.rest⟩ := by
  have hpoint : ∀ d rest, cs.dropWhile Char.isDigit = d :: rest → d ≠ '.' := by
    rintro d rest hd rfl
    exact h _ hd
  cases hd : cs.dropWhile Char.isDigit with
  | nil => simp [scanNumber, hd, scanExponent, eq_comm]
  | cons d rest =>
    simp [scanNumber, hd, hpoint d rest hd]
    cases scanExponent (d :: rest) <;> simp [eq_comm]

theorem scanNumber_front {cs : List Char} {s : Scanned Float} (h : scanNumber cs = .ok s)
    (hf : SameFront s.rest rest') : scanNumber (s.lexeme ++ rest') = .ok ⟨s.value, s.lexeme, rest'⟩ := by
  by_cases hpoint : ∃ rest, cs.dropWhile Char.isDigit = '.' :: rest
  · obtain ⟨rest, hd⟩ := hpoint
    simp only [scanNumber, hd] at h
    split at h
    · cases h
    · rename_i e he
      cases h
      have hsplit := scanExponent_split he
      have hfraction := hf.span isDigit_of_endsLexeme hsplit
      have hback : cs.dropWhile Char.isDigit = '.' :: (rest.takeWhile Char.isDigit ++ e.lexeme) ++ e.rest := by
        rw [hd, List.cons_append, List.append_assoc, ← hsplit, digits_split]
      have hwhole := hf.span isDigit_of_endsLexeme hback
      simp only [List.cons_append, List.append_assoc] at hwhole
      simp only [scanNumber, List.append_assoc, List.cons_append, List.nil_append, hwhole.1, hwhole.2, hfraction.1,
        hfraction.2, scanExponent_front he hf]
  · rw [not_exists] at hpoint
    obtain ⟨e, he, rfl⟩ := (scanNumber_whole hpoint).1 h
    have hsplit := scanExponent_split he
    have hwhole := hf.span isDigit_of_endsLexeme hsplit
    rw [← List.append_assoc] at hwhole
    have hfront : SameFront (cs.dropWhile Char.isDigit) (e.lexeme ++ rest') := hsplit ▸ hf.prepend e.lexeme
    have hpoint' : ∀ rest, e.lexeme ++ rest' ≠ '.' :: rest := by
      intro rest he
      have hdot := hfront.not_head (p := (· == '.')) (fun d => of_endsLexeme (P := fun d => (d == '.') = false)
        rfl rfl rfl rfl rfl) (fun d hd => by
          obtain ⟨rest, hr⟩ := List.head?_eq_some_iff.1 hd
          simpa using fun hdot : d = '.' => hpoint rest (hdot ▸ hr))
      simpa using hdot '.' (by rw [he]; rfl)
    exact (scanNumber_whole (by rwa [hwhole.2])).2 ⟨⟨e.value, e.lexeme, rest'⟩,
      by rw [hwhole.2, scanExponent_front he hf], by rw [hwhole.1]⟩

/-! ## Texts and operators -/

theorem scanString_front {q : Char} {cs : List Char} {s : Scanned (List Char)} (h : scanString q cs = some s)
    (rest' : List Char) : scanString q (s.lexeme ++ rest') = some ⟨s.value, s.lexeme, rest'⟩ := by
  fun_induction scanString q cs generalizing s with
  | case1 | case2 => cases h
  | case3 d cs ih =>
    obtain ⟨s', hs, rfl⟩ := Option.map_eq_some_iff.1 h
    simp [scanString, ih hs]
  | case4 c cs h1 h2 hc =>
    cases h
    have hb := Sketch.ne_backslash h1 h2
    obtain rfl := eq_of_beq hc
    rw [List.cons_append, scanString] <;> simp [hb]
  | case5 c cs h1 h2 hc ih =>
    obtain ⟨s', hs, rfl⟩ := Option.map_eq_some_iff.1 h
    have hb := Sketch.ne_backslash h1 h2
    rw [List.cons_append, scanString] <;> simp [hb, hc, ih hs]

theorem scanOperator_front {afterName : Bool} {cs : List Char} {s : Scanned TokenKind}
    (h : scanOperator afterName cs = some s) (hf : SameFront s.rest rest') :
    scanOperator afterName (s.lexeme ++ rest') = some ⟨s.value, s.lexeme, rest'⟩ := by
  have hnone : ∀ c d, endsLexeme d → stepOperator? c d = none ∧ pairOperator? c d = none := by
    intro c d hd
    constructor
    · unfold stepOperator?
      split <;> first | rfl | cases hd
    · unfold pairOperator?
      split <;> first | rfl | cases hd
  have hsingle : ∀ {c kind rest}, operator? c = some kind → SameFront rest rest' →
      (∀ d ∈ rest.head?, ((if afterName then stepOperator? c d else none).or (pairOperator? c d)) = none) →
      scanOperator afterName (c :: rest') = some ⟨kind, [c], rest'⟩ := by
    intro c kind rest hk hf hno
    cases rest' with
    | nil => simp [scanOperator, hk]
    | cons d ds =>
      have hd : ((if afterName then stepOperator? c d else none).or (pairOperator? c d)) = none := by
        rcases hf with hf | hf
        · exact hno d (hf ▸ rfl)
        · obtain ⟨hs, hp⟩ := hnone c d (hf d rfl)
          simp [hs, hp]
      simp [scanOperator, hk, hd]
  rcases cs with _ | ⟨c, _ | ⟨d, cs⟩⟩
  · cases h
  · obtain ⟨kind, hk, rfl⟩ := Option.map_eq_some_iff.1 h
    exact hsingle hk hf (by simp)
  · rw [scanOperator] at h
    split at h
    · rename_i kind hk
      cases h
      simp [scanOperator, hk]
    · rename_i hno
      obtain ⟨kind, hk, rfl⟩ := Option.map_eq_some_iff.1 h
      exact hsingle hk hf (by simpa using hno)

/-! ## Lexemes -/

/-- A number that begins with a point has a digit behind it. -/
theorem startsNumber_front {c : Char} {cs cs' : List Char} {s : Scanned Float} (hn : startsNumber (c :: cs))
    (h : scanNumber (c :: cs) = .ok s) (he : s.lexeme ++ rest' = c :: cs') : startsNumber (c :: cs') := by
  by_cases hc : c = '.'
  · subst hc
    obtain ⟨d, ds, rfl⟩ : ∃ d ds, cs = d :: ds := List.exists_cons_of_ne_nil fun hnil => by
      rw [hnil] at hn
      cases hn
    have hd : d.isDigit = true := hn
    simp only [scanNumber, List.takeWhile_cons_of_neg (by decide : ¬ '.'.isDigit = true),
      List.dropWhile_cons_of_neg (by decide : ¬ '.'.isDigit = true), List.takeWhile_cons_of_pos hd] at h
    split at h
    · cases h
    · cases h
      cases he
      exact hn
  · rwa [startsNumber_cons hc] at hn ⊢

theorem scanOperator_point (afterName : Bool) (cs : List Char) : scanOperator afterName ('.' :: cs) = none := by
  cases cs <;> cases afterName <;> simp [scanOperator, operator?, pairOperator?, stepOperator?]

theorem scanToken_front {pos : Nat} {afterName : Bool} {c : Char} {cs cs' : List Char} {s : Scanned TokenKind}
    (h : scanToken pos afterName c cs = .ok s) (hf : SameFront s.rest rest') (he : s.lexeme ++ rest' = c :: cs')
    (pos' : Nat) : scanToken pos' afterName c cs' = .ok ⟨s.value, s.lexeme, rest'⟩ := by
  unfold scanToken at h ⊢
  split at h
  · rename_i hn
    split at h
    · rename_i s' hs
      cases h
      rw [if_pos (startsNumber_front hn hs he), ← he, scanNumber_front hs hf]
    · cases h
  rename_i hn
  have hn' : ¬startsNumber (c :: cs') = true := by
    have hc : c ≠ '.' := by
      rintro rfl
      simp [isNameStart, Char.isAlpha, Char.isUpper, Char.isLower, scanOperator_point] at h
    rwa [startsNumber_cons hc] at hn ⊢
  rw [if_neg hn']
  split at h
  · rename_i hname
    cases h
    have hname' := hf.span (fun d => of_endsLexeme (P := fun d => isNamePart d = false) rfl rfl rfl rfl rfl)
      (List.nil_append _).symm
    rw [List.nil_append, he] at hname'
    rw [if_pos hname, hname'.1, hname'.2]
  rename_i hname
  rw [if_neg hname]
  split at h
  · rename_i hq
    rw [if_pos hq]
    split at h
    · rename_i s' hs
      cases h
      obtain rfl : s'.lexeme ++ rest' = cs' := (List.cons.inj he).2
      rw [scanString_front hs]
    · cases h
  · rename_i hq
    rw [if_neg hq]
    split at h
    · rename_i s' hs
      cases h
      rw [← he, scanOperator_front hs hf]
    · cases h

theorem startsComment_front {rest : List Char} {c : Char} {cs : List Char} (hc : startsComment (c :: (cs ++ rest)) = false)
    (hf : SameFront rest rest') : startsComment (c :: (cs ++ rest')) = false := by
  by_cases hhash : c = '#'
  · subst hhash
    cases hc
  by_cases hslash : c = '/'
  · subst hslash
    have hsecond : ∀ d ∈ (cs ++ rest).head?, (d == '/') = false := by
      cases hrest : cs ++ rest with
      | nil => simp
      | cons d ds =>
        rintro _ ⟨⟩
        rw [hrest] at hc
        refine beq_eq_false_iff_ne.2 ?_
        rintro rfl
        cases hc
    have hsecond' := (hf.prepend cs).not_head (p := (· == '/')) (fun d => of_endsLexeme (P := fun d => (d == '/') = false)
      rfl rfl rfl rfl rfl) hsecond
    cases hrest : cs ++ rest' with
    | nil => rfl
    | cons d ds =>
      have hd : d ≠ '/' := by simpa using hsecond' d (by rw [hrest]; rfl)
      simp [startsComment, hd]
  · exact startsComment_cons hhash hslash _

/-- A lexeme is the same one in front of another text that begins like the one behind it. -/
theorem Scans.of_front {afterName : Bool} {kind : TokenKind} {text rest : List Char}
    (h : Scans afterName kind text rest) (hf : SameFront rest rest') : Scans afterName kind text rest' := by
  obtain ⟨c, cs, rfl, hi, hc, ht⟩ := h
  exact ⟨c, cs, rfl, hi, startsComment_front hc hf, fun pos => scanToken_front (ht pos) hf rfl pos⟩

/-! ## Lines -/

/-- What the scanner finds on a line, lexeme by lexeme. -/
inductive Lexed : (pos : Nat) → (afterName : Bool) → List Char → List Token → Prop where
  | nil {pos : Nat} {afterName : Bool} : Lexed pos afterName [] []
  | blank {pos : Nat} {afterName : Bool} {c : Char} {cs : List Char} {ts : List Token} : isIndent c →
      Lexed (pos + c.utf8Size) false cs ts → Lexed pos afterName (c :: cs) ts
  | comment {pos : Nat} {afterName : Bool} {cs : List Char} : startsComment cs → Lexed pos afterName cs []
  | lexeme {pos : Nat} {afterName : Bool} {kind : TokenKind} {text rest : List Char} {ts : List Token} :
      Scans afterName kind text rest → kind.isWord → Lexed (pos + byteLength text) (isName kind) rest ts →
      Lexed pos afterName (text ++ rest) (⟨kind, pos, pos + byteLength text⟩ :: ts)

theorem lexed_of_scanLine {fuel pos : Nat} {afterName : Bool} {cs : List Char} {ts : List Token} (hf : cs.length ≤ fuel)
    (h : scanLine fuel pos afterName cs = .ok ts) : Lexed pos afterName cs ts := by
  induction fuel generalizing pos afterName cs ts with
  | zero =>
    obtain rfl := List.length_eq_zero_iff.1 (Nat.le_zero.1 hf)
    cases h
    exact .nil
  | succ fuel ih =>
    cases cs with
    | nil =>
      cases h
      exact .nil
    | cons c cs =>
      rw [List.length_cons] at hf
      rw [scanLine] at h
      split at h
      · rename_i hi
        exact .blank hi (ih (by omega) h)
      rename_i hi
      split at h
      · rename_i hc
        cases h
        exact .comment hc
      · rename_i hc
        obtain ⟨s, hs, h⟩ := bind_eq_ok.1 h
        obtain ⟨ts', hts, h⟩ := bind_eq_ok.1 h
        obtain rfl := pure_eq_ok.1 h
        obtain ⟨he, hne, -⟩ := scanToken_split hs
        have hlength := congrArg List.length he
        have hpos := List.length_pos_iff.2 hne
        simp only [List.length_cons, List.length_append] at hlength
        rw [he]
        refine .lexeme ?_ (isWord_of_scanToken hs) (ih (by omega) hts)
        obtain ⟨d, ds, hl⟩ := List.exists_cons_of_ne_nil hne
        rw [hl, List.cons_append] at he
        obtain ⟨rfl, rfl⟩ := List.cons.inj he
        refine ⟨c, ds, hl, by simpa using hi, by simpa using hc, fun pos => scanToken_pos hs pos⟩

theorem lexed_iff {pos : Nat} {afterName : Bool} {cs : List Char} {ts : List Token} :
    scan pos afterName cs = .ok ts ↔ Lexed pos afterName cs ts := by
  refine ⟨lexed_of_scanLine (Nat.le_refl _), fun h => ?_⟩
  induction h with
  | nil => rfl
  | blank hi _ ih => rwa [scan_indent hi]
  | @comment pos afterName cs hc =>
    cases cs with
    | nil => rfl
    | cons c cs =>
      have hi : isIndent c = false := by
        by_contra hi
        rw [Bool.not_eq_false] at hi
        rw [startsComment_cons] at hc
        · cases hc
        all_goals
          rintro rfl
          cases hi
      rw [scan, List.length_cons, scanLine, hi, hc]
      rfl
  | lexeme hs _ _ ih =>
    rw [scan_scans hs, ih]
    rfl

/-- The tokens of a line on which something stands, and of the lines below it. -/
theorem lexLines_begins_iff {raw indent body : List Char} {lines : List (List Char)} {pos : Nat} {levels : List Nat}
    {ts : List Token} (hr : dropReturn raw = indent ++ body) (hi : ∀ c ∈ indent, isIndent c) (hb : Begins body) :
    lexLines pos levels (raw :: lines) = .ok ts ↔ ∃ kinds levels' us ts', Indents indent.length levels kinds levels' ∧
      Lexed (pos + indent.length) false body us ∧ lexLines (pos + byteLength raw + 1) levels' lines = .ok ts' ∧
      ts = kinds.map (⟨·, pos + indent.length, pos + indent.length⟩) ++ us ++
        ⟨.newline, pos + indent.length + byteLength body, pos + byteLength raw⟩ :: ts' := by
  rw [lexLines_begins hr hi hb]
  constructor
  · intro h
    obtain ⟨⟨front, levels'⟩, hf, h⟩ := bind_eq_ok.1 h
    obtain ⟨us, hs, h⟩ := bind_eq_ok.1 h
    obtain ⟨ts', hl, h⟩ := bind_eq_ok.1 h
    obtain ⟨-, kinds, hk, hind⟩ := indentation_eq_ok hf
    obtain rfl := (Prod.mk.inj (Except.ok.inj (hf.symm.trans (hind _)))).1
    exact ⟨kinds, levels', us, ts', ⟨hk, hind⟩, lexed_iff.1 hs, hl, (pure_eq_ok.1 h).symm⟩
  · rintro ⟨kinds, levels', us, ts', ⟨-, hind⟩, hs, hl, rfl⟩
    rw [hind, ok_bind]
    dsimp only
    rw [lexed_iff.2 hs, ok_bind, hl]
    rfl

end LiveSketch.Script

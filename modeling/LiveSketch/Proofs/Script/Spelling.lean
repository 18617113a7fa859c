import LiveSketch.Proofs.Script.Boundaries
import LiveSketch.Proofs.Sketch.Literals

/-!
# How the tokens of a line are spelt

What the scanner reads of a line is a sequence of lexemes (`Lexeme`) and blanks, up to a comment or to the end
(`scanLine_spelt`). Its texts are the complete text literals of a sketch, and no other token holds a quote, a
hash sign or a bracket (`Spelt`).
-/
namespace LiveSketch.Script

open Lexer
open Sketch (Clean IsLiteral literals dropLiterals)
open Text (isQuote closeLiteral? literal?)

/-! ## Texts -/

/-- The scanner takes for a text what a sketch takes for a text literal. -/
theorem closeLiteral?_eq_scanString {q : Char} {cs : List Char} (hn : '\n' ∉ cs) :
    closeLiteral? q cs = (scanString q cs).map fun s => (s.lexeme, s.rest) := by
  fun_induction scanString q cs with
  | case1 | case2 => rfl
  | case3 d cs ih =>
    have hd : d ≠ '\n' := fun e => hn (by simp [e])
    have hcs : '\n' ∉ cs := fun m => hn (by simp [m])
    simp [closeLiteral?, hd, ih hcs]
    rfl
  | case4 c cs h1 h2 hc =>
    obtain rfl := eq_of_beq hc
    simp [Sketch.closeLiteral?_cons (Sketch.ne_backslash h1 h2)]
  | case5 c cs h1 h2 hc ih =>
    have hc' : c ≠ q := by simpa using hc
    have hd : c ≠ '\n' := fun e => hn (by simp [e])
    have hcs : '\n' ∉ cs := fun m => hn (by simp [m])
    simp [Sketch.closeLiteral?_cons (Sketch.ne_backslash h1 h2), hc', hd, ih hcs]
    rfl

/-- What a text denotes does not hang on what follows it. -/
theorem scanString_lexeme {q : Char} {cs : List Char} {s : Scanned (List Char)} (h : scanString q cs = some s) :
    scanString q s.lexeme = some ⟨s.value, s.lexeme, []⟩ := by
  simpa using scanString_front h []

/-- The text that a text literal denotes. -/
def literalText : List Char → String
  | [] => ""
  | q :: cs => String.ofList ((scanString q cs).elim [] (·.value))

/-! ## Lexemes -/

/-- The characters that comments, delimiters and ticks are made of. -/
def marks : List Char := ['"', '\x27', '#', '/', '(', ')', '{', '}', '[', ']', '✓']

/-- How a token of this kind is spelt. Only texts, slashes and parentheses hold any of the marks. -/
inductive Lexeme : TokenKind → List Char → Prop where
  | text {l : List Char} : IsLiteral l → Lexeme (.string (literalText l)) l
  | slash : Lexeme .slash ['/']
  | slashAssign : Lexeme .slashAssign ['/', '=']
  | leftParen : Lexeme .leftParen ['(']
  | rightParen : Lexeme .rightParen [')']
  | plain {kind : TokenKind} {l : List Char} : (∀ text, kind ≠ .string text) → kind ≠ .slash → kind ≠ .leftParen →
      kind ≠ .rightParen → (∀ c ∈ l, c ∉ marks) → Lexeme kind l

theorem notMem_marks_of_isNamePart {c : Char} (h : isNamePart c) : c ∉ marks := by
  have hmarks : ∀ d ∈ marks, isNamePart d = false := by
    simp only [marks, List.mem_cons, List.not_mem_nil, or_false, forall_eq_or_imp, forall_eq]
    and_intros <;> decide
  intro hm
  rw [hmarks c hm] at h
  cases h

theorem notMem_marks_of_isDigit {c : Char} (h : c.isDigit) : c ∉ marks :=
  notMem_marks_of_isNamePart (by simp [isNamePart, Char.isAlphanum, h])

/-- No mark is part of an operator but for the slash and the parentheses. -/
theorem lexeme_of_operator? {c : Char} {kind : TokenKind} (h : operator? c = some kind) : Lexeme kind [c] := by
  unfold operator? at h
  split at h <;> cases h
  case h_1 => exact .leftParen
  case h_2 => exact .rightParen
  case h_8 => exact .slash
  all_goals exact .plain nofun nofun nofun nofun (by simp [marks])

theorem lexeme_of_pair {c d : Char} {kind : TokenKind}
    (h : pairOperator? c d = some kind ∨ stepOperator? c d = some kind) : Lexeme kind [c, d] := by
  rcases h with h | h
  · unfold pairOperator? at h
    split at h <;> cases h
    case h_5 => exact .slashAssign
    all_goals exact .plain nofun nofun nofun nofun (by simp [marks])
  · unfold stepOperator? at h
    split at h <;> cases h <;> exact .plain nofun nofun nofun nofun (by simp [marks])

theorem lexeme_of_scanOperator {afterName : Bool} {cs : List Char} {s : Scanned TokenKind}
    (h : scanOperator afterName cs = some s) : Lexeme s.value s.lexeme := by
  unfold scanOperator at h
  split at h
  · cases h
  · obtain ⟨kind, hk, rfl⟩ := Option.map_eq_some_iff.1 h
    exact lexeme_of_operator? hk
  · split at h
    · rename_i hk
      cases h
      rcases Option.or_eq_some_iff.1 hk with hk | ⟨-, hk⟩
      · split at hk
        · exact lexeme_of_pair (.inr hk)
        · cases hk
      · exact lexeme_of_pair (.inl hk)
    · obtain ⟨kind, hk, rfl⟩ := Option.map_eq_some_iff.1 h
      exact lexeme_of_operator? hk

theorem digits_unmarked (cs : List Char) : ∀ c ∈ cs.takeWhile Char.isDigit, c ∉ marks := fun _ hc =>
  notMem_marks_of_isDigit (List.all_eq_true.1 List.all_takeWhile _ hc)

theorem exponent_unmarked {cs : List Char} {s : Scanned Int} (h : scanExponent cs = .ok s) :
    ∀ c ∈ s.lexeme, c ∉ marks := by
  cases cs with
  | nil =>
    cases h
    simp
  | cons mark cs =>
    by_cases hm : mark = 'e' ∨ mark = 'E'
    · have hmark : mark ∉ marks := by
        rcases hm with rfl | rfl <;> simp [marks]
      have hminus : '-' ∉ marks := by simp [marks]
      have hplus : '+' ∉ marks := by simp [marks]
      cases cs with
      | nil => simp [scanExponent, hm] at h
      | cons d cs =>
        by_cases hd : d = '-' ∨ d = '+'
        · rcases hd with rfl | rfl <;> simp [scanExponent, hm] at h <;> split at h <;> cases h <;>
            simpa [hmark, hminus, hplus] using digits_unmarked cs
        · simp only [not_or] at hd
          simp [scanExponent, hm, hd] at h
          split at h <;> cases h
          simpa [hmark] using digits_unmarked (d :: cs)
    · simp [scanExponent, hm] at h
      subst h
      simp

theorem number_unmarked {cs : List Char} {s : Scanned Float} (h : scanNumber cs = .ok s) :
    ∀ c ∈ s.lexeme, c ∉ marks := by
  have hpoint : '.' ∉ marks := by simp [marks]
  cases hd : cs.dropWhile Char.isDigit with
  | nil =>
    simp [scanNumber, hd, scanExponent] at h
    cases h
    exact digits_unmarked cs
  | cons d rest =>
    by_cases hdot : d = '.'
    · simp [scanNumber, hd, hdot] at h
      split at h
      · cases h
      · rename_i e he
        cases h
        simp only [List.forall_mem_append, List.forall_mem_cons]
        exact ⟨digits_unmarked cs, hpoint, digits_unmarked rest, exponent_unmarked he⟩
    · simp [scanNumber, hd, hdot] at h
      split at h
      · cases h
      · rename_i e he
        cases h
        exact List.forall_mem_append.2 ⟨digits_unmarked cs, exponent_unmarked he⟩

/-- What the scanner finds is spelt as a token of its kind is. -/
theorem lexeme_of_scanToken {pos : Nat} {afterName : Bool} {c : Char} {cs : List Char} {s : Scanned TokenKind}
    (hn : '\n' ∉ c :: cs) (h : scanToken pos afterName c cs = .ok s) : Lexeme s.value s.lexeme := by
  unfold scanToken at h
  split at h
  · split at h
    · rename_i s' hs
      cases h
      exact .plain nofun nofun nofun nofun (number_unmarked hs)
    · cases h
  split at h
  · cases h
    exact .plain nofun nofun nofun nofun fun d hd =>
      notMem_marks_of_isNamePart (List.all_eq_true.1 List.all_takeWhile _ hd)
  split at h
  · rename_i hq
    split at h
    · rename_i s' hs
      cases h
      have hcs : '\n' ∉ cs := fun m => hn (List.mem_cons_of_mem _ m)
      have hclose : literal? (c :: cs) = some (c :: s'.lexeme, s'.rest) := by
        have hq : isQuote c := hq
        simp [literal?, hq, closeLiteral?_eq_scanString hcs, hs]
      have hl : IsLiteral (c :: s'.lexeme) := (Sketch.literal?_append hclose []).2
      have ht : literalText (c :: s'.lexeme) = String.ofList s'.value := by
        simp [literalText, scanString_lexeme hs]
      rw [← ht]
      exact .text hl
    · cases h
  · split at h
    · rename_i s' hs
      cases h
      exact lexeme_of_scanOperator hs
    · cases h

/-! ## Lines -/

/-- The code of a line with its tokens; behind the code stands `rest`, and behind a slash that is a token of its own
none of the characters `stops`. -/
inductive Spelt (stops rest : List Char) : List Token → List Char → Prop where
  | nil : Spelt stops rest [] []
  | blank {c : Char} {ts : List Token} {cs : List Char} : isIndent c → Spelt stops rest ts cs →
      Spelt stops rest ts (c :: cs)
  | token {t : Token} {l : List Char} {ts : List Token} {cs : List Char} : Lexeme t.kind l →
      (t.kind = .slash → ∀ d ∈ (cs ++ rest).head?, d ∉ stops) → Spelt stops rest ts cs →
      Spelt stops rest (t :: ts) (l ++ cs)

/-- No slash is followed at once by a token that begins with a star. -/
def StarFree (ts : List Token) : Prop :=
  ts.IsChain fun t u => t.kind = .slash → u.kind ≠ .star ∧ u.kind ≠ .starAssign

theorem kind_of_star {pos : Nat} {afterName : Bool} {cs : List Char} {s : Scanned TokenKind}
    (h : scanToken pos afterName '*' cs = .ok s) : s.value = .star ∨ s.value = .starAssign := by
  have hnumber : startsNumber ('*' :: cs) = false := by rw [startsNumber_cons (by decide)]; rfl
  simp only [scanToken, hnumber, show isNameStart '*' = false from rfl, Bool.false_eq_true, if_false,
    show ('*' == '"' || '*' == '\x27') = false from rfl] at h
  split at h
  · rename_i s' hs
    cases h
    unfold scanOperator at hs
    split at hs
    · cases hs
    · rename_i e
      cases e
      cases hs
      exact .inl rfl
    · rename_i e
      cases e
      split at hs
      · rename_i hk
        cases hs
        rcases Option.or_eq_some_iff.1 hk with hk | ⟨-, hk⟩
        · split at hk
          · cases hk
          · cases hk
        · unfold pairOperator? at hk
          split at hk <;> simp_all
      · cases hs
        exact .inl rfl
  · cases h

/-- A star begins a token. -/
theorem scanLine_star {fuel pos : Nat} {afterName : Bool} {cs : List Char} {ts : List Token}
    (h : scanLine (fuel + 1) pos afterName ('*' :: cs) = .ok ts) :
    ∃ t ts', ts = t :: ts' ∧ (t.kind = .star ∨ t.kind = .starAssign) := by
  simp only [scanLine, show isIndent '*' = false from rfl, startsComment_cons (by decide : '*' ≠ '#') (by decide),
    Bool.false_eq_true, if_false] at h
  obtain ⟨s, hs, h⟩ := bind_eq_ok.1 h
  obtain ⟨ts', -, h⟩ := bind_eq_ok.1 h
  obtain rfl := pure_eq_ok.1 h
  exact ⟨_, ts', rfl, kind_of_star hs⟩

theorem Lexeme.eq_slash {l : List Char} (h : Lexeme .slash l) : l = ['/'] := by
  cases h with
  | slash => rfl
  | plain _ hk => exact absurd rfl hk

/-- A line is code and a comment. -/
theorem scanLine_spelt {stops : List Char} (hstops : ∀ d ∈ stops, d = '/' ∨ d = '*') {fuel pos : Nat}
    {afterName : Bool} {cs : List Char} {ts : List Token} (hf : cs.length ≤ fuel) (hn : '\n' ∉ cs)
    (hts : '*' ∈ stops → StarFree ts) (h : scanLine fuel pos afterName cs = .ok ts) :
    ∃ code comment, cs = code ++ comment ∧ (comment = [] ∨ startsComment comment) ∧
      Spelt stops comment ts code := by
  induction fuel generalizing pos afterName cs ts with
  | zero =>
    obtain rfl := List.length_eq_zero_iff.1 (Nat.le_zero.1 hf)
    cases h
    exact ⟨[], [], rfl, .inl rfl, .nil⟩
  | succ fuel ih =>
    cases cs with
    | nil =>
      cases h
      exact ⟨[], [], rfl, .inl rfl, .nil⟩
    | cons c cs =>
      have hcs : '\n' ∉ cs := fun m => hn (List.mem_cons_of_mem _ m)
      rw [List.length_cons] at hf
      rw [scanLine] at h
      split at h
      · rename_i hi
        obtain ⟨code, comment, rfl, hc, hs⟩ := ih (by omega) hcs hts h
        exact ⟨c :: code, comment, rfl, hc, .blank hi hs⟩
      split at h
      · rename_i hc
        cases h
        exact ⟨[], c :: cs, rfl, .inr hc, .nil⟩
      · rename_i hcomment
        obtain ⟨s, hs, h⟩ := bind_eq_ok.1 h
        obtain ⟨ts', hts', h⟩ := bind_eq_ok.1 h
        obtain rfl := pure_eq_ok.1 h
        obtain ⟨he, hne, -⟩ := scanToken_split hs
        have hlen := congrArg List.length he
        have hpos := List.length_pos_iff.2 hne
        simp only [List.length_cons, List.length_append] at hlen
        have hrest : '\n' ∉ s.rest := fun m => hn (he ▸ List.mem_append_right _ m)
        obtain ⟨code, comment, hcode, hc, hspelt⟩ :=
          ih (by omega) hrest (fun hm => (hts hm).tail) hts'
        refine ⟨s.lexeme ++ code, comment, by rw [he, hcode, List.append_assoc], hc,
          .token (lexeme_of_scanToken hn hs) (fun hslash d hd hstop => ?_) hspelt⟩
        rw [← hcode] at hd
        have hslash' : s.lexeme = ['/'] := Lexeme.eq_slash (by rw [← hslash]; exact lexeme_of_scanToken hn hs)
        rw [hslash', List.singleton_append, List.cons.injEq] at he
        obtain ⟨rfl, rfl⟩ := he
        obtain ⟨ds, hds⟩ := List.head?_eq_some_iff.1 hd
        rw [hds] at hts' hcomment hf
        rcases hstops d hstop with rfl | rfl
        · exact hcomment rfl
        · obtain ⟨m, rfl⟩ : ∃ m, fuel = m + 1 := ⟨fuel - 1, by rw [List.length_cons] at hf; omega⟩
          obtain ⟨u, us, rfl, hu⟩ := scanLine_star hts'
          obtain ⟨hstar, hassign⟩ := (List.isChain_cons_cons.1 (hts hstop)).1 hslash
          exact hu.elim hstar hassign

/-! ## What the spelling of a line says -/

/-- The texts among the tokens. -/
def strings (ts : List Token) : List String :=
  ts.filterMap fun t => match t.kind with
    | .string text => some text
    | _ => none

theorem strings_append (ts us : List Token) : strings (ts ++ us) = strings ts ++ strings us :=
  List.filterMap_append ..

theorem notMem_marks_of_isIndent {c : Char} (h : isIndent c) : c ∉ marks := by
  simp only [isIndent, Bool.or_eq_true, beq_iff_eq] at h
  rcases h with rfl | rfl <;> simp [marks]

namespace Spelt

variable {stops rest code : List Char} {ts : List Token}

theorem not_isQuote {c : Char} (h : c ∉ marks) : isQuote c = false := by
  simp only [marks, List.mem_cons, not_or] at h
  simp [isQuote, h.1, h.2.1]

/-- Characters that are no marks can stand in front of a clean text. -/
theorem clean_unmarked {l cs : List Char} (hl : ∀ c ∈ l, c ∉ marks) (h : Clean stops rest cs) :
    Clean stops rest (l ++ cs) := by
  induction l with
  | nil => exact h
  | cons c l ih =>
    have hc := hl c List.mem_cons_self
    refine .char (not_isQuote hc) ?_ (fun hs => ?_) (ih fun d hd => hl d (List.mem_cons_of_mem _ hd))
    · rintro rfl
      simp [marks] at hc
    · simp [hs, marks] at hc

theorem clean (h : Spelt stops rest ts code) (hstops : '=' ∉ stops) : Clean stops rest code := by
  induction h with
  | nil => exact .nil
  | @blank c _ cs hi _ ih => exact clean_unmarked (l := [c]) (by simpa using notMem_marks_of_isIndent hi) ih
  | @token t l ts cs hl hs _ ih =>
    generalize hk : t.kind = kind at hl hs
    cases hl with
    | text hl => exact .literal hl ih
    | slash => exact .char rfl (by decide) (fun _ => hs rfl) ih
    | slashAssign =>
      refine .char rfl (by decide) (fun _ d hd => ?_) (.char rfl (by decide) (by simp) ih)
      obtain rfl : '=' = d := by simpa using hd
      exact hstops
    | leftParen => exact .char rfl (by decide) (by simp) ih
    | rightParen => exact .char rfl (by decide) (by simp) ih
    | plain _ _ _ _ hl => exact clean_unmarked hl ih

/-- The texts of a line are what its literals say. -/
theorem strings_eq (h : Spelt stops rest ts code) : strings ts = (literals code).map literalText := by
  induction h with
  | nil => rfl
  | @blank c _ cs hi _ ih =>
    rw [ih, ← List.singleton_append,
      Sketch.literals_unquoted (by simpa using not_isQuote (notMem_marks_of_isIndent hi))]
  | @token t l ts cs hl _ _ ih =>
    rw [← List.singleton_append, strings_append, ih]
    generalize hk : t.kind = kind at hl
    cases hl with
    | text hl => simp [strings, hk, Sketch.literals_of_some (hl.literal? cs)]
    | slash => rw [Sketch.literals_unquoted (by simp [isQuote])]; simp [strings, hk]
    | slashAssign => rw [Sketch.literals_unquoted (by simp [isQuote])]; simp [strings, hk]
    | leftParen => rw [Sketch.literals_unquoted (by simp [isQuote])]; simp [strings, hk]
    | rightParen => rw [Sketch.literals_unquoted (by simp [isQuote])]; simp [strings, hk]
    | plain hs _ _ _ hl =>
      rw [Sketch.literals_unquoted fun c hc => not_isQuote (hl c hc)]
      cases kind <;> simp_all [strings]

theorem blanks {l cs : List Char} (hl : ∀ c ∈ l, isIndent c) (h : Spelt stops rest ts cs) :
    Spelt stops rest ts (l ++ cs) := by
  induction l with
  | nil => exact h
  | cons c l ih =>
    rw [List.forall_mem_cons] at hl
    exact .blank hl.1 (ih hl.2)

/-- Of what follows the code only the first character counts. -/
theorem of_head? {rest' : List Char} (h : Spelt stops rest ts code)
    (hr : ∀ d ∈ rest'.head?, d ∈ stops → d ∈ rest.head?) : Spelt stops rest' ts code := by
  induction h with
  | nil => exact .nil
  | blank hi _ ih => exact .blank hi ih
  | @token t l ts cs hl hs _ ih =>
    refine .token hl (fun hk d hd hstop => hs hk d ?_ hstop) ih
    cases cs with
    | nil => exact hr d hd hstop
    | cons c cs => exact hd

end Spelt

/-! ## Lines of a script -/

/-- What stands behind the code of a line. -/
def IsTail (tail : List Char) : Prop := tail = [] ∨ tail = ['\r'] ∨ startsComment tail

/-- The code of the first line gives its tokens, between those that say how deep it is and where it ends. -/
theorem lexLines_cons_spelt {stops : List Char} (hstops : ∀ d ∈ stops, d = '/' ∨ d = '*') {pos : Nat}
    {levels : List Nat} {raw : List Char} {lines : List (List Char)} {ts : List Token} (hn : '\n' ∉ raw)
    (hts : '*' ∈ stops → StarFree ts) (h : lexLines pos levels (raw :: lines) = .ok ts) :
    ∃ code tail front us back pos' levels' ts', raw = code ++ tail ∧ IsTail tail ∧ Spelt stops tail us code ∧
      ts = front ++ us ++ back ++ ts' ∧ (∀ t ∈ front ++ back, t.kind.isWord = false) ∧
      lexLines pos' levels' lines = .ok ts' := by
  obtain ⟨back, hraw, hback⟩ : ∃ back, raw = dropReturn raw ++ back ∧ (back = [] ∨ back = ['\r']) :=
    (dropReturn_cases raw).elim (fun h => ⟨[], by simpa using h, .inl rfl⟩) fun h => ⟨['\r'], h, .inr rfl⟩
  rcases lexLines_cases raw with hskip | ⟨indent, body, hr, hi, hb⟩
  · rw [lexLines_skip hskip] at h
    have hsplit := (List.takeWhile_append_dropWhile (p := isIndent) (l := dropReturn raw)).symm
    refine ⟨(dropReturn raw).takeWhile isIndent, (dropReturn raw).dropWhile isIndent ++ back, [], [], [], _, _, ts,
      ?_, ?_, ?_, rfl, by simp, h⟩
    · rw [← List.append_assoc, ← hsplit]
      exact hraw
    · rcases Bool.or_eq_true_iff.1 hskip with he | hc
      · rw [List.isEmpty_iff.1 he]
        exact hback.elim .inl fun hb => .inr (.inl hb)
      · exact .inr (.inr (startsComment_append hc back))
    · simpa using Spelt.blanks (List.all_eq_true.1 List.all_takeWhile) (.nil : Spelt stops _ [] [])
  · rw [lexLines_begins hr hi hb] at h
    obtain ⟨⟨front, levels'⟩, hf, h⟩ := bind_eq_ok.1 h
    obtain ⟨us, hs, h⟩ := bind_eq_ok.1 h
    obtain ⟨ts', hl, h⟩ := bind_eq_ok.1 h
    obtain rfl := pure_eq_ok.1 h
    obtain ⟨-, kinds, hk, hind⟩ := indentation_eq_ok hf
    have hfront := (Prod.mk.inj (Except.ok.inj (hf.symm.trans (hind _)))).1
    have hbody : '\n' ∉ body := fun m => hn (by rw [hraw, hr]; simp [m])
    have hus : '*' ∈ stops → StarFree us := fun hm => (hts hm).left_of_append.right_of_append
    obtain ⟨code, comment, rfl, hc, hspelt⟩ := scanLine_spelt hstops (Nat.le_refl _) hbody hus hs
    refine ⟨indent ++ code, comment ++ back, front, us, [⟨.newline, _, _⟩], _, _, ts', ?_, ?_, ?_,
      (List.append_assoc (front ++ us) [_] ts').symm, ?_, hl⟩
    · rw [hraw, hr]
      simp
    · rcases hc with rfl | hc
      · exact hback.elim .inl fun hb => .inr (.inl hb)
      · exact .inr (.inr (startsComment_append hc back))
    · refine Spelt.blanks hi (hspelt.of_head? fun d hd hstop => ?_)
      cases comment with
      | nil =>
        rcases hback with rfl | rfl
        · exact hd
        · obtain rfl : '\r' = d := by simpa using hd
          rcases hstops _ hstop with e | e <;> cases e
      | cons c cs => exact hd
    · rw [hfront]
      simp only [List.forall_mem_append, List.forall_mem_map, List.forall_mem_singleton]
      exact ⟨hk, rfl⟩

end LiveSketch.Script

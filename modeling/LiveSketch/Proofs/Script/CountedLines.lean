import LiveSketch.Proofs.Script.Delimiting
import LiveSketch.Proofs.Script.WithoutSemicolons
import LiveSketch.Proofs.Sketch.CommandStarts
import LiveSketch.Proofs.Sketch.HeaderRows

/-!
# A semicolon in front of a loop

Lines are `Semicoloned` if a semicolon is put in front of a loop at the start of one of them. The tokens are the same but
for the semicolon (`Semicoloned.tokens`), the lexer accepts the ones just if it accepts the others
(`Semicoloned.accepted`), and so their programs are the same (`compile_semicoloned`).
-/
namespace LiveSketch.Script

open Lexer
open LiveSketch.Script.Parser
open Sketch (leadText scan_lead begins_lead begins_of_scans scans_repeat scans_semicolon)
open Sketch (leads_of_layout)
open Text (byteLength byteLength_append byteLength_cons splitLines)

/-- The head of a loop with this numeral. -/
def repeatHead (numeral : List Char) : List Char := "repeat".toList ++ ' ' :: (numeral ++ [' ', '-', '>'])

/-- The second lines are the first ones with a semicolon in front of a loop, behind the indentation of its line and the
report that `v` has there. -/
inductive Semicoloned (v : View) (i : Nat) (numeral : List Char) : List (List Char) → List (List Char) → Prop where
  | here {indent body : List Char} {lines : List (List Char)} : (∀ c ∈ indent, isIndent c) →
      Semicoloned v i numeral ((indent ++ (leadText v i ++ (repeatHead numeral ++ body))) :: lines)
        ((indent ++ (leadText v i ++ ';' :: (repeatHead numeral ++ body))) :: lines)
  | line {raw : List Char} {lines lines' : List (List Char)} : Semicoloned v i numeral lines lines' →
      Semicoloned v i numeral (raw :: lines) (raw :: lines')

variable {v : View} {i : Nat} {numeral : List Char} {lines lines' : List (List Char)}

/-! ## Tokens -/

theorem repeatHead_append (numeral body : List Char) :
    repeatHead numeral ++ body = "repeat".toList ++ ' ' :: (numeral ++ ' ' :: '-' :: '>' :: body) :=
  (List.append_assoc "repeat".toList _ _).trans
    (congrArg (fun more => "repeat".toList ++ ' ' :: more) (List.append_assoc numeral _ body))

theorem scans_repeatHead (numeral body : List Char) : ∃ rest, repeatHead numeral ++ body = "repeat".toList ++ rest ∧
    Scans false (.ident "repeat") "repeat".toList rest :=
  ⟨_, repeatHead_append numeral body, scans_repeat _⟩

theorem begins_repeatHead (numeral body : List Char) : Begins (repeatHead numeral ++ body) := by
  obtain ⟨rest, he, hs⟩ := scans_repeatHead numeral body
  exact he ▸ begins_of_scans hs

/-- The end of the line is behind the loop. -/
theorem dropReturn_repeatHead (numeral body : List Char) : ∃ body', ∀ front, dropReturn (front ++ (repeatHead numeral ++ body)) =
    front ++ (repeatHead numeral ++ body') := by
  obtain ⟨body', hbody⟩ : ∃ body', dropReturn ('>' :: body) = '>' :: body' := by
    cases body with
    | nil => exact ⟨[], rfl⟩
    | cons c body => exact ⟨dropReturn (c :: body), dropReturn_append ['>'] (List.cons_ne_nil c body)⟩
  have hsplit : ∀ front body, front ++ (repeatHead numeral ++ body) =
      (front ++ ("repeat".toList ++ ' ' :: (numeral ++ [' ', '-']))) ++ '>' :: body := fun front body => by
    rw [repeatHead_append]
    generalize "repeat".toList = word
    simp only [List.append_assoc, List.cons_append, List.nil_append]
  exact ⟨body', fun front => by rw [hsplit, dropReturn_append _ (List.cons_ne_nil _ _), hbody, hsplit]⟩

/-- Whether the lexer accepts lines does not hang on where they stand. -/
theorem exists_lexLines {pos : Nat} {levels : List Nat} {ts : List Token} (h : lexLines pos levels lines = .ok ts) (pos' : Nat) :
    ∃ us, lexLines pos' levels lines = .ok us := by
  induction lines generalizing pos pos' levels ts with
  | nil => exact ⟨_, rfl⟩
  | cons raw lines ih =>
    rcases lexLines_cases raw with hskip | ⟨indent, body, hr, hi, hb⟩
    · rw [lexLines_skip hskip] at h ⊢
      exact ih h _
    · obtain ⟨kinds, levels', us, ts', hk, hs, hl, -⟩ := (lexLines_begins_iff hr hi hb).1 h
      obtain ⟨us', hs', -⟩ := scan_alike (lexed_iff.2 hs) (pos' + indent.length)
      obtain ⟨ts'', hl'⟩ := ih hl (pos' + byteLength raw + 1)
      exact ⟨_, (lexLines_begins_iff hr hi hb).2 ⟨kinds, levels', us', ts'', hk, lexed_iff.1 hs', hl', rfl⟩⟩

theorem parted_glyphs (prev : TokenKind) (before : Nat) (ts : List Token) :
    Parted prev (glyphs before ts) (glyphs before ts) := by
  induction ts generalizing prev before with
  | nil => exact .nil
  | cons t ts ih => exact .keep (ih _ _)

/-- Behind the same tokens, the last of which leads. -/
theorem parted_append {us vs vs' : List Token} {prev : TokenKind} {before : Nat} (hprev : us = [] → prev.leads)
    (hlast : ∀ t ∈ us.getLast?, t.kind.leads)
    (h : ∀ {k : TokenKind} {stop : Nat}, k.leads → Parted k (glyphs stop vs) (glyphs stop vs')) :
    Parted prev (glyphs before (us ++ vs)) (glyphs before (us ++ vs')) := by
  induction us generalizing prev before with
  | nil => exact h (hprev rfl)
  | cons t us ih =>
    refine .keep (ih (fun he => hlast t (by rw [he]; rfl)) fun s hs => hlast s ?_)
    rw [List.getLast?_cons, hs]
    rfl

/-- A name with a semicolon in front of it, and what stands behind it one byte further on. -/
theorem parted_moved {k : TokenKind} (hk : k.leads) {word : String} (hword : word ≠ "if") {p stop stop' : Nat} {ts : List Token} :
    Parted k (glyphs stop (⟨.ident word, p, stop'⟩ :: ts))
      (glyphs stop (⟨.semicolon, p, p + 1⟩ :: List.map (Token.moved 1) (⟨.ident word, p, stop'⟩ :: ts))) := by
  have hrest : glyphs (stop' + 1) (ts.map (Token.moved 1)) = glyphs stop' ts := glyphs_moved 1 stop' ts
  rw [List.map_cons, Token.moved, glyphs, glyphs, glyphs, hrest, decide_eq_false (Nat.lt_irrefl (p + 1))]
  exact .put hk hword (parted_glyphs _ _ _)

/-- The last token in front of the loop is one of the indentation, or it ends the report. -/
theorem leads_of_isLead {lead : List Token} (hlead : v.IsLead i lead) {kinds : List TokenKind}
    (hk : ∀ kind ∈ kinds, kind.isWord = false) {pos : Nat} :
    ∀ t ∈ (kinds.map (fun kind => (⟨kind, pos, pos⟩ : Token)) ++ lead).getLast?, t.kind.leads := by
  intro t ht
  cases v with
  | loops count =>
    obtain rfl : lead = [] := hlead
    rw [List.append_nil] at ht
    obtain ⟨kind, hkind, rfl⟩ := List.mem_map.1 (List.mem_of_getLast? ht)
    exact leads_of_layout (hk kind hkind)
  | reports =>
    obtain ⟨_, _, _, _, _, e, rfl, -, -, -, -, -, -, he⟩ := hlead
    rw [List.getLast?_append, List.getLast?_cons] at ht
    obtain rfl : e = t := by simpa using ht
    rw [he]
    rfl

theorem Semicoloned.tokens_here {indent body : List Char} (hi : ∀ c ∈ indent, isIndent c) {pos : Nat} {levels : List Nat}
    {ts : List Token}
    (h : lexLines pos levels ((indent ++ (leadText v i ++ (repeatHead numeral ++ body))) :: lines) = .ok ts) :
    ∃ ts', lexLines pos levels ((indent ++ (leadText v i ++ ';' :: (repeatHead numeral ++ body))) :: lines) = .ok ts' ∧
      ∀ {prev : TokenKind} {before : Nat}, prev.leads → Parted prev (glyphs before ts) (glyphs before ts') := by
  obtain ⟨body', hdrop⟩ := dropReturn_repeatHead numeral body
  have hr : dropReturn (indent ++ (leadText v i ++ (repeatHead numeral ++ body))) =
      indent ++ (leadText v i ++ (repeatHead numeral ++ body')) := by
    rw [← List.append_assoc, hdrop, List.append_assoc]
  obtain ⟨kinds, levels', us, ts', hk, hs, -, rfl⟩ :=
    (lexLines_begins_iff hr hi (begins_lead v i (begins_repeatHead numeral body'))).1 h
  -- the word of the loop is the first token behind the report
  obtain ⟨lead, hlead, hscan⟩ := scan_lead v i (pos + indent.length) (repeatHead numeral ++ body')
  obtain ⟨rest, hhead, hword⟩ := scans_repeatHead numeral body'
  rw [← lexed_iff, hscan, hhead, scan_scans hword] at hs
  obtain ⟨words, hwords, rfl⟩ := map_eq_ok.1 hs
  obtain ⟨us, -, rfl⟩ := map_eq_ok.1 hwords
  have hplace : pos + byteLength (indent ++ leadText v i) = pos + indent.length + byteLength (leadText v i) := by
    rw [byteLength_append, byteLength_indent hi, Nat.add_assoc]
  rw [← hplace] at h ⊢
  simp only [List.append_assoc, List.cons_append] at h ⊢
  rw [← List.append_assoc, ← List.append_assoc _ lead] at h
  rw [← List.append_assoc _ lead]
  generalize hp : pos + byteLength (indent ++ leadText v i) = p at h ⊢
  have hput := lexLines_delimited_line .semicolon h ⟨_, rfl, .inr ⟨rfl, hp.symm⟩⟩ (by simp [Parser.stepOp?])
  rw [List.append_assoc indent, List.append_assoc indent] at hput
  refine ⟨_, hput, fun hprev => parted_append (fun _ => hprev) (leads_of_isLead hlead hk.1) fun hk => ?_⟩
  rw [hp]
  refine parted_moved hk ?_
  decide

/-- What becomes of the tokens. -/
theorem Semicoloned.tokens (h : Semicoloned v i numeral lines lines') :
    ∀ {pos : Nat} {levels : List Nat} {ts : List Token}, lexLines pos levels lines = .ok ts →
      ∃ ts', lexLines pos levels lines' = .ok ts' ∧
        ∀ {prev : TokenKind} {before : Nat}, prev.leads → Parted prev (glyphs before ts) (glyphs before ts') := by
  induction h with
  | here hi => exact fun h => tokens_here hi h
  | @line raw lines lines' h ih =>
    intro pos levels ts hts
    rcases lexLines_cases raw with hskip | ⟨indent, body, hr, hi, hb⟩
    · rw [lexLines_skip hskip] at hts ⊢
      exact ih hts
    · obtain ⟨kinds, levels', us, ts₂, hk, hs, hl, rfl⟩ := (lexLines_begins_iff hr hi hb).1 hts
      obtain ⟨ts₂', hl', hparted⟩ := ih hl
      refine ⟨_, (lexLines_begins_iff hr hi hb).2 ⟨kinds, levels', us, ts₂', hk, hs, hl', rfl⟩, fun _ => ?_⟩
      rw [List.append_cons, List.append_cons _ _ ts₂']
      exact parted_append (by simp) (by simp [TokenKind.leads]) hparted

/-- The lexer accepts the first lines if it accepts the others. -/
theorem Semicoloned.accepted (h : Semicoloned v i numeral lines lines') :
    ∀ {pos : Nat} {levels : List Nat} {ts' : List Token}, lexLines pos levels lines' = .ok ts' →
      ∃ ts, lexLines pos levels lines = .ok ts := by
  induction h with
  | @here indent body lines hi =>
    intro pos levels ts' h
    obtain ⟨body', hdrop⟩ := dropReturn_repeatHead numeral body
    have hr : dropReturn (indent ++ (leadText v i ++ (repeatHead numeral ++ body))) =
        indent ++ (leadText v i ++ (repeatHead numeral ++ body')) := by
      rw [← List.append_assoc, hdrop, List.append_assoc]
    have hr' : dropReturn (indent ++ (leadText v i ++ ';' :: (repeatHead numeral ++ body))) =
        indent ++ (leadText v i ++ ';' :: (repeatHead numeral ++ body')) := by
      have hsplit : ∀ body, indent ++ (leadText v i ++ ';' :: (repeatHead numeral ++ body)) =
          (indent ++ (leadText v i ++ [';'])) ++ (repeatHead numeral ++ body) := fun body => by simp
      rw [hsplit, hdrop, hsplit]
    have hbegins : Begins (leadText v i ++ ';' :: (repeatHead numeral ++ body')) :=
      begins_lead v i (begins_of_scans (scans_semicolon false _))
    obtain ⟨kinds, levels', us, ts₂, hk, hs, hl, -⟩ := (lexLines_begins_iff hr' hi hbegins).1 h
    -- the code behind the semicolon is accepted one byte further on
    obtain ⟨lead', -, hscan'⟩ := scan_lead v i (pos + indent.length) (';' :: (repeatHead numeral ++ body'))
    have hsemicolon := scan_scans (scans_semicolon false (repeatHead numeral ++ body'))
      (pos + indent.length + byteLength (leadText v i))
    rw [List.singleton_append] at hsemicolon
    rw [← lexed_iff, hscan', hsemicolon] at hs
    obtain ⟨words, hwords, -⟩ := map_eq_ok.1 hs
    obtain ⟨us', hus', -⟩ := map_eq_ok.1 hwords
    obtain ⟨us'', hus'', -⟩ := scan_alike hus' (pos + indent.length + byteLength (leadText v i))
    obtain ⟨lead, -, hscan⟩ := scan_lead v i (pos + indent.length) (repeatHead numeral ++ body')
    obtain ⟨ts₂', hl'⟩ := exists_lexLines hl (pos + byteLength (indent ++ (leadText v i ++ (repeatHead numeral ++ body))) + 1)
    refine ⟨_, (lexLines_begins_iff hr hi (begins_lead v i (begins_repeatHead numeral body'))).2
      ⟨kinds, levels', lead ++ us'', ts₂', hk, lexed_iff.1 ?_, hl', rfl⟩⟩
    rw [hscan]
    exact congrArg (fun found => (lead ++ ·) <$> found) hus''
  | @line raw lines lines' h ih =>
    intro pos levels ts' hts
    rcases lexLines_cases raw with hskip | ⟨indent, body, hr, hi, hb⟩
    · rw [lexLines_skip hskip] at hts ⊢
      exact ih hts
    · obtain ⟨kinds, levels', us, ts₂', hk, hs, hl', -⟩ := (lexLines_begins_iff hr hi hb).1 hts
      obtain ⟨ts₂, hl⟩ := ih hl'
      exact ⟨_, (lexLines_begins_iff hr hi hb).2 ⟨kinds, levels', us, ts₂, hk, hs, hl, rfl⟩⟩

/-! ## Programs -/

/-- A text has the program of another if the grammar derives the same from it. -/
theorem compile_of_derives {text text' : List Char} {ts ts' : List Token} (hlex : lex text = .ok ts) (hlex' : lex text' = .ok ts')
    (hderives : ∀ {stmts}, DerivesProgram (glyphs 0 ts) stmts → DerivesProgram (glyphs 0 ts') stmts) {p : Program}
    (h : compile text = .ok p) : compile text' = .ok p := by
  obtain ⟨stmts, hparse, hlower⟩ := bind_eq_ok.1 (mapError_eq_ok.1 h)
  obtain ⟨ts₁, hts, hprogram⟩ := bind_eq_ok.1 hparse
  obtain rfl : ts₁ = ts := Except.ok.inj (hts.symm.trans hlex)
  obtain ⟨stmts', hprogram', he⟩ := Parser.program_of_derivesProgram (nested_lex hlex') (ordered_lex hlex')
    (hderives ((Parser.program_iff (nested_lex hlex) (ordered_lex hlex)).1 ⟨stmts, hprogram, rfl⟩))
  rw [compile, parse, hlex', ok_bind, hprogram', ok_bind, lower_of_erase he hlower]
  rfl

/-- Texts with such lines have the same program. -/
theorem compile_semicoloned {text text' : List Char} (h : Semicoloned v i numeral (splitLines text) (splitLines text'))
    (p : Program) : compile text = .ok p ↔ compile text' = .ok p := by
  constructor
  · intro hp
    obtain ⟨stmts, hparse, -⟩ := bind_eq_ok.1 (mapError_eq_ok.1 hp)
    obtain ⟨ts, hlex, -⟩ := bind_eq_ok.1 hparse
    obtain ⟨ts', hlex', hparted⟩ := h.tokens hlex
    exact compile_of_derives hlex hlex' (fun hd => hd.parted (hparted rfl)) hp
  · intro hp
    obtain ⟨stmts, hparse, -⟩ := bind_eq_ok.1 (mapError_eq_ok.1 hp)
    obtain ⟨ts', hlex', -⟩ := bind_eq_ok.1 hparse
    obtain ⟨ts, hlex⟩ := h.accepted hlex'
    obtain ⟨ts₁, hts₁, hparted⟩ := h.tokens hlex
    obtain rfl : ts₁ = ts' := Except.ok.inj (hts₁.symm.trans hlex')
    exact compile_of_derives hlex' hlex (fun hd => hd.of_parted (hparted rfl)) hp

end LiveSketch.Script

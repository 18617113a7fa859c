import LiveSketch.Proofs.Script.Boundaries
import LiveSketch.Proofs.Script.Mirrors
import LiveSketch.Proofs.Sketch.HeaderRows

/-!
# Texts with the same lines

When two lists of lines differ only in lines without code, in blanks behind the code of a line and in the numbers of
reports, their tokens mirror each other (`SameLines`). There is a lemma for each kind of line that they may begin
with. Where a line ends matters to a sign at its end, so the signs need operands behind them (`OperandsFollow`),
as they have in every program.
-/
namespace LiveSketch.Script

open Lexer
open LiveSketch.Script.Parser
open Sketch (leadText report scan_lead begins_lead)
open Text (byteLength byteLength_append isBlank isQuote)

/-! ## A blank at the end of a line -/

theorem startsComment_pad (c : Char) (cs : List Char) : startsComment (c :: (cs ++ [' '])) = startsComment (c :: cs) := by
  by_cases hc : c = '#'
  · rw [hc]
    rfl
  by_cases hs : c = '/'
  · subst hs
    cases cs with
    | nil => rfl
    | cons d cs => by_cases hd : d = '/' <;> simp [startsComment, hd]
  · rw [startsComment_cons hc hs, startsComment_cons hc hs]

theorem Lexed.pad {pos : Nat} {afterName : Bool} {cs : List Char} {ts : List Token} (h : Lexed pos afterName cs ts) :
    Lexed pos afterName (cs ++ [' ']) ts := by
  induction h with
  | nil => exact .blank rfl .nil
  | blank hi _ ih => exact .blank hi ih
  | comment hc => exact .comment (startsComment_append hc [' '])
  | @lexeme _ _ _ _ rest _ hs hw _ ih =>
    have hf : SameFront rest (rest ++ [' ']) := by
      cases rest with
      | nil => exact .inr (by simp [endsLexeme, isIndent])
      | cons c rest => exact .inl rfl
    rw [List.append_assoc]
    exact .lexeme (hs.of_front hf) hw ih

/-! ## Lines of two texts -/

variable {g : Float → Float} {lines lines' : List (List Char)}

/-- Wherever the lines stand, tokens of the first in which operands follow the operators are mirrored by those of
the second. -/
def SameLines (g : Float → Float) (lines lines' : List (List Char)) : Prop :=
  ∀ ⦃pos levels ts⦄ (pos' : Nat), lexLines pos levels lines = .ok ts → OperandsFollow ts →
    ∃ us, lexLines pos' levels lines' = .ok us ∧ Mirrors g ts us

theorem mirrors_layout {kinds : List TokenKind} (hk : ∀ kind ∈ kinds, kind.isWord = false)
    {ts us : List Token} (h : Mirrors g ts us) (p p' : Nat) :
    Mirrors g (kinds.map (⟨·, p, p⟩) ++ ts) (kinds.map (⟨·, p', p'⟩) ++ us) := by
  induction kinds with
  | nil => exact h
  | cons kind kinds ih =>
    rw [List.forall_mem_cons] at hk
    exact .layout hk.1 rfl (ih hk.2)

namespace SameLines

theorem nil (g : Float → Float) : SameLines g [] [] := by
  intro pos levels ts pos' h _
  cases h
  have hend : ∀ p : Nat, List.replicate levels.length (⟨.dedent, p, p⟩ : Token) =
      (List.replicate levels.length TokenKind.dedent).map (⟨·, p, p⟩) := fun p => by rw [List.map_replicate]
  refine ⟨_, rfl, ?_⟩
  rw [hend, hend]
  exact mirrors_layout (fun kind hk => by rw [List.eq_of_mem_replicate hk]; rfl) (.eof rfl rfl) _ _

/-- A line without code. -/
def IsIdle (raw : List Char) : Prop :=
  ((dropReturn raw).dropWhile isIndent).isEmpty || startsComment ((dropReturn raw).dropWhile isIndent)

theorem idle_right {raw : List Char} (hraw : IsIdle raw) (h : SameLines g lines lines') :
    SameLines g lines (raw :: lines') := by
  intro pos levels ts pos' hts ho
  rw [lexLines_skip hraw]
  exact h _ hts ho

theorem idle_left {raw : List Char} (hraw : IsIdle raw) (h : SameLines g lines lines') :
    SameLines g (raw :: lines) lines' := by
  intro pos levels ts pos' hts ho
  rw [lexLines_skip hraw] at hts
  exact h _ hts ho

/-- On both lines something stands, at the same depth. -/
theorem begins {raw raw' indent text text' : List Char} (hr : dropReturn raw = indent ++ text)
    (hr' : dropReturn raw' = indent ++ text') (hi : ∀ c ∈ indent, isIndent c) (hb : Begins text)
    (hb' : Begins text')
    (hscan : ∀ {pos : Nat} {ts : List Token} (pos' : Nat), scan pos false text = .ok ts →
      ∃ us, scan pos' false text' = .ok us ∧ ∀ {rest rest' : List Token} {t u : Token}, t.kind = .newline →
        u.kind = .newline → t.start = pos + byteLength text → u.start = pos' + byteLength text' →
          OperandsFollow (ts ++ t :: rest) → Mirrors g rest rest' → Mirrors g (ts ++ t :: rest) (us ++ u :: rest'))
    (h : SameLines g lines lines') : SameLines g (raw :: lines) (raw' :: lines') := by
  intro pos levels ts pos' hts ho
  rw [lexLines_begins hr hi hb] at hts
  rw [lexLines_begins hr' hi hb']
  obtain ⟨⟨front, levels'⟩, hf, hts⟩ := bind_eq_ok.1 hts
  obtain ⟨words, hs, hts⟩ := bind_eq_ok.1 hts
  obtain ⟨rest, hl, hts⟩ := bind_eq_ok.1 hts
  obtain rfl := pure_eq_ok.1 hts
  obtain ⟨-, kinds, hk, hind⟩ := indentation_eq_ok hf
  obtain rfl := (Prod.mk.inj (Except.ok.inj (hf.symm.trans (hind _)))).1
  rw [List.append_assoc] at ho
  obtain ⟨words', hs', hmirror⟩ := hscan (pos' + indent.length) hs
  obtain ⟨rest', hl', hm⟩ := h (pos' + byteLength raw' + 1) hl ho.right_of_append.right_of_append.tail
  refine ⟨_, by simp only [hind, ok_bind, hs', hl']; rfl, ?_⟩
  rw [List.append_assoc, List.append_assoc]
  exact mirrors_layout hk (hmirror rfl rfl rfl rfl ho.right_of_append hm) _ _

/-- What may stand behind the code of a line in the second text. -/
def IsPad (pad : List Char) : Prop := pad = [] ∨ pad = [' ']

theorem endsAlike {a b : Nat} {ts rest : List Token} {t u : Token} (ho : OperandsFollow (ts ++ t :: rest)) :
    EndsAlike a b ts t u := by
  refine .inr ?_
  have hchain : OperandsFollow (ts ++ [t]) := by
    rw [List.append_cons] at ho
    exact ho.left_of_append
  refine hchain.imp fun t u hu hs => ?_
  have hoperand : u.kind.opensOperand := hu (by revert hs; cases t.kind <;> simp [TokenKind.isSign])
  revert hoperand
  cases u.kind <;> simp [TokenKind.opensOperand, TokenKind.isWord]

/-- Code with a blank behind it has the same tokens. -/
theorem scan_pad {text pad : List Char} (hpad : IsPad pad) {pos : Nat} {ts : List Token} (pos' : Nat)
    (h : scan pos false text = .ok ts) :
    ∃ us, scan pos' false (text ++ pad) = .ok us ∧ ∀ {rest rest' : List Token} {t u : Token}, t.kind = .newline →
      u.kind = .newline → OperandsFollow (ts ++ t :: rest) → Mirrors g rest rest' →
        Mirrors g (ts ++ t :: rest) (us ++ u :: rest') := by
  obtain ⟨us, hus, hend⟩ := scan_alike h pos'
  refine ⟨us, ?_, fun ht hu ho hm => .line (hend ht hu (endsAlike ho)) hm⟩
  rcases hpad with rfl | rfl
  · rwa [List.append_nil]
  · exact lexed_iff.2 (lexed_iff.1 hus).pad

theorem begins_pad {text pad : List Char} (hpad : IsPad pad) (hb : Begins text) : Begins (text ++ pad) := by
  obtain ⟨c, cs, rfl, hi, hc⟩ := hb
  refine ⟨c, cs ++ pad, rfl, hi, ?_⟩
  rcases hpad with rfl | rfl
  · rwa [List.append_nil]
  · exact (startsComment_pad c cs).trans hc

theorem dropReturn_pad {raw pad : List Char} (hpad : IsPad pad) (hr : pad ≠ [] → dropReturn raw = raw) :
    dropReturn (raw ++ pad) = dropReturn raw ++ pad := by
  rcases hpad with rfl | rfl
  · rw [List.append_nil, List.append_nil]
  · rw [hr (by simp), dropReturn_append raw (by simp)]
    rfl

theorem IsIdle.pad {raw raw' pad : List Char} (hpad : IsPad pad) (hr : dropReturn raw' = dropReturn raw ++ pad)
    (h : IsIdle raw) : IsIdle raw' := by
  rw [IsIdle, hr]
  rcases hpad with rfl | rfl
  · rwa [List.append_nil]
  · rw [IsIdle] at h
    rw [List.dropWhile_append]
    cases hd : (dropReturn raw).dropWhile isIndent with
    | nil => rfl
    | cons c cs =>
      rw [hd] at h
      have hcomment : startsComment (c :: (cs ++ [' '])) := by simpa [startsComment_pad] using h
      simp [hcomment]

/-- The same line up to its end, in the second text perhaps with a blank behind it. -/
theorem line {pad raw raw' : List Char} (hpad : IsPad pad) (hr : dropReturn raw' = dropReturn raw ++ pad)
    (h : SameLines g lines lines') : SameLines g (raw :: lines) (raw' :: lines') := by
  rcases lexLines_cases raw with hskip | ⟨indent, text, htext, hi, hb⟩
  · exact idle_left hskip (idle_right (IsIdle.pad hpad hr hskip) h)
  · refine begins htext (by rw [hr, htext, List.append_assoc]) hi hb (begins_pad hpad hb) (fun pos' hs => ?_) h
    obtain ⟨us, hus, hmirror⟩ := scan_pad hpad pos' hs
    exact ⟨us, hus, fun ht hu _ _ => hmirror ht hu⟩

/-- The same line, in the second text perhaps with a blank behind it. -/
theorem cons {pad : List Char} (hpad : IsPad pad) (raw : List Char) (hret : pad ≠ [] → dropReturn raw = raw)
    (h : SameLines g lines lines') : SameLines g (raw :: lines) ((raw ++ pad) :: lines') :=
  line hpad (dropReturn_pad hpad hret) h

theorem begins_report (i : Nat) (rest : List Char) : Begins (leadText .reports i ++ rest) := by
  rw [leadText, Sketch.report_eq]
  simp only [List.append_assoc]
  exact Sketch.begins_of_scans (Sketch.scans_semicolon false _)

theorem dropReturn_report (front : List Char) (i : Nat) (body : List Char) :
    dropReturn (front ++ (leadText .reports i ++ body)) = front ++ (leadText .reports i ++ dropReturn body) := by
  have hblank : dropReturn (' ' :: body) = ' ' :: dropReturn body := by
    cases body with
    | nil => rfl
    | cons c cs => exact dropReturn_append [' '] (List.cons_ne_nil c cs)
  rw [dropReturn_append front (by simp [leadText]), leadText, List.append_assoc, List.append_assoc,
    List.singleton_append, dropReturn_append _ (List.cons_ne_nil _ _), hblank]
  rfl

/-- A line up to its end with a report in front of its code. -/
theorem reportLine {pad raw raw' : List Char} (hpad : IsPad pad) {i j : Nat} {front body : List Char}
    (hg : g (numeral j) = g (numeral i)) (hfront : ∀ c ∈ front, isBlank c)
    (hraw : dropReturn raw = front ++ (leadText .reports i ++ body))
    (hraw' : dropReturn raw' = front ++ (leadText .reports j ++ (body ++ pad))) (h : SameLines g lines lines') :
    SameLines g (raw :: lines) (raw' :: lines') := by
  intro pos levels ts pos' hts ho
  refine begins hraw hraw' (isIndent_of_lexLines hraw hfront hts) (begins_report i _) (begins_report j _)
    (fun {start words} start' hs => ?_) h pos' hts ho
  obtain ⟨lead, hlead, hscan⟩ := scan_lead .reports i start body
  obtain ⟨lead', hlead', hscan'⟩ := scan_lead .reports j start' (body ++ pad)
  rw [hscan] at hs
  obtain ⟨ts, hbody, rfl⟩ := map_eq_ok.1 hs
  obtain ⟨us, hus, hmirror⟩ := scan_pad hpad (start' + byteLength (leadText .reports j)) hbody
  refine ⟨lead' ++ us, by rw [hscan', hus]; rfl, fun ht hu _ _ hfollow hm => ?_⟩
  rw [List.append_assoc] at hfollow
  rw [List.append_assoc, List.append_assoc]
  exact .report hlead hlead' hg (hmirror ht hu hfollow.right_of_append hm)

end SameLines

/-- Texts with the same lines have the same program up to the numbers of reports. -/
theorem compile_sameLines {text text' : List Char} {p : Program}
    (h : SameLines g (Text.splitLines text) (Text.splitLines text')) (hp : compile text = .ok p) :
    ∃ p', compile text' = .ok p' ∧ p'.renumber g = p.renumber g := by
  obtain ⟨stmts, hparse, hlower⟩ := bind_eq_ok.1 (mapError_eq_ok.1 hp)
  obtain ⟨ts, hlex, hprogram⟩ := bind_eq_ok.1 hparse
  obtain ⟨-, ho⟩ := program_matched (nested_lex hlex) hprogram
  obtain ⟨us, hus, hm⟩ := h 0 hlex ho
  obtain ⟨stmts', hprogram', hs⟩ := program_mirrors hm hprogram
  obtain ⟨p', hlower', hp'⟩ := lower_renumber hs hlower
  have hlex' : lex text' = .ok us := hus
  refine ⟨p', ?_, hp'⟩
  rw [compile, parse, hlex', ok_bind, hprogram', ok_bind, hlower']
  rfl

end LiveSketch.Script

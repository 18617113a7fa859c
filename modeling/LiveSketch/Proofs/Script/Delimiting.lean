import LiveSketch.Proofs.Script.Boundaries
import LiveSketch.Proofs.Script.Glyphs

/-!
# A delimiter between two tokens

A semicolon or a parenthesis is put into a text where a token stops or starts. Then it is one more token there: those
in front of it stay as they are, those behind it stand one byte further on (`lex_delimited`).
-/
namespace LiveSketch.Script

open Lexer
open Text (byteLength byteLength_append byteLength_cons byteLength_pos splitLines)

/-! ## Tokens further on -/

/-- The token `n` bytes further on. -/
def Token.moved (n : Nat) (t : Token) : Token := ⟨t.kind, t.start + n, t.stop + n⟩

@[simp] theorem Token.moved_kind (n : Nat) (t : Token) : (t.moved n).kind = t.kind := rfl

theorem glyphs_moved (n before : Nat) (ts : List Token) :
    glyphs (before + n) (ts.map (Token.moved n)) = glyphs before ts := by
  induction ts generalizing before with
  | nil => rfl
  | cons t ts ih =>
    have hb : (before + n < t.start + n) ↔ before < t.start := by omega
    simp [glyphs, Token.moved, hb, ih]

theorem Lexed.moved {pos : Nat} {afterName : Bool} {cs : List Char} {ts : List Token} (h : Lexed pos afterName cs ts)
    (n : Nat) : Lexed (pos + n) afterName cs (ts.map (Token.moved n)) := by
  induction h with
  | nil => exact .nil
  | blank hi _ ih =>
    refine .blank hi ?_
    rwa [Nat.add_right_comm]
  | comment hc => exact .comment hc
  | lexeme hs hw _ ih =>
    rw [List.map_cons, Token.moved, Nat.add_right_comm]
    refine .lexeme hs hw ?_
    rwa [Nat.add_right_comm]

theorem lexLines_moved {pos : Nat} {levels : List Nat} {lines : List (List Char)} {ts : List Token} (hpos : 0 < pos)
    (h : lexLines pos levels lines = .ok ts) (n : Nat) :
    lexLines (pos + n) levels lines = .ok (ts.map (Token.moved n)) := by
  induction lines generalizing pos levels ts with
  | nil =>
    cases h
    have hstop : pos + n - 1 = pos - 1 + n := by omega
    simp [lexLines, Token.moved, hstop]
  | cons raw lines ih =>
    have hnext : ∀ m k : Nat, m + n + k = m + k + n := fun m k => Nat.add_right_comm _ _ _
    rcases lexLines_cases raw with hskip | ⟨indent, body, hr, hi, hb⟩
    · rw [lexLines_skip hskip] at h ⊢
      have hrest := ih (by omega) h
      rwa [hnext, hnext]
    · obtain ⟨kinds, levels', us, ts', hk, hs, hl, rfl⟩ := (lexLines_begins_iff hr hi hb).1 h
      have hrest := ih (by omega) hl
      refine (lexLines_begins_iff hr hi hb).2 ⟨kinds, levels', us.map (Token.moved n), ts'.map (Token.moved n), hk,
        hnext pos _ ▸ hs.moved n, ?_, ?_⟩
      · rwa [hnext, hnext]
      · simp [Token.moved, Function.comp_def, hnext]

/-! ## The place of a delimiter -/

/-- A lexeme stops at this byte, the last of the first tokens, or starts there, the first of the others. -/
def Meets (p : Nat) (us vs : List Token) : Prop :=
  ∃ t : Token, t.kind.isWord ∧ (t ∈ us.getLast? ∧ t.stop = p ∨ t ∈ vs.head? ∧ t.start = p)

namespace Meets

variable {p : Nat} {us vs ts ts' : List Token}

/-- Tokens in front of those that meet. -/
theorem drop_left (h : Meets p us vs) (he : ts ++ ts' = us ++ vs)
    (hts : ∀ t ∈ ts, t.kind.isWord → t.start ≠ p ∧ t.stop ≠ p) :
    ∃ us', us = ts ++ us' ∧ ts' = us' ++ vs ∧ Meets p us' vs := by
  obtain ⟨t, hw, ht⟩ := h
  obtain ⟨us', rfl, rfl⟩ : ∃ us', us = ts ++ us' ∧ ts' = us' ++ vs := by
    rcases List.append_eq_append_iff.1 he with h | ⟨rest, rfl, rfl⟩
    · exact h
    cases rest with
    | nil => exact ⟨[], by simp, rfl⟩
    | cons u rest =>
      exfalso
      rcases ht with ⟨hlast, hstop⟩ | ⟨hhead, hstart⟩
      · exact (hts t (List.mem_append_left _ (List.mem_of_getLast? hlast)) hw).2 hstop
      · cases hhead
        exact (hts t (by simp) hw).1 hstart
  refine ⟨us', rfl, rfl, t, hw, ht.imp_left ?_⟩
  rintro ⟨hlast, hstop⟩
  cases us' with
  | nil =>
    rw [List.append_nil] at hlast
    exact absurd hstop (hts t (List.mem_of_getLast? hlast) hw).2
  | cons u us' => exact ⟨by rwa [List.getLast?_append_of_ne_nil _ (by simp)] at hlast, hstop⟩

/-- Tokens behind those that meet. -/
theorem drop_right (h : Meets p us vs) (he : ts ++ ts' = us ++ vs)
    (hts : ∀ t ∈ ts', t.kind.isWord → t.start ≠ p ∧ t.stop ≠ p) :
    ∃ vs', ts = us ++ vs' ∧ vs = vs' ++ ts' ∧ Meets p us vs' := by
  obtain ⟨t, hw, ht⟩ := h
  obtain ⟨vs', rfl, rfl⟩ : ∃ vs', ts = us ++ vs' ∧ vs = vs' ++ ts' := by
    rcases List.append_eq_append_iff.1 he with ⟨rest, rfl, rfl⟩ | h
    · cases rest with
      | nil => exact ⟨[], by simp, rfl⟩
      | cons u rest =>
        exfalso
        rcases ht with ⟨hlast, hstop⟩ | ⟨hhead, hstart⟩
        · rw [List.getLast?_append_of_ne_nil _ (by simp)] at hlast
          exact (hts t (List.mem_append_left _ (List.mem_of_getLast? hlast)) hw).2 hstop
        · exact (hts t (List.mem_append_right _ (List.mem_of_head? hhead)) hw).1 hstart
    · exact h
  refine ⟨vs', rfl, rfl, t, hw, ht.imp_right ?_⟩
  rintro ⟨hhead, hstart⟩
  cases vs' with
  | nil => exact absurd hstart (hts t (List.mem_of_head? hhead) hw).1
  | cons v vs' => exact ⟨hhead, hstart⟩

end Meets

theorem Lexed.ordered {pos : Nat} {afterName : Bool} {cs : List Char} {ts : List Token} (h : Lexed pos afterName cs ts) :
    Ordered pos ts := by
  have hnil : Ordered (pos + byteLength cs) [] := trivial
  have ho := ordered_scanLine (lexed_iff.2 h) hnil
  rwa [List.append_nil] at ho

theorem Lexed.isWord {pos : Nat} {afterName : Bool} {cs : List Char} {ts : List Token} (h : Lexed pos afterName cs ts) :
    ∀ t ∈ ts, t.kind.isWord :=
  isWord_of_scanLine (lexed_iff.2 h)

/-- All of a line's tokens stand on it. -/
theorem Lexed.within {pos : Nat} {afterName : Bool} {cs : List Char} {ts : List Token} (h : Lexed pos afterName cs ts) :
    ∀ t ∈ ts, pos ≤ t.start ∧ t.start < t.stop ∧ t.stop ≤ pos + byteLength cs := by
  induction h with
  | nil | comment => simp
  | blank _ _ ih =>
    intro t ht
    have := ih t ht
    rw [byteLength_cons]
    omega
  | lexeme hs _ _ ih =>
    obtain ⟨c, cs, rfl, -⟩ := hs
    have hpos := byteLength_pos (List.cons_ne_nil c cs)
    rw [byteLength_append]
    rw [List.forall_mem_cons]
    refine ⟨⟨Nat.le_refl _, Nat.lt_add_of_pos_right hpos, by dsimp only; omega⟩, fun t ht => ?_⟩
    have := ih t ht
    omega

theorem Ordered.stop_le {before : Nat} {t : Token} {us vs : List Token} (h : Ordered before (us ++ t :: vs)) :
    before ≤ t.start ∧ t.start ≤ t.stop ∧ ∀ s ∈ us, s.stop ≤ t.start := by
  induction us generalizing before with
  | nil => exact ⟨h.1, h.2.1, by simp⟩
  | cons u us ih =>
    obtain ⟨hu, ht, hrest⟩ := ih h.2.2.2
    have hb := h.1
    have hs := h.2.1
    exact ⟨by omega, ht, List.forall_mem_cons.2 ⟨hu, hrest⟩⟩

theorem Meets.stop_le {before p : Nat} {us vs : List Token} (h : Meets p us vs) (ho : Ordered before (us ++ vs)) :
    ∀ s ∈ us, s.stop ≤ p := by
  obtain ⟨t, -, ⟨hlast, rfl⟩ | ⟨hhead, rfl⟩⟩ := h
  · obtain ⟨us', rfl⟩ := List.getLast?_eq_some_iff.1 hlast
    rw [List.append_assoc] at ho
    obtain ⟨-, ht, hle⟩ := ho.stop_le
    simp only [List.forall_mem_append, List.forall_mem_singleton]
    exact ⟨fun s hs => Nat.le_trans (hle s hs) ht, Nat.le_refl _⟩
  · obtain ⟨vs', rfl⟩ := List.head?_eq_some_iff.1 hhead
    exact ho.stop_le.2.2

/-- Behind the first of the tokens. -/
theorem Meets.tail {kind : TokenKind} {pos stop : Nat} {mid : List Char} {us vs : List Token}
    (h : Meets (stop + byteLength mid) (⟨kind, pos, stop⟩ :: us) vs) : mid = [] ∨ Meets (stop + byteLength mid) us vs := by
  obtain ⟨t, hw, ⟨hlast, hstop⟩ | ht⟩ := h
  · cases us with
    | nil =>
      cases hlast
      refine .inl ?_
      by_contra hne
      have hpos := byteLength_pos hne
      have hstop : stop = stop + byteLength mid := hstop
      omega
    | cons u us => exact .inr ⟨t, hw, .inl ⟨by simpa using hlast, hstop⟩⟩
  · exact .inr ⟨t, hw, .inr ht⟩

/-- A line is cut where a lexeme stops or starts, in front of something that goes on with none. -/
theorem Lexed.cut {pos : Nat} {afterName : Bool} {front back : List Char} {us vs : List Token}
    (h : Lexed pos afterName (front ++ back) (us ++ vs)) (hus : ∀ s ∈ us, s.stop ≤ pos + byteLength front)
    (hm : front = [] ∨ Meets (pos + byteLength front) us vs) :
    ∃ afterName', Lexed (pos + byteLength front) afterName' back vs ∧
      ∀ {back' vs'}, (∀ d ∈ back'.head?, endsLexeme d) → Lexed (pos + byteLength front) afterName' back' vs' →
        Lexed pos afterName (front ++ back') (us ++ vs') := by
  generalize hn : front.length = n
  induction n using Nat.strong_induction_on generalizing pos afterName front us with
  | _ n ih =>
    have hwithin := h.within
    cases front with
    | nil =>
      obtain rfl : us = [] := List.eq_nil_iff_forall_not_mem.2 fun s hs => by
        have hle : s.stop ≤ pos := hus s hs
        have := hwithin s (List.mem_append_left _ hs)
        omega
      exact ⟨afterName, h, fun _ h => h⟩
    | cons c front =>
      replace hm := hm.resolve_left (List.cons_ne_nil c front)
      rw [List.length_cons] at hn
      generalize hcs : c :: front ++ back = cs, hts : us ++ vs = ts at h
      cases h with
      | nil => cases hcs
      | blank hi h =>
        cases hcs
        subst hts
        rw [byteLength_cons, ← Nat.add_assoc] at hm hus ⊢
        obtain ⟨afterName', hv, hback⟩ := ih _ (by omega) h hus (.inr hm) rfl
        exact ⟨afterName', hv, fun hd hv' => .blank hi (hback hd hv')⟩
      | comment hc =>
        obtain ⟨rfl, rfl⟩ := List.append_eq_nil_iff.1 hts
        obtain ⟨t, -, ht⟩ := hm
        simp at ht
      | @lexeme _ _ kind text rest ts hs hw h =>
        have hpos := byteLength_pos (List.cons_ne_nil c front)
        cases us with
        | nil =>
          obtain ⟨t, -, ht⟩ := hm
          subst hts
          obtain ⟨h, -⟩ | ⟨h, hstart⟩ := ht
          · cases h
          · cases h
            dsimp only at hstart
            omega
        | cons u us =>
          obtain ⟨rfl, rfl⟩ := List.cons.inj hts
          have hle : byteLength text ≤ byteLength (c :: front) := by
            have := hus _ List.mem_cons_self
            dsimp only at this
            omega
          obtain ⟨mid, he, rfl⟩ := Text.exists_append_of_byteLength_le hcs.symm hle
          have hlt : mid.length < n := by
            obtain ⟨d, ds, rfl, -⟩ := hs
            have := congrArg List.length he
            simp at this
            omega
          rw [he, byteLength_append, ← Nat.add_assoc] at hm hus ⊢
          obtain ⟨afterName', hv, hback⟩ := ih _ hlt h (fun s hs => hus s (List.mem_cons_of_mem _ hs)) hm.tail rfl
          refine ⟨afterName', hv, fun {back' vs'} hd hv' => ?_⟩
          rw [List.append_assoc]
          have hf : SameFront back back' := .inr hd
          exact .lexeme (hs.of_front (hf.prepend mid)) hw (hback hd hv')

/-! ## A delimiter on a line -/

/-- The delimiters that can be put in, with their tokens. -/
inductive Delimiter : Char → TokenKind → Prop where
  | semicolon : Delimiter ';' .semicolon
  | opening : Delimiter '(' .leftParen
  | closing : Delimiter ')' .rightParen

namespace Delimiter

variable {d : Char} {kind : TokenKind}

theorem endsLexeme (h : Delimiter d kind) : endsLexeme d := by
  cases h <;> rfl

theorem utf8Size (h : Delimiter d kind) : d.utf8Size = 1 := by
  cases h <;> rfl

theorem scans (h : Delimiter d kind) (afterName : Bool) (rest : List Char) : Scans afterName kind [d] rest := by
  refine scans_single (by cases h <;> rfl) fun e _ => ?_
  cases h <;> simp [pairOperator?, stepOperator?]

end Delimiter

/-- Only a step depends on what stands in front of it. -/
theorem Scans.apart {afterName : Bool} {kind : TokenKind} {text rest : List Char} (h : Scans afterName kind text rest)
    (hk : Parser.stepOp? kind = none) : Scans false kind text rest := by
  cases afterName with
  | false => exact h
  | true =>
    obtain ⟨c, cs, rfl, hi, hc, ht⟩ := h
    refine ⟨c, cs, rfl, hi, hc, fun pos => ?_⟩
    have h := ht pos
    unfold scanToken at h ⊢
    split
    · rename_i hn
      rwa [if_pos hn] at h
    rename_i hn
    rw [if_neg hn] at h
    split
    · rename_i hname
      rwa [if_pos hname] at h
    rename_i hname
    rw [if_neg hname] at h
    split
    · rename_i hq
      rwa [if_pos hq] at h
    rename_i hq
    rw [if_neg hq] at h
    suffices hsame : scanOperator false (c :: (cs ++ rest)) = scanOperator true (c :: (cs ++ rest)) by rwa [hsame]
    cases hrest : cs ++ rest with
    | nil => rfl
    | cons e es =>
      rw [hrest] at h
      cases hstep : stepOperator? c e with
      | none => simp [scanOperator, hstep]
      | some k =>
        simp only [scanOperator, hstep, if_true, Option.some_or, Except.ok.injEq, Scanned.mk.injEq] at h
        obtain ⟨rfl, -⟩ := h
        unfold stepOperator? at hstep
        split at hstep <;> cases hstep <;> cases hk

theorem Lexed.apart {pos : Nat} {afterName : Bool} {cs : List Char} {ts : List Token} (h : Lexed pos afterName cs ts)
    (hk : ∀ t ∈ ts.head?, Parser.stepOp? t.kind = none) : Lexed pos false cs ts := by
  cases h with
  | nil => exact .nil
  | blank hi h => exact .blank hi h
  | comment hc => exact .comment hc
  | lexeme hs hw h => exact .lexeme (hs.apart (hk _ rfl)) hw h

theorem Lexed.delimited {d : Char} {kind : TokenKind} (hd : Delimiter d kind) {pos : Nat} {afterName : Bool}
    {front back : List Char} {us vs : List Token} (h : Lexed pos afterName (front ++ back) (us ++ vs))
    (hm : Meets (pos + byteLength front) us vs) (hk : ∀ t ∈ vs.head?, Parser.stepOp? t.kind = none) :
    Lexed pos afterName (front ++ d :: back)
      (us ++ ⟨kind, pos + byteLength front, pos + byteLength front + 1⟩ :: vs.map (Token.moved 1)) := by
  obtain ⟨afterName', hback, hput⟩ := h.cut (hm.stop_le h.ordered) (.inr hm)
  have hword : kind.isWord ∧ isName kind = false ∧ byteLength [d] = 1 := by
    cases hd <;> exact ⟨rfl, rfl, rfl⟩
  have hrest := (hback.apart hk).moved 1
  rw [← hword.2.1, ← hword.2.2] at hrest
  have hput' := hput (by simpa using hd.endsLexeme) (.lexeme (hd.scans _ _) hword.1 hrest)
  rwa [hword.2.2] at hput'

/-! ## A delimiter in a text -/

/-- The lexemes of a text stand on its lines. -/
theorem start_of_lexLines {pos : Nat} {levels : List Nat} {lines : List (List Char)} {ts : List Token}
    (h : lexLines pos levels lines = .ok ts) : ∀ t ∈ ts, t.kind.isWord → pos ≤ t.start ∧ t.start < t.stop := by
  induction lines generalizing pos levels ts with
  | nil =>
    cases h
    intro t ht hw
    simp only [List.mem_append, List.mem_replicate, List.mem_singleton] at ht
    rcases ht with ⟨-, rfl⟩ | rfl <;> cases hw
  | cons raw lines ih =>
    intro t ht hw
    rcases lexLines_cases raw with hskip | ⟨indent, body, hr, hi, hb⟩
    · rw [lexLines_skip hskip] at h
      have := ih h t ht hw
      omega
    · obtain ⟨kinds, levels', us, ts', hk, hs, hl, rfl⟩ := (lexLines_begins_iff hr hi hb).1 h
      simp only [List.append_assoc, List.mem_append, List.mem_cons, List.mem_map] at ht
      rcases ht with ⟨kind, hkind, rfl⟩ | hus | rfl | hrest
      · rw [hk.1 kind hkind] at hw
        cases hw
      · have := hs.within t hus
        omega
      · cases hw
      · have := ih hl t hrest hw
        omega

theorem splitLines_prepend {front back line : List Char} {lines : List (List Char)} (hn : '\n' ∉ front)
    (h : splitLines back = line :: lines) : splitLines (front ++ back) = (front ++ line) :: lines := by
  induction front with
  | nil => exact h
  | cons c front ih =>
    have hc : (c == '\n') = false := by simpa using fun e : c = '\n' => hn (e ▸ List.mem_cons_self)
    simp [splitLines, hc, ih fun m => hn (List.mem_cons_of_mem _ m)]

theorem Begins.delimited {d : Char} {kind : TokenKind} (hd : Delimiter d kind) {front back : List Char}
    (h : Begins (front ++ back)) : Begins (front ++ d :: back) := by
  obtain ⟨c, cs, he, hi, hc⟩ := h
  cases front with
  | nil => cases hd <;> exact ⟨_, _, rfl, rfl, rfl⟩
  | cons e front =>
    obtain ⟨rfl, rfl⟩ := List.cons.inj he
    have hf : SameFront back (d :: back) := .inr (by simpa using hd.endsLexeme)
    exact ⟨_, _, rfl, hi, startsComment_front hc hf⟩

/-- The end of a line is dropped or kept, whatever has been put in front of it. -/
theorem dropReturn_delimited {d : Char} {kind : TokenKind} (hd : Delimiter d kind) {front body tail : List Char}
    (h : dropReturn (front ++ (body ++ tail)) = front ++ body) (ht : tail = [] ∨ tail = ['\r']) :
    dropReturn (front ++ d :: (body ++ tail)) = front ++ d :: body := by
  rcases ht with rfl | rfl
  · rw [List.append_nil] at h ⊢
    cases body with
    | nil =>
      rw [dropReturn, if_neg]
      cases hd <;> simp
    | cons c body =>
      rw [dropReturn_append _ (by simp)] at h
      rw [← List.singleton_append, ← List.append_assoc, dropReturn_append _ (by simp), List.append_cancel_left h]
  · rw [← List.cons_append, ← List.append_assoc, dropReturn_append _ (by simp)]
    simp [dropReturn]

/-- The delimiter on the first line. -/
theorem lexLines_delimited_line {d : Char} {kind : TokenKind} (hd : Delimiter d kind) {front back : List Char}
    {lines : List (List Char)} {pos : Nat} {levels : List Nat} {us vs : List Token}
    (h : lexLines pos levels ((front ++ back) :: lines) = .ok (us ++ vs)) (hm : Meets (pos + byteLength front) us vs)
    (hk : ∀ t ∈ vs.head?, Parser.stepOp? t.kind = none) :
    lexLines pos levels ((front ++ d :: back) :: lines) =
      .ok (us ++ ⟨kind, pos + byteLength front, pos + byteLength front + 1⟩ :: vs.map (Token.moved 1)) := by
  have hlater : ∀ {levels' ts'}, lexLines (pos + byteLength (front ++ back) + 1) levels' lines = .ok ts' →
      ∀ t ∈ ts', t.kind.isWord → t.start ≠ pos + byteLength front ∧ t.stop ≠ pos + byteLength front := by
    intro levels' ts' hl t ht hw
    have := start_of_lexLines hl t ht hw
    rw [byteLength_append] at this
    omega
  rcases lexLines_cases (front ++ back) with hskip | ⟨indent, body, hr, hi, hb⟩
  · -- no lexeme stands on a line that does not count
    exfalso
    rw [lexLines_skip hskip] at h
    obtain ⟨t, hw, ⟨ht, hstop⟩ | ⟨ht, hstart⟩⟩ := hm
    · exact (hlater h t (List.mem_append_left _ (List.mem_of_getLast? ht)) hw).2 hstop
    · exact (hlater h t (List.mem_append_right _ (List.mem_of_head? ht)) hw).1 hstart
  · obtain ⟨kinds, levels', ws, ts', hind, hs, hl, he⟩ := (lexLines_begins_iff hr hi hb).1 h
    rw [List.append_assoc] at he
    obtain ⟨us, rfl, he', hmeets⟩ := hm.drop_left he.symm fun t ht hw => by
      obtain ⟨kind, hkind, rfl⟩ := List.mem_map.1 ht
      rw [hind.1 kind hkind] at hw
      cases hw
    obtain ⟨vs, rfl, rfl, hplace⟩ := hmeets.drop_right he' fun t ht hw => by
      rcases List.mem_cons.1 ht with rfl | ht
      · cases hw
      · exact hlater hl t ht hw
    -- the front of the line ends in its body
    obtain ⟨hfront, hbody⟩ : byteLength indent ≤ byteLength front ∧
        byteLength front ≤ byteLength indent + byteLength body := by
      rw [byteLength_indent hi]
      obtain ⟨t, hw, ⟨ht, hstop⟩ | ⟨ht, hstart⟩⟩ := hplace
      · have := hs.within t (List.mem_append_left _ (List.mem_of_getLast? ht))
        omega
      · have := hs.within t (List.mem_append_right _ (List.mem_of_head? ht))
        omega
    obtain ⟨tail, hraw, htail⟩ : ∃ tail, front ++ back = dropReturn (front ++ back) ++ tail ∧ (tail = [] ∨ tail = ['\r']) :=
      (dropReturn_cases _).elim (fun h => ⟨[], by simpa using h, .inl rfl⟩) fun h => ⟨['\r'], h, .inr rfl⟩
    rw [hr, List.append_assoc] at hraw
    obtain ⟨mid, rfl, hmid⟩ := Text.exists_append_of_byteLength_le hraw.symm hfront
    rw [byteLength_append] at hbody
    obtain ⟨body, rfl, rfl⟩ := Text.exists_append_of_byteLength_le hmid.symm (by omega)
    rw [byteLength_append, byteLength_indent hi, ← Nat.add_assoc] at hplace ⊢
    have hline := hs.delimited hd hplace fun t ht => hk t (by
      obtain ⟨vs, rfl⟩ := List.head?_eq_some_iff.1 ht
      rfl)
    have hr' := dropReturn_delimited hd (by rw [hr, List.append_assoc]) htail
    simp only [List.append_assoc] at hr' ⊢
    have hlength : byteLength (indent ++ (mid ++ d :: (body ++ tail))) =
        byteLength (indent ++ (mid ++ (body ++ tail))) + 1 := by
      simp only [byteLength_append, byteLength_cons, hd.utf8Size]
      omega
    have hlength' : byteLength (mid ++ d :: body) = byteLength (mid ++ body) + 1 := by
      simp only [byteLength_append, byteLength_cons, hd.utf8Size]
      omega
    refine (lexLines_begins_iff hr' hi (hb.delimited hd)).2 ⟨kinds, levels', _, ts'.map (Token.moved 1), hind, hline, ?_, ?_⟩
    · rw [List.append_assoc] at hl
      rw [hlength]
      exact lexLines_moved (Nat.succ_pos _) hl 1
    · rw [hlength, hlength']
      simp [Token.moved, Nat.add_assoc]

theorem lexLines_delimited {d : Char} {kind : TokenKind} (hd : Delimiter d kind) {front back : List Char} {pos : Nat}
    {levels : List Nat} {us vs : List Token} (h : lexLines pos levels (splitLines (front ++ back)) = .ok (us ++ vs))
    (hm : Meets (pos + byteLength front) us vs) (hk : ∀ t ∈ vs.head?, Parser.stepOp? t.kind = none) :
    lexLines pos levels (splitLines (front ++ d :: back)) =
      .ok (us ++ ⟨kind, pos + byteLength front, pos + byteLength front + 1⟩ :: vs.map (Token.moved 1)) := by
  generalize hn : front.length = n
  induction n using Nat.strong_induction_on generalizing pos levels front us with
  | _ n ih =>
    rcases Text.firstLine_cases front with hfirst | ⟨rest, hfirst⟩
    · have hnl : '\n' ∉ front := by
        rw [hfirst]
        exact Text.newline_notMem_firstLine front
      have hd' : '\n' ≠ d := by cases hd <;> decide
      obtain ⟨lines, hlines⟩ := Text.splitLines_eq_cons back
      have hsplit : splitLines (d :: back) = (d :: back.takeWhile (· != '\n')) :: lines :=
        (splitLines_prepend (by simpa using hd') hlines : splitLines ([d] ++ back) = _)
      rw [splitLines_prepend hnl hlines] at h
      rw [splitLines_prepend hnl hsplit]
      exact lexLines_delimited_line hd h hm hk
    · have hnl := Text.newline_notMem_firstLine front
      generalize front.takeWhile (· != '\n') = line at hfirst hnl
      subst hfirst
      rw [List.append_assoc, List.cons_append, Text.splitLines_append hnl] at h ⊢
      have hpos : pos + byteLength (line ++ '\n' :: rest) = pos + byteLength line + 1 + byteLength rest := by
        rw [byteLength_append, byteLength_cons, show '\n'.utf8Size = 1 from rfl]
        omega
      rw [hpos] at hm ⊢
      have hlt : rest.length < n := by
        simp at hn
        omega
      rcases lexLines_cases line with hskip | ⟨indent, body, hr, hi, hb⟩
      · rw [lexLines_skip hskip] at h ⊢
        exact ih _ hlt h hm rfl
      · obtain ⟨kinds, levels', ws, ts', hind, hs, hl, he⟩ := (lexLines_begins_iff hr hi hb).1 h
        have hline : indent.length + byteLength body ≤ byteLength line := by
          obtain ⟨tail, htail⟩ := dropReturn_prefix line
          rw [← htail, hr, byteLength_append, byteLength_append, byteLength_indent hi]
          omega
        have he' : kinds.map (⟨·, pos + indent.length, pos + indent.length⟩) ++ ws ++
            [⟨.newline, pos + indent.length + byteLength body, pos + byteLength line⟩] ++ ts' = us ++ vs := by
          rw [he, List.append_assoc _ [_], List.singleton_append]
        obtain ⟨us, rfl, rfl, hmeets⟩ := hm.drop_left he' fun t ht hw => by
          simp only [List.mem_append, List.mem_map, List.mem_singleton] at ht
          rcases ht with (⟨kind, hkind, rfl⟩ | hws) | rfl
          · rw [hind.1 kind hkind] at hw
            cases hw
          · have := hs.within t hws
            omega
          · cases hw
        refine (lexLines_begins_iff hr hi hb).2 ⟨kinds, levels', ws, _, hind, hs, ih _ hlt hl hmeets rfl, ?_⟩
        simp only [List.append_assoc, List.cons_append, List.nil_append]

theorem lex_delimited {d : Char} {kind : TokenKind} (hd : Delimiter d kind) {front back : List Char}
    {us vs : List Token} (h : lex (front ++ back) = .ok (us ++ vs)) (hm : Meets (byteLength front) us vs)
    (hk : ∀ t ∈ vs.head?, Parser.stepOp? t.kind = none) : lex (front ++ d :: back) =
      .ok (us ++ ⟨kind, byteLength front, byteLength front + 1⟩ :: vs.map (Token.moved 1)) := by
  have h := lexLines_delimited hd (h : lexLines 0 [] _ = _) (by rwa [Nat.zero_add]) hk
  rwa [Nat.zero_add] at h

end LiveSketch.Script

import LiveSketch.Proofs.Script.Layout
import LiveSketch.Proofs.Script.Places
import LiveSketch.Proofs.Script.ReportTokens
import LiveSketch.Proofs.Sketch.Statements

/-!
# Lines at other places in a text

The scanner finds the same tokens on a line wherever the line stands (`scan_alike`), and so do the depths of
the open blocks (`indentation_eq_ok`). `scan` is the scanner with the fuel that it needs, which leaves an
equation for each thing that may stand at the front of a line.
-/
namespace LiveSketch.Script

open Lexer
open Text (byteLength isBlank)

/-- The tokens of a line from the byte `pos` on. -/
def scan (pos : Nat) (afterName : Bool) (cs : List Char) : Except Rejection (List Token) :=
  scanLine cs.length pos afterName cs

/-- More fuel than there are characters makes no difference. -/
theorem scanLine_eq_scan {fuel pos : Nat} {afterName : Bool} {cs : List Char} (hf : cs.length ≤ fuel) :
    scanLine fuel pos afterName cs = scan pos afterName cs := by
  have h : ∀ (fuel fuel' pos : Nat) (afterName : Bool) (cs : List Char), cs.length ≤ fuel →
      cs.length ≤ fuel' → scanLine fuel pos afterName cs = scanLine fuel' pos afterName cs := by
    intro fuel
    induction fuel with
    | zero =>
      intro fuel' pos afterName cs hf _
      obtain rfl := List.length_eq_zero_iff.1 (Nat.le_zero.1 hf)
      cases fuel' <;> rfl
    | succ fuel ih =>
      intro fuel' pos afterName cs hf hf'
      cases cs with
      | nil => cases fuel' <;> rfl
      | cons c cs =>
        rw [List.length_cons] at hf hf'
        obtain ⟨fuel', rfl⟩ : ∃ k, fuel' = k + 1 := ⟨fuel' - 1, by omega⟩
        rw [scanLine, scanLine, ih fuel' _ _ cs (by omega) (by omega)]
        cases hs : scanToken pos afterName c cs with
        | error r => rfl
        | ok s =>
          obtain ⟨hsplit, hne, -⟩ := scanToken_split hs
          have hlength := congrArg List.length hsplit
          have hpos := List.length_pos_iff.2 hne
          rw [List.length_append, List.length_cons] at hlength
          simp only [ok_bind, ih fuel' _ _ s.rest (by omega) (by omega)]
  exact h fuel cs.length pos afterName cs hf (Nat.le_refl _)

theorem scan_indent {c : Char} (hc : isIndent c) (pos : Nat) (afterName : Bool) (cs : List Char) :
    scan pos afterName (c :: cs) = scan (pos + c.utf8Size) false cs := by
  rw [scan, List.length_cons, scanLine, if_pos hc, scan]

theorem scan_scans {afterName : Bool} {kind : TokenKind} {text rest : List Char}
    (hs : Scans afterName kind text rest) (pos : Nat) : scan pos afterName (text ++ rest) =
      (⟨kind, pos, pos + byteLength text⟩ :: ·) <$> scan (pos + byteLength text) (isName kind) rest := by
  obtain ⟨c, cs, rfl, hi, hc, ht⟩ := hs
  have hrest : scanLine (cs ++ rest).length (pos + byteLength (c :: cs)) (isName kind) rest =
      scan (pos + byteLength (c :: cs)) (isName kind) rest := scanLine_eq_scan (by simp)
  rw [scan, List.cons_append, List.length_cons, scanLine, hi, hc, ht pos]
  simp only [Bool.false_eq_true, if_false, ok_bind, hrest]
  rfl

/-! ## Other places -/

theorem scanToken_pos {pos : Nat} {afterName : Bool} {c : Char} {cs : List Char} {s : Scanned TokenKind}
    (h : scanToken pos afterName c cs = .ok s) (pos' : Nat) : scanToken pos' afterName c cs = .ok s := by
  unfold scanToken at h ⊢
  split at h
  · rename_i hn
    rw [if_pos hn]
    split at h
    · exact h
    · cases h
  rename_i hn
  rw [if_neg hn]
  split at h
  · rename_i hname
    rw [if_pos hname]
    exact h
  rename_i hname
  rw [if_neg hname]
  split at h
  · rename_i hq
    rw [if_pos hq]
    split at h
    · exact h
    · cases h
  · rename_i hq
    rw [if_neg hq]
    split at h
    · exact h
    · cases h

theorem isWord_of_operator {c d : Char} {kind : TokenKind}
    (h : operator? c = some kind ∨ pairOperator? c d = some kind ∨ stepOperator? c d = some kind) :
    kind.isWord := by
  rcases h with h | h | h
  · unfold operator? at h
    split at h <;> cases h <;> rfl
  · unfold pairOperator? at h
    split at h <;> cases h <;> rfl
  · unfold stepOperator? at h
    split at h <;> cases h <;> rfl

/-- The scanner finds nothing that ends a line or indents it. -/
theorem isWord_of_scanToken {pos : Nat} {afterName : Bool} {c : Char} {cs : List Char} {s : Scanned TokenKind}
    (h : scanToken pos afterName c cs = .ok s) : s.value.isWord := by
  unfold scanToken at h
  split at h
  · split at h
    · cases h
      rfl
    · cases h
  split at h
  · cases h
    rfl
  split at h
  · split at h
    · cases h
      rfl
    · cases h
  · split at h
    · rename_i s' hs
      cases h
      unfold scanOperator at hs
      split at hs
      · cases hs
      · obtain ⟨kind, hk, rfl⟩ := Option.map_eq_some_iff.1 hs
        exact isWord_of_operator (d := ' ') (.inl hk)
      · split at hs
        · rename_i c d cs _ kind hk
          cases hs
          rcases Option.or_eq_some_iff.1 hk with hk | ⟨-, hk⟩
          · split at hk
            · exact isWord_of_operator (.inr (.inr hk))
            · cases hk
          · exact isWord_of_operator (.inr (.inl hk))
        · obtain ⟨kind, hk, rfl⟩ := Option.map_eq_some_iff.1 hs
          exact isWord_of_operator (d := ' ') (.inl hk)
    · cases h

theorem isWord_of_scanLine {fuel pos : Nat} {afterName : Bool} {cs : List Char} {ts : List Token}
    (h : scanLine fuel pos afterName cs = .ok ts) : ∀ t ∈ ts, t.kind.isWord := by
  induction fuel generalizing pos afterName cs ts with
  | zero => cases h; simp
  | succ fuel ih =>
    cases cs with
    | nil => cases h; simp
    | cons c cs =>
      rw [scanLine] at h
      split at h
      · exact ih h
      split at h
      · cases h; simp
      obtain ⟨s, hs, h⟩ := bind_eq_ok.1 h
      obtain ⟨rest, hr, h⟩ := bind_eq_ok.1 h
      obtain rfl := pure_eq_ok.1 h
      exact List.forall_mem_cons.2 ⟨isWord_of_scanToken hs, ih hr⟩

/-- What ends a line is as far from it, or something other than the end stands behind each sign on it. -/
def EndsAlike (a b : Nat) (ts : List Token) (t u : Token) : Prop :=
  t.start + b = u.start + a ∨ (ts ++ [t]).IsChain fun t u => t.kind.isSign → u.kind.isWord

theorem EndsAlike.tail {a b : Nat} {s t u : Token} {ts : List Token} (h : EndsAlike a b (s :: ts) t u) :
    EndsAlike a b ts t u :=
  h.imp_right fun h => List.IsChain.tail h

theorem Alike.eq_nil {a b : Nat} {t u : Token} {us rest rest' : List Token}
    (h : Alike a b rest rest' (t :: rest) (us ++ u :: rest')) (ht : t.kind = .newline) : us = [] := by
  have hlen : us.length = 0 := by
    generalize he : us ++ u :: rest' = l at h
    cases h with
    | newline =>
      have := congrArg List.length he
      simp only [List.length_append, List.length_cons] at this
      omega
    | word hw =>
      rw [ht] at hw
      cases hw
  exact List.eq_nil_of_length_eq_zero hlen

theorem scanLine_alike {a b fuel pos pos' : Nat} {afterName : Bool} {cs : List Char} {ts : List Token}
    (hp : pos + b = pos' + a) (h : scanLine fuel pos afterName cs = .ok ts) :
    ∃ us, scanLine fuel pos' afterName cs = .ok us ∧ ∀ {rest rest' t u}, t.kind = .newline → u.kind = .newline →
      EndsAlike a b ts t u → Alike a b rest rest' (ts ++ t :: rest) (us ++ u :: rest') := by
  induction fuel generalizing pos pos' afterName cs ts with
  | zero =>
    cases h
    exact ⟨[], rfl, fun ht hu _ => .newline ht hu⟩
  | succ fuel ih =>
    cases cs with
    | nil =>
      cases h
      exact ⟨[], rfl, fun ht hu _ => .newline ht hu⟩
    | cons c cs =>
      rw [scanLine] at h ⊢
      split at h
      · rename_i hi
        rw [if_pos hi]
        exact ih (by omega) h
      rename_i hi
      rw [if_neg hi]
      split at h
      · rename_i hc
        cases h
        exact ⟨[], by rw [if_pos hc], fun ht hu _ => .newline ht hu⟩
      · rename_i hc
        obtain ⟨s, hs, h⟩ := bind_eq_ok.1 h
        obtain ⟨ts', hts, h⟩ := bind_eq_ok.1 h
        obtain rfl := pure_eq_ok.1 h
        have hstop : pos + byteLength s.lexeme + b = pos' + byteLength s.lexeme + a := by omega
        obtain ⟨us, hus, hend⟩ := ih hstop hts
        refine ⟨⟨s.value, pos', pos' + byteLength s.lexeme⟩ :: us, ?_, fun {rest rest' t u} ht hu he =>
          .word (isWord_of_scanToken hs) rfl hp hstop (fun hsign => ?_) (hend ht hu he.tail)⟩
        · simp only [if_neg hc, scanToken_pos hs pos', ok_bind, hus]
          rfl
        · cases ts' with
          | nil =>
            have ha : Alike a b rest rest' (t :: rest) (us ++ u :: rest') := hend ht hu he.tail
            obtain rfl := ha.eq_nil ht
            exact he.elim id fun h => absurd (h.rel hsign) (by rw [ht]; exact Bool.false_ne_true)
          | cons x xs =>
            exact (hend ht hu he.tail).start (isWord_of_scanLine hts x List.mem_cons_self)

/-- A line has the same tokens at every place. -/
theorem scan_alike {a : Nat} {afterName : Bool} {cs : List Char} {ts : List Token}
    (h : scan a afterName cs = .ok ts) (b : Nat) :
    ∃ us, scan b afterName cs = .ok us ∧ ∀ {rest rest' t u}, t.kind = .newline → u.kind = .newline →
      EndsAlike a b ts t u → Alike a b rest rest' (ts ++ t :: rest) (us ++ u :: rest') :=
  scanLine_alike (Nat.add_comm a b) h

/-! ## Indentation -/

theorem headD_of_closeLevels {width : Nat} {levels levels' : List Nat} {k : Nat}
    (h : closeLevels width levels = some (levels', k)) : levels'.headD 0 = width := by
  induction levels generalizing k with
  | nil =>
    rw [closeLevels] at h
    split at h
    · rename_i hw
      cases h
      exact (beq_iff_eq.1 hw).symm
    · cases h
  | cons level levels ih =>
    rw [closeLevels] at h
    split at h
    · obtain ⟨found, hf, he⟩ := Option.map_eq_some_iff.1 h
      cases he
      exact ih hf
    split at h
    · rename_i hw
      cases h
      exact beq_iff_eq.1 hw
    · cases h

/-- The tokens in front of a line and the open levels behind it do not hang on where the line stands. -/
theorem indentation_eq_ok {width pos : Nat} {levels : List Nat} {found : List Token × List Nat}
    (h : indentation width pos levels = .ok found) :
    found.2.headD 0 = width ∧ ∃ kinds : List TokenKind, (∀ kind ∈ kinds, kind.isWord = false) ∧
      ∀ pos', indentation width pos' levels = .ok (kinds.map (⟨·, pos', pos'⟩), found.2) := by
  unfold indentation at h ⊢
  split at h
  · rename_i hw
    cases h
    exact ⟨rfl, [.indent], by simp [TokenKind.isWord], fun pos' => by rw [if_pos hw]; rfl⟩
  · rename_i hw
    split at h
    · rename_i levels' k hc
      cases h
      refine ⟨headD_of_closeLevels hc, List.replicate k .dedent, fun kind hk => ?_, fun pos' => ?_⟩
      · rw [List.eq_of_mem_replicate hk]
        rfl
      · rw [if_neg hw, List.map_replicate]
    · cases h

theorem indentation_deeper {width : Nat} {levels : List Nat} (h : levels.headD 0 < width) (pos : Nat) :
    indentation width pos levels = .ok ([⟨.indent, pos, pos⟩], width :: levels) := if_pos h

/-! ## One line of many -/

/-- Something other than a blank or a comment stands at the front of the line. -/
def Begins (body : List Char) : Prop :=
  ∃ c cs, body = c :: cs ∧ isIndent c = false ∧ startsComment body = false

theorem Begins.isWord {pos : Nat} {afterName : Bool} {body : List Char} {ts : List Token} (hb : Begins body)
    (h : scan pos afterName body = .ok ts) (rest : List Token) : (Parser.peekKind (ts ++ rest)).isWord := by
  obtain ⟨c, cs, rfl, hi, hc⟩ := hb
  rw [scan, List.length_cons, scanLine, hi, hc] at h
  simp only [Bool.false_eq_true, if_false] at h
  obtain ⟨s, hs, h⟩ := bind_eq_ok.1 h
  obtain ⟨ts', -, h⟩ := bind_eq_ok.1 h
  obtain rfl := pure_eq_ok.1 h
  exact isWord_of_scanToken hs

theorem lexLines_begins {raw indent body : List Char} (hr : dropReturn raw = indent ++ body)
    (hi : ∀ c ∈ indent, isIndent c) (hb : Begins body) (pos : Nat) (levels : List Nat)
    (lines : List (List Char)) : lexLines pos levels (raw :: lines) = (do
      let (front, levels) ← indentation indent.length (pos + indent.length) levels
      let tokens ← scan (pos + indent.length) false body
      let back : Token := ⟨.newline, pos + indent.length + byteLength body, pos + byteLength raw⟩
      return front ++ tokens ++ back :: (← lexLines (pos + byteLength raw + 1) levels lines)) := by
  obtain ⟨c, cs, rfl, hc, hs⟩ := hb
  have hhead : ∀ d ∈ (c :: cs).head?, isIndent d = false := by simpa using hc
  have htake := Text.takeWhile_append hi hhead
  have hdrop := Text.dropWhile_append hi hhead
  rw [lexLines, hr]
  simp only [htake, hdrop, hs, List.isEmpty_cons, Bool.or_self, Bool.false_eq_true, if_false, scan]

theorem lexLines_skip {raw : List Char} (h : ((dropReturn raw).dropWhile isIndent).isEmpty ||
      startsComment ((dropReturn raw).dropWhile isIndent)) (pos : Nat) (levels : List Nat)
    (lines : List (List Char)) :
    lexLines pos levels (raw :: lines) = lexLines (pos + byteLength raw + 1) levels lines := by
  rw [lexLines]
  simp only [h, if_true]

/-- A line is left out or begins with something. -/
theorem lexLines_cases (raw : List Char) :
    (((dropReturn raw).dropWhile isIndent).isEmpty || startsComment ((dropReturn raw).dropWhile isIndent)) ∨
      ∃ indent body, dropReturn raw = indent ++ body ∧ (∀ c ∈ indent, isIndent c) ∧ Begins body := by
  by_cases h : ((dropReturn raw).dropWhile isIndent).isEmpty ||
      startsComment ((dropReturn raw).dropWhile isIndent)
  · exact .inl h
  · refine .inr ⟨(dropReturn raw).takeWhile isIndent, (dropReturn raw).dropWhile isIndent,
      List.takeWhile_append_dropWhile.symm, List.all_eq_true.1 List.all_takeWhile, ?_⟩
    simp only [Bool.or_eq_true, not_or, Bool.not_eq_true] at h
    cases hd : (dropReturn raw).dropWhile isIndent with
    | nil =>
      rw [hd] at h
      cases h.1
    | cons c cs =>
      refine ⟨c, cs, rfl, ?_, hd ▸ h.2⟩
      have hhead := List.head?_dropWhile_not isIndent (dropReturn raw)
      rw [hd] at hhead
      simpa using hhead

theorem dropReturn_append (front : List Char) {back : List Char} (h : back ≠ []) :
    dropReturn (front ++ back) = front ++ dropReturn back := by
  unfold dropReturn
  rw [List.getLast?_append_of_ne_nil front h, List.dropLast_append_of_ne_nil h]
  split <;> rfl

theorem dropReturn_prefix (line : List Char) : dropReturn line <+: line := by
  unfold dropReturn
  split
  · exact List.dropLast_prefix line
  · exact List.prefix_rfl

theorem dropReturn_cases (raw : List Char) : raw = dropReturn raw ∨ raw = dropReturn raw ++ ['\r'] := by
  unfold dropReturn
  split
  · rename_i h
    obtain ⟨front, rfl⟩ := List.getLast?_eq_some_iff.1 (eq_of_beq h)
    exact .inr (by simp)
  · exact .inl rfl

theorem startsComment_append {front : List Char} (h : startsComment front) (back : List Char) :
    startsComment (front ++ back) := by
  unfold startsComment at h
  split at h
  · rfl
  · rfl
  · cases h

/-- The depth of a line turns these open levels into others, with tokens of these kinds in front of it. -/
def Indents (width : Nat) (levels : List Nat) (kinds : List TokenKind) (levels' : List Nat) : Prop :=
  (∀ kind ∈ kinds, kind.isWord = false) ∧
    ∀ pos, indentation width pos levels = .ok (kinds.map (⟨·, pos, pos⟩), levels')

/-- What the lexer has found on a line on which something stands. -/
theorem lexLines_begins_ok {raw indent body : List Char} {lines : List (List Char)} {pos : Nat}
    {levels : List Nat} {ts : List Token} (hr : dropReturn raw = indent ++ body)
    (hi : ∀ c ∈ indent, isIndent c) (hb : Begins body) (h : lexLines pos levels (raw :: lines) = .ok ts) :
    ∃ kinds levels', Indents indent.length levels kinds levels' ∧ levels'.headD 0 = indent.length ∧
      (∃ us, scan (pos + indent.length) false body = .ok us) ∧
      ∃ pos' ts', lexLines pos' levels' lines = .ok ts' := by
  rw [lexLines_begins hr hi hb] at h
  obtain ⟨⟨front, levels'⟩, hf, h⟩ := bind_eq_ok.1 h
  obtain ⟨us, hs, h⟩ := bind_eq_ok.1 h
  obtain ⟨ts', hl, -⟩ := bind_eq_ok.1 h
  obtain ⟨hhead, kinds, hk, hind⟩ := indentation_eq_ok hf
  exact ⟨kinds, levels', ⟨hk, hind⟩, hhead, ⟨us, hs⟩, _, ts', hl⟩

theorem startsComment_cons {c : Char} (hash : c ≠ '#') (hslash : c ≠ '/') (cs : List Char) :
    startsComment (c :: cs) = false := by
  unfold startsComment
  split
  · rename_i e
    exact absurd (List.cons.inj e).1 hash
  · rename_i e
    exact absurd (List.cons.inj e).1 hslash
  · rfl

theorem isNameStart_of_isBlank {c : Char} (h : isBlank c) : isNameStart c = false := by
  have hvalue : c.val.toNat ≤ 32 ∨ 133 ≤ c.val.toNat := by
    have hvalue : c.toNat ≤ 32 ∨ 133 ≤ c.toNat := by
      simp [isBlank, Text.blankRanges, Text.Range.contains] at h
      omega
    exact hvalue
  refine Bool.eq_false_iff.2 fun hn => ?_
  have hor : ((c.isUpper || c.isLower) || c == '_') = true := hn
  simp only [Bool.or_eq_true, beq_iff_eq] at hor
  rcases hor with (hu | hl) | rfl
  · have hA : 65 ≤ c.val.toNat := (of_decide_eq_true hu).1
    have hZ : c.val.toNat ≤ 90 := (of_decide_eq_true hu).2
    omega
  · have hand : (decide (c.val ≥ 'a'.val) && decide (c.val ≤ 'z'.val)) = true := hl
    have ha : 97 ≤ c.val.toNat := (of_decide_eq_true (Bool.and_eq_true _ _ ▸ hand).1 :)
    have hz : c.val.toNat ≤ 122 := (of_decide_eq_true (Bool.and_eq_true _ _ ▸ hand).2 :)
    omega
  · cases h

theorem operator_of_isBlank {c : Char} (h : isBlank c) :
    operator? c = none ∧ ∀ d, pairOperator? c d = none := by
  have hsymbols : ∀ d ∈ symbols, isBlank d = false := by
    simp only [symbols, List.mem_cons, List.not_mem_nil, or_false, forall_eq_or_imp, forall_eq]
    and_intros <;> decide
  have hc : c ∉ symbols := fun hm => by
    rw [hsymbols c hm] at h
    cases h
  exact ⟨Option.eq_none_iff_forall_ne_some.2 fun kind hk => hc (mem_symbols_of_operator? hk),
    fun d => Option.eq_none_iff_forall_ne_some.2 fun kind hk => hc (mem_symbols_of_pairOperator? hk)⟩

/-- No token begins with a blank. -/
theorem scanToken_blank {c : Char} (hb : isBlank c) (pos : Nat) (cs : List Char) :
    scanToken pos false c cs = .error ⟨pos, .unexpectedCharacter c⟩ := by
  have hne : ∀ d, isBlank d = false → c ≠ d := by
    rintro d hd rfl
    rw [hd] at hb
    cases hb
  have hquote : (c == '"' || c == '\x27') = false := by
    simp [hne '"' (by decide), hne '\x27' (by decide)]
  obtain ⟨hop, hpair⟩ := operator_of_isBlank hb
  have hscan : scanOperator false (c :: cs) = none := by
    cases cs with
    | nil => simp [scanOperator, hop]
    | cons d cs => simp [scanOperator, hop, hpair]
  simp only [scanToken, startsNumber_cons (hne '.' (by decide)), Sketch.isDigit_of_isBlank hb,
    isNameStart_of_isBlank hb, hquote, hscan, Bool.false_eq_true, if_false]

/-- The blanks in front of what the lexer can take apart are spaces and tabs. -/
theorem isIndent_of_lexLines {raw front body : List Char} {lines : List (List Char)} {pos : Nat}
    {levels : List Nat} {ts : List Token} (hr : dropReturn raw = front ++ body) (hb : ∀ c ∈ front, isBlank c)
    (h : lexLines pos levels (raw :: lines) = .ok ts) : ∀ c ∈ front, isIndent c := by
  by_contra hall
  have hsplit : front.takeWhile isIndent ++ front.dropWhile isIndent = front := List.takeWhile_append_dropWhile
  cases hd : front.dropWhile isIndent with
  | nil => exact hall (Text.all_of_dropWhile_eq_nil hd)
  | cons c cs =>
    have hc : isIndent c = false := by
      have hhead := List.head?_dropWhile_not isIndent front
      rw [hd] at hhead
      simpa using hhead
    have hblank : isBlank c := hb c (by rw [← hsplit, hd]; simp)
    have hcomment : startsComment (c :: (cs ++ body)) = false := by
      refine startsComment_cons ?_ ?_ _
      · rintro rfl
        cases hblank
      · rintro rfl
        cases hblank
    rw [← hsplit, hd, List.append_assoc] at hr
    obtain ⟨-, -, -, -, ⟨us, hs⟩, -⟩ := lexLines_begins_ok hr (List.all_eq_true.1 List.all_takeWhile)
      ⟨c, cs ++ body, rfl, hc, hcomment⟩ h
    rw [List.cons_append, scan, List.length_cons, scanLine, hc, hcomment, scanToken_blank hblank] at hs
    cases hs

end LiveSketch.Script

import LiveSketch.Proofs.Script.Derivations
import LiveSketch.Proofs.Script.Parentheses
import LiveSketch.Proofs.Script.Places
import LiveSketch.Proofs.Script.Totality

/-!
# What the parser reads

What the parser has read from tokens in their order the grammar derives from their glyphs
(`derivesProgram_of_program`). The induction is on the fuel, with a case for each function of the parser. `Takes` says
what a function has taken off the tokens and what is left of them.
-/
namespace LiveSketch.Script

/-- Whether a glyph stands within a line. -/
def Glyph.isWord : Glyph → Bool
  | .token kind _ => kind.isWord
  | _ => true

namespace Parser

variable {before : Nat} {ts rest : List Token}

/-- From the tokens `ts` behind `before` glyphs are taken of which `P` holds, and `rest` is left. -/
def Takes (before : Nat) (ts rest : List Token) (P : (words rest : List Glyph) → Prop) : Prop :=
  ∃ words stop, glyphs before ts = words ++ glyphs stop rest ∧ before ≤ stop ∧
    (∀ g ∈ words, g.isWord → before < stop) ∧ Ordered stop rest ∧ P words (glyphs stop rest)

theorem Takes.mono {P Q : List Glyph → List Glyph → Prop} (h : Takes before ts rest P)
    (hpq : ∀ words rest, glyphs before ts = words ++ rest → P words rest → Q words rest) : Takes before ts rest Q := by
  obtain ⟨words, stop, hg, hb, hw, ho, hp⟩ := h
  exact ⟨words, stop, hg, hb, hw, ho, hpq _ _ hg hp⟩

theorem takes_nil {P : List Glyph → List Glyph → Prop} (ho : Ordered before ts) (hp : P [] (glyphs before ts)) :
    Takes before ts ts P :=
  ⟨[], before, rfl, Nat.le_refl _, by simp, ho, hp⟩

/-- One function after another. -/
theorem Takes.bind {mid : List Token} {P Q : List Glyph → List Glyph → Prop} (h : Takes before ts mid P)
    (hnext : ∀ words stop, Ordered stop mid → glyphs before ts = words ++ glyphs stop mid → P words (glyphs stop mid) →
      Takes stop mid rest fun more rest => Q (words ++ more) rest) : Takes before ts rest Q := by
  obtain ⟨words, stop, hg, hb, hw, ho, hp⟩ := h
  obtain ⟨more, stop', hg', hb', hw', ho', hq⟩ := hnext words stop ho hg hp
  refine ⟨words ++ more, stop', by rw [hg, hg', List.append_assoc], Nat.le_trans hb hb', ?_, ho', hq⟩
  rw [List.forall_mem_append]
  exact ⟨fun g hg hgw => Nat.lt_of_lt_of_le (hw g hg hgw) hb', fun g hg hgw => Nat.lt_of_le_of_lt hb (hw' g hg hgw)⟩

/-- A single token. -/
theorem takes_token {t : Token} {P : List Glyph → List Glyph → Prop} (ho : Ordered before (t :: ts))
    (hp : ∀ apart, P [.token t.kind apart] (glyphs t.stop ts)) : Takes before (t :: ts) ts P := by
  refine ⟨[_], t.stop, rfl, Nat.le_trans ho.1 ho.2.1, ?_, ho.2.2.2, hp _⟩
  rw [List.forall_mem_singleton]
  exact fun hw => Nat.lt_of_le_of_lt ho.1 (ho.2.2.1 hw)

/-- A token in front of what is taken. -/
theorem Takes.cons {t : Token} {P : List Glyph → List Glyph → Prop} (ho : Ordered before (t :: ts))
    (h : Takes t.stop ts rest P) :
    Takes before (t :: ts) rest fun words rest => ∃ apart words', words = .token t.kind apart :: words' ∧ P words' rest := by
  obtain ⟨words, stop, hg, hb, hw, hstop, hp⟩ := h
  refine ⟨.token t.kind _ :: words, stop, by rw [glyphs, hg]; rfl, Nat.le_trans (Nat.le_trans ho.1 ho.2.1) hb, ?_, hstop,
    _, _, rfl, hp⟩
  rw [List.forall_mem_cons]
  exact ⟨fun ht => Nat.lt_of_lt_of_le (Nat.lt_of_le_of_lt ho.1 (ho.2.2.1 ht)) hb,
    fun g hg hgw => Nat.lt_of_le_of_lt (Nat.le_trans ho.1 ho.2.1) (hw g hg hgw)⟩

/-- A token of this kind in front of what is taken. -/
theorem Takes.tail {kind : TokenKind} {P : List Glyph → List Glyph → Prop} (hk : kind ≠ .eof)
    (h : peekKind ts = kind) (ho : Ordered before ts) (htail : ∀ stop, Ordered stop ts.tail → Takes stop ts.tail rest P) :
    Takes before ts rest fun words rest => ∃ apart words', words = .token kind apart :: words' ∧ P words' rest := by
  obtain ⟨t, ht, rfl⟩ := eq_cons_of_peekKind hk h
  rw [ht] at ho ⊢
  exact .cons ho (htail _ ho.2.2.2)

/-- A token of this kind. -/
theorem takes_one {kind : TokenKind} (hk : kind ≠ .eof) (h : peekKind ts = kind) (ho : Ordered before ts) :
    Takes before ts ts.tail fun words _ => ∃ apart, words = [.token kind apart] := by
  obtain ⟨t, ht, rfl⟩ := eq_cons_of_peekKind hk h
  rw [ht] at ho ⊢
  exact takes_token ho fun apart => ⟨apart, rfl⟩

/-! ## Expressions -/

/-- A primary expression is a constant, a name or stands in parentheses. -/
theorem primary_cases {fuel : Nat} {found : Expr × List Token} (h : primary fuel ts = .ok found) :
    ∃ t rest, ts = t :: rest ∧
      ((∃ value, literal? t.kind = some value ∧ found = (.literal value, rest)) ∨
        (∃ word, t.kind = .ident word ∧ isKeyword word = false ∧ found = (.ident word t.start, rest)) ∨
          ∃ n u, fuel = n + 1 ∧ t.kind = .leftParen ∧ u.kind = .rightParen ∧
            expression n levels rest = .ok (found.1, u :: found.2)) := by
  cases fuel with
  | zero => cases h
  | succ fuel =>
    cases ts with
    | nil => cases h
    | cons t rest =>
      refine ⟨t, rest, rfl, ?_⟩
      rw [primary] at h
      dsimp only [peek] at h
      split at h
      · rename_i hk
        cases h
        exact .inl ⟨_, by rw [hk]; rfl, rfl⟩
      · rename_i hk
        cases h
        exact .inl ⟨_, by rw [hk]; rfl, rfl⟩
      · rename_i word hk
        split at h
        · rename_i ht
          cases h
          exact .inl ⟨.bool true, by rw [hk, eq_of_beq ht]; rfl, rfl⟩
        split at h
        · rename_i hf
          cases h
          exact .inl ⟨.bool false, by rw [hk, eq_of_beq hf]; rfl, rfl⟩
        split at h
        · cases h
        · rename_i hkey
          cases h
          exact .inr (.inl ⟨word, hk, by simpa using hkey, rfl⟩)
      · rename_i hk
        obtain ⟨⟨e, mid⟩, he, h⟩ := bind_eq_ok.1 h
        obtain ⟨left, hr, h⟩ := bind_eq_ok.1 h
        obtain rfl := pure_eq_ok.1 h
        obtain ⟨hkind, rfl⟩ := (expect_eq_ok (by simp)).1 hr
        obtain ⟨u, hu, hukind⟩ := eq_cons_of_peekKind (by simp) hkind
        exact .inr (.inr ⟨fuel, u, rfl, hk, hukind, by rw [← hu]; exact he⟩)
      · cases h

/-- What the functions of the parser read from tokens in their order the grammar derives. -/
structure ExprDerived (fuel : Nat) : Prop where
  expression : ∀ {level before ts e rest}, Ordered before ts → expression fuel level ts = .ok (e, rest) →
    Takes before ts rest fun words rest => Derives (.expression level e.erase) words rest ∧ Stops level rest
  chain : ∀ {level before left ts e rest words}, Ordered before ts →
    Derives (.expression (level + 1) left.erase) words (glyphs before ts) → chain fuel level left ts = .ok (e, rest) →
      Takes before ts rest fun more rest =>
        Derives (.expression (level + 1) e.erase) (words ++ more) rest ∧ Stops (level + 1) rest
  operand : ∀ {before ts e rest}, Ordered before ts → operand fuel ts = .ok (e, rest) →
    Takes before ts rest (Derives (.expression 0 e.erase))
  postfixed : ∀ {before ts e rest}, Ordered before ts → postfixed fuel ts = .ok (e, rest) →
    Takes before ts rest (Derives (.expression 0 e.erase))
  arguments : ∀ {before ts es rest}, Ordered before ts → arguments fuel ts = .ok (es, rest) →
    Takes before ts rest (Derives (.arguments (eraseArgs es)))
  moreArguments : ∀ {before ts es rest}, Ordered before ts → moreArguments fuel ts = .ok (es, rest) →
    Takes before ts rest fun words rest => ∃ inner apart, words = inner ++ [.token .rightParen apart] ∧
      Derives (.arguments (eraseArgs es)) inner (.token .rightParen apart :: rest)
  parenthesized : ∀ {before ts es rest}, Ordered before ts → parenthesized fuel ts = .ok (es, rest) →
    Takes before ts rest fun words rest => ∃ inner apart, words = inner ++ [.token .rightParen apart] ∧
      (es = [] ∧ inner = [] ∨ Derives (.arguments (eraseArgs es)) inner (.token .rightParen apart :: rest))

namespace ExprDerived

variable {fuel : Nat}

theorem zero : ExprDerived 0 where
  expression _ h := nomatch h
  chain _ _ h := nomatch h
  operand _ h := nomatch h
  postfixed _ h := nomatch h
  arguments _ h := nomatch h
  moreArguments _ h := nomatch h
  parenthesized _ h := nomatch h

/-- The arguments of a call in parentheses. -/
theorem call_derived {word : String} {apart apart' : Bool} {args : List Expr} {inner rest : List Glyph}
    (hkey : isKeyword word = false)
    (h : args = [] ∧ inner = [] ∨ Derives (.arguments (eraseArgs args)) inner (.token .rightParen apart' :: rest)) :
    Derives (.expression 0 (.call word (eraseArgs args) 0))
      (.token (.ident word) apart :: .token .leftParen false :: (inner ++ [.token .rightParen apart'])) rest := by
  rcases h with ⟨rfl, rfl⟩ | h
  · exact .emptyCall hkey
  · exact .call hkey h

/-- A name, perhaps with arguments. -/
theorem postfixed_name (ih : ExprDerived fuel) {t : Token} {word : String} {e : Expr} (ho : Ordered before (t :: ts))
    (hk : t.kind = .ident word) (hkey : isKeyword word = false)
    (h : (if peekKind ts = .leftParen ∧ (peek ts).start = t.stop then do
        let (args, rest) ← Parser.parenthesized fuel ts.tail
        return (Expr.call word args t.start, rest)
      else if isCallable word && argumentsFollow (t :: ts) then do
        let (args, rest) ← Parser.arguments fuel ts
        return (Expr.call word args t.start, rest)
      else return (Expr.ident word t.start, ts)) = Except.ok (e, rest)) :
    Takes before (t :: ts) rest (Derives (.expression 0 e.erase)) := by
  have hgap := ho.2.2.2
  split at h
  · rename_i htouch
    obtain ⟨⟨args, left⟩, ha, h⟩ := bind_eq_ok.1 h
    cases pure_eq_ok.1 h
    obtain ⟨l, hl, hlk⟩ := eq_cons_of_peekKind (by simp) htouch.1
    rw [hl] at ho hgap htouch ⊢
    have hstart : l.start = t.stop := htouch.2
    obtain ⟨words, stop, hg, hb, hw, hstop, inner, apart, rfl, hargs⟩ := ih.parenthesized hgap.2.2.2 ha
    have hglyphs : glyphs t.stop (l :: ts.tail) =
        .token .leftParen false :: (inner ++ [.token .rightParen apart]) ++ glyphs stop rest := by
      rw [glyphs, hg, hlk, hstart]
      simp
    have htakes : Takes t.stop (l :: ts.tail) rest fun words rest => ∃ inner apart,
        words = .token .leftParen false :: (inner ++ [.token .rightParen apart]) ∧
          (args = [] ∧ inner = [] ∨ Derives (.arguments (eraseArgs args)) inner (.token .rightParen apart :: rest)) := by
      refine ⟨_, stop, hglyphs, Nat.le_trans (Nat.le_trans hgap.1 hgap.2.1) hb, ?_, hstop, inner, apart, rfl, hargs⟩
      rw [List.forall_mem_cons]
      exact ⟨fun _ => Nat.lt_of_le_of_lt hgap.1 (Nat.lt_of_lt_of_le (hgap.2.2.1 (hlk ▸ rfl)) hb),
        fun g hg hgw => Nat.lt_of_le_of_lt (Nat.le_trans hgap.1 hgap.2.1) (hw g hg hgw)⟩
    refine (htakes.cons ho).mono ?_
    rintro _ rest - ⟨apart₁, _, rfl, inner, apart, rfl, hargs⟩
    rw [hk]
    exact call_derived hkey hargs
  split at h
  · rename_i hcall
    rw [Bool.and_eq_true, ← follows_glyphs hgap] at hcall
    obtain ⟨⟨args, left⟩, ha, h⟩ := bind_eq_ok.1 h
    cases pure_eq_ok.1 h
    obtain ⟨words, stop, hg, hb, hw, hstop, hargs⟩ := ih.arguments hgap ha
    rw [hg] at hcall
    have htakes : Takes t.stop ts rest fun words rest =>
        follows (words ++ rest) ∧ Derives (.arguments (eraseArgs args)) words rest :=
      ⟨words, stop, hg, hb, hw, hstop, hcall.2, hargs⟩
    refine (htakes.cons ho).mono ?_
    rintro _ rest - ⟨apart, words, rfl, hf, hargs⟩
    rw [hk]
    exact .command hkey hcall.1 hf hargs
  · rename_i htouch hcall
    cases pure_eq_ok.1 h
    rw [Bool.not_eq_true, ← follows_glyphs hgap] at hcall
    rw [← touches_glyphs hgap, Bool.not_eq_true] at htouch
    exact takes_token ho fun apart => hk ▸ .name hkey htouch hcall

theorem postfixed_succ (ih : ∀ n ≤ fuel, ExprDerived n) {e : Expr} (ho : Ordered before ts)
    (h : Parser.postfixed (fuel + 1) ts = .ok (e, rest)) : Takes before ts rest (Derives (.expression 0 e.erase)) := by
  rw [Parser.postfixed] at h
  obtain ⟨⟨first, mid⟩, hp, h⟩ := bind_eq_ok.1 h
  obtain ⟨t, inner, rfl, ⟨value, hv, he⟩ | ⟨word, hk, hkey, he⟩ | ⟨n, u, hn, hk, hu, he⟩⟩ := primary_cases hp
  · cases he
    cases h
    exact takes_token ho fun apart => .literal hv
  · cases he
    exact postfixed_name (ih fuel (Nat.le_refl _)) ho hk hkey h
  · have hgap := ho.2.2.2
    have hinner : Takes t.stop inner mid fun words rest => ∃ w apart, words = w ++ [.token .rightParen apart] ∧
        Derives (.expression levels first.erase) w (.token .rightParen apart :: rest) := by
      refine ((ih n (by omega)).expression hgap he).bind fun words stop hstop _ hd => ?_
      refine (takes_one (by simp) (show peekKind (u :: mid) = .rightParen from hu) hstop).mono ?_
      rintro _ rest hg ⟨apart, rfl⟩
      dsimp only at hd
      rw [hg] at hd
      exact ⟨words, apart, rfl, hd.1⟩
    obtain ⟨words, stop, hg, hb, hw, hstop, w, apart, rfl, hd⟩ := hinner
    have hlt : t.stop < stop := hw (.token .rightParen apart) (by simp) rfl
    have plain : (∀ word, first.erase = .ident word 0 →
        (isCallable word && follows (w ++ .token .rightParen apart :: glyphs stop mid)) = false) →
          Takes before (t :: inner) mid (Derives (.expression 0 first.erase)) := fun hcall => by
      have htakes : Takes t.stop inner mid fun words rest => ∃ w apart, words = w ++ [.token .rightParen apart] ∧
          (∀ word, first.erase = .ident word 0 →
            (isCallable word && follows (w ++ .token .rightParen apart :: rest)) = false) ∧
              Derives (.expression levels first.erase) w (.token .rightParen apart :: rest) :=
        ⟨_, stop, hg, hb, hw, hstop, w, apart, rfl, hcall, hd⟩
      refine (htakes.cons ho).mono ?_
      rintro _ rest - ⟨apart₁, _, rfl, w, apart, rfl, hcall, hd⟩
      rw [hk]
      exact .parens hd hcall
    cases first with
    | ident word offset =>
      have htouch : ¬(peekKind mid = .leftParen ∧ (peek mid).start = t.stop) := by
        rintro ⟨hkind, hstart⟩
        obtain ⟨m, hm, -⟩ := eq_cons_of_peekKind (by simp) hkind
        rw [hm] at hstart hstop
        have hle := hstop.1
        simp only [peek] at hstart hle
        omega
      have hmid : peek (t :: inner) = t := rfl
      have hfollow := follows_glyphs hgap
      rw [hg, List.append_assoc, List.singleton_append] at hfollow
      simp only [hmid, if_neg htouch, ← hfollow] at h
      split at h
      · rename_i hcall
        rw [Bool.and_eq_true] at hcall
        obtain ⟨⟨args, left⟩, ha, h⟩ := bind_eq_ok.1 h
        cases pure_eq_ok.1 h
        obtain ⟨words', stop', hg', hb', hw', hstop', hargs⟩ := (ih fuel (Nat.le_refl _)).arguments hstop ha
        have htakes : Takes t.stop inner left fun words rest => ∃ w apart words', words =
            w ++ .token .rightParen apart :: words' ∧ follows (w ++ .token .rightParen apart :: (words' ++ rest)) ∧
              Derives (.expression levels (.ident word 0)) w (.token .rightParen apart :: (words' ++ rest)) ∧
                Derives (.arguments (eraseArgs args)) words' rest := by
          rw [hg'] at hg hd hcall
          refine ⟨w ++ .token .rightParen apart :: words', stop', by rw [hg]; simp, Nat.le_trans hb hb', ?_, hstop', w,
            apart, words', rfl, hcall.2, hd, hargs⟩
          exact fun _ _ _ => Nat.lt_of_lt_of_le hlt hb'
        refine (htakes.cons ho).mono ?_
        rintro _ rest - ⟨apart₁, _, rfl, w, apart, words', rfl, hf, hd, hargs⟩
        rw [hk]
        exact .parensCommand hd hcall.1 hf hargs
      · rename_i hcall
        cases pure_eq_ok.1 h
        refine plain fun word' hword => ?_
        cases hword
        simpa using hcall
    | _ =>
      cases h
      exact plain fun word hword => by cases hword

theorem expression_succ (ih : ExprDerived fuel) {level : Nat} {e : Expr} (ho : Ordered before ts)
    (h : Parser.expression (fuel + 1) level ts = .ok (e, rest)) :
    Takes before ts rest fun words rest => Derives (.expression level e.erase) words rest ∧ Stops level rest := by
  cases level with
  | zero => exact (ih.operand ho h).mono fun words rest _ hd => ⟨hd, trivial⟩
  | succ level =>
    rw [Parser.expression] at h
    obtain ⟨⟨left, mid⟩, hl, h⟩ := bind_eq_ok.1 h
    exact (ih.expression ho hl).bind fun words stop hstop _ hd => ih.chain hstop (hd.1.lift hd.2) h

theorem chain_succ (ih : ExprDerived fuel) {level : Nat} {left e : Expr} {words : List Glyph} (ho : Ordered before ts)
    (hl : Derives (.expression (level + 1) left.erase) words (glyphs before ts))
    (h : Parser.chain (fuel + 1) level left ts = .ok (e, rest)) :
    Takes before ts rest fun more rest =>
      Derives (.expression (level + 1) e.erase) (words ++ more) rest ∧ Stops (level + 1) rest := by
  rw [Parser.chain] at h
  split at h
  · rename_i hop
    cases h
    exact takes_nil ho ⟨by rwa [List.append_nil], stops_glyphs.2 hop⟩
  · rename_i op hop
    obtain ⟨⟨right, mid⟩, hr, h⟩ := bind_eq_ok.1 h
    have hword := isWord_of_binaryOp? hop
    refine (Takes.tail (fun he => by rw [he] at hword; cases hword) rfl ho fun stop hstop =>
      ih.expression hstop hr).bind ?_
    rintro _ stop hstop hg ⟨apart, words', rfl, hd, hs⟩
    rw [hg] at hl
    refine (ih.chain hstop ((hl.binary hop hd hs :)) h).mono fun more rest _ hd => ?_
    rwa [List.append_assoc] at hd

theorem erase_sign {kind : TokenKind} {f : Expr → Expr} (h : prefixOp? kind = some f) (e : Expr) :
    (f e).erase = f e.erase := by
  unfold prefixOp? at h
  split at h <;> cases h <;> rfl

theorem operand_succ (ih : ExprDerived fuel) {e : Expr} (ho : Ordered before ts)
    (h : Parser.operand (fuel + 1) ts = .ok (e, rest)) : Takes before ts rest (Derives (.expression 0 e.erase)) := by
  rw [Parser.operand] at h
  split at h
  · rename_i f hf
    obtain ⟨⟨inner, mid⟩, he, h⟩ := bind_eq_ok.1 h
    cases pure_eq_ok.1 h
    have hword := isWord_of_prefixOp? hf
    refine (Takes.tail (fun he => by rw [he] at hword; cases hword) rfl ho fun stop hstop =>
      ih.operand hstop he).mono ?_
    rintro _ rest - ⟨apart, words, rfl, hd⟩
    rw [erase_sign hf]
    exact hd.sign hf
  · exact ih.postfixed ho h

theorem arguments_succ (ih : ExprDerived fuel) {es : List Expr} (ho : Ordered before ts)
    (h : Parser.arguments (fuel + 1) ts = .ok (es, rest)) : Takes before ts rest (Derives (.arguments (eraseArgs es))) := by
  rw [Parser.arguments] at h
  obtain ⟨⟨e, mid⟩, he, h⟩ := bind_eq_ok.1 h
  dsimp only at h
  rw [consume?_eq (by simp)] at h
  refine (ih.expression ho he).bind fun words stop hstop _ hd => ?_
  by_cases hcomma : peekKind mid = .comma
  · rw [if_pos hcomma] at h
    obtain ⟨⟨es', left⟩, hes, h⟩ := bind_eq_ok.1 h
    cases pure_eq_ok.1 h
    refine (Takes.tail (by simp) hcomma hstop fun stop hstop => ih.arguments hstop hes).mono ?_
    rintro _ rest hg ⟨apart, words', rfl, hds⟩
    rw [hg] at hd
    exact hd.1.more hds
  · rw [if_neg hcomma] at h
    cases pure_eq_ok.1 h
    refine takes_nil hstop ?_
    rw [List.append_nil]
    exact .last hd.1 hd.2 (by rwa [front_glyphs])

theorem moreArguments_succ (ih : ExprDerived fuel) {es : List Expr} (ho : Ordered before ts)
    (h : Parser.moreArguments (fuel + 1) ts = .ok (es, rest)) :
    Takes before ts rest fun words rest => ∃ inner apart, words = inner ++ [.token .rightParen apart] ∧
      Derives (.arguments (eraseArgs es)) inner (.token .rightParen apart :: rest) := by
  rw [Parser.moreArguments] at h
  obtain ⟨⟨e, mid⟩, he, h⟩ := bind_eq_ok.1 h
  dsimp only at h
  rw [consume?_eq (by simp)] at h
  refine (ih.expression ho he).bind fun words stop hstop _ hd => ?_
  by_cases hcomma : peekKind mid = .comma
  · rw [if_pos hcomma] at h
    obtain ⟨⟨es', left⟩, hes, h⟩ := bind_eq_ok.1 h
    cases pure_eq_ok.1 h
    refine (Takes.tail (by simp) hcomma hstop fun stop hstop => ih.moreArguments hstop hes).mono ?_
    rintro _ rest hg ⟨apart, _, rfl, inner, apart', rfl, hds⟩
    rw [hg] at hd
    refine ⟨words ++ .token .comma apart :: inner, apart', by simp, ?_⟩
    refine Derives.more ?_ hds
    simpa using hd.1
  · rw [if_neg hcomma] at h
    obtain ⟨left, hr, h⟩ := bind_eq_ok.1 h
    cases pure_eq_ok.1 h
    obtain ⟨hkind, rfl⟩ := (expect_eq_ok (by simp)).1 hr
    refine (takes_one (by simp) hkind hstop).mono ?_
    rintro _ rest hg ⟨apart, rfl⟩
    rw [hg] at hd
    exact ⟨words, apart, rfl, .last hd.1 hd.2 (by simp [front])⟩

theorem parenthesized_succ (ih : ExprDerived fuel) {es : List Expr} (ho : Ordered before ts)
    (h : Parser.parenthesized (fuel + 1) ts = .ok (es, rest)) :
    Takes before ts rest fun words rest => ∃ inner apart, words = inner ++ [.token .rightParen apart] ∧
      (es = [] ∧ inner = [] ∨ Derives (.arguments (eraseArgs es)) inner (.token .rightParen apart :: rest)) := by
  rw [Parser.parenthesized, consume?_eq (by simp)] at h
  by_cases hp : peekKind ts = .rightParen
  · rw [if_pos hp] at h
    cases h
    refine (takes_one (by simp) hp ho).mono ?_
    rintro _ rest - ⟨apart, rfl⟩
    exact ⟨[], apart, rfl, .inl ⟨rfl, rfl⟩⟩
  · rw [if_neg hp] at h
    refine (ih.moreArguments ho h).mono ?_
    rintro _ rest - ⟨inner, apart, rfl, hd⟩
    exact ⟨inner, apart, rfl, .inr hd⟩

theorem succ (ih : ∀ n ≤ fuel, ExprDerived n) : ExprDerived (fuel + 1) :=
  have ih' := ih fuel (Nat.le_refl _)
  { expression := expression_succ ih'
    chain := chain_succ ih'
    operand := operand_succ ih'
    postfixed := postfixed_succ ih
    arguments := arguments_succ ih'
    moreArguments := moreArguments_succ ih'
    parenthesized := parenthesized_succ ih' }

end ExprDerived

theorem exprDerived (fuel : Nat) : ExprDerived fuel := by
  induction fuel using Nat.strong_induction_on with
  | _ fuel ih =>
    cases fuel with
    | zero => exact .zero
    | succ fuel => exact .succ fun n hn => ih n (by omega)

/-! ## Statements -/

/-- What the functions that read statements take off tokens in their order the grammar derives. -/
structure ClauseDerived (fuel : Nat) : Prop where
  block : ∀ {before done ts b rest}, Ordered before ts → block fuel done ts = .ok (b, rest) →
    Takes before ts rest fun words rest => DerivesClause (.block (eraseBlock done) (eraseBlock b)) words rest ∧
      (front rest = .eof ∨ front rest = .dedent)
  line : ∀ {before ts items rest}, Ordered before ts → line fuel ts = .ok (items, rest) →
    Takes before ts rest (DerivesClause (.line (items.map Item.erase)))
  statement : ∀ {before ts item lineDone rest}, Ordered before ts → statement fuel ts = .ok (item, lineDone, rest) →
    Takes before ts rest (DerivesClause (.statement item.erase lineDone))
  conditional : ∀ {before ts c b rest}, Ordered before ts → conditional fuel ts = .ok (c, b, rest) →
    Takes before ts rest (DerivesClause (.conditional c.erase (eraseBlock b)))
  body : ∀ {before ts b rest}, Ordered before ts → body fuel ts = .ok (b, rest) →
    Takes before ts rest (DerivesClause (.body (eraseBlock b)))

namespace ClauseDerived

variable {fuel : Nat}

theorem zero : ClauseDerived 0 where
  block _ h := nomatch h
  line _ h := nomatch h
  statement _ h := nomatch h
  conditional _ h := nomatch h
  body _ h := nomatch h

theorem endsLine_glyphs (before : Nat) (ts : List Token) : endsLine (front (glyphs before ts)) ↔ atLineEnd ts := by
  rw [front_glyphs, atLineEnd_eq, endsLine, decide_eq_true_iff]

theorem front_of_glyphs {g : Glyph} {rest : List Glyph} (h : glyphs before ts = g :: rest) :
    front rest = peekKind ts.tail := by
  cases ts with
  | nil => cases h
  | cons t ts =>
    cases h
    exact front_glyphs _ _

theorem isBare_glyphs (before : Nat) (h : ∀ name, peekKind ts ≠ .ident name) : IsBare (glyphs before ts) := by
  cases ts with
  | nil => trivial
  | cons t ts =>
    have ht : ∀ name, t.kind ≠ .ident name := h
    rw [glyphs]
    revert ht
    cases t.kind <;> simp [IsBare]

theorem bare_derived {item : Item} {lineDone : Bool} (ho : Ordered before ts) (hbare : IsBare (glyphs before ts))
    (h : Parser.bare fuel ts = .ok (item, lineDone, rest)) :
    Takes before ts rest (DerivesClause (.statement item.erase lineDone)) := by
  match fuel, h with
  | fuel + 1, h =>
    rw [bare_eq] at h
    obtain ⟨⟨e, left⟩, he, h⟩ := bind_eq_ok.1 h
    cases pure_eq_ok.1 h
    refine ((exprDerived fuel).expression ho he).mono fun words rest hg hd => ?_
    rw [Item.erase, Stmt.erase, erase_asCall]
    exact .bare (hg ▸ hbare) hd.1 hd.2

theorem conditional_succ (ih : ClauseDerived fuel) {c : Expr} {b : List Stmt} (ho : Ordered before ts)
    (h : Parser.conditional (fuel + 1) ts = .ok (c, b, rest)) :
    Takes before ts rest (DerivesClause (.conditional c.erase (eraseBlock b))) := by
  rw [conditional_eq] at h
  obtain ⟨⟨cond, mid⟩, hc, h⟩ := bind_eq_ok.1 h
  dsimp only at h
  split at h
  · rename_i hmid
    obtain ⟨⟨inner, left⟩, hb, h⟩ := bind_eq_ok.1 h
    cases pure_eq_ok.1 h
    refine ((exprDerived fuel).expression ho hc).bind fun words stop hstop _ hd => ?_
    rw [skip_eq (by simp)] at hb
    by_cases harrow : peekKind mid = .arrow
    · rw [if_pos harrow] at hb
      refine (Takes.tail (by simp) harrow hstop fun stop hstop => ih.body hstop hb).mono ?_
      rintro _ rest hg ⟨apart, words', rfl, hbody⟩
      rw [hg] at hd
      exact .arrow hd.1 hbody
    · rw [if_neg harrow] at hb
      have hend := hmid.resolve_left harrow
      rw [← endsLine_glyphs stop] at hend
      refine (ih.body hstop hb).mono fun words' rest hg hbody => ?_
      rw [hg] at hd hend
      exact .noArrow hd.1 hend hbody
  · cases h

/-- A name and what may follow it. -/
theorem statement_name_succ {name : String} (hk : peekKind ts = .ident name) (hn : name ∉ ["repeat", "if", "else"])
    {item : Item} {lineDone : Bool} (ho : Ordered before ts)
    (h : Parser.statement (fuel + 1) ts = .ok (item, lineDone, rest)) :
    Takes before ts rest (DerivesClause (.statement item.erase lineDone)) := by
  rw [statement_name hk hn] at h
  split at h
  · rename_i op _ hop
    split at h
    · cases h
    · rename_i hkey
      obtain ⟨⟨value, left⟩, hv, h⟩ := bind_eq_ok.1 h
      cases pure_eq_ok.1 h
      have hop' : assignOp? (peekKind ts.tail) = some _ := hop
      have hword := isWord_of_assignOp? hop'
      refine (Takes.tail (by simp) hk ho fun stop hstop =>
        .tail (fun he => by rw [he] at hword; cases hword) rfl hstop fun stop hstop =>
          (exprDerived fuel).expression hstop hv).mono ?_
      rintro _ rest - ⟨apart, _, rfl, apart', words, rfl, hd, hs⟩
      exact .assign (by simpa using hkey) hop' hd hs
  · rename_i op _ hop
    split at h
    · cases h
    · rename_i hkey
      cases pure_eq_ok.1 h
      have hop' : stepOp? (peekKind ts.tail) = some _ := hop
      have hword := isWord_of_stepOp? hop'
      refine (Takes.tail (by simp) hk ho fun stop hstop =>
        takes_one (fun he => by rw [he] at hword; cases hword) rfl hstop).mono ?_
      rintro _ rest - ⟨apart, _, rfl, apart', rfl⟩
      exact .step (by simpa using hkey) hop'
  · rename_i hassign hstep
    obtain ⟨t, ht, htk⟩ := eq_cons_of_peekKind (by simp) hk
    have hfollow : follows (glyphs t.stop ts.tail) = argumentsFollow ts := by
      rw [ht] at ho
      rw [follows_glyphs ho.2.2.2, ← ht]
    split at h
    · rename_i hcall
      rw [Bool.and_eq_true, Bool.not_eq_true', ← hfollow] at hcall
      obtain ⟨⟨args, left⟩, ha, h⟩ := bind_eq_ok.1 h
      cases pure_eq_ok.1 h
      rw [ht] at ho ⊢
      have htakes : Takes t.stop ts.tail rest fun words rest =>
          follows (words ++ rest) ∧ Derives (.arguments (eraseArgs args)) words rest :=
        ((exprDerived fuel).arguments ho.2.2.2 ha).mono fun words rest hg hd => ⟨hg ▸ hcall.2, hd⟩
      refine (htakes.cons ho).mono ?_
      rintro _ rest - ⟨apart, words, rfl, hf, hd⟩
      rw [htk]
      exact .command hcall.1 hf hd
    · rename_i hcall
      refine bare_derived ho ?_ h
      rw [ht, glyphs, htk, IsBare, front_glyphs, hfollow]
      exact ⟨hassign, hstep, by simpa using hcall⟩

theorem statement_succ (ih : ClauseDerived fuel) {item : Item} {lineDone : Bool} (ho : Ordered before ts)
    (h : Parser.statement (fuel + 1) ts = .ok (item, lineDone, rest)) :
    Takes before ts rest (DerivesClause (.statement item.erase lineDone)) := by
  by_cases hname : ∃ name, peekKind ts = .ident name
  · obtain ⟨name, hk⟩ := hname
    by_cases hrepeat : name = "repeat"
    · subst hrepeat
      rw [statement_repeat hk] at h
      obtain ⟨⟨count, mid⟩, hc, h⟩ := bind_eq_ok.1 h
      obtain ⟨mid', hr, h⟩ := bind_eq_ok.1 h
      obtain ⟨⟨b, left⟩, hb, h⟩ := bind_eq_ok.1 h
      cases pure_eq_ok.1 h
      obtain ⟨harrow, rfl⟩ := (expect_eq_ok (by simp)).1 hr
      have hcount : ∀ {stop}, Ordered stop ts.tail → Takes stop ts.tail rest fun words rest => ∃ w apart w',
          words = w ++ .token .arrow apart :: w' ∧
            Derives (.expression levels count.erase) w (.token .arrow apart :: (w' ++ rest)) ∧
              DerivesClause (.body (eraseBlock b)) w' rest := fun hstop => by
        refine ((exprDerived fuel).expression hstop hc).bind fun words stop hstop _ hd => ?_
        refine (Takes.tail (by simp) harrow hstop fun stop hstop => ih.body hstop hb).mono ?_
        rintro _ rest hg ⟨apart, words', rfl, hbody⟩
        rw [hg] at hd
        exact ⟨words, apart, words', rfl, hd.1, hbody⟩
      refine (Takes.tail (by simp) hk ho fun stop hstop => hcount hstop).mono ?_
      rintro _ rest - ⟨apart, _, rfl, w, apart', w', rfl, hd, hbody⟩
      exact .loop hd hbody
    by_cases hif : name = "if"
    · subst hif
      rw [statement_if hk] at h
      obtain ⟨⟨c, b, left⟩, hb, h⟩ := bind_eq_ok.1 h
      cases pure_eq_ok.1 h
      refine (Takes.tail (by simp) hk ho fun stop hstop => ih.conditional hstop hb).mono ?_
      rintro _ rest - ⟨apart, words, rfl, hd⟩
      exact .branch hd
    by_cases helse : name = "else"
    · subst helse
      by_cases hi : peekKind ts.tail = .ident "if"
      · rw [statement_elseIf hk hi] at h
        obtain ⟨⟨c, b, left⟩, hb, h⟩ := bind_eq_ok.1 h
        cases pure_eq_ok.1 h
        refine (Takes.tail (by simp) hk ho fun stop hstop => .tail (by simp) hi hstop fun stop hstop =>
          ih.conditional hstop hb).mono ?_
        rintro _ rest - ⟨apart, _, rfl, apart', words, rfl, hd⟩
        exact .otherwiseIf hd
      · rw [statement_else hk hi] at h
        obtain ⟨⟨b, left⟩, hb, h⟩ := bind_eq_ok.1 h
        cases pure_eq_ok.1 h
        rw [skip_eq (by simp)] at hb
        by_cases harrow : peekKind ts.tail = .arrow
        · rw [if_pos harrow] at hb
          refine (Takes.tail (by simp) hk ho fun stop hstop => .tail (by simp) harrow hstop fun stop hstop =>
            ih.body hstop hb).mono ?_
          rintro _ rest - ⟨apart, _, rfl, apart', words, rfl, hd⟩
          exact .otherwiseArrow hd
        · rw [if_neg harrow] at hb
          have htakes : ∀ {stop}, Ordered stop ts.tail → Takes stop ts.tail rest fun words rest =>
              front (words ++ rest) = peekKind ts.tail ∧ DerivesClause (.body (eraseBlock b)) words rest :=
            fun {stop} hstop => (ih.body hstop hb).mono fun words rest hg hd => ⟨hg ▸ front_glyphs stop _, hd⟩
          refine (Takes.tail (by simp) hk ho fun stop hstop => htakes hstop).mono ?_
          rintro _ rest - ⟨apart, words, rfl, hfront, hd⟩
          exact .otherwise (by simpa [hfront] using hi) (by simpa [hfront] using harrow) hd
    · exact statement_name_succ hk (by simp [hrepeat, hif, helse]) ho h
  · rw [statement_bare fun name hk => hname ⟨name, hk⟩] at h
    exact bare_derived ho (isBare_glyphs before fun name hk => hname ⟨name, hk⟩) h

theorem line_succ (ih : ClauseDerived fuel) {items : List Item} (ho : Ordered before ts)
    (h : Parser.line (fuel + 1) ts = .ok (items, rest)) :
    Takes before ts rest (DerivesClause (.line (items.map Item.erase))) := by
  by_cases hsemi : peekKind ts = .semicolon
  · rw [line_semicolon hsemi] at h
    refine (Takes.tail (by simp) hsemi ho fun stop hstop => ih.line hstop h).mono ?_
    rintro _ rest - ⟨apart, words, rfl, hd⟩
    exact .semicolon hd
  by_cases hnl : peekKind ts = .newline
  · rw [line_newline hnl] at h
    cases h
    refine (takes_one (by simp) hnl ho).mono ?_
    rintro _ rest - ⟨apart, rfl⟩
    exact .newline
  by_cases hend : peekKind ts = .eof ∨ peekKind ts = .dedent
  · rw [line_end hend] at h
    cases h
    exact takes_nil ho (.noLine (by simpa only [front_glyphs] using hend))
  · rw [line_statement (by simp [hsemi, hnl, not_or.1 hend])] at h
    obtain ⟨⟨item, lineDone, mid⟩, hs, h⟩ := bind_eq_ok.1 h
    have hstatement := ih.statement ho hs
    dsimp only at h
    split at h
    · rename_i hdone
      cases pure_eq_ok.1 h
      rw [hdone] at hstatement
      exact hstatement.mono fun words rest _ hd => .lineDone hd
    split at h
    · rename_i hdone hmore
      obtain ⟨⟨items', left⟩, hl, h⟩ := bind_eq_ok.1 h
      cases pure_eq_ok.1 h
      rw [Bool.not_eq_true] at hdone
      rw [hdone] at hstatement
      refine hstatement.bind fun words stop hstop _ hd => ?_
      rw [Bool.or_eq_true, beq_iff_eq, ← endsLine_glyphs stop, ← front_glyphs stop] at hmore
      refine (ih.line hstop hl).mono fun words' rest hg hd' => ?_
      rw [hg] at hd hmore
      exact .nextItem hd hmore hd'
    · cases h

theorem block_succ (ih : ClauseDerived fuel) {done b : List Stmt} (ho : Ordered before ts)
    (h : Parser.block (fuel + 1) done ts = .ok (b, rest)) :
    Takes before ts rest fun words rest => DerivesClause (.block (eraseBlock done) (eraseBlock b)) words rest ∧
      (front rest = .eof ∨ front rest = .dedent) := by
  by_cases hw : (peekKind ts).isWord
  · rw [block_line hw] at h
    obtain ⟨⟨items, mid⟩, hl, h⟩ := bind_eq_ok.1 h
    obtain ⟨done', ha, h⟩ := bind_eq_ok.1 h
    refine (ih.line ho hl).bind fun words stop hstop hg hd => ?_
    refine (ih.block hstop h).mono fun words' rest hg' hd' => ?_
    rw [hg'] at hd hg
    refine ⟨.row ?_ hd (attachAll_eq_ok.2 ⟨done', ha, rfl⟩) hd'.1, hd'.2⟩
    rwa [← hg, front_glyphs]
  · by_cases hend : peekKind ts = .eof ∨ peekKind ts = .dedent
    · rw [block_end hend] at h
      cases h
      have hfront : front (glyphs before ts) = .eof ∨ front (glyphs before ts) = .dedent := by
        simpa only [front_glyphs] using hend
      rw [eraseBlock_reverse]
      exact takes_nil ho ⟨.done hfront, hfront⟩
    by_cases hnl : peekKind ts = .newline
    · rw [block_newline hnl] at h
      refine (Takes.tail (by simp) hnl ho fun stop hstop => ih.block hstop h).mono ?_
      rintro _ rest - ⟨apart, words, rfl, hd, hend⟩
      exact ⟨.blank hd, hend⟩
    · rw [Parser.block] at h
      split at h <;> simp_all [TokenKind.isWord]

/-- The statements of an indented block with the dedent behind them, or up to the end of the script. -/
theorem indented_derived {mid : List Token} {b : List Stmt}
    (h : Takes before ts mid fun words rest => DerivesClause (.block [] (eraseBlock b)) words rest ∧
      (front rest = .eof ∨ front rest = .dedent)) :
    Takes before ts (skip .dedent mid) fun words rest =>
      (∃ inner apart, words = inner ++ [.token .dedent apart] ∧
        DerivesClause (.block [] (eraseBlock b)) inner (.token .dedent apart :: rest)) ∨
        (front rest = .eof ∧ DerivesClause (.block [] (eraseBlock b)) words rest) := by
  refine h.bind fun words stop hstop _ hd => ?_
  rw [skip_eq (by simp)]
  by_cases hdedent : peekKind mid = .dedent
  · rw [if_pos hdedent]
    refine (takes_one (by simp) hdedent hstop).mono ?_
    rintro _ rest hg ⟨apart, rfl⟩
    rw [hg] at hd
    exact .inl ⟨words, apart, rfl, hd.1⟩
  · rw [if_neg hdedent]
    refine takes_nil hstop (.inr ⟨hd.2.resolve_right ?_, by rw [List.append_nil]; exact hd.1⟩)
    rwa [front_glyphs]

theorem body_succ (ih : ClauseDerived fuel) {b : List Stmt} (ho : Ordered before ts)
    (h : Parser.body (fuel + 1) ts = .ok (b, rest)) : Takes before ts rest (DerivesClause (.body (eraseBlock b))) := by
  cases hend : atLineEnd ts with
  | false =>
    rw [body_line hend] at h
    obtain ⟨⟨items, left⟩, hl, h⟩ := bind_eq_ok.1 h
    obtain ⟨done, ha, h⟩ := bind_eq_ok.1 h
    cases pure_eq_ok.1 h
    refine (ih.line ho hl).mono fun words rest hg hd => ?_
    rw [← Bool.not_eq_true, ← endsLine_glyphs before, hg] at hend
    rw [eraseBlock_reverse]
    exact .inline hend hd (attachAll_eq_ok.2 ⟨done, ha, rfl⟩)
  | true =>
    by_cases hi : peekKind (skip .newline ts) = .indent
    · rw [body_block hend hi] at h
      obtain ⟨⟨inner, mid⟩, hb, h⟩ := bind_eq_ok.1 h
      cases pure_eq_ok.1 h
      have hnl : peekKind ts = .newline := by
        by_contra hnl
        rw [skip_eq (by simp), if_neg hnl] at hi
        rw [atLineEnd_eq, hi] at hend
        simp at hend
      rw [skip_eq (by simp), if_pos hnl] at hi hb
      refine (Takes.tail (by simp) hnl ho fun stop hstop => .tail (by simp) hi hstop fun stop hstop =>
        indented_derived (ih.block hstop hb)).mono ?_
      rintro _ rest - ⟨apart, _, rfl, apart', words, rfl, ⟨inner, apart'', rfl, hd⟩ | ⟨heof, hd⟩⟩
      · exact .block hd
      · exact .openBlock hd heof
    · rw [body_empty hend hi] at h
      cases h
      rw [skip_eq (by simp)] at hi ⊢
      by_cases hnl : peekKind ts = .newline
      · rw [if_pos hnl] at hi ⊢
        refine (takes_one (by simp) hnl ho).mono ?_
        rintro _ rest hg ⟨apart, rfl⟩
        rw [List.singleton_append] at hg
        exact .noBlock (by rwa [front_of_glyphs hg])
      · rw [if_neg hnl] at hi ⊢
        refine takes_nil ho (.noBody ?_)
        rw [atLineEnd_eq, decide_eq_true_iff] at hend
        simpa only [front_glyphs] using hend.resolve_left hnl

theorem succ (ih : ClauseDerived fuel) : ClauseDerived (fuel + 1) where
  block := block_succ ih
  line := line_succ ih
  statement := statement_succ ih
  conditional := conditional_succ ih
  body := body_succ ih

end ClauseDerived

theorem clauseDerived : ∀ fuel, ClauseDerived fuel
  | 0 => .zero
  | fuel + 1 => .succ (clauseDerived fuel)

/-- The statements of a script the grammar derives from its glyphs. -/
theorem derivesProgram_of_program {stmts : List Stmt} (hn : Nested 0 ts) (ho : Ordered 0 ts)
    (h : program ts = .ok stmts) : DerivesProgram (glyphs 0 ts) (eraseBlock stmts) := by
  rcases program_cases hn with ⟨r, -, -, he⟩ | ⟨stmts', last, hlast, hb, he⟩
  · rw [he] at h
    cases h
  · cases Except.ok.inj (he.symm.trans h)
    have heof : last.kind = .eof := by
      obtain ⟨init, eof, rfl, heof, -⟩ := hn.ends
      obtain ⟨init', hinit⟩ := hlast
      rw [← heof, (List.append_inj' hinit rfl).2 |> List.singleton_inj.1]
    obtain ⟨words, stop, hg, -, -, -, hd, -⟩ := (clauseDerived _).block ho hb
    rw [glyphs, heof] at hg hd
    exact ⟨words, _, hg, hd⟩

end Parser

end LiveSketch.Script

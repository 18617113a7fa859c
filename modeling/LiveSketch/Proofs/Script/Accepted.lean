import LiveSketch.Proofs.Script.Derived
import LiveSketch.Proofs.Script.Descent
import LiveSketch.Proofs.Script.Totality

/-!
# What the parser accepts

The other direction: what the grammar derives from the glyphs of tokens, without marks, the parser reads from the tokens
(`program_of_derivesProgram`), so a script is accepted exactly if the grammar derives it (`program_iff`). The
induction is on the derivation. The parser needs fuel; that there is always enough of it `Fueled` keeps in one place.

At each level of operators the parser reads an operand and then goes on along a chain, so a derivation of the left
operand says how far along the chain the parser has come (`ReadsPhrase`).
-/
namespace LiveSketch.Script

open LiveSketch.Script.Parser

namespace Parser

/-! ## Fuel -/

/-- With any fuel from some amount on. -/
def Fueled (P : Nat → Prop) : Prop := ∃ n, ∀ fuel, n ≤ fuel → P fuel

namespace Fueled

variable {P Q R : Nat → Prop}

theorem of_add (c : Nat) (h : ∀ fuel, P (fuel + c)) : Fueled P := by
  refine ⟨c, fun fuel hf => ?_⟩
  obtain ⟨fuel, rfl⟩ := Nat.exists_eq_add_of_le' hf
  exact h fuel

theorem mono (h : Fueled P) (hpq : ∀ fuel, P fuel → Q fuel) : Fueled Q := by
  obtain ⟨n, h⟩ := h
  exact ⟨n, fun fuel hf => hpq fuel (h fuel hf)⟩

theorem and (h : Fueled P) (h' : Fueled Q) : Fueled fun fuel => P fuel ∧ Q fuel := by
  obtain ⟨n, h⟩ := h
  obtain ⟨m, h'⟩ := h'
  exact ⟨max n m, fun fuel hf => ⟨h fuel (by omega), h' fuel (by omega)⟩⟩

/-- Some units of fuel may be gone. -/
theorem add (c : Nat) (h : Fueled P) (hpq : ∀ fuel, P fuel → Q (fuel + c)) : Fueled Q := by
  obtain ⟨n, h⟩ := h
  refine ⟨n + c, fun fuel hf => ?_⟩
  obtain ⟨fuel, rfl⟩ := Nat.exists_eq_add_of_le' (Nat.le_of_add_left_le hf)
  exact hpq fuel (h fuel (by omega))

theorem shift (c : Nat) (h : Fueled P) : Fueled fun fuel => P (fuel + c) := by
  obtain ⟨n, h⟩ := h
  exact ⟨n, fun fuel hf => h _ (by omega)⟩

end Fueled

/-! ## Expressions -/

/-- With enough fuel the parser reads the phrase from `ts` and leaves `mid`. Of an expression it has read what stands at
its level so far. -/
def ReadsPhrase : Phrase → (ts mid : List Token) → Prop
  | .expression 0 e, ts, mid => Fueled fun fuel => ∃ e' : Expr, e'.erase = e ∧ operand fuel ts = .ok (e', mid)
  | .expression (level + 1) e, ts, mid => ∃ more, Fueled fun fuel => ∃ e' : Expr, e'.erase = e ∧
      expression (fuel + more) (level + 1) ts = chain fuel level e' mid
  | .arguments es, ts, mid => Fueled fun fuel => ∃ es', eraseArgs es' = es ∧ arguments fuel ts = .ok (es', mid) ∧
      (peekKind mid = .rightParen → moreArguments fuel ts = .ok (es', mid.tail))

/-- Behind what is read stand the tokens of these glyphs. -/
def Behind (before : Nat) (rest : List Glyph) (P : List Token → Prop) : Prop :=
  ∃ stop mid, before ≤ stop ∧ Ordered stop mid ∧ glyphs stop mid = rest ∧ P mid

variable {before : Nat} {ts mid : List Token} {rest : List Glyph}

theorem Behind.mono {P Q : List Token → Prop} {before' : Nat} (h : Behind before' rest P) (hb : before ≤ before')
    (hpq : ∀ mid, P mid → Q mid) : Behind before rest Q := by
  obtain ⟨stop, mid, hle, ho, hg, hp⟩ := h
  exact ⟨stop, mid, Nat.le_trans hb hle, ho, hg, hpq mid hp⟩

theorem glyphs_eq_cons {kind : TokenKind} {apart : Bool} {gs : List Glyph} (ho : Ordered before ts)
    (h : glyphs before ts = .token kind apart :: gs) : ∃ t us, ts = t :: us ∧ t.kind = kind ∧
      decide (before < t.start) = apart ∧ Ordered before (t :: us) ∧ before ≤ t.stop ∧ Ordered t.stop us ∧
        glyphs t.stop us = gs := by
  cases ts with
  | nil => cases h
  | cons t us =>
    cases h
    exact ⟨t, us, rfl, rfl, rfl, ho, Nat.le_trans ho.1 ho.2.1, ho.2.2.2, rfl⟩

theorem glyphs_ne_opening {gs : List Glyph} : glyphs before ts ≠ .opening :: gs := by
  cases ts <;> simp [glyphs]

theorem peekKind_cons {kind : TokenKind} {t : Token} (h : t.kind = kind) : peekKind (t :: ts) = kind := h

theorem peekKind_of_front {kind : TokenKind} (h : front (glyphs before ts) = kind) : peekKind ts = kind := by
  rwa [front_glyphs] at h

/-- A complete expression at its level. -/
theorem ReadsPhrase.complete {level stop : Nat} {e : Expr} (h : ReadsPhrase (.expression level e) ts mid)
    (hs : Stops level (glyphs stop mid)) :
    Fueled fun fuel => ∃ e' : Expr, e'.erase = e ∧ expression fuel level ts = .ok (e', mid) := by
  cases level with
  | zero => exact Fueled.add 1 h fun fuel he => he
  | succ level =>
    obtain ⟨more, h⟩ := h
    refine (h.shift 1).add (1 + more) fun fuel hread => ?_
    obtain ⟨e', he, h⟩ := hread
    refine ⟨e', he, ?_⟩
    rw [← Nat.add_assoc, h, chain, stops_glyphs.1 hs]

theorem ReadsPhrase.of_postfixed {e : Expr} (hp : prefixOp? (peekKind ts) = none)
    (h : Fueled fun fuel => ∃ e' : Expr, e'.erase = e ∧ postfixed fuel ts = .ok (e', mid)) :
    ReadsPhrase (.expression 0 e) ts mid := by
  refine h.add 1 fun fuel hread => ?_
  obtain ⟨e', he, h⟩ := hread
  refine ⟨e', he, ?_⟩
  rw [operand, hp]
  exact h

theorem prefixOp?_literal {kind : TokenKind} {value : Literal} (h : literal? kind = some value) :
    prefixOp? kind = none := by
  unfold literal? at h
  split at h <;> first | rfl | cases h

theorem primary_literal {t : Token} {value : Literal} (h : literal? t.kind = some value) (fuel : Nat) :
    primary (fuel + 1) (t :: ts) = .ok (.literal value, ts) := by
  unfold literal? at h
  split at h
  case h_5 => cases h
  all_goals
    rename_i hk
    cases h
    simp [primary, peek, hk]

/-- A name, perhaps with arguments. -/
theorem postfixed_ident {t : Token} {word : String} (hk : t.kind = .ident word) (hkey : isKeyword word = false)
    (fuel : Nat) : postfixed (fuel + 2) (t :: ts) =
      (if peekKind ts = .leftParen ∧ (peek ts).start = t.stop then do
        let (args, rest) ← parenthesized (fuel + 1) ts.tail
        return (Expr.call word args t.start, rest)
      else if isCallable word && argumentsFollow (t :: ts) then do
        let (args, rest) ← arguments (fuel + 1) ts
        return (Expr.call word args t.start, rest)
      else return (Expr.ident word t.start, ts)) := by
  obtain ⟨kind, start, stop⟩ := t
  cases hk
  rw [postfixed, primary_name hkey]
  rfl

/-- An expression in parentheses. -/
theorem postfixed_parens {t u : Token} {e : Expr} {fuel : Nat} (ht : t.kind = .leftParen) (hu : u.kind = .rightParen)
    (he : ∀ word offset, e ≠ .ident word offset) (h : expression fuel levels ts = .ok (e, u :: mid)) :
    postfixed (fuel + 2) (t :: ts) = .ok (e, mid) := by
  have hprimary : primary (fuel + 1) (t :: ts) = .ok (e, mid) := by
    simp [primary, peek, ht, h, ok_bind, expect, consume?, hu]
  rw [postfixed, hprimary, ok_bind]
  cases e <;> first | rfl | exact absurd rfl (he _ _)

/-- A name in parentheses. -/
theorem postfixed_parensIdent {t u : Token} {word : String} {offset fuel : Nat} (ht : t.kind = .leftParen)
    (hu : u.kind = .rightParen) (hm : (peek mid).start ≠ t.stop)
    (h : expression fuel levels ts = .ok (.ident word offset, u :: mid)) :
    postfixed (fuel + 2) (t :: ts) = (if isCallable word && argumentsFollow (t :: ts) then do
        let (args, rest) ← arguments (fuel + 1) mid
        return (Expr.call word args offset, rest)
      else return (Expr.ident word offset, mid)) := by
  have hprimary : primary (fuel + 1) (t :: ts) = .ok (.ident word offset, mid) := by
    simp [primary, peek, ht, h, ok_bind, expect, consume?, hu]
  rw [postfixed, hprimary, ok_bind]
  exact if_neg fun hc => hm hc.2

theorem readsPhrase_command {t : Token} {word : String} {es : List Expr} (hk : t.kind = .ident word)
    (hkey : isKeyword word = false) (htouch : ¬(peekKind ts = .leftParen ∧ (peek ts).start = t.stop))
    (hcall : (isCallable word && argumentsFollow (t :: ts)) = true) (h : ReadsPhrase (.arguments es) ts mid) :
    ReadsPhrase (.expression 0 (.call word es 0)) (t :: ts) mid := by
  refine .of_postfixed (by rw [peekKind, peek, hk, prefixOp?_name hkey]) ?_
  refine (h.shift 1).add 2 fun fuel hread => ?_
  obtain ⟨es', he, h, _⟩ := hread
  refine ⟨.call word es' t.start, by rw [Expr.erase, he], ?_⟩
  rw [postfixed_ident hk hkey, if_neg htouch, if_pos hcall, h]
  rfl

/-- A call in parentheses. -/
theorem readsPhrase_call {t l : Token} {word : String} {es : List Expr} (hk : t.kind = .ident word)
    (hkey : isKeyword word = false) (hl : l.kind = .leftParen) (hstart : l.start = t.stop)
    (h : Fueled fun fuel => ∃ es', eraseArgs es' = es ∧ parenthesized fuel ts = .ok (es', mid)) :
    ReadsPhrase (.expression 0 (.call word es 0)) (t :: l :: ts) mid := by
  refine .of_postfixed (by rw [peekKind, peek, hk, prefixOp?_name hkey]) ?_
  refine (h.shift 1).add 2 fun fuel hread => ?_
  obtain ⟨es', he, h⟩ := hread
  refine ⟨.call word es' t.start, by rw [Expr.erase, he], ?_⟩
  have htouch : peekKind (l :: ts) = .leftParen ∧ (peek (l :: ts)).start = t.stop := ⟨hl, hstart⟩
  rw [postfixed_ident hk hkey, if_pos htouch, List.tail_cons, h]
  rfl

theorem touches_of_follows {gs : List Glyph} (h : follows gs = true) : touches gs = false := by
  induction gs with
  | nil => cases h
  | cons g gs ih =>
    cases g with
    | opening => exact ih h
    | closing => exact ih h
    | token kind apart =>
      by_cases hk : kind = .leftParen
      · subst hk
        rw [touches, show apart = true from h]
        rfl
      · simp [touches, hk]

/-- Behind a closing parenthesis nothing touches the opening one. -/
theorem start_ne_of_ordered {t u : Token} {us : List Token} {stop : Nat} (ht : Ordered before (t :: us))
    (hk : t.kind = .leftParen) (hb : t.stop ≤ stop) (hu : Ordered stop (u :: mid)) (huk : u.kind = .rightParen) :
    (peek mid).start ≠ t.stop := by
  have hword := ht.2.2.1 (by rw [hk]; rfl)
  have hword' := hu.2.2.1 (by rw [huk]; rfl)
  have hstart := hu.1
  cases mid with
  | nil =>
    show 0 ≠ t.stop
    omega
  | cons m mid =>
    have hm := hu.2.2.2.1
    show m.start ≠ t.stop
    omega

theorem readsPhrase_parens {t u : Token} {e : Expr} (ht : t.kind = .leftParen) (hu : u.kind = .rightParen)
    (hm : (peek mid).start ≠ t.stop)
    (hcall : ∀ word, e = .ident word 0 → (isCallable word && argumentsFollow (t :: ts)) = false)
    (h : Fueled fun fuel => ∃ e' : Expr, e'.erase = e ∧ expression fuel levels ts = .ok (e', u :: mid)) :
    ReadsPhrase (.expression 0 e) (t :: ts) mid := by
  refine .of_postfixed (by rw [peekKind, peek, ht]; rfl) (h.add 2 fun fuel hread => ?_)
  obtain ⟨e', he, h⟩ := hread
  refine ⟨e', he, ?_⟩
  cases e' with
  | ident word offset =>
    rw [postfixed_parensIdent ht hu hm h, hcall word (by rw [← he, Expr.erase])]
    rfl
  | _ => exact postfixed_parens ht hu (fun _ _ he => by cases he) h

theorem readsPhrase_parensCommand {t u : Token} {word : String} {es : List Expr} {us : List Token}
    (ht : t.kind = .leftParen) (hu : u.kind = .rightParen) (hm : (peek us).start ≠ t.stop)
    (hcall : (isCallable word && argumentsFollow (t :: ts)) = true)
    (h : Fueled fun fuel => ∃ e' : Expr, e'.erase = .ident word 0 ∧ expression fuel levels ts = .ok (e', u :: us))
    (hes : ReadsPhrase (.arguments es) us mid) : ReadsPhrase (.expression 0 (.call word es 0)) (t :: ts) mid := by
  refine .of_postfixed (by rw [peekKind, peek, ht]; rfl) ?_
  refine (h.and (hes.shift 1)).add 2 fun fuel hread => ?_
  obtain ⟨⟨e', he, h'⟩, es', hes', ha, _⟩ := hread
  cases e' with
  | ident word' offset =>
    rw [Expr.erase, Expr.ident.injEq] at he
    obtain ⟨rfl, -⟩ := he
    refine ⟨.call word' es' offset, by rw [Expr.erase, hes'], ?_⟩
    rw [postfixed_parensIdent ht hu hm h', if_pos hcall, ha]
    rfl
  | _ => cases he

/-- Arguments with a closing parenthesis behind them. -/
theorem ReadsPhrase.parenthesized {u : Token} {es : List Expr} (hu : u.kind = .rightParen)
    (h : ReadsPhrase (.arguments es) ts (u :: mid)) :
    Fueled fun fuel => ∃ es', eraseArgs es' = es ∧ Parser.parenthesized fuel ts = .ok (es', mid) := by
  refine h.add 1 fun fuel hread => ?_
  obtain ⟨es', he, ha, h⟩ := hread
  refine ⟨es', he, ?_⟩
  have hopens : (peekKind ts).opensOperand := by
    match fuel, ha with
    | fuel + 1, ha =>
      rw [arguments] at ha
      obtain ⟨first, hf, -⟩ := bind_eq_ok.1 ha
      exact opensOperand_of_expression hf
  have hp : peekKind ts ≠ .rightParen := fun hk => by
    rw [hk] at hopens
    cases hopens
  rw [Parser.parenthesized, consume?_eq (by simp), if_neg hp]
  exact h hu

theorem readsPhrase_lift {level stop : Nat} {e : Expr} (h : ReadsPhrase (.expression level e) ts mid)
    (hs : Stops level (glyphs stop mid)) : ReadsPhrase (.expression (level + 1) e) ts mid := by
  refine ⟨1, (h.complete hs).mono fun fuel hread => ?_⟩
  obtain ⟨e', he, h⟩ := hread
  refine ⟨e', he, ?_⟩
  rw [expression, h]
  rfl

theorem readsPhrase_binary {level stop : Nat} {o : Token} {op : BinaryOp} {left right : Expr} {us : List Token}
    (hl : ReadsPhrase (.expression (level + 1) left) ts (o :: us)) (ho : binaryOp? level o.kind = some op)
    (hr : ReadsPhrase (.expression level right) us mid) (hs : Stops level (glyphs stop mid)) :
    ReadsPhrase (.expression (level + 1) (.binary op left right)) ts mid := by
  obtain ⟨more, hl⟩ := hl
  refine ⟨1 + more, ((hl.shift 1).and (hr.complete hs)).mono fun fuel hread => ?_⟩
  obtain ⟨⟨l, hle, hl⟩, r, hre, hr⟩ := hread
  refine ⟨.binary op l r, by rw [Expr.erase, hle, hre], ?_⟩
  have hop : binaryOp? level (peekKind (o :: us)) = some op := ho
  rw [← Nat.add_assoc, hl, chain]
  simp only [hop, List.tail_cons, hr, ok_bind]

theorem readsPhrase_last {stop : Nat} {e : Expr} (h : ReadsPhrase (.expression levels e) ts mid)
    (hs : Stops levels (glyphs stop mid)) (hc : peekKind mid ≠ .comma) : ReadsPhrase (.arguments [e]) ts mid := by
  refine (h.complete hs).add 1 fun fuel hread => ?_
  obtain ⟨e', he, h⟩ := hread
  refine ⟨[e'], by rw [eraseArgs, eraseArgs, he], ?_, fun hp => ?_⟩
  · rw [arguments, h, ok_bind]
    dsimp only
    rw [consume?_eq (by simp), if_neg hc]
    rfl
  · rw [moreArguments, h, ok_bind]
    dsimp only
    rw [consume?_eq (by simp), if_neg hc]
    simp only [(expect_eq_ok (by simp)).2 ⟨hp, rfl⟩, ok_bind]
    rfl

theorem readsPhrase_more {stop : Nat} {c : Token} {e : Expr} {es : List Expr} {us : List Token}
    (h : ReadsPhrase (.expression levels e) ts (c :: us)) (hs : Stops levels (glyphs stop (c :: us)))
    (hc : c.kind = .comma) (hes : ReadsPhrase (.arguments es) us mid) : ReadsPhrase (.arguments (e :: es)) ts mid := by
  refine ((h.complete hs).and hes).add 1 fun fuel hread => ?_
  obtain ⟨⟨e', he, h⟩, es', hes', ha, hm⟩ := hread
  refine ⟨e' :: es', by rw [eraseArgs, he, hes'], ?_, fun hp => ?_⟩
  · rw [arguments, h, ok_bind]
    simp only [consume?, hc, if_true, ha, ok_bind]
    rfl
  · rw [moreArguments, h, ok_bind]
    simp only [consume?, hc, if_true, hm hp, ok_bind]
    rfl

/-- What the grammar derives from the glyphs of tokens the parser reads from the tokens. -/
theorem readsPhrase_of_derives {p : Phrase} {words rest : List Glyph} (h : Derives p words rest) :
    ∀ {before : Nat} {ts : List Token}, Ordered before ts → glyphs before ts = words ++ rest →
      Behind before rest (ReadsPhrase p ts) := by
  induction h with
  | literal hv =>
    intro before ts ho hg
    simp only [List.cons_append, List.nil_append] at hg
    obtain ⟨t, us, rfl, rfl, -, -, hb, ho, rfl⟩ := glyphs_eq_cons ho hg
    refine ⟨t.stop, us, hb, ho, rfl, .of_postfixed (prefixOp?_literal hv) ?_⟩
    refine .of_add 2 fun fuel => ⟨.literal _, rfl, ?_⟩
    rw [postfixed, primary_literal hv]
    rfl
  | name hkey htouch hcall =>
    intro before ts ho hg
    simp only [List.cons_append, List.nil_append] at hg
    obtain ⟨t, us, rfl, hk, -, -, hb, ho, rfl⟩ := glyphs_eq_cons ho hg
    rw [← Bool.not_eq_true, touches_glyphs ho] at htouch
    rw [follows_glyphs ho] at hcall
    refine ⟨t.stop, us, hb, ho, rfl, .of_postfixed (by rw [peekKind, peek, hk, prefixOp?_name hkey]) ?_⟩
    refine .of_add 2 fun fuel => ⟨.ident _ t.start, rfl, ?_⟩
    rw [postfixed_ident hk hkey, if_neg htouch, hcall]
    rfl
  | emptyCall hkey =>
    intro before ts ho hg
    simp only [List.cons_append, List.nil_append] at hg
    obtain ⟨t, us, rfl, hk, -, -, hb, ho, hg⟩ := glyphs_eq_cons ho hg
    obtain ⟨l, us, rfl, hl, hapart, hol, hbl, ho, hg⟩ := glyphs_eq_cons ho hg
    obtain ⟨r, us, rfl, hr, -, -, hbr, ho, rfl⟩ := glyphs_eq_cons ho hg
    have hstart : l.start = t.stop := Nat.le_antisymm (Nat.not_lt.1 (of_decide_eq_false hapart)) hol.1
    refine ⟨r.stop, us, by omega, ho, rfl, readsPhrase_call hk hkey hl hstart (.of_add 1 fun fuel => ⟨[], rfl, ?_⟩)⟩
    rw [parenthesized, consume?, if_pos hr]
  | call hkey _ ih =>
    intro before ts ho hg
    simp only [List.cons_append, List.append_assoc, List.nil_append] at hg
    obtain ⟨t, us, rfl, hk, -, -, hb, ho, hg⟩ := glyphs_eq_cons ho hg
    obtain ⟨l, us, rfl, hl, hapart, hol, hbl, ho, hg⟩ := glyphs_eq_cons ho hg
    have hstart : l.start = t.stop := Nat.le_antisymm (Nat.not_lt.1 (of_decide_eq_false hapart)) hol.1
    obtain ⟨stop, mid, hbm, ho, hg, hargs⟩ := ih ho hg
    obtain ⟨r, mid, rfl, hr, -, -, hbr, ho, rfl⟩ := glyphs_eq_cons ho hg
    exact ⟨r.stop, mid, by omega, ho, rfl, readsPhrase_call hk hkey hl hstart (hargs.parenthesized hr)⟩
  | command hkey hcall hf _ ih =>
    intro before ts ho hg
    simp only [List.cons_append] at hg
    obtain ⟨t, us, rfl, hk, -, -, hb, ho, hg⟩ := glyphs_eq_cons ho hg
    have hfollow := follows_glyphs ho
    rw [hg, hf] at hfollow
    have htouch : ¬(peekKind us = .leftParen ∧ (peek us).start = t.stop) := by
      rw [← touches_glyphs ho, hg, Bool.not_eq_true]
      exact touches_of_follows hf
    refine (ih ho hg).mono hb fun mid hargs => readsPhrase_command hk hkey htouch ?_ hargs
    rw [hcall, ← hfollow]
    rfl
  | sign hf _ ih =>
    intro before ts ho hg
    simp only [List.cons_append] at hg
    obtain ⟨t, us, rfl, rfl, -, -, hb, ho, hg⟩ := glyphs_eq_cons ho hg
    refine (ih ho hg).mono hb fun mid h => h.add 1 fun fuel hread => ?_
    obtain ⟨e', he, h⟩ := hread
    refine ⟨_, by rw [ExprDerived.erase_sign hf, he], ?_⟩
    have hp : prefixOp? (peekKind (t :: us)) = some _ := hf
    rw [operand, hp]
    simp only [List.tail_cons, h, ok_bind]
    rfl
  | lift _ hs ih =>
    intro before ts ho hg
    obtain ⟨stop, mid, hb, ho, rfl, h⟩ := ih ho hg
    exact ⟨stop, mid, hb, ho, rfl, readsPhrase_lift h hs⟩
  | binary _ hop _ hs ihl ihr =>
    intro before ts ho hg
    simp only [List.cons_append, List.append_assoc] at hg
    obtain ⟨stop, mid, hb, ho, hg, hl⟩ := ihl ho hg
    obtain ⟨o, mid, rfl, rfl, -, -, hbo, ho, hg⟩ := glyphs_eq_cons ho hg
    obtain ⟨stop', mid, hbm, ho, rfl, hr⟩ := ihr ho hg
    exact ⟨stop', mid, by omega, ho, rfl, readsPhrase_binary hl hop hr hs⟩
  | marked =>
    intro before ts ho hg
    exact absurd hg glyphs_ne_opening
  | last _ hs hc ih =>
    intro before ts ho hg
    obtain ⟨stop, mid, hb, ho, rfl, h⟩ := ih ho hg
    rw [front_glyphs] at hc
    exact ⟨stop, mid, hb, ho, rfl, readsPhrase_last h hs hc⟩
  | more _ _ ih ihs =>
    intro before ts ho hg
    simp only [List.cons_append, List.append_assoc] at hg
    obtain ⟨stop, mid, hb, ho, hg, h⟩ := ih ho hg
    obtain ⟨c, us, rfl, hc, -, -, hbc, ho, hg'⟩ := glyphs_eq_cons ho hg
    obtain ⟨stop', mid, hbm, ho, rfl, hes⟩ := ihs ho hg'
    refine ⟨stop', mid, by omega, ho, rfl, readsPhrase_more h (show Stops levels (glyphs stop _) from ?_) hc hes⟩
    rw [hg]
    rfl
  | parens _ hcall ih =>
    intro before ts ho hg
    simp only [List.cons_append, List.append_assoc, List.nil_append] at hg
    obtain ⟨t, us, rfl, hk, -, hot, hb, ho, hg⟩ := glyphs_eq_cons ho hg
    obtain ⟨stop, mid, hbm, hor, hg', h⟩ := ih ho hg
    obtain ⟨r, mid, rfl, hr, -, hor, hbr, hom, rfl⟩ := glyphs_eq_cons hor hg'
    refine ⟨r.stop, mid, by omega, hom, rfl, readsPhrase_parens hk hr ?_ ?_
      (h.complete (show Stops levels (glyphs stop _) by rw [hg']; rfl))⟩
    · exact start_ne_of_ordered hot hk hbm hor hr
    · intro word he
      rw [← follows_glyphs ho, hg]
      simpa using hcall word he
  | parensCommand _ hcall hf _ ih ihs =>
    intro before ts ho hg
    simp only [List.cons_append, List.append_assoc] at hg
    obtain ⟨t, us, rfl, hk, -, hot, hb, ho, hg⟩ := glyphs_eq_cons ho hg
    obtain ⟨stop, mid, hbm, hor, hg', h⟩ := ih ho hg
    obtain ⟨r, us', rfl, hr, -, hor, hbr, hom, hg''⟩ := glyphs_eq_cons hor hg'
    obtain ⟨stop', mid, hbm', ho', rfl, hargs⟩ := ihs hom hg''
    refine ⟨stop', mid, by omega, ho', rfl, readsPhrase_parensCommand hk hr ?_ ?_
      (h.complete (show Stops levels (glyphs stop _) by rw [hg']; rfl)) hargs⟩
    · exact start_ne_of_ordered hot hk hbm hor hr
    · rw [← follows_glyphs ho, hg, hcall]
      simpa using hf

/-! ## Statements -/

/-- With enough fuel the parser reads the clause from `ts` and leaves `mid`. -/
def ReadsClause : Clause → (ts mid : List Token) → Prop
  | .block done stmts, ts, mid => Fueled fun fuel => ∀ done', eraseBlock done' = done →
      ∃ b, eraseBlock b = stmts ∧ block fuel done' ts = .ok (b, mid)
  | .line items, ts, mid => Fueled fun fuel => ∃ items', items'.map Item.erase = items ∧
      line fuel ts = .ok (items', mid)
  | .statement item lineDone, ts, mid => Fueled fun fuel => ∃ item' : Item, item'.erase = item ∧
      statement fuel ts = .ok (item', lineDone, mid)
  | .conditional c b, ts, mid => Fueled fun fuel => ∃ c' : Expr, ∃ b', c'.erase = c ∧ eraseBlock b' = b ∧
      conditional fuel ts = .ok (c', b', mid)
  | .body b, ts, mid => Fueled fun fuel => ∃ b', eraseBlock b' = b ∧ body fuel ts = .ok (b', mid)

theorem opensOperand_of_statement {fuel : Nat} {found : Item × Bool × List Token}
    (h : statement fuel ts = .ok found) : (peekKind ts).opensOperand := by
  by_cases hname : ∃ name, peekKind ts = .ident name
  · obtain ⟨name, hk⟩ := hname
    rw [hk]
    rfl
  · match fuel, h with
    | fuel + 1, h =>
      rw [statement_bare fun name hk => hname ⟨name, hk⟩] at h
      match fuel, h with
      | fuel + 1, h =>
        rw [bare_eq] at h
        obtain ⟨first, hf, -⟩ := bind_eq_ok.1 h
        exact opensOperand_of_expression hf

theorem kind_of_statement {fuel : Nat} {found : Item × Bool × List Token} (h : statement fuel ts = .ok found) :
    peekKind ts ∉ [TokenKind.semicolon, .newline, .eof, .dedent] := by
  have hopens := opensOperand_of_statement h
  intro hk
  simp only [List.mem_cons, List.not_mem_nil, or_false] at hk
  rcases hk with hk | hk | hk | hk <;>
    · rw [hk] at hopens
      cases hopens

theorem assignOp?_of_stepOp? {kind : TokenKind} {op : AssignOp} (h : stepOp? kind = some op) :
    assignOp? kind = none := by
  unfold stepOp? at h
  split at h <;> first | rfl | cases h

theorem stops_of_endsLine {gs : List Glyph} (h : endsLine (front gs)) : Stops levels gs := by
  show binaryOp? _ (front gs) = none
  rcases h with h | h | h <;>
    · rw [h]
      rfl

/-- No expression begins with a word that begins another statement. -/
theorem front_ne_of_derives {p : Phrase} {words : List Glyph} (h : Derives p words rest) {word : String}
    (hw : word ∈ ["repeat", "if", "else"]) : front (words ++ rest) ≠ .ident word := by
  have hkey : isKeyword word := by
    simp only [List.mem_cons, List.not_mem_nil, or_false] at hw
    rcases hw with rfl | rfl | rfl <;> decide
  have hname : ∀ {name : String}, isKeyword name = false → TokenKind.ident name ≠ .ident word := fun hn he => by
    cases he
    rw [hkey] at hn
    cases hn
  induction h with
  | literal hv =>
    intro he
    cases he
    unfold literal? at hv
    split at hv <;> simp_all
  | name hkey _ _ | emptyCall hkey | call hkey _ _ | command hkey _ _ _ _ =>
    exact fun he => hname hkey he
  | parens | parensCommand => simp [front]
  | sign hf =>
    intro he
    cases he
    unfold prefixOp? at hf
    split at hf <;> simp_all
  | lift _ _ ih => exact ih
  | binary _ _ _ _ ih => simpa only [List.append_assoc, List.cons_append] using ih
  | @marked _ _ words rest _ ih => simpa only [List.cons_append, List.append_assoc, List.nil_append, front] using ih
  | last _ _ _ ih => exact ih
  | more _ _ ih => simpa only [List.append_assoc, List.cons_append] using ih

theorem not_statement_of_not_isKeyword {word : String} (h : isKeyword word = false) :
    word ∉ ["repeat", "if", "else"] := by
  have hr : word ≠ "repeat" := ne_of_not_isKeyword h (by decide)
  have hi : word ≠ "if" := ne_of_not_isKeyword h (by decide)
  have he : word ≠ "else" := ne_of_not_isKeyword h (by decide)
  simp [hr, hi, he]

theorem assignOp?_of_follows {before : Nat} (h : follows (glyphs before ts) = true) :
    assignOp? (peekKind ts) = none ∧ stepOp? (peekKind ts) = none := by
  cases ts with
  | nil => cases h
  | cons t ts =>
    rw [glyphs] at h
    rw [peekKind, peek]
    revert h
    generalize glyphs t.stop ts = gs
    cases t.kind <;> simp [follows, assignOp?, stepOp?]

theorem readsPhrase_bare {stop : Nat} {e : Expr} (ho : Ordered before ts) (hb : IsBare (glyphs before ts))
    (hword : ∀ word ∈ ["repeat", "if", "else"], peekKind ts ≠ .ident word)
    (h : ReadsPhrase (.expression levels e) ts mid) (hs : Stops levels (glyphs stop mid)) :
    ReadsClause (.statement (.stmt (.expr (asCall e))) false) ts mid := by
  refine (h.complete hs).add 2 fun fuel hread => ?_
  obtain ⟨e', he, h⟩ := hread
  refine ⟨.stmt (.expr (asCall e')), by rw [Item.erase, Stmt.erase, erase_asCall, he], ?_⟩
  have hbare : bare (fuel + 1) ts = .ok (.stmt (.expr (asCall e')), false, mid) := by
    rw [bare_eq, h]
    rfl
  by_cases hname : ∃ name, peekKind ts = .ident name
  · obtain ⟨name, hk⟩ := hname
    obtain ⟨t, ht, htk⟩ := eq_cons_of_peekKind (by simp) hk
    have hn : name ∉ ["repeat", "if", "else"] := fun hn => hword name hn hk
    rw [ht, glyphs, htk] at hb
    obtain ⟨hassign, hstep, hcall⟩ := hb
    rw [front_glyphs] at hassign hstep
    rw [follows_glyphs (ht ▸ ho : Ordered before (t :: ts.tail)).2.2.2, ← ht] at hcall
    rw [statement_name hk hn, hassign, hstep]
    dsimp only
    rw [if_neg (by rw [hcall]; exact Bool.false_ne_true), hbare]
  · rw [statement_bare fun name hk => hname ⟨name, hk⟩, hbare]

/-- What the grammar derives from the glyphs of tokens as statements the parser reads from the tokens. -/
theorem readsClause_of_derivesClause {c : Clause} {words rest : List Glyph} (h : DerivesClause c words rest) :
    ∀ {before : Nat} {ts : List Token}, Ordered before ts → glyphs before ts = words ++ rest →
      Behind before rest (ReadsClause c ts) := by
  induction h with
  | done hend =>
    intro before ts ho hg
    simp only [List.nil_append] at hg
    rw [← hg] at hend
    refine ⟨before, ts, Nat.le_refl _, ho, hg, .of_add 1 fun fuel done' hd => ⟨done'.reverse, ?_, ?_⟩⟩
    · rw [eraseBlock_reverse, hd]
    · exact block_end (hend.imp peekKind_of_front peekKind_of_front)
  | blank _ ih =>
    intro before ts ho hg
    simp only [List.cons_append] at hg
    obtain ⟨t, us, rfl, hk, -, -, hb, ho, hg⟩ := glyphs_eq_cons ho hg
    refine (ih ho hg).mono hb fun mid h => h.add 1 fun fuel h done' hd => ?_
    rw [block_newline (peekKind_cons hk)]
    exact h done' hd
  | row hfront _ ha _ ihl ihb =>
    intro before ts ho hg
    simp only [List.append_assoc] at hg
    obtain ⟨stop, us, hb, hou, hgu, hl⟩ := ihl ho hg
    obtain ⟨stop', mid, hb', hom, rfl, hb⟩ := ihb hou hgu
    refine ⟨stop', mid, by omega, hom, rfl, (hl.and hb).add 1 fun fuel hread d hd => ?_⟩
    obtain ⟨⟨items, hi, hl⟩, hb⟩ := hread
    rw [← hi, ← hd] at ha
    obtain ⟨d', hd', he⟩ := attachAll_eq_ok.1 ha
    obtain ⟨b, hbe, hb⟩ := hb d' he
    refine ⟨b, hbe, ?_⟩
    rw [block_line (by rwa [← hg, front_glyphs] at hfront), hl, ok_bind]
    simp only [hd', ok_bind, hb]
  | semicolon _ ih =>
    intro before ts ho hg
    simp only [List.cons_append] at hg
    obtain ⟨t, us, rfl, hk, -, -, hb, ho, hg⟩ := glyphs_eq_cons ho hg
    refine (ih ho hg).mono hb fun mid h => h.add 1 fun fuel hread => ?_
    obtain ⟨items, hi, h⟩ := hread
    refine ⟨items, hi, ?_⟩
    rw [line_semicolon (peekKind_cons hk)]
    exact h
  | newline =>
    intro before ts ho hg
    obtain ⟨t, us, rfl, hk, -, -, hb, ho, rfl⟩ := glyphs_eq_cons ho hg
    exact ⟨t.stop, us, hb, ho, rfl, .of_add 1 fun fuel => ⟨[], rfl, line_newline (peekKind_cons hk)⟩⟩
  | noLine hend =>
    intro before ts ho hg
    simp only [List.nil_append] at hg
    rw [← hg] at hend
    exact ⟨before, ts, Nat.le_refl _, ho, hg, .of_add 1 fun fuel =>
      ⟨[], rfl, line_end (hend.imp peekKind_of_front peekKind_of_front)⟩⟩
  | lineDone _ ih =>
    intro before ts ho hg
    refine (ih ho hg).mono (Nat.le_refl _) fun mid h => h.add 1 fun fuel hread => ?_
    obtain ⟨item, hi, h⟩ := hread
    refine ⟨[item], by rw [List.map_singleton, hi], ?_⟩
    rw [line_statement (kind_of_statement h), h]
    rfl
  | nextItem _ hend _ ihs ihl =>
    intro before ts ho hg
    simp only [List.append_assoc] at hg
    obtain ⟨stop, us, hb, ho, hg, hs⟩ := ihs ho hg
    obtain ⟨stop', mid, hb', hom, rfl, hl⟩ := ihl ho hg
    refine ⟨stop', mid, by omega, hom, rfl, (hs.and hl).add 1 fun fuel hread => ?_⟩
    obtain ⟨⟨item, hi, hs⟩, items, his, hl⟩ := hread
    refine ⟨item :: items, by rw [List.map_cons, hi, his], ?_⟩
    have hmore : (atLineEnd us || peekKind us == .semicolon) = true := by
      rwa [Bool.or_eq_true, beq_iff_eq, ← ClauseDerived.endsLine_glyphs stop,
        ← front_glyphs stop, hg]
    rw [line_statement (kind_of_statement hs), hs, ok_bind]
    simp only [hmore, if_true, Bool.false_eq_true, if_false, hl, ok_bind]
    rfl
  | loop hc _ ihb =>
    intro before ts ho hg
    simp only [List.cons_append, List.append_assoc] at hg
    obtain ⟨t, us, rfl, hk, -, -, hb, ho, hg⟩ := glyphs_eq_cons ho hg
    obtain ⟨stop, us, hbu, ho, hg, hcount⟩ := readsPhrase_of_derives hc ho hg
    have hcount := hcount.complete (show Stops levels (glyphs stop _) by rw [hg]; rfl)
    obtain ⟨a, us, rfl, ha, -, -, hba, ho, hg⟩ := glyphs_eq_cons ho hg
    refine (ihb ho hg).mono (by omega) fun mid h => (hcount.and h).add 1 fun fuel hread => ?_
    obtain ⟨⟨count, hc, hcount⟩, b, hb, h⟩ := hread
    refine ⟨.stmt (.loop count b), by rw [Item.erase, Stmt.erase, hc, hb], ?_⟩
    rw [statement_repeat (peekKind_cons hk), List.tail_cons, hcount, ok_bind]
    simp only [(expect_eq_ok (by simp)).2 ⟨peekKind_cons ha, rfl⟩, List.tail_cons, h, ok_bind]
    rfl
  | branch _ ih =>
    intro before ts ho hg
    simp only [List.cons_append] at hg
    obtain ⟨t, us, rfl, hk, -, -, hb, ho, hg⟩ := glyphs_eq_cons ho hg
    refine (ih ho hg).mono hb fun mid h => h.add 1 fun fuel hread => ?_
    obtain ⟨c, b, hc, hb, h⟩ := hread
    refine ⟨.stmt (.branch c b none), by rw [Item.erase, Stmt.erase, hc, hb, eraseElse], ?_⟩
    rw [statement_if (peekKind_cons hk), List.tail_cons, h]
    rfl
  | otherwiseIf _ ih =>
    intro before ts ho hg
    simp only [List.cons_append] at hg
    obtain ⟨t, us, rfl, hk, -, -, hb, ho, hg⟩ := glyphs_eq_cons ho hg
    obtain ⟨i, us, rfl, hi, -, -, hbi, ho, hg⟩ := glyphs_eq_cons ho hg
    refine (ih ho hg).mono (by omega) fun mid h => h.add 1 fun fuel hread => ?_
    obtain ⟨c, b, hc, hb, h⟩ := hread
    refine ⟨.otherwise (some c) b t.start, by rw [Item.erase, Option.map_some, hc, hb], ?_⟩
    rw [statement_elseIf (peekKind_cons hk) (by exact peekKind_cons hi), List.tail_cons, List.tail_cons, h]
    rfl
  | otherwise hi ha _ ih =>
    intro before ts ho hg
    simp only [List.cons_append] at hg
    obtain ⟨t, us, rfl, hk, -, -, hb, ho, hg⟩ := glyphs_eq_cons ho hg
    rw [← hg, front_glyphs] at hi ha
    refine (ih ho hg).mono hb fun mid h => h.add 1 fun fuel hread => ?_
    obtain ⟨b, hb, h⟩ := hread
    refine ⟨.otherwise none b t.start, by rw [Item.erase, Option.map_none, hb], ?_⟩
    rw [statement_else (peekKind_cons hk) hi, skip_eq (by simp), List.tail_cons, if_neg ha, h]
    rfl
  | otherwiseArrow _ ih =>
    intro before ts ho hg
    simp only [List.cons_append] at hg
    obtain ⟨t, us, rfl, hk, -, -, hb, ho, hg⟩ := glyphs_eq_cons ho hg
    obtain ⟨a, us, rfl, ha, -, -, hba, ho, hg⟩ := glyphs_eq_cons ho hg
    have hne : peekKind (a :: us) ≠ .ident "if" := by rw [peekKind, peek, ha]; simp
    refine (ih ho hg).mono (by omega) fun mid h => h.add 1 fun fuel hread => ?_
    obtain ⟨b, hb, h⟩ := hread
    refine ⟨.otherwise none b t.start, by rw [Item.erase, Option.map_none, hb], ?_⟩
    rw [statement_else (peekKind_cons hk) hne, skip_eq (by simp), List.tail_cons, if_pos (peekKind_cons ha),
      List.tail_cons, h]
    rfl
  | assign hkey hop hv hs =>
    intro before ts ho hg
    simp only [List.cons_append] at hg
    obtain ⟨t, us, rfl, hk, -, -, hb, ho, hg⟩ := glyphs_eq_cons ho hg
    obtain ⟨o, us, rfl, rfl, -, -, hbo, ho, hg⟩ := glyphs_eq_cons ho hg
    obtain ⟨stop, mid, hbm, ho, rfl, h⟩ := readsPhrase_of_derives hv ho hg
    refine ⟨stop, mid, by omega, ho, rfl, (h.complete hs).add 1 fun fuel hread => ?_⟩
    obtain ⟨value, hv, h⟩ := hread
    refine ⟨.stmt (.assign _ _ value t.start), by rw [Item.erase, Stmt.erase, hv], ?_⟩
    have hop' : assignOp? (peekKind (t :: o :: us).tail) = some _ := hop
    rw [statement_name (peekKind_cons hk) (not_statement_of_not_isKeyword hkey), hop']
    simp only [hkey, Bool.false_eq_true, if_false, List.tail_cons, h, ok_bind]
    rfl
  | step hkey hop =>
    intro before ts ho hg
    simp only [List.cons_append, List.nil_append] at hg
    obtain ⟨t, us, rfl, hk, -, -, hb, ho, hg⟩ := glyphs_eq_cons ho hg
    obtain ⟨o, us, rfl, rfl, -, -, hbo, ho, rfl⟩ := glyphs_eq_cons ho hg
    refine ⟨o.stop, us, by omega, ho, rfl, .of_add 1 fun fuel =>
      ⟨.stmt (.assign _ _ (.literal (.number 1)) t.start), by rw [Item.erase, Stmt.erase, Expr.erase], ?_⟩⟩
    have hop' : stepOp? (peekKind (t :: o :: us).tail) = some _ := hop
    have hassign : assignOp? (peekKind (t :: o :: us).tail) = none := assignOp?_of_stepOp? hop
    rw [statement_name (peekKind_cons hk) (not_statement_of_not_isKeyword hkey), hassign, hop']
    simp only [hkey, Bool.false_eq_true, if_false]
    rfl
  | command hkey hf ha =>
    intro before ts ho hg
    simp only [List.cons_append] at hg
    obtain ⟨t, us, rfl, hk, -, -, hb, ho, hg⟩ := glyphs_eq_cons ho hg
    rw [← hg] at hf
    have hfollow := follows_glyphs ho
    rw [hf] at hfollow
    have hassign : assignOp? (peekKind (t :: us).tail) = none := (assignOp?_of_follows hf).1
    have hstep : stepOp? (peekKind (t :: us).tail) = none := (assignOp?_of_follows hf).2
    refine (readsPhrase_of_derives ha ho hg).mono hb fun mid h => h.add 1 fun fuel hread => ?_
    obtain ⟨args, ha, h, _⟩ := hread
    refine ⟨.stmt (.expr (.call _ args t.start)), by rw [Item.erase, Stmt.erase, Expr.erase, ha], ?_⟩
    rw [statement_name (peekKind_cons hk) (not_statement_of_not_isKeyword hkey), hassign, hstep]
    simp only [hkey, ← hfollow, Bool.not_false, Bool.and_self, if_true, List.tail_cons, h, ok_bind]
    rfl
  | bare hbare hd hs =>
    intro before ts ho hg
    obtain ⟨stop, mid, hb, hom, rfl, h⟩ := readsPhrase_of_derives hd ho hg
    rw [← hg] at hbare
    refine ⟨stop, mid, hb, hom, rfl, readsPhrase_bare ho hbare (fun word hw hk => ?_) h hs⟩
    exact front_ne_of_derives hd hw (by rw [← hg, front_glyphs, hk])
  | arrow hc _ ihb =>
    intro before ts ho hg
    simp only [List.cons_append, List.append_assoc] at hg
    obtain ⟨stop, us, hbu, ho, hg, hcond⟩ := readsPhrase_of_derives hc ho hg
    have hcond := hcond.complete (show Stops levels (glyphs stop _) by rw [hg]; rfl)
    obtain ⟨a, us, rfl, ha, -, -, hba, ho, hg⟩ := glyphs_eq_cons ho hg
    refine (ihb ho hg).mono (by omega) fun mid h => (hcond.and h).add 1 fun fuel hread => ?_
    obtain ⟨⟨c, hc, hcond⟩, b, hb, h⟩ := hread
    refine ⟨c, b, hc, hb, ?_⟩
    have hpeek : peekKind (a :: us) = .arrow := ha
    rw [conditional_eq, hcond, ok_bind]
    simp only [hpeek, true_or, if_true, skip_eq, ne_eq, reduceCtorEq, not_false_eq_true, List.tail_cons, h, ok_bind]
    rfl
  | noArrow hc hend _ ihb =>
    intro before ts ho hg
    simp only [List.append_assoc] at hg
    obtain ⟨stop, us, hbu, ho, hg, hcond⟩ := readsPhrase_of_derives hc ho hg
    rw [← hg] at hend
    have hcond := hcond.complete (stops_of_endsLine hend)
    rw [ClauseDerived.endsLine_glyphs] at hend
    have harrow : peekKind us ≠ .arrow := fun ha => by
      rw [atLineEnd, ha] at hend
      cases hend
    refine (ihb ho hg).mono hbu fun mid h => (hcond.and h).add 1 fun fuel hread => ?_
    obtain ⟨⟨c, hc, hcond⟩, b, hb, h⟩ := hread
    refine ⟨c, b, hc, hb, ?_⟩
    rw [conditional_eq, hcond, ok_bind]
    simp only [hend, or_true, if_true, skip_eq, ne_eq, reduceCtorEq, not_false_eq_true, harrow, if_false, h, ok_bind]
    rfl
  | inline hend _ ha ih =>
    intro before ts ho hg
    rw [← hg, ClauseDerived.endsLine_glyphs, Bool.not_eq_true] at hend
    refine (ih ho hg).mono (Nat.le_refl _) fun mid h => h.add 1 fun fuel hread => ?_
    obtain ⟨items, hi, h⟩ := hread
    rw [← hi, ← show eraseBlock [] = [] from rfl] at ha
    obtain ⟨d, hd, he⟩ := attachAll_eq_ok.1 ha
    refine ⟨d.reverse, by rw [eraseBlock_reverse, he], ?_⟩
    rw [body_line hend, h, ok_bind]
    simp only [hd, ok_bind]
    rfl
  | noBody hend =>
    intro before ts ho hg
    simp only [List.nil_append] at hg
    rw [← hg] at hend
    have hend := hend.imp peekKind_of_front peekKind_of_front
    have hskip : skip .newline ts = ts := by
      rw [skip_eq (by simp), if_neg]
      rcases hend with hend | hend <;> simp [hend]
    refine ⟨before, ts, Nat.le_refl _, ho, hg, .of_add 1 fun fuel => ⟨[], rfl, ?_⟩⟩
    rw [body_empty (by rw [atLineEnd_eq]; simp [hend]), hskip]
    rw [hskip]
    rcases hend with hend | hend <;> simp [hend]
  | noBlock hi =>
    intro before ts ho hg
    obtain ⟨t, us, rfl, hk, -, -, hb, ho, rfl⟩ := glyphs_eq_cons ho hg
    have hskip : skip .newline (t :: us) = us := by rw [skip_eq (by simp)]; exact if_pos hk
    refine ⟨t.stop, us, hb, ho, rfl, .of_add 1 fun fuel => ⟨[], rfl, ?_⟩⟩
    rw [front_glyphs] at hi
    rw [body_empty (atLineEnd_newline hk _) (by rwa [hskip]), hskip]
  | block _ ih =>
    intro before ts ho hg
    simp only [List.cons_append, List.append_assoc] at hg
    obtain ⟨t, us, rfl, hk, -, -, hb, ho, hg⟩ := glyphs_eq_cons ho hg
    obtain ⟨i, us, rfl, hi, -, -, hbi, ho, hg⟩ := glyphs_eq_cons ho hg
    obtain ⟨stop, mid, hbm, ho, hg, h⟩ := ih ho hg
    obtain ⟨d, mid, rfl, hd, -, -, hbd, ho, rfl⟩ := glyphs_eq_cons ho hg
    refine ⟨d.stop, mid, by omega, ho, rfl, h.add 1 fun fuel h => ?_⟩
    obtain ⟨b, hb, h⟩ := h [] rfl
    refine ⟨b, hb, ?_⟩
    rw [body_indented hk hi, h, ok_bind]
    simp only [skip_eq, ne_eq, reduceCtorEq, not_false_eq_true, show peekKind (d :: mid) = .dedent from hd, if_true]
    rfl
  | openBlock _ heof ih =>
    intro before ts ho hg
    simp only [List.cons_append] at hg
    obtain ⟨t, us, rfl, hk, -, -, hb, ho, hg⟩ := glyphs_eq_cons ho hg
    obtain ⟨i, us, rfl, hi, -, -, hbi, ho, hg⟩ := glyphs_eq_cons ho hg
    obtain ⟨stop, mid, hbm, ho, rfl, h⟩ := ih ho hg
    refine ⟨stop, mid, by omega, ho, rfl, h.add 1 fun fuel h => ?_⟩
    obtain ⟨b, hb, h⟩ := h [] rfl
    refine ⟨b, hb, ?_⟩
    rw [body_indented hk hi, h, ok_bind]
    simp only [skip_eq, ne_eq, reduceCtorEq, not_false_eq_true, peekKind_of_front heof, if_false]
    rfl

/-- A script whose statements the grammar derives is accepted. -/
theorem program_of_derivesProgram {stmts : List Stmt} (hn : Nested 0 ts) (ho : Ordered 0 ts)
    (h : DerivesProgram (glyphs 0 ts) stmts) : ∃ stmts', program ts = .ok stmts' ∧ eraseBlock stmts' = stmts := by
  obtain ⟨words, apart, hg, hd⟩ := h
  obtain ⟨stop, mid, -, -, -, n, hb⟩ := readsClause_of_derivesClause hd ho hg
  obtain ⟨b, he, hb⟩ := hb (max n (16 * (ts.length + 1))) (by omega) [] rfl
  have hle : 16 * (ts.length + 1) ≤ max n (16 * (ts.length + 1)) := by omega
  have hsame := block_append [] hn (Nat.le_refl _) hle []
  rcases program_cases hn with ⟨r, -, hblock, -⟩ | ⟨stmts', last, -, hblock, hp⟩
  · rw [List.append_nil, hblock, hb] at hsame
    cases hsame
  · rw [List.append_nil, hblock, hb] at hsame
    cases hsame
    exact ⟨_, hp, he⟩

/-- The parser accepts what the grammar derives, with these statements. -/
theorem program_iff {stmts : List Stmt} (hn : Nested 0 ts) (ho : Ordered 0 ts) :
    (∃ stmts', program ts = .ok stmts' ∧ eraseBlock stmts' = stmts) ↔ DerivesProgram (glyphs 0 ts) stmts := by
  constructor
  · rintro ⟨stmts', h, rfl⟩
    exact derivesProgram_of_program hn ho h
  · exact program_of_derivesProgram hn ho

end Parser

end LiveSketch.Script

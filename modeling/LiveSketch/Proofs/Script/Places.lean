import LiveSketch.Proofs.Script.Grammar

/-!
# Expressions at other places

Of the places of its tokens the parser only sees which of them touch. So a line that stands elsewhere is
read in the same way (`exprAlike`): `Alike` says that two lists of tokens begin with the same line, and one
lemma for each function of the grammar says that it takes as much from the one as from the other. More fuel
does no harm.
-/
namespace LiveSketch.Script

open LiveSketch.Script.Parser

/-- A sign may be a prefix operator, and whether it is can hang on what it touches. -/
def TokenKind.isSign : TokenKind → Bool
  | .minus | .plus => true
  | _ => false

/-- Both lists begin with what is left of a line that stands at `a` in the first and at `b` in the second;
`rest` and `rest'` stand behind the line. Where the line ends matters only to a sign in front of the end. -/
inductive Alike (a b : Nat) (rest rest' : List Token) : List Token → List Token → Prop where
  | newline {t u : Token} : t.kind = .newline → u.kind = .newline → Alike a b rest rest' (t :: rest) (u :: rest')
  | word {t u : Token} {ts us : List Token} : t.kind.isWord → u.kind = t.kind →
      t.start + b = u.start + a → t.stop + b = u.stop + a →
      (t.kind.isSign → (peek ts).start + b = (peek us).start + a) → Alike a b rest rest' ts us →
      Alike a b rest rest' (t :: ts) (u :: us)

namespace Alike

variable {a b : Nat} {rest rest' ts us : List Token}

theorem symm (h : Alike a b rest rest' ts us) : Alike b a rest' rest us ts := by
  induction h with
  | newline ht hu => exact .newline hu ht
  | word hw hk hs he hsign _ ih =>
    exact .word (hk ▸ hw) hk.symm hs.symm he.symm (fun h => (hsign (hk ▸ h)).symm) ih

theorem peekKind (h : Alike a b rest rest' ts us) : peekKind us = peekKind ts := by
  cases h with
  | newline ht hu => exact hu.trans ht.symm
  | word _ hk => exact hk

theorem start (h : Alike a b rest rest' ts us) (hw : (Parser.peekKind ts).isWord) :
    (peek ts).start + b = (peek us).start + a := by
  cases h with
  | newline ht _ =>
    rw [Parser.peekKind, peek, ht] at hw
    cases hw
  | word _ _ hs => exact hs

theorem stop (h : Alike a b rest rest' ts us) (hw : (Parser.peekKind ts).isWord) :
    (peek ts).stop + b = (peek us).stop + a := by
  cases h with
  | newline ht _ =>
    rw [Parser.peekKind, peek, ht] at hw
    cases hw
  | word _ _ _ he => exact he

theorem tail (h : Alike a b rest rest' ts us) (hw : (Parser.peekKind ts).isWord) :
    Alike a b rest rest' ts.tail us.tail := by
  cases h with
  | newline ht _ =>
    rw [Parser.peekKind, peek, ht] at hw
    cases hw
  | word _ _ _ _ _ h => exact h

theorem consume?_eq_some {kind : TokenKind} {ts' : List Token} (h : Alike a b rest rest' ts us)
    (hw : kind.isWord) (hc : consume? kind ts = some ts') :
    ∃ us', consume? kind us = some us' ∧ Alike a b rest rest' ts' us' := by
  cases h with
  | newline ht _ =>
    rw [consume?, ht] at hc
    split at hc
    · rename_i hk
      rw [← hk] at hw
      cases hw
    · cases hc
  | word _ hk _ _ _ h =>
    rw [consume?] at hc
    split at hc
    · rename_i hkind
      cases hc
      exact ⟨_, by rw [consume?, hk, if_pos hkind], h⟩
    · cases hc

theorem consume?_eq_none {kind : TokenKind} (h : Alike a b rest rest' ts us)
    (hc : consume? kind ts = none) : consume? kind us = none := by
  have hk := h.peekKind
  cases h <;> (rw [consume?] at hc ⊢; split at hc <;> simp_all [Parser.peekKind, peek])

theorem expect {kind : TokenKind} {what : String} {ts' : List Token} (h : Alike a b rest rest' ts us)
    (hw : kind.isWord) (he : Parser.expect kind what ts = .ok ts') :
    ∃ us', Parser.expect kind what us = .ok us' ∧ Alike a b rest rest' ts' us' := by
  unfold Parser.expect at he
  split at he
  · rename_i hc
    cases he
    obtain ⟨us', hu, h'⟩ := h.consume?_eq_some hw hc
    exact ⟨us', by rw [Parser.expect, hu], h'⟩
  · cases he

/-- Tokens that touch at one place touch at the other. -/
theorem touches {t u : Token} (ht : t.stop + b = u.stop + a) (h : Alike a b rest rest' ts us)
    (hs : (peek ts).start + b = (peek us).start + a) :
    (ts.head?.any (·.start == t.stop)) = (us.head?.any (·.start == u.stop)) := by
  cases h <;>
    · simp only [peek] at hs
      simp only [List.head?_cons, Option.any_some, Bool.beq_eq_decide_eq]
      exact decide_eq_decide.2 (by omega)

theorem argumentsFollow (h : Alike a b rest rest' ts us) (hw : (Parser.peekKind ts).isWord) :
    argumentsFollow us = argumentsFollow ts := by
  cases h with
  | newline ht _ =>
    rw [Parser.peekKind, peek, ht] at hw
    cases hw
  | @word t u ts us _ _ _ hstop _ h =>
    cases h with
    | newline hn hm => simp [Parser.argumentsFollow, hn, hm]
    | @word n m ts us _ hk hs he hsign h =>
      have hgap : (t.stop < n.start) = (u.stop < m.start) := propext (by omega)
      simp only [Parser.argumentsFollow, hk, hgap]
      split <;> rename_i hn
      all_goals first | rfl | rw [h.touches he (hsign (by rw [hn]; rfl))]

end Alike

/-- What `F` reads from the front of a line, `F'` reads from the same line at another place, up to what
`erase` forgets. -/
def Carries (a b : Nat) (rest rest' : List Token) {α β : Type} (erase : α → β)
    (F F' : List Token → Except Rejection (α × List Token)) : Prop :=
  ∀ ⦃ts us : List Token⦄ ⦃found : α × List Token⦄, Alike a b rest rest' ts us → F ts = .ok found →
    ∃ x us', F' us = .ok (x, us') ∧ erase x = erase found.1 ∧ Alike a b rest rest' found.2 us'

namespace Parser

/-- Each function that reads expressions reads the same at another place. -/
structure ExprAlike (a b : Nat) (rest rest' : List Token) (fuel fuel' : Nat) : Prop where
  expression : ∀ level,
    Carries a b rest rest' Expr.erase (expression fuel level) (Parser.expression fuel' level)
  chain : ∀ level {left left'}, left'.erase = left.erase →
    Carries a b rest rest' Expr.erase (chain fuel level left) (Parser.chain fuel' level left')
  operand : Carries a b rest rest' Expr.erase (operand fuel) (Parser.operand fuel')
  postfixed : Carries a b rest rest' Expr.erase (postfixed fuel) (Parser.postfixed fuel')
  primary : Carries a b rest rest' Expr.erase (primary fuel) (Parser.primary fuel')
  arguments : Carries a b rest rest' eraseArgs (arguments fuel) (Parser.arguments fuel')
  parenthesized : Carries a b rest rest' eraseArgs (parenthesized fuel) (Parser.parenthesized fuel')
  moreArguments : Carries a b rest rest' eraseArgs (moreArguments fuel) (Parser.moreArguments fuel')

namespace ExprAlike

variable {a b fuel fuel' : Nat} {rest rest' : List Token}

theorem zero : ExprAlike a b rest rest' 0 fuel' where
  expression _ _ _ _ _ h := by cases h
  chain _ _ _ _ _ _ _ _ h := by cases h
  operand _ _ _ _ h := by cases h
  postfixed _ _ _ _ h := by cases h
  primary _ _ _ _ h := by cases h
  arguments _ _ _ _ h := by cases h
  parenthesized _ _ _ _ h := by cases h
  moreArguments _ _ _ _ h := by cases h

theorem expression_succ (ih : ExprAlike a b rest rest' fuel fuel') (level : Nat) :
    Carries a b rest rest' Expr.erase (Parser.expression (fuel + 1) level)
      (Parser.expression (fuel' + 1) level) := by
  intro ts us found ha h
  cases level with
  | zero => exact ih.operand ha h
  | succ level =>
    rw [Parser.expression] at h ⊢
    obtain ⟨left, hl, h⟩ := bind_eq_ok.1 h
    obtain ⟨left', us₁, hl', he, ha₁⟩ := ih.expression level ha hl
    rw [hl', ok_bind]
    exact ih.chain level he ha₁ h

theorem erase_prefixOp? {kind : TokenKind} {f : Expr → Expr} (h : prefixOp? kind = some f)
    {e e' : Expr} (he : e'.erase = e.erase) : (f e').erase = (f e).erase := by
  unfold prefixOp? at h
  split at h <;> cases h <;> simp [Expr.erase, he]

theorem chain_succ (ih : ExprAlike a b rest rest' fuel fuel') (level : Nat) {left left' : Expr}
    (hl : left'.erase = left.erase) :
    Carries a b rest rest' Expr.erase (Parser.chain (fuel + 1) level left)
      (Parser.chain (fuel' + 1) level left') := by
  intro ts us found ha h
  rw [Parser.chain] at h ⊢
  rw [ha.peekKind]
  split at h
  · cases h
    exact ⟨left', us, rfl, hl, ha⟩
  · rename_i op ho
    obtain ⟨right, hr, h⟩ := bind_eq_ok.1 h
    obtain ⟨right', us₁, hr', he, ha₁⟩ :=
      ih.expression level (ha.tail (isWord_of_binaryOp? ho)) hr
    simp only [hr', ok_bind]
    exact ih.chain level (by simp [Expr.erase, hl, he]) ha₁ h

theorem operand_succ (ih : ExprAlike a b rest rest' fuel fuel') :
    Carries a b rest rest' Expr.erase (Parser.operand (fuel + 1)) (Parser.operand (fuel' + 1)) := by
  intro ts us found ha h
  rw [Parser.operand] at h ⊢
  rw [ha.peekKind]
  split at h
  · rename_i f ho
    obtain ⟨arg, hr, h⟩ := bind_eq_ok.1 h
    obtain ⟨arg', us₁, hr', he, ha₁⟩ := ih.operand (ha.tail (isWord_of_prefixOp? ho)) hr
    obtain rfl := pure_eq_ok.1 h
    exact ⟨f arg', us₁, by simp only [hr', ok_bind]; rfl, erase_prefixOp? ho he, ha₁⟩
  · exact ih.postfixed ha h

theorem primary_succ (ih : ExprAlike a b rest rest' fuel fuel') :
    Carries a b rest rest' Expr.erase (Parser.primary (fuel + 1)) (Parser.primary (fuel' + 1)) := by
  intro ts us found ha h
  have hk : (peek us).kind = (peek ts).kind := ha.peekKind
  have htail : ∀ kind : TokenKind, (peek ts).kind = kind → kind.isWord →
      Alike a b rest rest' ts.tail us.tail := fun kind hkind hw => ha.tail (by rwa [peekKind, hkind])
  rw [Parser.primary] at h ⊢
  dsimp only at h ⊢
  rw [hk]
  split at h
  · rename_i hx
    cases h
    exact ⟨_, _, rfl, rfl, htail _ hx rfl⟩
  · rename_i hs
    cases h
    exact ⟨_, _, rfl, rfl, htail _ hs rfl⟩
  · rename_i name hn
    split at h
    · rename_i ht
      cases h
      exact ⟨_, _, by rw [if_pos ht], rfl, htail _ hn rfl⟩
    split at h
    · rename_i ht hf
      cases h
      exact ⟨_, _, by rw [if_neg ht, if_pos hf], rfl, htail _ hn rfl⟩
    split at h
    · cases h
    · rename_i ht hf hkey
      cases h
      exact ⟨.ident name (peek us).start, _, by rw [if_neg ht, if_neg hf, if_neg hkey], rfl,
        htail _ hn rfl⟩
  · rename_i hp
    obtain ⟨inner, hi, h⟩ := bind_eq_ok.1 h
    obtain ⟨inner', us₁, hi', he, ha₁⟩ := ih.expression levels (htail _ hp rfl) hi
    obtain ⟨ts₂, hr, h⟩ := bind_eq_ok.1 h
    obtain ⟨us₂, hr', ha₂⟩ := ha₁.expect rfl hr
    obtain rfl := pure_eq_ok.1 h
    exact ⟨inner', us₂, by simp only [hi', hr', ok_bind]; rfl, he, ha₂⟩
  · cases h

theorem postfixed_succ (ih : ExprAlike a b rest rest' fuel fuel') :
    Carries a b rest rest' Expr.erase (Parser.postfixed (fuel + 1)) (Parser.postfixed (fuel' + 1)) := by
  intro ts us found ha h
  rw [Parser.postfixed] at h ⊢
  obtain ⟨first, hp, h⟩ := bind_eq_ok.1 h
  obtain ⟨e', us₁, hp', he, ha₁⟩ := ih.primary ha hp
  obtain ⟨e, ts₁⟩ := first
  have hw := isWord_of_primary hp
  simp only [hp', ok_bind]
  cases e with
  | ident name offset =>
    obtain ⟨offset', rfl⟩ : ∃ offset', e' = .ident name offset' := by
      cases e' with
      | ident name' offset' => exact ⟨offset', by rw [(Expr.ident.inj he).1]⟩
      | _ => cases he
    have htouch : (peekKind ts₁ = .leftParen ∧ (peek us₁).start = (peek us).stop) =
        (peekKind ts₁ = .leftParen ∧ (peek ts₁).start = (peek ts).stop) := by
      refine propext (and_congr_right fun hk => ?_)
      have hs : (peek ts₁).start + b = (peek us₁).start + a := ha₁.start (hk ▸ rfl)
      have hstop := ha.stop hw
      omega
    simp only [ha₁.peekKind, htouch, ha.argumentsFollow hw] at h ⊢
    split at h
    · rename_i hc
      obtain ⟨args, hr, h⟩ := bind_eq_ok.1 h
      obtain ⟨args', us₂, hr', hes, ha₂⟩ := ih.parenthesized (ha₁.tail (by rw [hc.1]; rfl)) hr
      obtain rfl := pure_eq_ok.1 h
      exact ⟨_, us₂, by rw [if_pos hc, hr']; rfl, by simp [Expr.erase, hes], ha₂⟩
    split at h
    · rename_i hc hf'
      obtain ⟨args, hr, h⟩ := bind_eq_ok.1 h
      obtain ⟨args', us₂, hr', hes, ha₂⟩ := ih.arguments ha₁ hr
      obtain rfl := pure_eq_ok.1 h
      exact ⟨_, us₂, by rw [if_neg hc, if_pos hf', hr']; rfl, by simp [Expr.erase, hes], ha₂⟩
    · rename_i hc hf'
      obtain rfl := pure_eq_ok.1 h
      exact ⟨.ident name offset', us₁, by rw [if_neg hc, if_neg hf']; rfl, rfl, ha₁⟩
  | _ =>
    cases h
    cases e' with
    | ident name offset => cases he
    | _ => exact ⟨_, us₁, rfl, he, ha₁⟩

theorem arguments_succ (ih : ExprAlike a b rest rest' fuel fuel') :
    Carries a b rest rest' eraseArgs (Parser.arguments (fuel + 1)) (Parser.arguments (fuel' + 1)) := by
  intro ts us found ha h
  rw [Parser.arguments] at h ⊢
  obtain ⟨first, hf₁, h⟩ := bind_eq_ok.1 h
  obtain ⟨e', us₁, hf₁', he, ha₁⟩ := ih.expression levels ha hf₁
  simp only [hf₁', ok_bind]
  dsimp only at h
  split at h
  · rename_i hc
    obtain ⟨us₂, hc', ha₂⟩ := ha₁.consume?_eq_some rfl hc
    obtain ⟨more, hm, h⟩ := bind_eq_ok.1 h
    obtain ⟨es', us₃, hm', hes, ha₃⟩ := ih.arguments ha₂ hm
    obtain rfl := pure_eq_ok.1 h
    exact ⟨e' :: es', us₃, by simp only [hc', hm', ok_bind]; rfl, by simp [eraseArgs, he, hes], ha₃⟩
  · rename_i hc
    obtain rfl := pure_eq_ok.1 h
    exact ⟨[e'], us₁, by simp only [ha₁.consume?_eq_none hc]; rfl, by simp [eraseArgs, he], ha₁⟩

theorem parenthesized_succ (ih : ExprAlike a b rest rest' fuel fuel') :
    Carries a b rest rest' eraseArgs (Parser.parenthesized (fuel + 1))
      (Parser.parenthesized (fuel' + 1)) := by
  intro ts us found ha h
  rw [Parser.parenthesized] at h ⊢
  split at h
  · rename_i hc
    obtain ⟨us₁, hc', ha₁⟩ := ha.consume?_eq_some rfl hc
    cases h
    exact ⟨[], us₁, by rw [hc'], rfl, ha₁⟩
  · rename_i hc
    simp only [ha.consume?_eq_none hc]
    exact ih.moreArguments ha h

theorem moreArguments_succ (ih : ExprAlike a b rest rest' fuel fuel') :
    Carries a b rest rest' eraseArgs (Parser.moreArguments (fuel + 1))
      (Parser.moreArguments (fuel' + 1)) := by
  intro ts us found ha h
  rw [Parser.moreArguments] at h ⊢
  obtain ⟨first, hf₁, h⟩ := bind_eq_ok.1 h
  obtain ⟨e', us₁, hf₁', he, ha₁⟩ := ih.expression levels ha hf₁
  simp only [hf₁', ok_bind]
  dsimp only at h
  split at h
  · rename_i hc
    obtain ⟨us₂, hc', ha₂⟩ := ha₁.consume?_eq_some rfl hc
    obtain ⟨more, hm, h⟩ := bind_eq_ok.1 h
    obtain ⟨es', us₃, hm', hes, ha₃⟩ := ih.moreArguments ha₂ hm
    obtain rfl := pure_eq_ok.1 h
    exact ⟨e' :: es', us₃, by simp only [hc', hm', ok_bind]; rfl, by simp [eraseArgs, he, hes], ha₃⟩
  · rename_i hc
    obtain ⟨ts₂, hr, h⟩ := bind_eq_ok.1 h
    obtain ⟨us₂, hr', ha₂⟩ := ha₁.expect rfl hr
    obtain rfl := pure_eq_ok.1 h
    exact ⟨[e'], us₂, by simp only [ha₁.consume?_eq_none hc, hr', ok_bind]; rfl,
      by simp [eraseArgs, he], ha₂⟩

end ExprAlike

/-- Expressions are read in the same way at every place. -/
theorem exprAlike (a b : Nat) (rest rest' : List Token) :
    ∀ {fuel fuel' : Nat}, fuel ≤ fuel' → ExprAlike a b rest rest' fuel fuel'
  | 0, _, _ => .zero
  | _ + 1, _ + 1, h =>
    have ih := exprAlike a b rest rest' (Nat.le_of_succ_le_succ h)
    { expression := ih.expression_succ
      chain := ih.chain_succ
      operand := ih.operand_succ
      postfixed := ih.postfixed_succ
      primary := ih.primary_succ
      arguments := ih.arguments_succ
      parenthesized := ih.parenthesized_succ
      moreArguments := ih.moreArguments_succ }

end Parser

end LiveSketch.Script

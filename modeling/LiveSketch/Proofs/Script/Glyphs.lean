import LiveSketch.Proofs.Script.Grammar
import LiveSketch.Proofs.Script.Scanning
import LiveSketch.Proofs.Text.Bytes

/-!
# What the parser sees of the tokens

Of the places of the tokens the parser only asks whether something stands between one of them and the next. So all it
sees of a token is a `Glyph`: its kind, and whether it stands apart from the token before. The lexer finds tokens
in the order of their places (`ordered_lex`), and on such tokens each question of the parser is one about the glyphs.
-/
namespace LiveSketch.Script

open Lexer
open LiveSketch.Script.Parser
open Text (byteLength byteLength_append byteLength_pos)

/-- What the parser sees of a token: its kind, and whether something stands between it and the token before. An
expression can have marks around it, which are no tokens. -/
inductive Glyph where
  | token (kind : TokenKind) (apart : Bool)
  | opening
  | closing
  deriving DecidableEq

/-- What the parser sees of these tokens, behind a token that stops at `before`. -/
def glyphs : (before : Nat) → List Token → List Glyph
  | _, [] => []
  | before, t :: ts => .token t.kind (decide (before < t.start)) :: glyphs t.stop ts

/-- The kind of the next token. Marks are looked through, here and in all questions below. -/
def front : List Glyph → TokenKind
  | [] => .eof
  | .token kind _ :: _ => kind
  | .opening :: gs | .closing :: gs => front gs

/-- Whether the next token stands apart. -/
def isApart : List Glyph → Bool
  | [] => true
  | .token _ apart :: _ => apart
  | .opening :: gs | .closing :: gs => isApart gs

/-- Whether arguments without parentheses stand behind a name. -/
def follows : List Glyph → Bool
  | [] => false
  | .token kind apart :: rest =>
    match kind with
    | .number _ | .string _ | .bang => true
    | .ident word => !(["and", "or", "else", "if", "repeat"].contains word)
    | .leftParen => apart
    | .minus | .plus => apart && !isApart rest
    | _ => false
  | .opening :: gs | .closing :: gs => follows gs

/-- Whether a parenthesis stands right behind a name. -/
def touches : List Glyph → Bool
  | [] => false
  | .token kind apart :: _ => decide (kind = .leftParen) && !apart
  | .opening :: gs | .closing :: gs => touches gs

/-- No operator of an expression below this level goes on, other than those that bind tighter. -/
def Stops : (level : Nat) → List Glyph → Prop
  | 0, _ => True
  | level + 1, gs => binaryOp? level (front gs) = none

/-- The tokens stand one behind the other, the first of them not in front of `before`. -/
def Ordered : (before : Nat) → List Token → Prop
  | _, [] => True
  | before, t :: ts => before ≤ t.start ∧ t.start ≤ t.stop ∧ (t.kind.isWord → t.start < t.stop) ∧ Ordered t.stop ts

theorem Ordered.mono {before before' : Nat} {ts : List Token} (h : Ordered before ts) (hb : before' ≤ before) :
    Ordered before' ts := by
  cases ts with
  | nil => trivial
  | cons t ts => exact ⟨Nat.le_trans hb h.1, h.2⟩

/-! ## The lexer -/

theorem ordered_scanLine {fuel pos : Nat} {afterName : Bool} {cs : List Char} {ts rest : List Token}
    (h : scanLine fuel pos afterName cs = .ok ts) (hr : Ordered (pos + byteLength cs) rest) :
    Ordered pos (ts ++ rest) := by
  induction fuel generalizing pos afterName cs ts with
  | zero =>
    cases h
    exact hr.mono (Nat.le_add_right _ _)
  | succ fuel ih =>
    cases cs with
    | nil =>
      cases h
      exact hr
    | cons c cs =>
      rw [scanLine] at h
      split at h
      · exact (ih h (by rwa [Text.byteLength_cons, ← Nat.add_assoc] at hr)).mono (Nat.le_add_right _ _)
      split at h
      · cases h
        exact hr.mono (Nat.le_add_right _ _)
      · obtain ⟨s, hs, h⟩ := bind_eq_ok.1 h
        obtain ⟨ts', hts, h⟩ := bind_eq_ok.1 h
        obtain rfl := pure_eq_ok.1 h
        obtain ⟨he, hne, -⟩ := scanToken_split hs
        have hpos := byteLength_pos hne
        rw [he, byteLength_append, ← Nat.add_assoc] at hr
        exact ⟨Nat.le_refl _, Nat.le_add_right _ _, fun _ => Nat.lt_add_of_pos_right hpos, ih hts hr⟩

theorem ordered_layout {kinds : List TokenKind} (hk : ∀ kind ∈ kinds, kind.isWord = false) {before pos : Nat}
    {rest : List Token} (hr : Ordered pos rest) (hb : before ≤ pos) :
    Ordered before (kinds.map (⟨·, pos, pos⟩) ++ rest) := by
  induction kinds generalizing before with
  | nil => exact hr.mono hb
  | cons kind kinds ih =>
    rw [List.forall_mem_cons] at hk
    refine ⟨hb, Nat.le_refl _, fun hw => ?_, ih hk.2 (Nat.le_refl _)⟩
    rw [hk.1] at hw
    cases hw

theorem byteLength_dropReturn (raw : List Char) : byteLength (dropReturn raw) ≤ byteLength raw := by
  obtain ⟨back, hback⟩ := dropReturn_prefix raw
  conv => rhs; rw [← hback, byteLength_append]
  exact Nat.le_add_right _ _

theorem byteLength_indent {indent : List Char} (h : ∀ c ∈ indent, isIndent c) : byteLength indent = indent.length := by
  induction indent with
  | nil => rfl
  | cons c indent ih =>
    rw [List.forall_mem_cons] at h
    have hc : c.utf8Size = 1 := by
      have hor := h.1
      simp only [isIndent, Bool.or_eq_true, beq_iff_eq] at hor
      rcases hor with rfl | rfl <;> rfl
    rw [Text.byteLength_cons, hc, ih h.2, List.length_cons, Nat.add_comm]

theorem ordered_lexLines {pos : Nat} {levels : List Nat} {lines : List (List Char)} {ts : List Token}
    (h : lexLines pos levels lines = .ok ts) : Ordered (pos - 1) ts := by
  induction lines generalizing pos levels ts with
  | nil =>
    cases h
    have hdedents : ∀ n p : Nat, List.replicate n (⟨.dedent, p, p⟩ : Token) =
        (List.replicate n TokenKind.dedent).map (⟨·, p, p⟩) := fun n p => by rw [List.map_replicate]
    rw [hdedents]
    refine ordered_layout (fun kind hk => by rw [List.eq_of_mem_replicate hk]; rfl) ?_ (Nat.le_refl _)
    exact ⟨Nat.le_refl _, Nat.le_refl _, fun hw => Bool.noConfusion hw, trivial⟩
  | cons raw lines ih =>
    rcases lexLines_cases raw with hskip | ⟨indent, body, hr, hi, hb⟩
    · rw [lexLines_skip hskip] at h
      exact (ih h).mono (by omega)
    · rw [lexLines_begins hr hi hb] at h
      obtain ⟨⟨front, levels'⟩, hf, h⟩ := bind_eq_ok.1 h
      obtain ⟨us, hs, h⟩ := bind_eq_ok.1 h
      obtain ⟨ts', hl, h⟩ := bind_eq_ok.1 h
      obtain rfl := pure_eq_ok.1 h
      obtain ⟨-, kinds, hk, hind⟩ := indentation_eq_ok hf
      obtain rfl := (Prod.mk.inj (Except.ok.inj (hf.symm.trans (hind _)))).1
      have hlength := byteLength_dropReturn raw
      rw [hr, byteLength_append, byteLength_indent hi] at hlength
      rw [List.append_assoc]
      refine ordered_layout hk (ordered_scanLine hs ?_) (by omega)
      have hrest := ih hl
      rw [Nat.add_sub_cancel] at hrest
      refine ⟨Nat.le_refl _, ?_, fun hw => Bool.noConfusion hw, hrest⟩
      show pos + indent.length + byteLength body ≤ pos + byteLength raw
      omega

/-- The tokens of a text stand in the order of their places. -/
theorem ordered_lex {text : List Char} {ts : List Token} (h : lex text = .ok ts) : Ordered 0 ts :=
  ordered_lexLines h

/-! ## Questions of the parser -/

theorem front_glyphs (before : Nat) (ts : List Token) : front (glyphs before ts) = peekKind ts := by
  cases ts <;> rfl

theorem stops_glyphs {level before : Nat} {ts : List Token} :
    Stops (level + 1) (glyphs before ts) ↔ binaryOp? level (peekKind ts) = none := by
  rw [Stops, front_glyphs]

theorem isApart_glyphs {before : Nat} {ts : List Token} (h : Ordered before ts) :
    isApart (glyphs before ts) = !ts.head?.any (·.start == before) := by
  cases ts with
  | nil => rfl
  | cons t ts =>
    have hb := h.1
    simp only [glyphs, isApart, List.head?_cons, Option.any_some]
    by_cases he : t.start = before
    · simp [he]
    · have hlt : before < t.start := by omega
      simp [he, hlt]

theorem follows_glyphs {t : Token} {ts : List Token} (h : Ordered t.stop ts) :
    follows (glyphs t.stop ts) = argumentsFollow (t :: ts) := by
  cases ts with
  | nil => rfl
  | cons u us =>
    have hapart := isApart_glyphs h.2.2.2
    cases hk : u.kind <;> simp [glyphs, follows, argumentsFollow, hapart, hk]

theorem touches_glyphs {before : Nat} {ts : List Token} (h : Ordered before ts) :
    touches (glyphs before ts) = true ↔ peekKind ts = .leftParen ∧ (peek ts).start = before := by
  cases ts with
  | nil => simp [glyphs, touches, peekKind, peek]
  | cons t ts =>
    have hb := h.1
    simp only [glyphs, peekKind, peek]
    simp only [touches, Bool.and_eq_true, decide_eq_true_eq, Bool.not_eq_true', decide_eq_false_iff_not]
    exact and_congr_right fun _ => ⟨fun h => by omega, fun h => by omega⟩

end LiveSketch.Script

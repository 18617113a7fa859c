import LiveSketch.Proofs.Sketch.Quoted
import LiveSketch.Proofs.Sketch.Separating

/-!
# Characters put between literals

Calling single words and separating commands put characters between the literals of a clean text and leave the
literals alone (`Grown`), since both passes know the quote that is open. So they change no literal and make no
comment (`Grown.clean`).
-/
namespace LiveSketch.Sketch

open Text
open Script.Lexer (isNamePart)

/-- A character that begins neither a literal nor a comment. -/
def isCode (c : Char) : Bool := !isQuote c && c != '#' && c != '/'

theorem isCode_plain {c : Char} (h : isCode c) : isQuote c = false ∧ c ≠ '#' ∧ c ≠ '/' := by
  simpa [isCode, and_assoc] using h

theorem isCode_of {p : Char → Bool} (hp : ['"', '\x27', '#', '/'].all fun d => !p d) {c : Char} (h : p c) :
    isCode c := by
  have hne : ∀ d ∈ ['"', '\x27', '#', '/'], c ≠ d := by
    rintro d hd rfl
    have hc := List.all_eq_true.1 hp c hd
    rw [h] at hc
    cases hc
  simp only [List.forall_mem_cons] at hne
  simp [isCode, isQuote, hne]

/-- The second text is the first one with characters put in front of characters and of literals. -/
inductive Grown : List Char → List Char → Prop where
  | nil : Grown [] []
  | char {c : Char} {as bs : List Char} : isQuote c = false → Grown as bs → Grown (c :: as) (c :: bs)
  | put {c : Char} {as bs : List Char} : isCode c → Grown as bs → Grown as (c :: bs)
  | literal {l as bs : List Char} : IsLiteral l → Grown as bs → Grown (l ++ as) (l ++ bs)

variable {stops rest as bs : List Char}

theorem clean_code {front : List Char} (hf : ∀ c ∈ front, isCode c) (h : Clean stops rest as) :
    Clean stops rest (front ++ as) := by
  induction front with
  | nil => exact h
  | cons c front ih =>
    rw [List.forall_mem_cons] at hf
    obtain ⟨hq, hh, hs⟩ := isCode_plain hf.1
    exact .char hq hh (fun he => absurd he hs) (ih hf.2)

/-- What stands behind code is clean if all is. -/
theorem Clean.of_code {front : List Char} (hf : ∀ c ∈ front, isCode c) (h : Clean stops rest (front ++ as)) :
    Clean stops rest as := by
  have hfront : Clean stops (as ++ rest) front := by simpa using clean_code hf .nil
  exact hfront.of_append h

namespace Grown

theorem refl (h : Clean stops rest as) : Grown as as := by
  induction h with
  | nil => exact .nil
  | char hq _ _ _ ih => exact .char hq ih
  | literal hl _ ih => exact .literal hl ih

theorem append {as' bs' : List Char} (h : Grown as bs) (h' : Grown as' bs') : Grown (as ++ as') (bs ++ bs') := by
  induction h with
  | nil => exact h'
  | char hq _ ih => exact .char hq ih
  | put hc _ ih => exact .put hc ih
  | @literal l _ _ hl _ ih =>
    rw [List.append_assoc, List.append_assoc]
    exact .literal hl ih

theorem chars {front : List Char} (hf : ∀ c ∈ front, isQuote c = false) (h : Grown as bs) :
    Grown (front ++ as) (front ++ bs) := by
  induction front with
  | nil => exact h
  | cons c front ih =>
    rw [List.forall_mem_cons] at hf
    exact .char hf.1 (ih hf.2)

theorem puts {front : List Char} (hf : ∀ c ∈ front, isCode c) (h : Grown as bs) : Grown as (front ++ bs) := by
  induction front with
  | nil => exact h
  | cons c front ih =>
    rw [List.forall_mem_cons] at hf
    exact .put hf.1 (ih hf.2)

theorem head? (h : Grown as bs) {d : Char} (hd : d ∈ bs.head?) (hc : isCode d = false) : d ∈ as.head? := by
  cases h with
  | nil => exact hd
  | char _ _ => exact hd
  | @put c _ _ hput _ =>
    obtain rfl : c = d := Option.some.inj hd
    rw [hput] at hc
    cases hc
  | literal hl _ =>
    obtain ⟨q, cs, rfl, -, -⟩ := hl.exists_cons
    exact hd

/-- The literals stay, and no comment comes up. -/
theorem clean (h : Grown as bs) (hstops : ∀ d ∈ stops, isCode d = false) (hclean : Clean stops [] as) :
    Clean stops [] bs ∧ literals bs = literals as := by
  induction h with
  | nil => exact ⟨hclean, rfl⟩
  | @char c as bs hq h ih =>
    obtain ⟨hh, hs, hclean⟩ := hclean.tail hq
    obtain ⟨hbs, hl⟩ := ih hclean
    rw [literals_of_none (literal?_of_not_quote hq _), literals_of_none (literal?_of_not_quote hq _), hl]
    refine ⟨.char hq hh (fun hc d hd hm => ?_) hbs, rfl⟩
    rw [List.append_nil] at hd hs
    exact hs hc d (h.head? hd (hstops d hm)) hm
  | put hc _ ih =>
    obtain ⟨hbs, hl⟩ := ih hclean
    obtain ⟨hq, hh, hs⟩ := isCode_plain hc
    exact ⟨.char hq hh (fun he => absurd he hs) hbs, by rw [literals_of_none (literal?_of_not_quote hq _), hl]⟩
  | @literal l as bs hl _ ih =>
    obtain ⟨hbs, hls⟩ := ih (hclean.of_literal hl)
    exact ⟨.literal hl hbs, by rw [literals_of_some (hl.literal? _), literals_of_some (hl.literal? _), hls]⟩

end Grown

/-! ## Commands -/

/-- A literal is left alone up to its end. -/
theorem separateFrom_open {q : Char} (hq : isQuote q) {body : List Char} (h : staysOpen q false body)
    (before : Option Char) (cs : List Char) :
    separateFrom (some q) before (body ++ q :: cs) = body ++ q :: separateFrom none (some q) cs := by
  have hb := (isQuote_plain hq).1
  fun_induction closeLiteral? q body generalizing before with
  | case1 => rw [List.nil_append, separateFrom_quoted hb, if_pos (beq_self_eq_true q)]; rfl
  | case2 => cases h
  | case3 d body hd => simp_all [staysOpen]
  | case4 d body hd ih =>
    simp only [staysOpen, beq_self_eq_true, if_true, Bool.and_eq_true] at h
    rw [List.cons_append, List.cons_append, separateFrom_escape, ih h.2]
    rfl
  | case5 c body h1 h2 hc =>
    rw [staysOpen_cons (ne_backslash h1 h2)] at h
    simp_all
  | case6 c body h1 h2 hc hn =>
    rw [staysOpen_cons (ne_backslash h1 h2)] at h
    simp_all
  | case7 c body h1 h2 hc hn ih =>
    have hc' := ne_backslash h1 h2
    rw [staysOpen_cons hc', Bool.and_eq_true, Bool.and_eq_true] at h
    rw [List.cons_append, separateFrom_quoted hc', if_neg hc, ih h.2]
    rfl

theorem separateFrom_literal {l : List Char} (hl : IsLiteral l) (before : Option Char) (cs : List Char) :
    ∃ before', separateFrom none before (l ++ cs) = l ++ separateFrom none before' cs := by
  obtain ⟨q, body, hq, hopen, rfl⟩ := isLiteral_iff.1 hl
  refine ⟨some q, ?_⟩
  have hend : q :: (body ++ [q]) ++ cs = q :: (body ++ q :: cs) := by simp
  rw [hend, separateFrom_quote hq, separateFrom_open hq hopen]
  simp

/-- Separating commands puts semicolons between the literals. -/
theorem grown_separateFrom (h : Clean stops [] as) (before : Option Char) :
    Grown as (separateFrom none before as) := by
  generalize hn : as.length = n
  induction n using Nat.strongRecOn generalizing as before with
  | ind n ih =>
    cases h with
    | nil => exact .nil
    | @char c cs hq hh hs h =>
      rw [List.length_cons] at hn
      by_cases hc : c.isAlpha
      · have hsplit := List.takeWhile_append_dropWhile (p := isNamePart) (l := cs)
        have hname : ∀ d ∈ cs.takeWhile isNamePart, isNamePart d := List.all_eq_true.1 List.all_takeWhile
        have hrest : ∀ d ∈ (cs.dropWhile isNamePart).head?, isNamePart d = false := fun d hd => by
          have hhead := List.head?_dropWhile_not isNamePart cs
          rw [Option.mem_def.1 hd] at hhead
          simpa using hhead
        have hcode : ∀ d ∈ cs.takeWhile isNamePart, isCode d := fun d hd =>
          isCode_of (by decide) (hname d hd)
        have hlength := (List.dropWhile_sublist isNamePart (l := cs)).length_le
        rw [← hsplit] at h
        have hstep : separateFrom none before _ = _ := separateFrom_word hc hname hrest
        rw [List.cons_append, hsplit] at hstep
        have hfront : ∀ d ∈ wordFront before (c :: cs.takeWhile isNamePart) (cs.dropWhile isNamePart), isCode d :=
          fun d hd => by
            rw [wordFront] at hd
            split at hd
            · rw [List.mem_singleton.1 hd]
              rfl
            · cases hd
        have hgrown := ih _ (by omega) (h.of_code hcode) ((c :: cs.takeWhile isNamePart).getLast?) rfl
        have hword := Grown.char hq (hgrown.chars fun d hd => (isCode_plain (hcode d hd)).1)
        rw [hsplit] at hword
        rw [hstep, List.append_assoc]
        exact hword.puts hfront
      · rw [separateFrom_other hq (by simpa using hc)]
        exact .char hq (ih _ (by omega) h _ rfl)
    | @literal l cs hl h =>
      have hpos := List.length_pos_iff.2 hl.ne_nil
      rw [List.length_append] at hn
      obtain ⟨before', hstep⟩ := separateFrom_literal hl before cs
      rw [hstep]
      exact .literal hl (ih _ (by omega) h _ rfl)

/-! ## Single words -/

/-- Puts a text in front of the first statement. -/
def consText (front : List Char) (ps : List Piece) : List Piece := front.foldr consPiece ps

theorem consText_cons (front statement separator : List Char) (ps : List Piece) :
    consText front ((statement, separator) :: ps) = (front ++ statement, separator) :: ps := by
  induction front with
  | nil => rfl
  | cons c front ih => rw [consText, List.foldr_cons, ← consText, ih]; rfl

/-- A literal belongs to one statement. -/
theorem pieces_open {q : Char} (hq : isQuote q) {body : List Char} (h : staysOpen q false body) (cs : List Char) :
    pieces (some q) (body ++ q :: cs) = consText (body ++ [q]) (pieces none cs) := by
  have hb := (isQuote_plain hq).1
  have hquoted : ∀ {c : Char}, c ≠ '\\' → ∀ cs,
      pieces (some q) (c :: cs) = consPiece c (pieces (if c == q then none else some q) cs) := fun hc cs => by
    rw [pieces]
    simp [hc]
  fun_induction closeLiteral? q body with
  | case1 => rw [List.nil_append, hquoted hb, if_pos (beq_self_eq_true q)]; rfl
  | case2 => cases h
  | case3 d body hd => simp_all [staysOpen]
  | case4 d body hd ih =>
    simp only [staysOpen, beq_self_eq_true, if_true, Bool.and_eq_true] at h
    rw [List.cons_append, List.cons_append, pieces, ih h.2]
    rfl
  | case5 c body h1 h2 hc =>
    rw [staysOpen_cons (ne_backslash h1 h2)] at h
    simp_all
  | case6 c body h1 h2 hc hn =>
    rw [staysOpen_cons (ne_backslash h1 h2)] at h
    simp_all
  | case7 c body h1 h2 hc hn ih =>
    have hc' := ne_backslash h1 h2
    rw [staysOpen_cons hc', Bool.and_eq_true, Bool.and_eq_true] at h
    rw [List.cons_append, hquoted hc', if_neg hc, ih h.2]
    rfl

theorem pieces_literal {l : List Char} (hl : IsLiteral l) (cs : List Char) :
    pieces none (l ++ cs) = consText l (pieces none cs) := by
  obtain ⟨q, body, hq, hopen, rfl⟩ := isLiteral_iff.1 hl
  have hend : q :: (body ++ [q]) ++ cs = q :: (body ++ q :: cs) := by simp
  have hquote : pieces none (q :: (body ++ q :: cs)) = consPiece q (pieces (some q) (body ++ q :: cs)) := by
    have hne : ∀ d, isQuote d = false → q ≠ d := by
      rintro d hd rfl
      rw [hd] at hq
      cases hq
    rw [pieces] <;> simp [hq, hne '-' rfl, hne ';' rfl]
  rw [hend, hquote, pieces_open hq hopen]
  rfl

/-- No literal goes over the end of a statement. -/
theorem clean_pieces (h : Clean stops [] as) : ∀ p ∈ pieces none as, Clean [] [] p.1 := by
  have hall : ∃ statement separator ps, pieces none as = (statement, separator) :: ps ∧ Clean [] [] statement ∧
      ∀ p ∈ ps, Clean [] [] p.1 := by
    generalize hn : as.length = n
    induction n using Nat.strongRecOn generalizing as with
    | ind n ih =>
      cases h with
      | nil => exact ⟨[], [], [], rfl, .nil, by simp⟩
      | @char c cs hq hh hs h =>
        rw [List.length_cons] at hn
        by_cases harrow : ∃ ds, c = '-' ∧ cs = '>' :: ds
        · obtain ⟨ds, rfl, rfl⟩ := harrow
          rw [List.length_cons] at hn
          obtain ⟨statement, separator, ps, hps, hst, hrest⟩ := ih _ (by omega) (h.tail rfl).2.2 rfl
          refine ⟨[], ['-', '>'], pieces none ds, by rw [pieces], .nil, ?_⟩
          rw [hps, List.forall_mem_cons]
          exact ⟨hst, hrest⟩
        · obtain ⟨statement, separator, ps, hps, hst, hrest⟩ := ih _ (by omega) h rfl
          have hstep : pieces none (c :: cs) =
              if c == ';' then ([], [c]) :: pieces none cs else consPiece c (pieces none cs) := by
            rw [pieces] <;> simp_all
          rw [hstep, hps]
          split
          · refine ⟨[], [c], _, rfl, .nil, ?_⟩
            rw [List.forall_mem_cons]
            exact ⟨hst, hrest⟩
          · exact ⟨c :: statement, separator, ps, rfl, .char hq hh (by simp) hst, hrest⟩
      | @literal l cs hl h =>
        have hpos := List.length_pos_iff.2 hl.ne_nil
        rw [List.length_append] at hn
        obtain ⟨statement, separator, ps, hps, hst, hrest⟩ := ih _ (by omega) h rfl
        exact ⟨l ++ statement, separator, ps, by rw [pieces_literal hl, hps, consText_cons], .literal hl hst, hrest⟩
  obtain ⟨statement, separator, ps, hps, hst, hrest⟩ := hall
  rw [hps, List.forall_mem_cons]
  exact ⟨hst, hrest⟩

/-- A call puts parentheses behind a word. -/
theorem grown_callBareword (h : Clean stops rest as) : Grown as (callBareword as) := by
  unfold callBareword
  split
  · rename_i hword
    have hquotes : ∀ c ∈ as, isQuote c = false := by
      simp only [isBareword, Bool.and_eq_true] at hword
      have hblank : ∀ {c}, isBlank c → isQuote c = false := fun hc => (isBlank_plain hc).1
      have hstart : ∀ c ∈ trimStart as, isQuote c = false := fun c hc => by
        rw [← trimEnd_append_blankEnd (trimStart as), List.mem_append] at hc
        rcases hc with hc | hc
        · exact (isCode_plain (isCode_of (by decide) (List.all_eq_true.1 hword.1.2 c hc))).1
        · exact hblank (isBlank_of_mem_blankEnd hc)
      intro c hc
      rw [← List.takeWhile_append_dropWhile (p := isBlank) (l := as), List.mem_append] at hc
      exact hc.elim (fun hc => hblank (List.all_eq_true.1 List.all_takeWhile c hc)) (hstart c)
    have hsplit := trimEnd_append_blankEnd as
    rw [← hsplit, List.forall_mem_append] at hquotes
    have hback : Grown (blankEnd as) (blankEnd as) := by simpa using Grown.chars hquotes.2 .nil
    have hgrown := (hback.puts (List.all_eq_true.1 (by decide : ['(', ')'].all isCode))).chars hquotes.1
    rw [hsplit] at hgrown
    rw [List.append_assoc]
    exact hgrown
  · exact .refl h

theorem grown_calls {ps : List Piece} (hd : Delimited ps) (h : ∀ p ∈ ps, Clean [] [] p.1) :
    Grown (ps.flatMap Piece.text) (ps.flatMap fun p => callBareword p.1 ++ p.2) := by
  induction ps with
  | nil => exact .nil
  | cons p ps ih =>
    rw [List.forall_mem_cons] at h
    have hseparator : (∀ c ∈ p.2, isQuote c = false) ∧ Delimited ps := by
      cases ps with
      | nil =>
        have hnone : p.2 = [] := hd
        exact ⟨by simp [hnone], trivial⟩
      | cons next ps =>
        obtain ⟨he, hd⟩ := hd
        exact ⟨by rcases he with he | he <;> simp [he, isQuote], hd⟩
    have hlast : Grown p.2 p.2 := by simpa using Grown.chars hseparator.1 .nil
    rw [List.flatMap_cons, List.flatMap_cons]
    exact ((grown_callBareword h.1).append hlast).append (ih hseparator.2 h.2)

/-- Calling single words puts parentheses between the literals. -/
theorem grown_callBarewordsOfLine (h : Clean stops [] as) : Grown as (callBarewordsOfLine as) := by
  obtain ⟨ht, hd, -⟩ := pieces_text none as
  have hgrown := grown_calls hd (clean_pieces h)
  rw [ht] at hgrown
  exact hgrown

end LiveSketch.Sketch

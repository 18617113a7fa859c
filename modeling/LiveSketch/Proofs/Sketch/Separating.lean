import LiveSketch.Proofs.Sketch.Statements

/-!
# Separating commands line by line

What `separateCommands` makes of a text up to a white space does not hang on the text behind it, except for the
quote that is open there (`quoteAfter`). At the end of a text a command is not taken for one that starts a
statement; where no such command stands, the end is like a white space (`separateFrom_spaced`).
-/
namespace LiveSketch.Sketch

open Text
open Script.Lexer (isNamePart)

/-- Separates commands in a text behind the character `before`, where the quote `quote` is open. -/
def separateFrom (quote before : Option Char) (cs : List Char) : List Char :=
  separateWithin cs.length quote before cs

/-- The quote that is open behind a text. -/
def quoteAfter : (quote : Option Char) → List Char → Option Char
  | quote, [] => quote
  | some q, ['\\'] => some q
  | some q, '\\' :: _ :: cs => quoteAfter (some q) cs
  | some q, c :: cs => quoteAfter (if c == q then none else some q) cs
  | none, c :: cs => quoteAfter (if isQuote c then some c else none) cs

/-- Whether a text ends in a word that starts a statement, with something in front of the word. -/
def endsInCommand (cs : List Char) : Bool :=
  let word := (cs.reverse.takeWhile isNamePart).reverse
  decide (word.length < cs.length) && Script.startsStatement (String.ofList word)

/-! ## Single steps -/

theorem separateWithin_eq {fuel fuel' : Nat} {quote before : Option Char} {cs : List Char} (h : cs.length ≤ fuel)
    (h' : cs.length ≤ fuel') : separateWithin fuel quote before cs = separateWithin fuel' quote before cs := by
  fun_induction separateWithin fuel quote before cs generalizing fuel' with
  | case1 quote before cs =>
    obtain rfl := List.length_eq_zero_iff.1 (Nat.le_zero.1 h)
    cases fuel' <;> rfl
  | case2 => cases fuel' <;> rfl
  | case3 before fuel q c hc =>
    obtain ⟨fuel', rfl⟩ : ∃ n, fuel' = n + 1 := ⟨fuel' - 1, by simp at h'; omega⟩
    simp [separateWithin, hc]
  | case4 before fuel q c hc d cs ih =>
    rw [List.length_cons, List.length_cons] at h h'
    obtain ⟨fuel', rfl⟩ : ∃ n, fuel' = n + 1 := ⟨fuel' - 1, by omega⟩
    simp [separateWithin, hc, @ih fuel' (by omega) (by omega)]
  | case5 before fuel q c cs hc ih =>
    rw [List.length_cons] at h h'
    obtain ⟨fuel', rfl⟩ : ∃ n, fuel' = n + 1 := ⟨fuel' - 1, by omega⟩
    simp only [separateWithin, hc, Bool.false_eq_true, if_false, @ih fuel' (by omega) (by omega)]
  | case6 fuel before c cs hc ih =>
    rw [List.length_cons] at h h'
    obtain ⟨fuel', rfl⟩ : ∃ n, fuel' = n + 1 := ⟨fuel' - 1, by omega⟩
    simp [separateWithin, hc, @ih fuel' (by omega) (by omega)]
  | case7 fuel before c cs hq hc word rest apart followed front =>
    rename_i ih
    have hname : isNamePart c := by simp [isNamePart, Char.isAlphanum, hc]
    have hrest : rest.length ≤ cs.length := dropWhile_length hname cs
    rw [List.length_cons] at h h'
    obtain ⟨fuel', rfl⟩ : ∃ n, fuel' = n + 1 := ⟨fuel' - 1, by omega⟩
    rw [separateWithin, if_neg hq, if_pos hc, @ih fuel' (by omega) (by omega)]
  | case8 fuel before c cs hq hc ih =>
    rw [List.length_cons] at h h'
    obtain ⟨fuel', rfl⟩ : ∃ n, fuel' = n + 1 := ⟨fuel' - 1, by omega⟩
    simp [separateWithin, hq, hc, @ih fuel' (by omega) (by omega)]

variable {quote before : Option Char} {q c d : Char} {cs : List Char}

@[simp] theorem separateFrom_nil : separateFrom quote before [] = [] := rfl

theorem separateFrom_escape :
    separateFrom (some q) before ('\\' :: d :: cs) = '\\' :: d :: separateFrom (some q) (some d) cs := by
  simp [separateFrom, separateWithin, separateWithin_eq (Nat.le_succ cs.length) (Nat.le_refl _)]

theorem separateFrom_quoted (hc : c ≠ '\\') : separateFrom (some q) before (c :: cs) =
    c :: separateFrom (if c == q then none else some q) (some c) cs := by
  simp [separateFrom, separateWithin, hc]

theorem separateFrom_quote (hc : isQuote c) :
    separateFrom none before (c :: cs) = c :: separateFrom (some c) (some c) cs := by
  simp [separateFrom, separateWithin, hc]

theorem separateFrom_other (hq : isQuote c = false) (hc : c.isAlpha = false) :
    separateFrom none before (c :: cs) = c :: separateFrom none (some c) cs := by
  simp [separateFrom, separateWithin, hq, hc]

/-- What stands in front of a word behind `before`, followed by `rest`. -/
def wordFront (before : Option Char) (word rest : List Char) : List Char :=
  if before.any (fun b => !isNamePart b) && rest.head?.any isAsciiSpace &&
    Script.startsStatement (String.ofList word) then [';'] else []

theorem isQuote_of_isAlpha (hc : c.isAlpha) : isQuote c = false := by
  refine Bool.eq_false_iff.2 fun hq => ?_
  simp only [isQuote, Bool.or_eq_true, beq_iff_eq] at hq
  rcases hq with rfl | rfl <;> cases hc

theorem separateFrom_word {word rest : List Char} (hc : c.isAlpha) (hw : ∀ d ∈ word, isNamePart d)
    (hrest : ∀ d ∈ rest.head?, isNamePart d = false) : separateFrom none before (c :: word ++ rest) =
      wordFront before (c :: word) rest ++ (c :: word) ++
        separateFrom none ((c :: word).getLast?) rest := by
  have hname : ∀ d ∈ c :: word, isNamePart d := by
    rw [List.forall_mem_cons]
    exact ⟨by simp [isNamePart, Char.isAlphanum, hc], hw⟩
  have htake : (c :: (word ++ rest)).takeWhile isNamePart = c :: word := by
    rw [← List.cons_append, List.takeWhile_append_of_pos hname]
    cases rest with
    | nil => simp
    | cons d rest => simp [hrest d rfl]
  have hdrop : (c :: (word ++ rest)).dropWhile isNamePart = rest := by
    rw [← List.cons_append, List.dropWhile_append_of_pos hname]
    cases rest with
    | nil => rfl
    | cons d rest => simp [hrest d rfl]
  have hlength : rest.length ≤ (word ++ rest).length := by simp
  rw [separateFrom, List.cons_append, List.length_cons, separateWithin, if_neg (by simp [isQuote_of_isAlpha hc]),
    if_pos hc]
  simp only [htake, hdrop]
  rw [separateWithin_eq hlength (Nat.le_refl _), separateFrom, wordFront]

theorem isNamePart_of_isAsciiSpace (h : isAsciiSpace c) :
    isNamePart c = false ∧ isQuote c = false ∧ c.isAlpha = false ∧ c ≠ '\\' := by
  simp only [isAsciiSpace, Bool.or_eq_true, beq_iff_eq] at h
  rcases h with (((rfl | rfl) | rfl) | rfl) | rfl <;> decide

/-- A white space stays where it is, and no quote is opened or closed by it. -/
theorem separateFrom_space (hquote : ∀ q ∈ quote, isQuote q) (hc : isAsciiSpace c) :
    separateFrom quote before (c :: cs) = c :: separateFrom quote (some c) cs := by
  obtain ⟨-, hq, ha, hb⟩ := isNamePart_of_isAsciiSpace hc
  cases quote with
  | none => exact separateFrom_other hq ha
  | some q =>
    have hne : c ≠ q := by
      rintro rfl
      rw [hquote c rfl] at hq
      cases hq
    rw [separateFrom_quoted hb, if_neg (by simpa using hne)]

theorem quoteAfter_of_plain {word : List Char} (h : ∀ d ∈ word, isQuote d = false) (rest : List Char) :
    quoteAfter none (word ++ rest) = quoteAfter none rest := by
  induction word with
  | nil => rfl
  | cons c word ih =>
    rw [List.forall_mem_cons] at h
    rw [List.cons_append, quoteAfter, h.1]
    exact ih h.2

/-! ## Commands at the end -/

theorem endsInCommand_append {front word : List Char} {b : Char} (hf : front.getLast? = some b)
    (hb : isNamePart b = false) (hw : ∀ d ∈ word, isNamePart d) :
    endsInCommand (front ++ word) = Script.startsStatement (String.ofList word) := by
  obtain ⟨front, rfl⟩ := List.getLast?_eq_some_iff.1 hf
  have htake : (front ++ [b] ++ word).reverse.takeWhile isNamePart = word.reverse := by
    rw [List.reverse_append, List.takeWhile_append_of_pos fun d hd => hw d (List.mem_reverse.1 hd)]
    simp [hb]
  have hlength : word.length < (front ++ [b] ++ word).length := by
    simp only [List.length_append, List.length_singleton]
    omega
  simp only [endsInCommand, htake, List.reverse_reverse, hlength, decide_true, Bool.true_and]

/-- In front of a white space the text `as` becomes `out`, and at the end of the text too, unless it ends there in
a command. -/
structure Spaced (quote before : Option Char) (as out : List Char) : Prop where
  space : ∀ {c : Char} (bs : List Char), isAsciiSpace c →
    separateFrom quote before (as ++ c :: bs) = out ++ c :: separateFrom (quoteAfter quote as) (some c) bs
  atEnd : separateFrom quote before as = out ∨
    ∀ front : List Char, front.getLast? = before → endsInCommand (front ++ separateFrom quote before as)

theorem Spaced.append {quote' before' : Option Char} {rest out : List Char} (h : Spaced quote' before' rest out)
    (front word : List Char) (hne : front ≠ []) (hlast : front.getLast? = before')
    (hquote : quoteAfter quote (word ++ rest) = quoteAfter quote' rest)
    (hstep : ∀ bs, separateFrom quote before (word ++ (rest ++ bs)) = front ++ separateFrom quote' before' (rest ++ bs)) :
    Spaced quote before (word ++ rest) (front ++ out) where
  space bs hc := by rw [List.append_assoc, hstep, h.space bs hc, hquote, List.append_assoc]
  atEnd := by
    have hall : separateFrom quote before (word ++ rest) = front ++ separateFrom quote' before' rest := by
      simpa using hstep []
    refine h.atEnd.imp (fun he => by rw [hall, he]) fun he before _ => ?_
    rw [hall, ← List.append_assoc]
    refine he _ ?_
    obtain ⟨last, hl⟩ := Option.ne_none_iff_exists'.1 (mt List.getLast?_eq_none_iff.1 hne)
    rw [List.getLast?_append, ← hlast, hl]
    rfl

/-- A word with the rest of the text, before which another word cannot go on. -/
theorem Spaced.word {word rest out : List Char} (h : Spaced none ((c :: word).getLast?) rest out)
    (before : Option Char) (hc : c.isAlpha)
    (hw : ∀ d ∈ word, isNamePart d) (hrest : ∀ d ∈ rest.head?, isNamePart d = false) :
    ∃ out, Spaced none before (c :: word ++ rest) out := by
  have hname : ∀ d ∈ c :: word, isNamePart d := by
    rw [List.forall_mem_cons]
    exact ⟨by simp [isNamePart, Char.isAlphanum, hc], hw⟩
  have hquotes : ∀ d ∈ c :: word, isQuote d = false := fun d hd => by
    refine Bool.eq_false_iff.2 fun hq => ?_
    have hn := hname d hd
    simp only [isQuote, Bool.or_eq_true, beq_iff_eq] at hq
    rcases hq with rfl | rfl <;> cases hn
  cases rest with
  | cons r rest =>
    refine ⟨_, h.append (wordFront before (c :: word) (r :: rest) ++ (c :: word)) (c :: word) (by simp) ?_
      (quoteAfter_of_plain hquotes _) fun bs => separateFrom_word hc hw (by simpa using hrest)⟩
    rw [List.getLast?_append]
    rfl
  | nil =>
    have hend : separateFrom none before (c :: word ++ []) = c :: word := by
      rw [separateFrom_word hc hw (by simp), wordFront]
      simp
    refine ⟨wordFront before (c :: word) [' '] ++ (c :: word), fun {d} bs hd => ?_, ?_⟩
    · obtain ⟨hn, hq, ha, -⟩ := isNamePart_of_isAsciiSpace hd
      have hfront : wordFront before (c :: word) (d :: bs) = wordFront before (c :: word) [' '] := by
        have hspace : isAsciiSpace ' ' := rfl
        simp only [wordFront, List.head?_cons, Option.any_some, hd, hspace]
      rw [List.append_nil, separateFrom_word hc hw (by simpa using hn), hfront, separateFrom_other hq ha]
      have hquote := quoteAfter_of_plain hquotes []
      rw [List.append_nil] at hquote
      rw [hquote]
      rfl
    · rw [hend]
      by_cases hf : wordFront before (c :: word) [' '] = []
      · exact .inl (by rw [hf]; rfl)
      · refine .inr fun front hb => ?_
        have hcond : before.any (fun b => !isNamePart b) && isAsciiSpace ' ' &&
            Script.startsStatement (String.ofList (c :: word)) :=
          Decidable.byContradiction fun hcond => hf (if_neg hcond)
        simp only [Bool.and_eq_true] at hcond
        obtain ⟨⟨hapart, -⟩, hstarts⟩ := hcond
        obtain ⟨b, rfl, hb'⟩ := (Option.any_eq_true _ _).1 hapart
        rw [endsInCommand_append hb (by simpa using hb') hname, hstarts]

/-- What becomes of a text in front of a white space. -/
theorem exists_spaced (before : Option Char) (hquote : ∀ q ∈ quote, isQuote q) (as : List Char) :
    ∃ out, Spaced quote before as out := by
  generalize hn : as.length = n
  induction n using Nat.strongRecOn generalizing as quote before with
  | ind n ih =>
    have next : ∀ (quote before : Option Char) (rest : List Char), (∀ q ∈ quote, isQuote q) → rest.length < n →
        ∃ out, Spaced quote before rest out := fun _ _ rest hq hlt => ih _ hlt _ hq rest rfl
    cases as with
    | nil => exact ⟨[], fun bs hc => separateFrom_space hquote hc, .inl rfl⟩
    | cons c cs =>
      rw [List.length_cons] at hn
      cases quote with
      | some q =>
        by_cases hc : c = '\\'
        · subst hc
          cases cs with
          | nil => exact ⟨['\\'], fun bs _ => separateFrom_escape, .inl rfl⟩
          | cons d cs =>
            obtain ⟨out, h⟩ := next (some q) (some d) cs hquote (by simp at hn; omega)
            exact ⟨_, h.append ['\\', d] ['\\', d] (by simp) rfl rfl
              fun _ => separateFrom_escape⟩
        · have hq : ∀ q' ∈ (if c == q then none else some q : Option Char), isQuote q' := by
            split
            · simp
            · exact hquote
          obtain ⟨out, h⟩ := next _ (some c) cs hq (by omega)
          refine ⟨_, h.append [c] [c] (by simp) rfl ?_ fun _ => separateFrom_quoted hc⟩
          rw [List.singleton_append, quoteAfter] <;> simp [hc]
      | none =>
        by_cases hq : isQuote c
        · obtain ⟨out, h⟩ := next (some c) (some c) cs (by simpa using hq) (by omega)
          exact ⟨_, h.append [c] [c] (by simp) rfl (by simp [quoteAfter, hq])
            fun _ => separateFrom_quote hq⟩
        by_cases hc : c.isAlpha
        · have hrest := (List.dropWhile_sublist isNamePart (l := cs)).length_le
          obtain ⟨out, h⟩ := next none ((c :: cs.takeWhile isNamePart).getLast?)
            (cs.dropWhile isNamePart) (by simp) (by omega)
          obtain ⟨out, h⟩ := h.word before hc (List.all_eq_true.1 List.all_takeWhile)
            fun d hd => by
              have hhead := List.head?_dropWhile_not isNamePart cs
              rw [Option.mem_def.1 hd] at hhead
              simpa using hhead
          rw [List.cons_append, List.takeWhile_append_dropWhile] at h
          exact ⟨out, h⟩
        · obtain ⟨out, h⟩ := next none (some c) cs (by simp) (by omega)
          exact ⟨_, h.append [c] [c] (by simp) rfl (by simp [quoteAfter, hq])
            fun _ => separateFrom_other (by simpa using hq) (by simpa using hc)⟩

end LiveSketch.Sketch

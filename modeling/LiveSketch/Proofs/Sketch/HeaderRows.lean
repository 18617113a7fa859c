import LiveSketch.Proofs.Script.RowTrees
import LiveSketch.Proofs.Script.Scanning
import LiveSketch.Proofs.Sketch.Loops

/-!
# The rows of scripts with loops and reports

`lexes_viewLines`: where the lines of a sketch can be taken apart with loops in place of the headers, they can
be in every view, and all of them show the same rows. The induction is on the lines; a header in front of a
block takes the next line with it.
-/
namespace LiveSketch.Sketch

open Script Script.Lexer
open Text (byteLength byteLength_append byteLength_cons isBlank)
open Number (digitsOf)

variable {n : Nat} {v : View}

/-! ## The tokens of headers -/

theorem scans_repeat (rest : List Char) : Scans false (.ident "repeat") "repeat".toList (' ' :: rest) :=
  scans_name rfl (by decide) (by decide) fun d hd => by
    cases hd
    decide

theorem scans_semicolon (afterName : Bool) (rest : List Char) : Scans afterName .semicolon [';'] rest :=
  scans_single rfl fun d _ => ⟨rfl, fun _ => rfl, by simp⟩

/-- The head of a loop is read as such. -/
theorem scan_loopHead (k pos : Nat) (rest : List Char) : ∃ head, IsLoopHead k head ∧
    scan pos false (loopHead k ++ rest) =
      (head ++ ·) <$> scan (pos + byteLength (loopHead k)) false rest := by
  have hdigits := Number.digitsOf_isNumeral k
  have hnumber : Scans false (.number (numeral k)) (digitsOf k) (' ' :: (['-', '>'] ++ rest)) :=
    scans_number hdigits hdigits.read?_eq fun d hd => by
      cases hd
      decide
  have harrow : Scans false .arrow ['-', '>'] rest := scans_pair rfl rest
  have htext : loopHead k ++ rest =
      "repeat".toList ++ ' ' :: (digitsOf k ++ ' ' :: (['-', '>'] ++ rest)) := by
    rw [loopHead_eq, List.append_assoc, List.cons_append, List.append_assoc, List.cons_append]
  have hlength : pos + byteLength (loopHead k) = pos + byteLength "repeat".toList + ' '.utf8Size +
      byteLength (digitsOf k) + ' '.utf8Size + byteLength ['-', '>'] := by
    simp only [loopHead_eq, byteLength_append, byteLength_cons]
    omega
  rw [htext, hlength, scan_scans (scans_repeat _), scan_indent (by decide), scan_scans hnumber,
    scan_indent (by decide), scan_scans harrow, Functor.map_map, Functor.map_map]
  exact ⟨[_, _, _], ⟨_, _, _, rfl, rfl, rfl, rfl⟩, rfl⟩

/-- The report of a line is read as such. -/
theorem scan_lead (v : View) (i pos : Nat) (rest : List Char) : ∃ lead, v.IsLead i lead ∧
    scan pos false (leadText v i ++ rest) = (lead ++ ·) <$> scan (pos + byteLength (leadText v i)) false rest := by
  cases v with
  | loops count => exact ⟨[], rfl, (id_map _).symm⟩
  | reports =>
    have hmarker : Scans (isName .semicolon) (.ident doOnceMarker) markerWord
        (['('] ++ (digitsOf i ++ ([')'] ++ ([';'] ++ ' ' :: rest)))) :=
      scans_name rfl (by decide) (by decide) fun d hd => by
        cases hd
        decide
    have hleft : Scans (isName (.ident doOnceMarker)) .leftParen ['(']
        (digitsOf i ++ ([')'] ++ ([';'] ++ ' ' :: rest))) :=
      scans_paren (.inl rfl) rfl _
    have hdigits := Number.digitsOf_isNumeral i
    have hnumber : Scans (isName .leftParen) (.number (numeral i)) (digitsOf i) ([')'] ++ ([';'] ++ ' ' :: rest)) :=
      scans_number hdigits hdigits.read?_eq fun d hd => by
        cases hd
        decide
    have hright : Scans (isName (.number (numeral i))) .rightParen [')'] ([';'] ++ ' ' :: rest) :=
      scans_paren (.inr rfl) rfl _
    have htext : leadText .reports i ++ rest =
        [';'] ++ (markerWord ++ (['('] ++ (digitsOf i ++ ([')'] ++ ([';'] ++ ' ' :: rest))))) := by
      simp [leadText, report_eq]
    have hlength : pos + byteLength (leadText .reports i) = pos + byteLength [';'] + byteLength markerWord +
        byteLength ['('] + byteLength (digitsOf i) + byteLength [')'] + byteLength [';'] + ' '.utf8Size := by
      simp only [leadText, report_eq, byteLength_append, Text.byteLength]
      omega
    rw [htext, hlength, scan_scans (scans_semicolon false _), scan_scans hmarker, scan_scans hleft,
      scan_scans hnumber, scan_scans hright, scan_scans (scans_semicolon _ _), scan_indent (by decide),
      Functor.map_map, Functor.map_map, Functor.map_map, Functor.map_map, Functor.map_map]
    exact ⟨[_, _, _, _, _, _], ⟨_, _, _, _, _, _, rfl, rfl, rfl, rfl, rfl, rfl, rfl, rfl⟩, rfl⟩

/-- The report and the head of a loop are read as such. -/
theorem scan_header (v : View) (i pos : Nat) (rest : List Char) : ∃ lead head, v.IsLead i lead ∧
    IsLoopHead (v.count i) head ∧
      scan pos false ((leadText v i ++ loopHead (v.count i) ++ [' ']) ++ rest) =
        (fun ts => lead ++ (head ++ ts)) <$>
          scan (pos + byteLength (leadText v i ++ loopHead (v.count i) ++ [' '])) false rest := by
  obtain ⟨lead, hl, hlead⟩ := scan_lead v i pos (loopHead (v.count i) ++ ' ' :: rest)
  obtain ⟨head, hh, hhead⟩ :=
    scan_loopHead (v.count i) (pos + byteLength (leadText v i)) (' ' :: rest)
  refine ⟨lead, head, hl, hh, ?_⟩
  have htext : leadText v i ++ loopHead (v.count i) ++ [' '] ++ rest =
      leadText v i ++ (loopHead (v.count i) ++ ' ' :: rest) := by
    simp only [List.append_assoc, List.cons_append, List.nil_append]
  have hlength : pos + byteLength (leadText v i ++ loopHead (v.count i) ++ [' ']) =
      pos + byteLength (leadText v i) + byteLength (loopHead (v.count i)) + ' '.utf8Size := by
    simp only [byteLength_append, Text.byteLength]
    omega
  rw [htext, hlength, hlead, hhead, scan_indent (by decide), Functor.map_map]

theorem begins_of_scans {afterName : Bool} {kind : TokenKind} {text rest : List Char}
    (h : Scans afterName kind text rest) : Begins (text ++ rest) := by
  obtain ⟨c, cs, rfl, hi, hs, -⟩ := h
  exact ⟨c, cs ++ rest, rfl, hi, hs⟩

theorem begins_loopHead (k : Nat) (rest : List Char) : Begins (loopHead k ++ rest) := by
  rw [loopHead_eq, List.append_assoc, List.cons_append]
  exact begins_of_scans (scans_repeat _)

theorem begins_lead (v : View) (i : Nat) {rest : List Char} (h : Begins rest) :
    Begins (leadText v i ++ rest) := by
  cases v with
  | loops count => exact h
  | reports =>
    rw [leadText, report_eq]
    simp only [List.append_assoc]
    exact begins_of_scans (scans_semicolon false _)

theorem begins_header (v : View) (i : Nat) (rest : List Char) :
    Begins (leadText v i ++ loopHead (v.count i) ++ [' '] ++ rest) := by
  rw [List.append_assoc, List.append_assoc]
  exact begins_lead v i (begins_loopHead _ _)

/-- Behind the front of a line, the text up to the carriage return at its end. -/
theorem begins_dropReturn {c : Char} {cs : List Char} (hc : isBlank c = false)
    (hs : startsComment (c :: cs) = false) : Begins (dropReturn (c :: cs)) := by
  have hne : ∀ d, isBlank d → c ≠ d := by
    rintro d hd rfl
    rw [hc] at hd
    cases hd
  have hi : isIndent c = false := by
    simp [isIndent, hne ' ' (by decide), hne '\t' (by decide)]
  obtain ⟨front, hd⟩ : ∃ front, dropReturn (c :: cs) = c :: front := by
    cases cs with
    | nil => exact ⟨[], by simp [dropReturn, hne '\r' (by decide)]⟩
    | cons d cs => exact ⟨dropReturn (d :: cs), dropReturn_append [c] (List.cons_ne_nil d cs)⟩
  refine ⟨c, front, hd, hi, Bool.eq_false_iff.2 fun hcomment => ?_⟩
  obtain ⟨back, hback⟩ := dropReturn_prefix (c :: cs)
  rw [← hback, startsComment_append hcomment] at hs
  cases hs

/-! ## Lines -/

/-- Wherever these lines stand in a text, their tokens have a property. -/
def Lexes (P : List Token → Prop) (levels : List Nat) (lines : List (List Char)) : Prop :=
  ∀ pos, ∃ ts, lexLines pos levels lines = .ok ts ∧ P ts

variable {P Q : List Token → Prop} {levels levels' : List Nat} {lines : List (List Char)}

/-- The tokens of a line on which something stands, in front of those of the lines behind it. -/
theorem Lexes.begins {raw indent text : List Char} {kinds : List TokenKind} (hr : dropReturn raw = indent ++ text)
    (hi : ∀ c ∈ indent, isIndent c) (hb : Begins text) (hind : Indents indent.length levels kinds levels')
    (hscan : ∀ pos, ∃ ts, scan pos false text = .ok ts ∧ ∀ {rest : List Token} {t : Token} (p : Nat),
      t.kind = .newline → t.start = pos + byteLength text → P rest →
        Q (kinds.map (⟨·, p, p⟩) ++ (ts ++ t :: rest)))
    (h : Lexes P levels' lines) : Lexes Q levels (raw :: lines) := by
  intro pos
  obtain ⟨ts, hts, hq⟩ := hscan (pos + indent.length)
  obtain ⟨rest, hrest, hp⟩ := h (pos + byteLength raw + 1)
  let t : Token := ⟨.newline, pos + indent.length + byteLength text, pos + byteLength raw⟩
  refine ⟨_, ?_, hq (t := t) (pos + indent.length) rfl rfl hp⟩
  rw [lexLines_begins hr hi hb, hind.2, ok_bind]
  simp only [hts, hrest, ok_bind, List.append_assoc]
  rfl

/-- The tokens in front of a line. -/
theorem shows_layout {kinds : List TokenKind} {rows : List (Row n)} {ts : List Token} (p : Nat)
    (hk : ∀ kind ∈ kinds, kind.isWord = false) (h : Shows v rows ts) :
    Shows v (kinds.map .layout ++ rows) (kinds.map (⟨·, p, p⟩) ++ ts) := by
  induction kinds with
  | nil => exact h
  | cons kind kinds ih =>
    exact ⟨hk kind List.mem_cons_self, _, _, rfl, rfl,
      ih fun kind hm => hk kind (List.mem_cons_of_mem _ hm)⟩

/-- The rest of a line has the same tokens at every place. -/
theorem exists_alike {pos : Nat} {body : List Char} {ts : List Token} (h : scan pos false body = .ok ts) :
    ∃ l : List Token, ∀ pos, ∃ us, scan pos false body = .ok us ∧ ∀ {rest : List Token} {t : Token},
      t.kind = .newline → t.start = pos + byteLength body → Alike 0 pos [] rest l (us ++ t :: rest) := by
  obtain ⟨us, hus, -⟩ := scan_alike h 0
  refine ⟨us ++ [⟨.newline, byteLength body, byteLength body⟩], fun pos => ?_⟩
  obtain ⟨ts, hts, hend⟩ := scan_alike hus pos
  refine ⟨ts, hts, fun ht hs => hend rfl ht (.inl ?_)⟩
  rw [hs]
  exact Nat.add_comm _ _

/-- In front of any lines, the lines `front v` of the views show rows of their own. The lines `lines`, which are
those behind `front` with loops, can be taken apart. -/
def Fronts (n : Nat) (levels : List Nat) (front : View → List (List Char)) (lines : List (List Char)) : Prop :=
  ∃ (levels' : List Nat) (own : List (Row n)), (∃ pos ts, lexLines pos levels' lines = .ok ts) ∧
    ∀ v rows lines', Lexes (Shows v rows) levels' lines' → Lexes (Shows v (own ++ rows)) levels (front v ++ lines')

theorem Fronts.exists_rows {front rest : View → List (List Char)} (h : Fronts n levels front lines)
    (hrest : ∀ {pos : Nat} {levels' : List Nat} {ts : List Token}, lexLines pos levels' lines = .ok ts →
      ∃ rows : List (Row n), ∀ v, Lexes (Shows v rows) levels' (rest v)) :
    ∃ rows : List (Row n), ∀ v, Lexes (Shows v rows) levels (front v ++ rest v) := by
  obtain ⟨levels', own, ⟨pos, ts, hl⟩, hown⟩ := h
  obtain ⟨rows, hrows⟩ := hrest hl
  exact ⟨own ++ rows, fun v => hown v rows _ (hrows v)⟩

/-- A line without a header shows the same in every view. -/
theorem fronts_plain (n : Nat) {raw : List Char} {pos : Nat} {ts : List Token}
    (h : lexLines pos levels (raw :: lines) = .ok ts) : Fronts n levels (fun _ => [raw]) lines := by
  rcases lexLines_cases raw with hskip | ⟨indent, body, hr, hi, hb⟩
  · rw [lexLines_skip hskip] at h
    refine ⟨levels, [], ⟨_, ts, h⟩, fun v rows lines' hl pos => ?_⟩
    rw [List.singleton_append, lexLines_skip hskip]
    exact hl _
  · obtain ⟨kinds, levels', hind, -, ⟨us, hs⟩, hrest⟩ := lexLines_begins_ok hr hi hb h
    obtain ⟨l, hline⟩ := exists_alike hs
    refine ⟨levels', kinds.map .layout ++ [.line l], hrest, fun v rows lines' hl => ?_⟩
    refine .begins hr hi hb hind (fun pos => ?_) hl
    obtain ⟨us, hus, hend⟩ := hline pos
    refine ⟨us, hus, fun p ht hstart hrows => ?_⟩
    rw [List.append_assoc]
    exact shows_layout p hind.1 ⟨_, _, hend ht hstart, hrows⟩

/-- A header with its body on the same line. -/
theorem fronts_inline {i : Fin n} {count : Nat → Nat} {indent body : List Char} {c : Char} {pos : Nat}
    {ts : List Token} (hb : ∀ d ∈ indent, isBlank d) (h : lexLines pos levels
      ((indent ++ ((leadText (.loops count) i ++ loopHead (count i) ++ [' ']) ++ c :: body)) :: lines) = .ok ts) :
    Fronts n levels
      (fun v => [indent ++ ((leadText v i ++ loopHead (v.count i) ++ [' ']) ++ c :: body)]) lines := by
  have hr : ∀ v : View, dropReturn (indent ++ ((leadText v i ++ loopHead (v.count i) ++ [' ']) ++ c :: body)) =
      indent ++ ((leadText v i ++ loopHead (v.count i) ++ [' ']) ++ dropReturn (c :: body)) := fun v => by
    rw [dropReturn_append _ (by simp), dropReturn_append _ (List.cons_ne_nil c body)]
  have hi := isIndent_of_lexLines (hr (.loops count)) hb h
  obtain ⟨kinds, levels', hind, -, ⟨us, hs⟩, hrest⟩ :=
    lexLines_begins_ok (hr (.loops count)) hi (begins_header _ i _) h
  obtain ⟨lead, head, -, -, hscan⟩ := scan_header (.loops count) i (pos + indent.length) (dropReturn (c :: body))
  rw [hscan] at hs
  obtain ⟨us, hs, -⟩ := map_eq_ok.1 hs
  obtain ⟨l, hline⟩ := exists_alike hs
  refine ⟨levels', kinds.map .layout ++ [.inline i, .line l], hrest, fun v rows lines' hl => ?_⟩
  refine .begins (hr v) hi (begins_header _ i _) hind (fun pos => ?_) hl
  obtain ⟨lead, head, hlead, hhead, hscan⟩ := scan_header v i pos (dropReturn (c :: body))
  obtain ⟨us, hus, hend⟩ := hline (pos + byteLength (leadText v i ++ loopHead (v.count i) ++ [' ']))
  refine ⟨lead ++ (head ++ us), by rw [hscan, hus]; rfl, fun p ht hstart hrows => ?_⟩
  rw [byteLength_append, ← Nat.add_assoc] at hstart
  rw [List.append_assoc, List.append_assoc lead, List.append_assoc head]
  exact shows_layout p hind.1 ⟨lead, head, _, hlead, hhead, rfl, _, _, hend ht hstart, hrows⟩

/-- A header in front of a block: the loop opens the block, and the report stands on its first line. -/
theorem fronts_block {i : Fin n} {count : Nat → Nat} {indent front body : List Char} {c : Char} {pos : Nat}
    {ts : List Token} (hb : ∀ d ∈ indent, isBlank d) (hfront : ∀ d ∈ front, isBlank d)
    (hdeep : indent.length < front.length) (hc : isBlank c = false) (hcode : startsComment (c :: body) = false)
    (h : lexLines pos levels ((indent ++ loopHead (count i)) ::
      (front ++ (leadText (.loops count) i ++ c :: body)) :: lines) = .ok ts) :
    Fronts n levels
      (fun v => [indent ++ loopHead (v.count i), front ++ (leadText v i ++ c :: body)]) lines := by
  have hr : ∀ k, dropReturn (indent ++ loopHead k) = indent ++ loopHead k := fun k => by
    have hsplit : indent ++ loopHead k =
        (indent ++ "repeat".toList ++ ' ' :: digitsOf k ++ [' ', '-']) ++ ['>'] := by
      rw [loopHead_eq]
      simp only [List.append_assoc, List.cons_append, List.nil_append]
    rw [hsplit, dropReturn_append _ (List.cons_ne_nil _ _)]
    rfl
  have hr' : ∀ v : View, dropReturn (front ++ (leadText v i ++ c :: body)) =
      front ++ (leadText v i ++ dropReturn (c :: body)) := fun v => by
    rw [dropReturn_append _ (by simp), dropReturn_append _ (List.cons_ne_nil c body)]
  have hbody := begins_dropReturn hc hcode
  have hbegins : ∀ k, Begins (loopHead k) := fun k => by
    have hk := begins_loopHead k []
    rwa [List.append_nil] at hk
  have hi := isIndent_of_lexLines (hr _) hb h
  obtain ⟨kinds, levels₁, hind, hhead, -, ⟨pos₁, ts₁, h₁⟩⟩ := lexLines_begins_ok (hr _) hi (hbegins _) h
  have hi₁ := isIndent_of_lexLines (hr' (.loops count)) hfront h₁
  obtain ⟨kinds₂, levels₂, hind₂, -, ⟨us, hs⟩, hrest⟩ :=
    lexLines_begins_ok (hr' (.loops count)) hi₁ (begins_lead _ i hbody) h₁
  have hs : scan (pos₁ + front.length) false (dropReturn (c :: body)) = .ok us := hs
  obtain ⟨l, hline⟩ := exists_alike hs
  -- the next line is deeper, so it opens a block
  have hopen : Indents front.length levels₁ [.indent] (front.length :: levels₁) :=
    ⟨by simp [TokenKind.isWord], fun pos => indentation_deeper (by rwa [hhead]) pos⟩
  obtain rfl : front.length :: levels₁ = levels₂ :=
    (Prod.mk.inj (Except.ok.inj ((hopen.2 0).symm.trans (hind₂.2 0)))).2
  refine ⟨_, kinds.map .layout ++ [.block i, .line l], hrest, fun v rows lines' hl => ?_⟩
  have hnext : Lexes (fun ts => ∃ indent lead rest, indent.kind = .indent ∧ v.IsLead i lead ∧
      (Parser.peekKind rest).isWord ∧ ts = indent :: (lead ++ rest) ∧ Shows v (.line l :: rows) rest) levels₁
      ((front ++ (leadText v i ++ c :: body)) :: lines') := by
    refine .begins (hr' v) hi₁ (begins_lead v i hbody) hopen (fun pos => ?_) hl
    obtain ⟨lead, hlead, hscan⟩ := scan_lead v i pos (dropReturn (c :: body))
    obtain ⟨us, hus, hend⟩ := hline (pos + byteLength (leadText v i))
    refine ⟨lead ++ us, by rw [hscan, hus]; rfl, fun {rest t} p ht hstart hrows => ?_⟩
    rw [byteLength_append, ← Nat.add_assoc] at hstart
    rw [List.append_assoc]
    exact ⟨_, lead, us ++ t :: rest, rfl, hlead, hbody.isWord hus _, rfl, _, _, hend ht hstart, hrows⟩
  refine .begins (hr _) hi (hbegins _) hind (fun pos => ?_) hnext
  obtain ⟨head, hhead, hscan⟩ := scan_loopHead (v.count i) pos []
  rw [List.append_nil] at hscan
  refine ⟨head, hscan.trans (congrArg Except.ok (List.append_nil head)), fun {rest t} p ht _ hblock => ?_⟩
  obtain ⟨indent, lead, rest, hindent, hlead, hword, rfl, hrows⟩ := hblock
  rw [List.append_assoc]
  exact shows_layout p hind.1 ⟨head, t, indent, lead, rest, hhead, ht, hindent, hlead, hword, rfl, hrows⟩

/-! ## All lines -/

/-- Behind the last line all blocks are closed. -/
theorem exists_rows_nil (n : Nat) (levels : List Nat) :
    ∃ rows : List (Row n), ∀ v, Lexes (Shows v rows) levels [] := by
  let kinds := List.replicate levels.length TokenKind.dedent ++ [.eof]
  have hkinds : ∀ kind ∈ kinds, kind.isWord = false := fun kind hm => by
    rcases List.mem_append.1 hm with hm | hm
    · rw [List.eq_of_mem_replicate hm]
      rfl
    · rw [List.mem_singleton.1 hm]
      rfl
  refine ⟨kinds.map .layout ++ [], fun v pos => ⟨kinds.map (⟨·, pos - 1, pos - 1⟩) ++ [], ?_, ?_⟩⟩
  · simp [lexLines, kinds]
  · have hnone : Shows v ([] : List (Row n)) [] := rfl
    exact shows_layout (pos - 1) hkinds hnone

/-- Where the lines of a sketch fall into tokens with loops in place of the headers, they do so in every view,
and all views show the same rows. -/
theorem lexes_viewLines {count : Nat → Nat} {lines : List (List Char)} {i pos : Nat} {levels : List Nat}
    {ts : List Token} (hclear : isClear lines) (hn : i + lines.length ≤ n)
    (h : lexLines pos levels (viewLines (.loops count) i lines) = .ok ts) :
    ∃ rows : List (Row n), ∀ v, Lexes (Shows v rows) levels (viewLines v i lines) := by
  induction hk : lines.length using Nat.strongRecOn generalizing lines i pos levels ts with
  | ind k ih =>
    cases lines with
    | nil =>
      obtain ⟨rows, hrows⟩ := exists_rows_nil n levels
      refine ⟨rows, fun v => ?_⟩
      rw [viewLines_nil]
      exact hrows v
    | cons line lines =>
      rw [isClear, Bool.and_eq_true] at hclear
      obtain ⟨hline, hclear⟩ := hclear
      rw [List.length_cons] at hn hk
      cases hheader : header? line with
      | none =>
        simp only [viewLines_plain hheader] at h ⊢
        exact (fronts_plain n h).exists_rows fun h' => ih _ (by omega) hclear (by omega) h' rfl
      | some found =>
        obtain ⟨indent, body⟩ := found
        have hi : i < n := by omega
        have hb : ∀ d ∈ indent, isBlank d := by
          rw [(header?_eq_some hheader).1]
          exact List.all_eq_true.1 List.all_takeWhile
        rw [hheader] at hline
        cases body with
        | cons c body =>
          have hc : isBlank c = false := by simpa using hline
          simp only [viewLines_inline hheader hc] at h ⊢
          exact (fronts_inline (i := ⟨i, hi⟩) hb h).exists_rows fun h' =>
            ih _ (by omega) hclear (by omega) h' rfl
        | nil =>
          cases lines with
          | nil => cases hline
          | cons next lines =>
            have hnext : opensBlock indent next := hline
            obtain ⟨hdeep, -, c, body, hd, hc, hcode⟩ := opensBlock_eq_true hnext
            rw [isClear, Bool.and_eq_true] at hclear
            rw [List.length_cons] at hn hk
            simp only [viewLines_block hheader hnext, hd] at h ⊢
            have hfront := fronts_block (i := ⟨i, hi⟩) hb (List.all_eq_true.1 List.all_takeWhile) hdeep hc hcode h
            exact hfront.exists_rows fun h' => ih _ (by omega) hclear.2 (by omega) h' rfl

end LiveSketch.Sketch

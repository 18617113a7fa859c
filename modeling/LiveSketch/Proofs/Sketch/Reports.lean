import LiveSketch.Proofs.Number.Plain
import LiveSketch.Proofs.Sketch.Headers

/-!
# Reports in a script

`reporting_toScript`: in the script of a sketch that does not name the marker, the marker stands only in
calls with the number of a header. `Reporting` says so of a text. Instrumenting a text makes it so, and the
passes after that keep it: a call of the marker is no single word, and neither its parentheses nor its
number begin a statement.
-/
namespace LiveSketch.Sketch

open Text
open Number (digitsOf)

/-- The word of the call that reports an executed `doOnce`. -/
def markerWord : List Char := Script.doOnceMarker.toList

/-- Wherever the marker stands in the text, the number of one of these lines follows in parentheses. -/
def Reporting (lines : Nat → Prop) (cs : List Char) : Prop :=
  ∀ back, (markerWord ++ back) <:+ cs →
    ∃ i rest, lines i ∧ back = '(' :: (digitsOf i ++ ')' :: rest)

theorem report_eq (i : Nat) :
    report i = [';'] ++ (markerWord ++ '(' :: (digitsOf i ++ ')' :: [';'])) := by
  simp [report, markerWord, digitsOf, ToString.toString]

theorem occurs_of_suffix {word cs back : List Char} (h : (word ++ back) <:+ cs) : occurs word cs := by
  induction cs with
  | nil =>
    obtain ⟨rfl, rfl⟩ := List.append_eq_nil_iff.1 (List.suffix_nil.1 h)
    rfl
  | cons c cs ih =>
    rcases List.suffix_cons_iff.1 h with he | h
    · rw [occurs, ← he]
      simp
    · simp [occurs, ih h]

namespace Reporting

variable {lines : Nat → Prop} {as bs cs : List Char}

theorem suffix (h : Reporting lines cs) (hs : bs <:+ cs) : Reporting lines bs :=
  fun back hb => h back (hb.trans hs)

/-- The marker begins with a letter that this front does not have. -/
theorem append_left (ha : 'a' ∉ as) (h : Reporting lines bs) : Reporting lines (as ++ bs) := by
  rintro back ⟨front, he⟩
  obtain ⟨between, rfl, hb⟩ := append_eq_append_cons ha (he.symm : as ++ bs = front ++ 'a' :: _)
  exact h back ⟨between, hb.symm⟩

theorem of_notMem (h : 'a' ∉ cs) : Reporting lines cs := by
  have hnil : Reporting lines [] := fun back hb => by
    have := hb.length_le
    simp [markerWord, Script.doOnceMarker] at this
  simpa using append_left h hnil

/-- A character that the marker does not have separates two texts. -/
theorem append_cons {c : Char} (hc : c ∉ markerWord) (ha : Reporting lines as)
    (hb : Reporting lines bs) : Reporting lines (as ++ c :: bs) := by
  rintro back ⟨front, he⟩
  rcases List.append_eq_append_iff.1 he with ⟨between, rfl, hm⟩ | ⟨between, rfl, hm⟩
  · obtain ⟨between', rfl, rfl⟩ := append_eq_append_cons hc hm
    obtain ⟨i, rest, hi, rfl⟩ := ha between' ⟨front, rfl⟩
    exact ⟨i, rest ++ c :: bs, hi, by simp⟩
  · cases between with
    | nil =>
      rw [List.nil_append] at hm
      exact absurd (by rw [(List.cons.inj hm).1]; decide) hc
    | cons d between =>
      exact hb back ⟨between, (List.cons.inj hm).2.symm⟩

/-- A text in front of a character that is no part of a call of the marker with a number. -/
theorem of_append_cons {c : Char} (hc : c ≠ '(' ∧ c ≠ ')' ∧ c.isDigit = false)
    (h : Reporting lines (as ++ c :: bs)) : Reporting lines as := by
  rintro back ⟨front, rfl⟩
  obtain ⟨i, rest, hi, he⟩ := h (back ++ c :: bs) ⟨front, by simp⟩
  have hc' : c ∉ '(' :: (digitsOf i ++ [')']) := by
    simp only [List.mem_cons, List.mem_append, List.not_mem_nil, or_false, not_or]
    refine ⟨hc.1, fun m => ?_, hc.2.1⟩
    have hd := Number.isDigit_of_mem_digitsOf m
    rw [hc.2.2] at hd
    cases hd
  have he' : '(' :: (digitsOf i ++ [')']) ++ rest = back ++ c :: bs := by
    simpa using he.symm
  obtain ⟨between, rfl, -⟩ := append_eq_append_cons hc' he'
  exact ⟨i, between, hi, by simp⟩

/-- A call of the marker with one of the numbers. -/
theorem call {i : Nat} (hi : lines i) (h : Reporting lines bs) :
    Reporting lines (markerWord ++ '(' :: (digitsOf i ++ ')' :: bs)) := by
  rintro back ⟨front, he⟩
  cases front with
  | nil => exact ⟨i, bs, hi, List.append_cancel_left he⟩
  | cons c front =>
    have hdigits : 'a' ∉ digitsOf i := fun m => by
      have hd := Number.isDigit_of_mem_digitsOf m
      cases hd
    have hrest : Reporting lines ("ddDoOnce(".toList ++ (digitsOf i ++ ([')'] ++ bs))) :=
      append_left (by decide) (append_left hdigits (append_left (by decide) h))
    exact hrest back ⟨front, (List.cons.inj he).2⟩

theorem report {i : Nat} (hi : lines i) (h : Reporting lines bs) :
    Reporting lines (Sketch.report i ++ bs) := by
  have hreport : Sketch.report i ++ bs =
      [';'] ++ (markerWord ++ '(' :: (digitsOf i ++ ')' :: ([';'] ++ bs))) := by
    simp [report_eq]
  rw [hreport]
  exact append_left (by decide) (call hi (append_left (by decide) h))

/-- A text that does not name the marker. -/
theorem of_not_occurs (h : occurs markerWord cs = false) : Reporting lines cs := fun back hb => by
  rw [occurs_of_suffix hb] at h
  cases h

/-! ## Instrumented lines -/

theorem reportFirst {i : Nat} (hi : lines i) (h : Reporting lines cs) :
    Reporting lines (Sketch.reportFirst (Sketch.report i) cs) := by
  have hblank : ∀ {cs : List Char}, (∀ c ∈ cs, isBlank c) → 'a' ∉ cs := fun hcs m => by
    cases hcs _ m
  unfold Sketch.reportFirst
  split
  · rename_i hd
    have hall := all_of_dropWhile_eq_nil hd
    split
    · exact h
    · rename_i c hc
      have hc := List.mem_of_getLast? hc
      rw [List.append_assoc]
      refine append_left (hblank fun d hd => hall d (List.dropLast_sublist _ |>.subset hd)) ?_
      exact report hi (of_notMem (hblank (by simpa using ⟨by decide, hall c hc⟩)))
  · rw [List.append_assoc]
    refine append_left (hblank (List.all_eq_true.1 List.all_takeWhile)) ?_
    exact report hi (append_left (by decide : 'a' ∉ [' ']) (h.suffix (List.dropWhile_suffix _)))

end Reporting

/-- A line with a report in front of its first statement is no header. -/
theorem header?_reportFirst (i : Nat) (line : List Char) :
    header? (reportFirst (report i) line) = none := by
  have hreport : ∀ {indent rest : List Char}, (∀ c ∈ indent, isBlank c) →
      header? (indent ++ report i ++ rest) = none := by
    intro indent rest hi
    have hd : (indent ++ report i ++ rest).dropWhile isBlank = report i ++ rest := by
      rw [List.append_assoc, report_eq]
      exact dropWhile_append hi (by simp; decide)
    rw [report_eq] at hd
    rw [header?, report_eq, hd]
    rfl
  unfold reportFirst
  split
  · rename_i hd
    split
    · rename_i hn
      rw [List.getLast?_eq_none_iff.1 hn]
      rfl
    · exact hreport fun c hc => all_of_dropWhile_eq_nil hd c ((List.dropLast_sublist _).subset hc)
  · exact hreport (List.all_eq_true.1 List.all_takeWhile)

theorem header?_eq_some {line indent rest : List Char} (h : header? line = some (indent, rest)) :
    indent = line.takeWhile isBlank ∧ rest <:+ line := by
  simp only [header?, Option.bind_eq_bind, Option.bind_eq_some_iff, afterSpaced?,
    Option.map_eq_some_iff] at h
  obtain ⟨rest₁, h₁, rest₂, ⟨rest₃, h₃, rfl⟩, he⟩ := h
  cases he
  refine ⟨rfl, ?_⟩
  have hs₃ : rest₃ <:+ skipSpaces rest₁ := ⟨arrowWord, (after?_eq_some.1 h₃).symm⟩
  have hs₁ : rest₁ <:+ line.dropWhile isBlank := ⟨doOnceWord, (after?_eq_some.1 h₁).symm⟩
  exact (List.dropWhile_suffix _).trans (hs₃.trans ((List.dropWhile_suffix _).trans
    (hs₁.trans (List.dropWhile_suffix _))))

variable {lines : Nat → Prop}

/-- A line that becomes a loop in front of its body. -/
theorem reporting_body {i : Nat} {indent body : List Char} (hi : lines i)
    (hindent : ∀ c ∈ indent, isBlank c) (hb : Reporting lines body) :
    Reporting lines (indent ++ report i ++ " repeat 1 -> ".toList ++ body) := by
  have hindent : 'a' ∉ indent := fun m => by
    cases hindent _ m
  have harrow : Reporting lines (" repeat 1 -".toList ++ '>' :: ([' '] ++ body)) :=
    .append_cons (by decide) (.of_not_occurs rfl) (.append_left (by decide) hb)
  rw [List.append_assoc, List.append_assoc]
  exact .append_left hindent (.report hi harrow)

theorem reporting_instrumentLines {ls : List (List Char)} {i : Nat} {pending : Option (List Char)}
    (hp : ∀ mark ∈ pending, ∃ j, lines j ∧ mark = report j) (hl : ∀ line ∈ ls, Reporting lines line)
    (hh : ∀ k line, ls[k]? = some line → (header? line).isSome → lines (i + k)) :
    ∀ line ∈ instrumentLines i pending ls, Reporting lines line := by
  induction ls generalizing i pending with
  | nil => simp [instrumentLines]
  | cons line ls ih =>
    have hline := hl line List.mem_cons_self
    have hls : ∀ l ∈ ls, Reporting lines l := fun l hm => hl l (List.mem_cons_of_mem _ hm)
    have hnext : ∀ k l, ls[k]? = some l → (header? l).isSome → lines (i + 1 + k) := fun k l hk hs => by
      have hlines := hh (k + 1) l (by simpa using hk) hs
      rwa [Nat.add_comm k 1, ← Nat.add_assoc] at hlines
    have hnone : ∀ {line : List Char}, Reporting lines line →
        ∀ l ∈ line :: instrumentLines (i + 1) none ls, Reporting lines l := by
      intro line hline l hm
      rcases List.mem_cons.1 hm with rfl | hm
      · exact hline
      · exact ih (by simp) hls hnext l hm
    cases pending with
    | some mark =>
      obtain ⟨j, hj, rfl⟩ := hp mark rfl
      simp only [instrumentLines, header?_reportFirst]
      exact hnone (.reportFirst hj hline)
    | none =>
      simp only [instrumentLines]
      split
      · rename_i indent hheader
        have hi : lines i := hh 0 line rfl (by rw [hheader]; rfl)
        obtain ⟨rfl, -⟩ := header?_eq_some hheader
        intro l hm
        rcases List.mem_cons.1 hm with rfl | hm
        · refine .append_left (fun m => ?_) (.of_not_occurs rfl)
          cases List.all_eq_true.1 List.all_takeWhile _ m
        · exact ih (by simpa using ⟨i, hi, rfl⟩) hls hnext l hm
      · rename_i indent c body hheader
        have hi : lines i := hh 0 line rfl (by rw [hheader]; rfl)
        obtain ⟨rfl, hs⟩ := header?_eq_some hheader
        split
        · exact hnone hline
        · exact hnone (reporting_body hi (List.all_eq_true.1 List.all_takeWhile) (hline.suffix hs))
      · exact hnone hline

theorem reporting_joinLines {ls : List (List Char)} (h : ∀ line ∈ ls, Reporting lines line) :
    Reporting lines (joinLines ls) := by
  induction ls with
  | nil => exact .of_notMem (by simp [joinLines])
  | cons line ls ih =>
    have hline := h line List.mem_cons_self
    cases ls with
    | nil => exact hline
    | cons l ls =>
      rw [joinLines_cons (List.cons_ne_nil l ls)]
      exact hline.append_cons (by decide) (ih fun m hm => h m (List.mem_cons_of_mem _ hm))

theorem reporting_lines {cs : List Char} (h : Reporting lines cs) :
    ∀ line ∈ splitLines cs, Reporting lines line := by
  intro line hm
  rcases suffix_of_mem_splitLines hm with hs | ⟨rest, hs⟩
  · exact h.suffix hs
  · exact (h.suffix hs).of_append_cons (by decide)

/-- In an instrumented text the marker stands only in reports of headers. -/
theorem reporting_instrument {cs : List Char} (h : occurs markerWord cs = false) :
    Reporting (fun i => ∃ line, (splitLines cs)[i]? = some line ∧ (header? line).isSome)
      (instrument cs) := by
  unfold instrument
  split
  · refine reporting_joinLines (reporting_instrumentLines (by simp)
      (reporting_lines (.of_not_occurs h)) fun k line hk hs => ?_)
    exact ⟨line, by simpa using hk, hs⟩
  · exact .of_not_occurs h

end LiveSketch.Sketch

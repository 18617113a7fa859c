import LiveSketch.Proofs.Script.Parts
import LiveSketch.Proofs.Sketch.Newlines
import LiveSketch.Script.Lowering

/-!
# Headers and loops

A `doOnce` stands for a loop that runs once and reports its line. `withLoops` puts plain loops in place of
the headers of a text; the count of a loop can be told from the number of the line. The lines of a script
with loops or with reports are taken apart header by header (`viewLines`), which needs a body behind each
header that a report can be put in front of (`isClear`).
-/
namespace LiveSketch.Sketch

open Text
open Number (digitsOf)
open Script (View)

/-- The head of a loop that runs `n` times. -/
def loopHead (n : Nat) : List Char := "repeat ".toList ++ digitsOf n ++ " ->".toList

/-- Line `i` with a loop in place of its header, if it has one. -/
def loopLine (count : Nat → Nat) (i : Nat) (line : List Char) : List Char :=
  match header? line with
  | some (indent, []) => indent ++ loopHead (count i)
  | some (indent, body) => indent ++ loopHead (count i) ++ ' ' :: body
  | none => line

/-- The text with a loop in place of each `doOnce`. The loop on line `i` runs `count i` times. -/
def withLoops (count : Nat → Nat) (cs : List Char) : List Char :=
  joinLines ((splitLines cs).mapIdx (loopLine count))

/-- Whether a report can be put in front of this line as the first one of the block of a header. The line is
deeper than the header and is no header itself, and a statement stands on it. -/
def opensBlock (indent line : List Char) : Bool :=
  let rest := line.dropWhile isBlank
  indent.length < (line.takeWhile isBlank).length && !rest.isEmpty && !Script.Lexer.startsComment rest &&
    (header? line).isNone

/-- Whether behind the arrow of each header a body stands after spaces, or nothing and a block on the next
lines. -/
def isClear : List (List Char) → Bool
  | [] => true
  | line :: lines =>
    (match header? line with
      | none => true
      | some (indent, []) => lines.head?.any (opensBlock indent)
      | some (_, c :: _) => !isBlank c) && isClear lines

/-- A header on the first line of the block of another one is not instrumented: the report of the outer
header is put in front of it, and then it is not at the start of its line. -/
theorem instrument_nestedHeader :
    (Script.compile (withLoops (fun _ => 1) "doOnce ->\n\tdoOnce -> box".toList)).isOk ∧
      (Script.compile (instrument "doOnce ->\n\tdoOnce -> box".toList)).isOk = false := by
  decide +kernel

theorem opensBlock_eq_true {indent line : List Char} (h : opensBlock indent line) :
    indent.length < (line.takeWhile isBlank).length ∧ header? line = none ∧
      ∃ c body, line.dropWhile isBlank = c :: body ∧ isBlank c = false ∧
        Script.Lexer.startsComment (c :: body) = false := by
  simp only [opensBlock, Bool.and_eq_true, Bool.not_eq_true', List.isEmpty_eq_false_iff, decide_eq_true_eq,
    Option.isNone_iff_eq_none] at h
  obtain ⟨⟨⟨hdeep, hne⟩, hcode⟩, hheader⟩ := h
  obtain ⟨c, body, hd⟩ := List.exists_cons_of_ne_nil hne
  have hhead := List.head?_dropWhile_not isBlank line
  rw [hd] at hcode hhead
  exact ⟨hdeep, hheader, c, body, hd, by simpa using hhead, hcode⟩

/-! ## Lines of scripts -/

/-- The text in front of the body of a header. -/
def leadText : View → Nat → List Char
  | .loops _, _ => []
  | .reports, i => report i ++ [' ']

/-- The lines of a script for the lines of a sketch from number `i` on. -/
def viewLines : View → Nat → List (List Char) → List (List Char)
  | .loops count, i, lines => lines.mapIdx fun k => loopLine count (i + k)
  | .reports, i, lines => instrumentLines i none lines

theorem viewLines_nil (v : View) (i : Nat) : viewLines v i [] = [] := by
  cases v <;> rfl

variable {line : List Char} {lines : List (List Char)}

/-- One line with loops. -/
theorem viewLines_loops (count : Nat → Nat) (i : Nat) (line : List Char) (lines : List (List Char)) :
    viewLines (.loops count) i (line :: lines) =
      loopLine count i line :: viewLines (.loops count) (i + 1) lines := by
  have hnext : (fun k => loopLine count (i + (k + 1))) = fun k => loopLine count (i + 1 + k) :=
    funext fun k => by rw [Nat.add_right_comm i 1 k, Nat.add_assoc]
  simp only [viewLines, List.mapIdx_cons, Nat.add_zero, hnext]

theorem viewLines_plain (h : header? line = none) (v : View) (i : Nat) :
    viewLines v i (line :: lines) = line :: viewLines v (i + 1) lines := by
  cases v with
  | loops count => rw [viewLines_loops, loopLine, h]
  | reports => simp only [viewLines, instrumentLines, h]

/-- A header with its body on the same line. -/
theorem viewLines_inline {indent body : List Char} {c : Char} (h : header? line = some (indent, c :: body))
    (hc : isBlank c = false) (v : View) (i : Nat) : viewLines v i (line :: lines) =
      (indent ++ ((leadText v i ++ loopHead (v.count i) ++ [' ']) ++ c :: body)) ::
        viewLines v (i + 1) lines := by
  cases v with
  | loops count =>
    rw [viewLines_loops, loopLine, h]
    simp [leadText, View.count]
  | reports =>
    have hhead : " repeat 1 -> ".toList = ' ' :: (loopHead 1 ++ [' ']) := by decide
    simp only [viewLines, instrumentLines, h, hc, hhead]
    simp [leadText, View.count]

/-- A header in front of a block. -/
theorem viewLines_block {indent next : List Char} (h : header? line = some (indent, []))
    (hn : opensBlock indent next) (v : View) (i : Nat) : viewLines v i (line :: next :: lines) =
      (indent ++ loopHead (v.count i)) ::
        (next.takeWhile isBlank ++ (leadText v i ++ next.dropWhile isBlank)) ::
          viewLines v (i + 2) lines := by
  obtain ⟨-, hnext, c, body, hd, -⟩ := opensBlock_eq_true hn
  cases v with
  | loops count =>
    rw [viewLines_loops, viewLines_plain hnext, loopLine, h]
    simp [leadText, View.count]
  | reports =>
    have hfirst : reportFirst (report i) next =
        next.takeWhile isBlank ++ (report i ++ [' '] ++ next.dropWhile isBlank) := by
      unfold reportFirst
      split
      · rename_i hnil
        rw [hd] at hnil
        cases hnil
      · simp
    have hhead : "repeat 1 ->".toList = loopHead 1 := by decide
    simp only [viewLines, instrumentLines, h, header?_reportFirst, hhead]
    rw [hfirst]
    rfl

/-! ## Texts -/

theorem loopHead_eq (n : Nat) : loopHead n = "repeat".toList ++ ' ' :: (digitsOf n ++ ' ' :: ['-', '>']) := by
  have hfront : "repeat ".toList = "repeat".toList ++ [' '] := by decide
  have harrow : " ->".toList = [' ', '-', '>'] := by decide
  unfold loopHead
  simp only [hfront, harrow, List.append_assoc, List.cons_append, List.nil_append]

theorem newline_notMem_loopHead (k : Nat) : '\n' ∉ loopHead k := by
  have hfront : '\n' ∉ "repeat ".toList := by decide
  have harrow : '\n' ∉ " ->".toList := by decide
  intro m
  rcases List.mem_append.1 m with m | m
  · rcases List.mem_append.1 m with m | m
    · exact hfront m
    · cases Number.isDigit_of_mem_digitsOf m
  · exact harrow m

theorem newline_notMem_loopLine (count : Nat → Nat) (i : Nat) {line : List Char} (h : '\n' ∉ line) :
    '\n' ∉ loopLine count i line := by
  unfold loopLine
  split
  · rename_i indent hheader
    obtain ⟨rfl, -⟩ := header?_eq_some hheader
    rw [List.mem_append, not_or]
    exact ⟨fun m => h ((List.takeWhile_sublist _).subset m), newline_notMem_loopHead _⟩
  · rename_i indent body _ hheader
    obtain ⟨rfl, hs⟩ := header?_eq_some hheader
    simp only [List.mem_append, List.mem_cons, not_or]
    exact ⟨⟨fun m => h ((List.takeWhile_sublist _).subset m), newline_notMem_loopHead _⟩, by decide,
      fun m => h (hs.subset m)⟩
  · exact h

theorem splitLines_withLoops (count : Nat → Nat) (cs : List Char) :
    splitLines (withLoops count cs) = viewLines (.loops count) 0 (splitLines cs) := by
  have hlines : (splitLines cs).mapIdx (loopLine count) = viewLines (.loops count) 0 (splitLines cs) := by
    simp only [viewLines, Nat.zero_add]
  rw [withLoops, hlines, splitLines_joinLines]
  · rw [← hlines, ne_eq, List.mapIdx_eq_nil_iff]
    exact splitLines_ne_nil cs
  · intro line hm
    rw [← hlines] at hm
    obtain ⟨i, hi, rfl⟩ := List.mem_mapIdx.1 hm
    exact newline_notMem_loopLine count i (newline_notMem_of_mem_splitLines (List.getElem_mem hi))

/-- A text with a header holds the word `doOnce`. -/
theorem occurs_of_header? {cs line : List Char} {found : List Char × List Char} (hm : line ∈ splitLines cs)
    (h : header? line = some found) : occurs doOnceWord cs := by
  simp only [header?, Option.bind_eq_bind, Option.bind_eq_some_iff] at h
  obtain ⟨back, hb, -⟩ := h
  have hline : line.takeWhile isBlank ++ (doOnceWord ++ back) = line := by
    rw [← after?_eq_some.1 hb, List.takeWhile_append_dropWhile]
  rcases suffix_of_mem_splitLines hm with hs | ⟨rest, hs⟩
  · exact occurs_of_suffix ((hline ▸ List.suffix_append _ _).trans hs)
  · rw [← hline, List.append_assoc, List.append_assoc] at hs
    exact occurs_of_suffix ((List.suffix_append _ _).trans hs)

theorem instrumentLines_plain {lines : List (List Char)} (h : ∀ line ∈ lines, header? line = none) (i : Nat) :
    instrumentLines i none lines = lines := by
  induction lines generalizing i with
  | nil => rfl
  | cons line lines ih =>
    simp only [instrumentLines, h line List.mem_cons_self, ih fun l hl => h l (List.mem_cons_of_mem _ hl)]

theorem splitLines_instrument (cs : List Char) :
    splitLines (instrument cs) = viewLines .reports 0 (splitLines cs) := by
  unfold instrument
  split
  · have hlines : ∀ line ∈ splitLines cs, '\n' ∉ line := fun line => newline_notMem_of_mem_splitLines
    obtain ⟨hlength, hnot⟩ := instrumentLines_lines (i := 0) (by simp : ∀ mark ∈ none, '\n' ∉ mark) hlines
    refine splitLines_joinLines (fun he => ?_) hnot
    rw [he] at hlength
    exact splitLines_ne_nil cs (List.length_eq_zero_iff.1 hlength.symm)
  · rename_i hword
    refine (instrumentLines_plain (fun line hm => ?_) 0).symm
    exact Option.eq_none_iff_forall_ne_some.2 fun found hf => hword (occurs_of_header? hm hf)

end LiveSketch.Sketch

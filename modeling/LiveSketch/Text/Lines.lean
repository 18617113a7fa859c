/-!
# Lines

A text is a list of lines with a newline between each two. `joinLines` undoes `splitLines`, and a
function on lines that keeps their number keeps the newlines of the text.
-/
namespace LiveSketch.Text

/-- The lines of a text: one more than it has newlines. -/
def splitLines : List Char → List (List Char)
  | [] => [[]]
  | c :: cs =>
    if c == '\n' then [] :: splitLines cs
    else match splitLines cs with
      | [] => [[c]]
      | line :: lines => (c :: line) :: lines

/-- The lines with a newline between each two. -/
def joinLines : List (List Char) → List Char
  | [] => []
  | [line] => line
  | line :: lines => line ++ '\n' :: joinLines lines

/-- Applies a function to each line of a text. -/
def mapLines (f : List Char → List Char) (cs : List Char) : List Char :=
  joinLines ((splitLines cs).map f)

theorem splitLines_ne_nil (cs : List Char) : splitLines cs ≠ [] := by
  cases cs with
  | nil => simp [splitLines]
  | cons c cs =>
    unfold splitLines
    split
    · simp
    · split <;> simp

/-- Nothing is lost by splitting a text into lines. -/
theorem joinLines_splitLines (cs : List Char) : joinLines (splitLines cs) = cs := by
  induction cs with
  | nil => rfl
  | cons c cs ih =>
    unfold splitLines
    split
    · rename_i h
      cases hs : splitLines cs with
      | nil => exact absurd hs (splitLines_ne_nil cs)
      | cons line lines => simp_all [joinLines]
    · split
      · rename_i h; exact absurd h (splitLines_ne_nil cs)
      · rename_i line lines h
        cases lines with
        | nil => simp_all [joinLines]
        | cons l ls => simp_all [joinLines]

end LiveSketch.Text

/-!
# Offsets

Places in a text are counted in bytes of its UTF-8 form. A place may fall inside a character; the
text from such a place on does not exist.
-/
namespace LiveSketch.Text

/-- The number of bytes of a text. -/
def byteLength : List Char → Nat
  | [] => 0
  | c :: cs => c.utf8Size + byteLength cs

/-- The text from this byte on; a place beyond the end is the end. -/
def dropBytes? : Nat → List Char → Option (List Char)
  | 0, cs => some cs
  | _ + 1, [] => some []
  | n + 1, c :: cs => if c.utf8Size ≤ n + 1 then dropBytes? (n + 1 - c.utf8Size) cs else none

/-- The number of the line that this byte stands on, counting from one. -/
def lineAt (n : Nat) (cs : List Char) : Nat :=
  go n cs + 1
where
  /-- The newlines that end within the first `n` bytes. -/
  go (n : Nat) : List Char → Nat
    | [] => 0
    | c :: cs =>
      if n < c.utf8Size then 0
      else (if c == '\n' then 1 else 0) + go (n - c.utf8Size) cs

end LiveSketch.Text

import LiveSketch.Text.Range

/-!
# White space

The characters with the Unicode property White_Space.
-/
namespace LiveSketch.Text

/-- The code points of white space. -/
def blankRanges : List Range :=
  [⟨0x09, 0x0D⟩, ⟨0x20, 0x20⟩, ⟨0x85, 0x85⟩, ⟨0xA0, 0xA0⟩, ⟨0x1680, 0x1680⟩, ⟨0x2000, 0x200A⟩,
    ⟨0x2028, 0x2029⟩, ⟨0x202F, 0x202F⟩, ⟨0x205F, 0x205F⟩, ⟨0x3000, 0x3000⟩]

/-- Whether the character is white space. -/
def isBlank (c : Char) : Bool := blankRanges.any (·.contains c)

/-- The text without the white space at its start. -/
def trimStart (cs : List Char) : List Char := cs.dropWhile isBlank

/-- The white space at the end of the text. -/
def blankEnd (cs : List Char) : List Char := (cs.reverse.takeWhile isBlank).reverse

/-- The text without the white space at its end. -/
def trimEnd (cs : List Char) : List Char := (cs.reverse.dropWhile isBlank).reverse

/-- The text without the white space at its ends. -/
def trim (cs : List Char) : List Char := trimEnd (trimStart cs)

end LiveSketch.Text

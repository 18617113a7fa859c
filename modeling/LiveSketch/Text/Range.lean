/-!
# Ranges of code points

Character properties beyond ASCII are tables of closed ranges of code points, in ascending order and
apart from each other.
-/
namespace LiveSketch.Text

/-- A closed range of code points. -/
structure Range where
  first : Nat
  last : Nat
  deriving DecidableEq, Repr

namespace Range

/-- Whether the range holds the character. -/
def contains (r : Range) (c : Char) : Bool := r.first ≤ c.toNat && c.toNat ≤ r.last

/-- Whether the table is ascending with gaps between its ranges. -/
def ascending : List Range → Bool
  | [] => true
  | [r] => r.first ≤ r.last
  | r :: s :: rest => r.first ≤ r.last && r.last + 1 < s.first && ascending (s :: rest)

end Range

end LiveSketch.Text

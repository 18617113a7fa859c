import LiveSketch.Text.Blank
import LiveSketch.Text.Digit
import LiveSketch.Text.Word

/-!
# Patterns

A pattern says what may stand at the front of a text. Where it can match in several ways, they have an
order of preference: the first of two alternatives before the second, and more repetitions before
fewer, or fewer before more if the repetition is not greedy. The match of a pattern is that of the
preferred way.
-/
namespace LiveSketch

/-- A member of a class of characters. -/
inductive ClassItem where
  | range (first last : Char)
  | digit
  | space
  | word
  | notDigit
  | notSpace
  | notWord
  deriving DecidableEq, Repr

/-- Whether the character is meant by the item. -/
def ClassItem.contains : ClassItem → Char → Bool
  | range first last, c => first.toNat ≤ c.toNat && c.toNat ≤ last.toNat
  | digit, c => Text.isDigit c
  | space, c => Text.isBlank c
  | word, c => Text.isWord c
  | notDigit, c => !Text.isDigit c
  | notSpace, c => !Text.isBlank c
  | notWord, c => !Text.isWord c

/-- A class of characters: those of its items, or all others. -/
structure CharClass where
  negated : Bool
  items : List ClassItem
  deriving DecidableEq, Repr

namespace CharClass

/-- Whether the character is in the class. -/
def contains (k : CharClass) (c : Char) : Bool := k.items.any (·.contains c) != k.negated

/-- The class of these characters. -/
def of (chars : List Char) : CharClass := ⟨false, chars.map fun c => .range c c⟩

/-- All characters but the line feed. -/
def anyInLine : CharClass := ⟨true, [.range '\n' '\n']⟩

end CharClass

/-- A pattern. -/
inductive Pattern where
  /-- These characters one after the other. -/
  | text (cs : List Char)
  | char (k : CharClass)
  | seq (p q : Pattern)
  | either (p q : Pattern)
  /-- One round or more. -/
  | rounds (greedy : Bool) (p : Pattern)
  /-- A group matches what its inside matches. It is never the same as another group. -/
  | group (p : Pattern)
  deriving DecidableEq, Repr

namespace Pattern

/-- Nothing at all. -/
def empty : Pattern := text []

/-- One character. -/
def one (c : Char) : Pattern := text [c]

/-- One of these characters. -/
def oneOf (chars : String) : Pattern := char (.of chars.toList)

/-- A word, character after character. -/
def word (w : String) : Pattern := text w.toList

/-- Once or not at all; once is preferred if it is greedy. -/
def optionally (greedy : Bool) (p : Pattern) : Pattern :=
  if greedy then either p empty else either empty p

/-- Once or not at all, once preferred. -/
def optional (p : Pattern) : Pattern := optionally true p

/-- At least once, as often as possible. -/
def some (p : Pattern) : Pattern := rounds true p

/-- As often as possible, or not at all. -/
def many (p : Pattern) : Pattern := optional p.some

/-- `n` times. -/
def times (p : Pattern) : Nat → Pattern
  | 0 => empty
  | 1 => p
  | n + 1 => seq p (times p n)

/-- Up to `n` times; more is preferred if it is greedy. -/
def upTo (greedy : Bool) (p : Pattern) : Nat → Pattern
  | 0 => empty
  | n + 1 => optionally greedy (seq p (upTo greedy p n))

/-- One pattern after the other. -/
def all (ps : List Pattern) : Pattern := ps.foldr seq empty

/-- The first pattern of a list that fits, in its order. The empty list stands for nothing at all. -/
def anyOf : List Pattern → Pattern
  | [] => empty
  | [p] => p
  | p :: ps => either p (anyOf ps)

end Pattern

end LiveSketch

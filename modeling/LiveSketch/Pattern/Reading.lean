import LiveSketch.Pattern.Basic
import LiveSketch.Number.Reading

/-!
# Written patterns

`Pattern.read?` reads a pattern from its usual written form: characters that stand for themselves, `.`
for any character of a line, classes in brackets, the repetitions `*`, `+`, `?` and those with bounds in
braces, each of which a further `?` makes prefer few rounds, groups in parentheses, `|` between
alternatives, and escapes with a backslash. A repetition with nothing to repeat, an unclosed group or
class and an unknown escape make the whole text no pattern.

Alternatives that all begin with the same parts share them: the shared parts are matched first, and the
alternatives are what follows.
-/
namespace LiveSketch.Pattern

/-! ### Parts -/

/-- Puts a part in front of others. Characters that come to stand together become one part. -/
def addPart : Pattern → List Pattern → List Pattern
  | text a, text b :: ps => text (a ++ b) :: ps
  | p, ps => p :: ps

/-- What a pattern consists of, one after the other. -/
def parts : Pattern → List Pattern
  | text [] => []
  | seq p q => p.parts.foldr addPart q.parts
  | p => [p]

/-- The alternatives of a pattern. -/
def choices : Pattern → List Pattern
  | either p q => p.choices ++ q.choices
  | p => [p]

/-- Whether the pattern has a group. -/
def hasGroup : Pattern → Bool
  | text _ => false
  | char _ => false
  | seq p q => p.hasGroup || q.hasGroup
  | either p q => p.hasGroup || q.hasGroup
  | rounds _ p => p.hasGroup
  | group _ => true

/-- The parts at the start of both lists. -/
def commonParts : List Pattern → List Pattern → List Pattern
  | p :: ps, q :: qs => if p == q && !p.hasGroup then p :: commonParts ps qs else []
  | _, _ => []

/-- The parts that all lists begin with. A list with a single part shares none. -/
def sharedParts : List (List Pattern) → List Pattern
  | [] => []
  | ps :: rest => if (ps :: rest).any (·.length ≤ 1) then [] else rest.foldl commonParts ps

/-- The alternatives in their order, with what they share in front of them. -/
def alternatives : List Pattern → Pattern
  | [p] => p
  | ps =>
    let branches := (ps.flatMap choices).map parts
    match sharedParts branches with
    | [] => anyOf ps
    | shared => seq (all shared) (anyOf (branches.map fun b => all (b.drop shared.length)))

/-! ### Characters and classes -/

/-- The class that an escaped letter stands for. -/
def escapedClass? : Char → Option ClassItem
  | 'd' => .some .digit
  | 's' => .some .space
  | 'w' => .some .word
  | 'D' => .some .notDigit
  | 'S' => .some .notSpace
  | 'W' => .some .notWord
  | _ => none

/-- The character that an escaped character stands for. All of ASCII but letters, digits and the angle
brackets stands for itself. -/
def escapedChar? : Char → Option Char
  | 'n' => .some '\n'
  | 't' => .some '\t'
  | 'r' => .some '\r'
  | 'f' => .some '\x0c'
  | 'v' => .some '\x0b'
  | 'a' => .some '\x07'
  | c => if c.toNat < 0x80 && !c.isAlphanum && c != '<' && c != '>' then .some c else none

/-- A single member of a class, and the rest of the text. -/
def classAtom? : List Char → Option (ClassItem × List Char)
  | [] => none
  | '\\' :: c :: cs =>
    match escapedClass? c with
    | .some item => .some (item, cs)
    | none => (escapedChar? c).map fun c => (.range c c, cs)
  | '\\' :: [] => none
  | c :: cs => .some (.range c c, cs)

/-- The members of a class up to its closing bracket. The first character may be a bracket itself. -/
def classItems? : (fuel : Nat) → (first : Bool) → List Char → Option (List ClassItem × List Char)
  | 0, _, _ => none
  | fuel + 1, first, cs =>
    if !first && cs.head? == .some ']' then .some ([], cs.tail)
    else do
      let (item, cs) ← classAtom? cs
      match item, cs with
      | .range a _, '-' :: ']' :: cs => .some ([.range a a, .range '-' '-'], cs)
      | .range a _, '-' :: cs => do
        let (last, cs) ← classAtom? cs
        match last with
        | .range b _ =>
          if a.toNat ≤ b.toNat then do
            let (items, cs) ← classItems? fuel false cs
            .some (.range a b :: items, cs)
          else none
        | _ => none
      | item, cs => do
        let (items, cs) ← classItems? fuel false cs
        .some (item :: items, cs)

/-- The members of a class. Hyphens at its start stand for themselves. -/
def members? (cs : List Char) : Option (List ClassItem × List Char) :=
  let rest := cs.dropWhile (· == '-')
  let hyphens := cs.takeWhile (· == '-')
  (classItems? (cs.length + 1) hyphens.isEmpty rest).map fun (items, cs) =>
    (hyphens.map (fun c => .range c c) ++ items, cs)

/-- The pattern of a class. The class of a single character is that character. -/
def ofClass (k : CharClass) : Pattern :=
  match k with
  | ⟨false, [.range a b]⟩ => if a = b then one a else char k
  | k => char k

/-- The class after an opening bracket. -/
def class? : List Char → Option (Pattern × List Char)
  | '^' :: cs => (members? cs).map fun (items, cs) => (ofClass ⟨true, items⟩, cs)
  | cs => (members? cs).map fun (items, cs) => (ofClass ⟨false, items⟩, cs)

/-! ### Repetitions -/

/-- The bounds of a repetition after the opening brace; the upper one may be missing. -/
def bounds? (cs : List Char) : Option (Nat × Option Nat × List Char) :=
  let low := cs.takeWhile Char.isDigit
  if low.isEmpty then none
  else
    let n := Number.ofDigits low
    match cs.dropWhile Char.isDigit with
    | '}' :: cs => .some (n, .some n, cs)
    | ',' :: '}' :: cs => .some (n, none, cs)
    | ',' :: cs =>
      let high := cs.takeWhile Char.isDigit
      let m := Number.ofDigits high
      match cs.dropWhile Char.isDigit with
      | '}' :: cs => if high.isEmpty || m < n then none else .some (n, .some m, cs)
      | _ => none
    | _ => none

/-- The pattern between `low` and `high` times, or from `low` times on. -/
def between (greedy : Bool) (p : Pattern) (low : Nat) : (high : Option Nat) → Pattern
  | .some high => seq (p.times low) (upTo greedy p (high - low))
  | none => match low with
    | 0 => optionally greedy (rounds greedy p)
    | n + 1 => seq (p.times n) (rounds greedy p)

/-- Whether a repetition is greedy, which a question mark behind it denies. -/
def greed : List Char → Bool × List Char
  | '?' :: cs => (false, cs)
  | cs => (true, cs)

/-- The repetitions that follow a pattern. -/
def repeated? : (fuel : Nat) → Pattern → List Char → Option (Pattern × List Char)
  | 0, _, _ => none
  | fuel + 1, p, cs =>
    match cs with
    | '*' :: cs =>
      let (greedy, cs) := greed cs
      repeated? fuel (between greedy p 0 none) cs
    | '+' :: cs =>
      let (greedy, cs) := greed cs
      repeated? fuel (rounds greedy p) cs
    | '?' :: cs =>
      let (greedy, cs) := greed cs
      repeated? fuel (optionally greedy p) cs
    | '{' :: cs => do
      let (low, high, cs) ← bounds? cs
      let (greedy, cs) := greed cs
      repeated? fuel (between greedy p low high) cs
    | cs => .some (p, cs)

/-! ### Whole patterns -/

mutual

/-- Alternatives, up to a closing parenthesis or the end. -/
def branches? : (fuel : Nat) → List Char → Option (List Pattern × List Char)
  | 0, _ => none
  | fuel + 1, cs => do
    let (p, cs) ← sequence? fuel cs
    match cs with
    | '|' :: cs =>
      let (ps, cs) ← branches? fuel cs
      .some (p :: ps, cs)
    | cs => .some ([p], cs)

/-- Patterns one after the other, up to the end of the alternative. -/
def sequence? : (fuel : Nat) → List Char → Option (Pattern × List Char)
  | 0, _ => none
  | fuel + 1, cs =>
    match cs with
    | [] => .some (empty, [])
    | '|' :: _ => .some (empty, cs)
    | ')' :: _ => .some (empty, cs)
    | cs => do
      let (p, cs) ← atom? fuel cs
      let (p, cs) ← repeated? (cs.length + 1) p cs
      let (q, cs) ← sequence? fuel cs
      .some (seq p q, cs)

/-- A single pattern. -/
def atom? : (fuel : Nat) → List Char → Option (Pattern × List Char)
  | 0, _ => none
  | fuel + 1, cs =>
    match cs with
    | [] => none
    | '*' :: _ => none
    | '+' :: _ => none
    | '?' :: _ => none
    | '{' :: _ => none
    | '.' :: cs => .some (char .anyInLine, cs)
    | '[' :: cs => class? cs
    | '(' :: '?' :: ':' :: cs => inside? fuel cs
    | '(' :: cs => (inside? fuel cs).map fun (p, cs) => (group p, cs)
    | '\\' :: c :: cs =>
      match escapedClass? c with
      | .some item => .some (char ⟨false, [item]⟩, cs)
      | none => (escapedChar? c).map fun c => (one c, cs)
    | ['\\'] => none
    | c :: cs => .some (one c, cs)

/-- The inside of a group with its closing parenthesis. -/
def inside? : (fuel : Nat) → List Char → Option (Pattern × List Char)
  | 0, _ => none
  | fuel + 1, cs => do
    let (ps, cs) ← branches? fuel cs
    match cs with
    | ')' :: cs => .some (alternatives ps, cs)
    | _ => none

end

/-- Reads a whole text as a pattern. -/
def read? (text : List Char) : Option Pattern :=
  match branches? (4 * (text.length + 1)) text with
  | .some (ps, []) => .some (alternatives ps)
  | _ => none

end LiveSketch.Pattern

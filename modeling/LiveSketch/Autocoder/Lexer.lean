import LiveSketch.Autocoder.Token
import LiveSketch.Failure
import LiveSketch.Pattern.Automaton
import LiveSketch.Text.Utf8

/-!
# Splitting a sketch into tokens

A lexer is a table of patterns with the kinds that they produce. At every place the longest match wins,
and of equally long ones that of the first rule; empty matches do not count. The tokens of a text,
concatenated, give back the text.

A `Stream` is a place in a text from which tokens are read one by one. It can be started at any byte, and
it ends with the text or with the first fault.
-/
namespace LiveSketch.Autocoder

/-- A pattern, made ready to run, and the kind of token that it produces. -/
structure Rule where
  automaton : Automaton
  kind : TokenKind
  deriving DecidableEq, Repr

namespace Rule

/-- The rule of a pattern. -/
def ofPattern (p : Pattern) (kind : TokenKind) : Rule := ⟨.ofPattern p, kind⟩

/-- The token that the rule finds at the front of a text. An empty match is none. -/
def token? (r : Rule) (cs : List Char) : Option Token :=
  match r.automaton.match? cs with
  | none => none
  | some 0 => none
  | some n => some ⟨r.kind, cs.take n⟩

end Rule

/-- A pattern and the kind of token that it produces, as a table lists them. -/
structure Entry where
  pattern : Pattern
  kind : TokenKind
  deriving DecidableEq, Repr

/-- The rule of an entry. -/
def Entry.rule (e : Entry) : Rule := .ofPattern e.pattern e.kind

/-- Why a text cannot be split. -/
inductive LexCause where
  | insideCharacter
  /-- No rule matches a text that starts like this. -/
  | noRule (snippet : List Char)
  deriving DecidableEq, Repr

/-- Why and at which byte a text cannot be split. -/
structure LexFault where
  offset : Nat
  cause : LexCause
  deriving DecidableEq, Repr

/-- The text of a cause. -/
def LexCause.message : LexCause → String
  | insideCharacter => "offset is inside a character"
  | noRule snippet => s!"no rule matches '{String.ofList snippet}'"

/-- A message with the byte that it is about in front. -/
def atByte (offset : Nat) (message : String) : String := s!"lex error at byte {offset}: {message}"

/-- The place and the text of a fault. -/
def LexFault.display (f : LexFault) : String := atByte f.offset f.cause.message

/-- A fault as a failure. -/
def LexFault.toFailure (f : LexFault) : Failure := ⟨.tokens, f.display⟩

/-- The better of two tokens, of which the second must be longer. -/
def longer : Option Token → Option Token → Option Token
  | none, u => u
  | t, none => t
  | some t, some u => if t.text.length < u.text.length then some u else some t

/-- The token at the front of a text. -/
def bestMatch (rules : List Rule) (cs : List Char) : Option Token :=
  rules.foldl (fun best r => longer best (r.token? cs)) none

/-- A place in a text. -/
structure Stream where
  rules : List Rule
  /-- The byte at which the next token starts. -/
  offset : Nat
  /-- The text from there on. There is none if the place is inside a character. -/
  rest : Option (List Char)
  failed : Bool

namespace Stream

/-- The stream of a text from a byte on; a place beyond the end is the end. -/
def start (rules : List Rule) (input : List Char) (offset : Nat) : Stream :=
  let offset := min offset (Text.byteLength input)
  ⟨rules, offset, Text.dropBytes? offset input, false⟩

/-- The stream after a fault. -/
def fail (s : Stream) : Stream := { s with failed := true }

/-- The stream after a token. -/
def skip (s : Stream) (t : Token) (rest : List Char) : Stream :=
  { s with offset := s.offset + Text.byteLength t.text, rest := some (rest.drop t.text.length) }

/-- The next token or fault, and the stream after it. -/
def next? (s : Stream) : Option (Except LexFault Token × Stream) :=
  if s.failed then none
  else match s.rest with
    | none => some (.error ⟨s.offset, .insideCharacter⟩, s.fail)
    | some [] => none
    | some rest => match bestMatch s.rules rest with
      | some t => some (.ok t, s.skip t rest)
      | none => some (.error ⟨s.offset, .noRule (rest.take 16)⟩, s.fail)

/-- Everything that a stream gives: its tokens, its fault if there is one, and the byte where it ends.
Each token takes a character or more off the text. -/
def runWithin : (fuel : Nat) → Stream → List Token × Option LexFault × Nat
  | 0, s => ([], none, s.offset)
  | fuel + 1, s =>
    match s.next? with
    | none => ([], none, s.offset)
    | some (.error fault, s) => ([], some fault, s.offset)
    | some (.ok t, s) =>
      let (ts, rest) := runWithin fuel s
      (t :: ts, rest)

/-- Everything that a stream gives. -/
def run (s : Stream) : List Token × Option LexFault × Nat :=
  s.runWithin ((s.rest.getD []).length + 2)

end Stream

/-- The tokens of a whole text. -/
def lex (rules : List Rule) (input : List Char) : Except LexFault (List Token) :=
  match (Stream.start rules input 0).run with
  | (ts, none, _) => .ok ts
  | (_, some fault, _) => .error fault

end LiveSketch.Autocoder

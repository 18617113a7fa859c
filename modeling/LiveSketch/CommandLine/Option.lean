import LiveSketch.Number.Reading

/-!
# Options of the commands

Which options each command has, what values they take and what they are for.
-/
namespace LiveSketch.CommandLine

/-- What may be given as the value of an option. -/
inductive ValueKind where
  | text
  /-- The name of a file, which is not empty. -/
  | path
  /-- An unsigned 64-bit number. -/
  | word64
  /-- An unsigned 32-bit number. -/
  | word32
  deriving DecidableEq, Repr

/-- A number with an optional sign. -/
def signedNumber? (text : List Char) : Option Int :=
  let digits (cs : List Char) : Option Int :=
    if cs.isEmpty || !cs.all Char.isDigit then none else some (Number.ofDigits cs)
  match text with
  | '+' :: cs => digits cs
  | '-' :: cs => (digits cs).map (- ·)
  | cs => digits cs

/-- A number below `2 ^ 64` without a minus sign. -/
def word64? (text : List Char) : Option Nat :=
  match signedNumber? text with
  | some n => if text.head? != some '-' && n < UInt64.size then some n.toNat else none
  | none => none

/-- A number from zero to below `2 ^ 32`; zero may have a minus sign. -/
def word32? (text : List Char) : Option Nat :=
  match signedNumber? text with
  | some n => if 0 ≤ n && n < UInt32.size then some n.toNat else none
  | none => none

/-- Whether the value can be given. -/
def ValueKind.accepts (value : String) : ValueKind → Bool
  | text => true
  | path => !value.isEmpty
  | word64 => (word64? value.toList).isSome
  | word32 => (word32? value.toList).isSome

/-- An option of a command. -/
structure CommandOption where
  name : String
  /-- The kind and the name of the value, if the option takes one. -/
  value : Option (ValueKind × String)
  about : String
  deriving DecidableEq, Repr

/-- The commands. -/
inductive Topic where
  | run
  | transform
  | lex
  | mutate
  | demos
  deriving DecidableEq, Repr

namespace Topic

/-- All commands. -/
def all : List Topic := [run, transform, lex, mutate, demos]

/-- The word for a command. -/
def name : Topic → String
  | run => "run"
  | transform => "transform"
  | lex => "lex"
  | mutate => "mutate"
  | demos => "demos"

/-- The command of this word. -/
def ofName? (word : String) : Option Topic := all.find? (·.name == word)

/-- What a command does. -/
def about : Topic → String
  | run => "Run a sketch and write one JSON scene per rendered frame"
  | transform => "Print the canonical script a sketch is rewritten into"
  | lex => "Print the autocoder's token stream for a sketch"
  | mutate => "Print successive autocoder mutations of a sketch"
  | demos => "List the built-in demo sketches and tutorials"

/-- Where a command takes its sketch from. -/
def input : CommandOption :=
  ⟨"in", some (.path, "IN_PATH"), "Sketch source file; \x60-\x60 reads stdin [default: -]"⟩

/-- The options of a command. -/
def options : Topic → List CommandOption
  | run => [input,
    ⟨"demo", some (.text, "DEMO"), "Run a built-in demo or tutorial instead of reading a sketch"⟩,
    ⟨"frames", some (.word64, "FRAMES"),
      "Number of ticks to run. The run also ends when the loop goes idle [default: 60]"⟩,
    ⟨"fps", some (.word32, "FPS"), "Fixed frame rate; unset means as fast as possible"⟩,
    ⟨"seed", some (.word64, "SEED"), "Seed for \x60random\x60 and the autocoder"⟩,
    ⟨"config", some (.path, "CONFIG"),
      "Session options as JSON. Flags override values from the file"⟩,
    ⟨"autocode", none, "Mutate the sketch once per autocoder interval while running"⟩,
    ⟨"realtime", none, "Pace ticks on the wall clock instead of simulating time"⟩,
    ⟨"out", some (.path, "OUT"), "Output file for the scene stream; stdout when omitted"⟩]
  | transform => [input]
  | lex => [input]
  | mutate => [input,
    ⟨"count", some (.word32, "COUNT"), "Number of successive mutations to print [default: 1]"⟩,
    ⟨"seed", some (.word64, "SEED"), ""⟩]
  | demos => []

end Topic

end LiveSketch.CommandLine

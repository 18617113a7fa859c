import LiveSketch.CommandLine.Option

/-!
# Reading the arguments

`Request.ofArguments` makes a request of the arguments. They are read from the left, and the first that
asks for help or the version, or that cannot be understood, decides; what stands behind it does not
matter.
-/
namespace LiveSketch.CommandLine

/-- What a command is to work on and how. -/
structure RunSettings where
  input : String := "-"
  demo : Option String := none
  frames : Nat := 60
  fps : Option Nat := none
  seed : Option UInt64 := none
  config : Option String := none
  autocode : Bool := false
  realtime : Bool := false
  out : Option String := none
  deriving DecidableEq, Repr

/-- Something to do. -/
inductive Job where
  | run (settings : RunSettings)
  | transform (input : String)
  | lex (input : String)
  | mutate (input : String) (count : Nat) (seed : Option UInt64)
  | demos
  deriving DecidableEq, Repr

/-- The pages of the help. -/
inductive Page where
  | program
  | command (topic : Topic)
  | help
  deriving DecidableEq, Repr

/-- What is asked for on the command line. -/
inductive Request where
  | perform (verbosity : Nat) (job : Job)
  | help (page : Page)
  | version
  /-- The arguments cannot be understood. -/
  | misuse
  deriving DecidableEq, Repr

/-- The options as given, and how often more of a log was asked for. -/
structure Given where
  values : List (String × String) := []
  verbosity : Nat := 0
  deriving DecidableEq, Repr

namespace Given

/-- The value of an option. -/
def value? (g : Given) (name : String) : Option String := g.values.lookup name

/-- The value of an option that is a number below `2 ^ 64`. -/
def number? (g : Given) (name : String) : Option Nat := (g.value? name).bind fun s => word64? s.toList

/-- The value of an option that is a number below `2 ^ 32`. -/
def shortNumber? (g : Given) (name : String) : Option Nat :=
  (g.value? name).bind fun s => word32? s.toList

/-- Whether a switch is on. -/
def isOn (g : Given) (name : String) : Bool := (g.value? name).isSome

/-- The seed. -/
def seed? (g : Given) : Option UInt64 := (g.number? "seed").map UInt64.ofNat

/-- Where the sketch is. -/
def input (g : Given) : String := (g.value? "in").getD "-"

/-- Takes an option, unless it was given before. -/
def add (g : Given) (name value : String) : Except Request Given :=
  if g.isOn name then .error .misuse else .ok { g with values := (name, value) :: g.values }

/-- Asks for more of a log. -/
def louder (g : Given) : Given := { g with verbosity := g.verbosity + 1 }

end Given

/-- Where words are read: before the command, or among the options of one. -/
abbrev Scope := Option Topic

namespace Scope

/-- The page that help shows here. -/
def page : Scope → Page
  | none => .program
  | some topic => .command topic

/-- The options that can be given here. -/
def options : Scope → List CommandOption
  | none => []
  | some topic => topic.options

/-- Reads the letters after a single dash. -/
def readLetters (scope : Scope) : List Char → Given → Except Request Given
  | [], g => .ok g
  | 'v' :: cs, g => readLetters scope cs g.louder
  | 'h' :: _, _ => .error (.help scope.page)
  | 'V' :: _, _ => .error (if scope.isNone then .version else .misuse)
  | _ :: _, _ => .error .misuse

/-- Reads a word after two dashes that is no option of a command. -/
def readCommon (scope : Scope) (name : String) (g : Given) : Except Request Given :=
  match name, scope with
  | "verbose", _ => .ok g.louder
  | "help", _ => .error (.help scope.page)
  | "version", none => .error .version
  | _, _ => .error .misuse

/-- Takes an option with its value. -/
def takeValue (kind : ValueKind) (name value : String) (g : Given) : Except Request Given :=
  if kind.accepts value then g.add name value else .error .misuse

end Scope

/-- The name of an option after two dashes, and the value after an equals sign. -/
def splitOption (word : List Char) : String × Option String :=
  let name := String.ofList (word.takeWhile (· != '='))
  match word.dropWhile (· != '=') with
  | [] => (name, none)
  | _ :: value => (name, some (String.ofList value))

/-- Whether a word is read as an option. A single dash is not. -/
def looksLikeOption (word : String) : Bool :=
  match word.toList with
  | '-' :: _ :: _ => true
  | _ => false

/-- Reads the words after a command. Every word that is not an option or the value of one is too many. -/
def readOptions (topic : Topic) : List String → Given → Except Request Given
  | [], g => .ok g
  | word :: words, g =>
    match word.toList with
    | ['-', '-'] => if words.isEmpty then .ok g else .error .misuse
    | '-' :: '-' :: rest =>
      let (name, value) := splitOption rest
      match topic.options.find? (·.name == name), value with
      | none, none => do readOptions topic words (← Scope.readCommon (some topic) name g)
      | none, some _ => .error .misuse
      | some ⟨_, none, _⟩, none => do readOptions topic words (← g.add name "")
      | some ⟨_, none, _⟩, some _ => .error .misuse
      | some ⟨_, some (kind, _), _⟩, some value => do
        readOptions topic words (← Scope.takeValue kind name value g)
      | some ⟨_, some (kind, _), _⟩, none =>
        match words with
        | value :: words =>
          if looksLikeOption value then .error .misuse
          else do readOptions topic words (← Scope.takeValue kind name value g)
        | [] => .error .misuse
    | '-' :: c :: rest => do
      readOptions topic words (← Scope.readLetters (some topic) (c :: rest) g)
    | _ => .error .misuse

/-- The job of a command with its options. -/
def Job.ofGiven (topic : Topic) (g : Given) : Job :=
  match topic with
  | .run => .run
    { input := g.input
      demo := g.value? "demo"
      frames := (g.number? "frames").getD 60
      fps := g.shortNumber? "fps"
      seed := g.seed?
      config := g.value? "config"
      autocode := g.isOn "autocode"
      realtime := g.isOn "realtime"
      out := g.value? "out" }
  | .transform => .transform g.input
  | .lex => .lex g.input
  | .mutate => .mutate g.input ((g.shortNumber? "count").getD 1) g.seed?
  | .demos => .demos

namespace Request

/-- The page that the words after `help` ask for. -/
def ofHelpWords : List String → Request
  | [] => .help .program
  | ["help"] => .help .help
  | [word] => match Topic.ofName? word with
    | some topic => .help (.command topic)
    | none => .misuse
  | _ => .misuse

/-- Reads the words up to the command, and then the command. -/
def read : List String → Given → Except Request Request
  | [], _ => .error .misuse
  | word :: words, g =>
    match Topic.ofName? word with
    | some topic => do
      let g ← readOptions topic words g
      return .perform g.verbosity (.ofGiven topic g)
    | none =>
      if word == "help" then .error (ofHelpWords words)
      else match word.toList with
        | ['-', '-'] => .error .misuse
        | '-' :: '-' :: rest => match splitOption rest with
          | (name, none) => do read words (← Scope.readCommon none name g)
          | (_, some _) => .error .misuse
        | '-' :: c :: rest => do read words (← Scope.readLetters none (c :: rest) g)
        | _ => .error .misuse

/-- What the arguments ask for. -/
def ofArguments (words : List String) : Request :=
  match read words {} with
  | .ok request => request
  | .error request => request

end Request

end LiveSketch.CommandLine

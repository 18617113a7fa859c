import LiveSketch.Autocoder.Lexer

/-!
# The rules of the autocoder

The table is loose: it tells apart what can be varied, and everything else only as far as needed to give
back the text. A comment counts only if its line ends.
-/
namespace LiveSketch.Autocoder

open Pattern (one oneOf word optional many all)

/-- A decimal digit of ASCII. -/
def asciiDigit : Pattern := .char ⟨false, [.range '0' '9']⟩

def digit : Pattern := .char ⟨false, [.digit]⟩

def blank : Pattern := .char ⟨false, [.space]⟩

def wordChar : Pattern := .char ⟨false, [.word]⟩

/-- Any character of a line. -/
def inLine : Pattern := .char .anyInLine

/-- Entries for words of one kind. -/
def wordEntries (kind : TokenKind) (words : List String) : List Entry := words.map fun w => ⟨word w, kind⟩

/-- The patterns of what is left alone. -/
def unknownPatterns : List Pattern :=
  [word "\x27", word "\"", word "==", word "else",
    .seq (word "next-tutorial:") wordChar.some,
    wordChar.some,
    word "if", word "pushMatrix", word "popMatrix", word "play", word "bpm",
    all [word "color", many blank, one '(', inLine.some, one ')'],
    word "noFill", word "frame", word "strokeSize",
    one '(', one ')', one '%',
    oneOf "[]\x7b\x7d<>!.:;?✓"]

/-- What stands in front of the words: comments, numbers and signs. -/
def signEntries : List Entry :=
  [⟨all [word "//", many inLine, one '\n'], .comment⟩,
    ⟨one '\t', .tab⟩,
    ⟨all [optional (one '-'), asciiDigit.some, optional (one '.'), many asciiDigit], .num⟩,
    ⟨all [optional (one '-'), one '.', many asciiDigit], .num⟩,
    ⟨oneOf "*|/+-=", .op⟩,
    ⟨one ',', .argDelim⟩,
    ⟨.seq (oneOf "\n\r") (optional (oneOf "\n\r")), .newline⟩]

/-- What stands behind the words: texts of several parts, and spaces. -/
def phraseEntries : List Entry :=
  [⟨all [word "animationStyle", blank, wordChar.some], .stateFun⟩,
    ⟨all [digit.some, blank.some, word "times", blank.some, word "->"], .iteration⟩,
    ⟨word "time", .variableName⟩,
    ⟨word "delay", .variableName⟩,
    ⟨all [optional (one '✓'), word "doOnce", blank.some, one '-', optional (one '>')], .doOnce⟩,
    ⟨(one ' ').some, .space⟩]

/-- The table, in order of precedence. -/
def entries : List Entry :=
  signEntries
  ++ wordEntries .motion ["rotate", "move", "scale"]
  ++ wordEntries .colour Palette.names
  ++ wordEntries .colourOp ["background", "fill", "stroke", "simpleGradient"]
  ++ wordEntries .mesh ["box", "ball", "peg", "rect", "line"]
  ++ wordEntries .stateFun ["ambientLight", "noStroke", "ballDetail"]
  ++ phraseEntries
  ++ unknownPatterns.map fun p => ⟨p, .unknown⟩

/-- The rules of the table. -/
def rules : List Rule := entries.map Entry.rule

/-- The tokens of a sketch. -/
def tokenize (sketch : List Char) : Except LexFault (List Token) := lex rules sketch

end LiveSketch.Autocoder

import LiveSketch.Colour.Palette
import LiveSketch.Scene.Basic

/-!
# The words of the script language

The passes over sketches and the compiler read the same tables: keywords, functions, commands, named
constants. A word is *callable* if it names a command, a function or the marker of executed `doOnce`
blocks. It *starts a statement* if it names a command or a function that is called for its effect.
-/
namespace LiveSketch.Script

/-- The functions of the language. -/
inductive Builtin where
  | abs | ceil | floor | round | sqrt | sq | pow | exp | log
  | sin | cos | tan | asin | acos | atan | atan2
  | min | max | constrain | lerp | map | norm | mag | dist
  | degrees | radians
  | random | randomSeed | noise | noiseDetail | noiseSeed
  | color
  deriving DecidableEq, Repr

namespace Builtin

/-- The word for a function. -/
def name : Builtin → String
  | abs => "abs" | ceil => "ceil" | floor => "floor" | round => "round"
  | sqrt => "sqrt" | sq => "sq" | pow => "pow" | exp => "exp" | log => "log"
  | sin => "sin" | cos => "cos" | tan => "tan"
  | asin => "asin" | acos => "acos" | atan => "atan" | atan2 => "atan2"
  | min => "min" | max => "max" | constrain => "constrain"
  | lerp => "lerp" | map => "map" | norm => "norm" | mag => "mag" | dist => "dist"
  | degrees => "degrees" | radians => "radians"
  | random => "random" | randomSeed => "randomSeed"
  | noise => "noise" | noiseDetail => "noiseDetail" | noiseSeed => "noiseSeed"
  | color => "color"

/-- All functions. -/
def all : List Builtin :=
  [abs, ceil, floor, round, sqrt, sq, pow, exp, log, sin, cos, tan, asin, acos, atan, atan2,
    min, max, constrain, lerp, map, norm, mag, dist, degrees, radians,
    random, randomSeed, noise, noiseDetail, noiseSeed, color]

/-- The words of all functions. -/
def names : List String := all.map name

/-- The function of this word. -/
def ofName? (word : String) : Option Builtin := all.find? (·.name == word)

end Builtin

/-- The words with a meaning of their own. -/
def keywords : List String := ["if", "else", "repeat", "and", "or", "not", "true", "false"]

/-- The call that reports an executed `doOnce`. -/
def doOnceMarker : String := "addDoOnce"

/-- The named numbers. -/
def constants : List (String × Float) :=
  [("PI", 3.141592653589793), ("TWO_PI", 6.283185307179586), ("HALF_PI", 1.5707963267948966)]

/-- The functions that are called for their effect. -/
def setters : List String := ["randomSeed", "noiseDetail", "noiseSeed"]

def isKeyword (word : String) : Bool := keywords.contains word

def isCommand (word : String) : Bool := (Command.ofName? word).isSome

/-- Whether the word starts a statement of its own when arguments follow. -/
def startsStatement (word : String) : Bool := isCommand word || setters.contains word

/-- Whether the word can be called without parentheses. -/
def isCallable (word : String) : Bool :=
  isCommand word || (Builtin.ofName? word).isSome || word == doOnceMarker

end LiveSketch.Script

/-!
# JSON values

A JSON value keeps its numbers as written and its fields in order, also fields that occur twice.
`Json.render` writes it without spaces. In texts, quotes, backslashes and control characters are
escaped; everything else stands for itself.
-/
namespace LiveSketch

/-- A JSON value. -/
inductive Json where
  | null
  | bool (b : Bool)
  /-- A number as it is written. -/
  | number (text : String)
  | string (s : String)
  | array (items : List Json)
  | object (fields : List (String × Json))
  deriving Repr

namespace Json

/-- A lower-case hexadecimal digit. -/
def hexDigit (n : Nat) : Char :=
  if n < 10 then Char.ofNat ('0'.toNat + n) else Char.ofNat ('a'.toNat + (n - 10))

/-- A character inside a quoted text. -/
def escape (c : Char) : List Char :=
  match c with
  | '"' => ['\\', '"']
  | '\\' => ['\\', '\\']
  | '\n' => ['\\', 'n']
  | '\r' => ['\\', 'r']
  | '\t' => ['\\', 't']
  | c =>
    if c.toNat == 8 then ['\\', 'b']
    else if c.toNat == 12 then ['\\', 'f']
    else if c.toNat < 0x20 then
      ['\\', 'u', '0', '0', hexDigit (c.toNat / 16), hexDigit (c.toNat % 16)]
    else [c]

/-- A text in quotes. -/
def quote (s : String) : String :=
  String.ofList ('"' :: s.toList.flatMap escape ++ ['"'])

mutual

/-- Writes a value at the end of a text. -/
def write (out : String) : Json → String
  | null => out ++ "null"
  | bool b => out ++ if b then "true" else "false"
  | number text => out ++ text
  | string s => out ++ quote s
  | array items => writeItems (out ++ "[") items ++ "]"
  | object fields => writeFields (out ++ "\x7b") fields ++ "\x7d"

/-- Writes the items of an array, with a comma between each two. -/
def writeItems (out : String) : List Json → String
  | [] => out
  | [v] => write out v
  | v :: vs => writeItems (write out v ++ ",") vs

/-- Writes the fields of an object, with a comma between each two. -/
def writeFields (out : String) : List (String × Json) → String
  | [] => out
  | [(name, v)] => write (out ++ quote name ++ ":") v
  | (name, v) :: fields => writeFields (write (out ++ quote name ++ ":") v ++ ",") fields

end

/-- The text of a value. -/
def render (v : Json) : String := write "" v

end Json

end LiveSketch

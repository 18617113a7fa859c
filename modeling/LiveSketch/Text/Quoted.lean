import LiveSketch.Text.Invisible

/-!
# Texts in quotes

A text is shown on one line in double quotes. Quotes and backslashes are escaped, and characters that
would not show are written by a letter or by their number.
-/
namespace LiveSketch.Text

/-- A lower-case hexadecimal number. -/
def hexadecimal (n : Nat) : List Char := Nat.toDigits 16 n

/-- A character inside quotes. -/
def quotedChar (c : Char) : List Char :=
  match c with
  | '"' => ['\\', '"']
  | '\\' => ['\\', '\\']
  | '\n' => ['\\', 'n']
  | '\r' => ['\\', 'r']
  | '\t' => ['\\', 't']
  | c =>
    if c.toNat == 0 then ['\\', '0']
    else if isInvisible c then '\\' :: 'u' :: '{' :: hexadecimal c.toNat ++ ['}']
    else [c]

/-- A text in quotes. -/
def quoted (cs : List Char) : List Char := '"' :: cs.flatMap quotedChar ++ ['"']

end LiveSketch.Text

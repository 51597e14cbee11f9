import Formulary.Json.Basic

/-!
# Writing JSON

Values are written on one line without blanks. In a string only quotes,
backslashes and control characters are escaped.
-/

namespace Formulary.Json

/-- A digit of base sixteen. -/
def hexDigit (n : Nat) : Char := Nat.digitChar n

/-- A character as it is written in a string. -/
def escape (c : Char) : List Char :=
  match c with
  | '"' => ['\\', '"']
  | '\\' => ['\\', '\\']
  | '\x08' => ['\\', 'b']
  | '\x0c' => ['\\', 'f']
  | '\n' => ['\\', 'n']
  | '\r' => ['\\', 'r']
  | '\t' => ['\\', 't']
  | c =>
    if c.toNat < 0x20 then
      ['\\', 'u', '0', '0', hexDigit (c.toNat / 16), hexDigit (c.toNat % 16)]
    else [c]

/-- A text as a JSON string. -/
def writeText (text : String) : List Char :=
  '"' :: (text.toList.flatMap escape ++ ['"'])

/-- Written parts with commas between them. -/
def separate (parts : List (List Char)) : List Char := [','].intercalate parts

/-- An array of written values. -/
def writeArray (items : List (List Char)) : List Char := '[' :: (separate items ++ [']'])

/-- An object of keys and written values. -/
def writeObject (members : List (String × List Char)) : List Char :=
  '\x7b' :: (separate (members.map fun (key, value) => writeText key ++ ':' :: value) ++ ['\x7d'])

/-- A natural number. -/
def writeNat (n : Nat) : List Char := Nat.toDigits 10 n

end Formulary.Json

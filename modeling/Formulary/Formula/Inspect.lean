import Formulary.Formula

/-!
# Inspecting formulas

A line about a compiled formula for logs and debuggers: its text, its variables
and its size, but not its tree. Texts stand in quotes with every character visible:
quotes and backslashes are escaped, and so are control characters and all white space but
the plain blank, by a letter where one is usual and by the code point elsewhere.

* `Text.quoteVisible`: a text in quotes.
* `Formula.inspect`: the line about a formula.
-/

namespace Formulary

namespace Text

/-- The escape of a character by its code point, `\u{a0}`. -/
def escapeCodePoint (c : Char) : List Char :=
  '\\' :: 'u' :: '\x7b' :: (Nat.toDigits 16 c.toNat ++ ['\x7d'])

/-- Whether a character does not show on the page. -/
def isInvisible (c : Char) : Bool :=
  c.toNat < 0x20 || (0x7F ≤ c.toNat && c.toNat < 0xA0) || (c != ' ' && isWhiteSpace c)

/-- A character as it stands between quotes. -/
def escapeVisible (c : Char) : List Char :=
  match c with
  | '"' => ['\\', '"']
  | '\\' => ['\\', '\\']
  | '\t' => ['\\', 't']
  | '\n' => ['\\', 'n']
  | '\r' => ['\\', 'r']
  | '\x00' => ['\\', '0']
  | c => if isInvisible c then escapeCodePoint c else [c]

/-- A text in quotes, every character visible. -/
def quoteVisible (text : String) : String :=
  String.ofList ('"' :: (text.toList.flatMap escapeVisible ++ ['"']))

end Text

/-- The line about a formula. -/
def Formula.inspect (f : Formula) : String :=
  "ExpressionHandle \x7b source: " ++ Text.quoteVisible f.source ++
    ", variables: [" ++ ", ".intercalate (f.names.map Text.quoteVisible) ++
    "], nodes: " ++ Nat.repr f.nodeCount ++ " \x7d"

end Formulary

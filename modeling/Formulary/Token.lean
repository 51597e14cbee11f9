import Formulary.Operator
import Formulary.Decimal.Reader

/-!
# Tokens

A formula is a sequence of tokens: numbers, names, operators, parentheses and the
two marks of a conditional. Each keeps its text and its place in the formula.

White space stands between tokens and means nothing: the characters with the Unicode
property `White_Space`, as a table of ranges of code points.

* `Text.isWhiteSpace`: membership in the table.
* `isIdentifier`: whether a text can be the name of a variable.
* `literal?`: the decimal that the text of a literal denotes.
-/

namespace Formulary

/-- The ranges of code points with the property `White_Space`, both ends included. -/
def Text.whiteSpaceRanges : List (Nat × Nat) :=
  [(0x0009, 0x000D), (0x0020, 0x0020), (0x0085, 0x0085), (0x00A0, 0x00A0), (0x1680, 0x1680),
   (0x2000, 0x200A), (0x2028, 0x2029), (0x202F, 0x202F), (0x205F, 0x205F), (0x3000, 0x3000)]

/-- Whether `c` has the property `White_Space`. -/
def Text.isWhiteSpace (c : Char) : Bool :=
  whiteSpaceRanges.any fun r => r.1 ≤ c.toNat && c.toNat ≤ r.2

/-- What a token is. -/
inductive Token.Kind
  | number
  | identifier
  | operator (op : BinaryOp)
  | openParen
  | closeParen
  | question
  | colon
deriving DecidableEq

/-- A token, with the position of its first character in the formula. -/
structure Token where
  kind : Token.Kind
  text : String
  position : Nat
deriving DecidableEq

/-- The words for a token in an error message. -/
def Token.describe (t : Token) : String :=
  match t.kind with
  | .number => "number '" ++ t.text ++ "'"
  | .identifier => "identifier '" ++ t.text ++ "'"
  | _ => "'" ++ t.text ++ "'"

/-- The position right behind the token. -/
def Token.ending (t : Token) : Nat := t.position + t.text.length

/-- Whether a name starts with this character: a letter of ASCII or an underscore. -/
def isNameStart (c : Char) : Bool := c.isAlpha || c == '_'

/-- Whether a name goes on with this character: a letter or digit of ASCII or an
underscore. -/
def isNamePart (c : Char) : Bool := c.isAlphanum || c == '_'

/-- Whether a text can be the name of a variable. -/
def isIdentifier (name : String) : Bool :=
  match name.toList with
  | [] => false
  | c :: cs => isNameStart c && cs.all isNamePart

/-- A literal with a digit put on each side of a point that lacks one. -/
def completeLiteral (cs : List Char) : List Char :=
  let led := if cs.head? = some '.' then '0' :: cs else cs
  if led.getLast? = some '.' then led ++ ['0'] else led

/-- The decimal that the text of a literal denotes: `.5` and `5.` are `0.5` and `5.0`. -/
def literal? (cs : List Char) : Option Decimal := (Decimal.read (completeLiteral cs)).toOption

end Formulary

/-!
# JSON values

The tree of a JSON text, close to what is written: a number keeps its digits, an
object keeps all its members in order, and a string that escapes half of a
surrogate pair, which JSON allows and Unicode does not, is kept without its text.
-/

namespace Formulary

-- `^` on natural numbers is that of the core library, whatever else is imported
attribute [local instance (high)] instPowNat

/-- A number as it is written. No digits behind the point mean no point. -/
structure Json.Number where
  negative : Bool
  whole : List Char
  fraction : List Char
  exponent : Option (Bool × List Char)
deriving DecidableEq

/-- A JSON value; the text of a string or key is missing if it is not Unicode. -/
inductive Json
  | null
  | boolean (b : Bool)
  | number (n : Json.Number)
  | string (text : Option String)
  | array (items : List Json)
  | object (members : List (Option String × Json))

/-- Whether the number is written without a point and an exponent. -/
def Json.Number.isInteger (n : Json.Number) : Bool := n.fraction.isEmpty && n.exponent.isNone

/-- The least number too large for a stored count. -/
abbrev Json.wordBound : Nat := 2 ^ (64 : Nat)

/-- The count that a value is: an integer without a sign, of at most 64 bits. -/
def Json.count? : Json → Option Nat
  | .number n =>
    let value := Nat.ofDigitChars 10 n.whole 0
    if n.isInteger && !n.negative && value < wordBound then some value else none
  | _ => none

/-- The text of a value that is a string. -/
def Json.text? : Json → Option String
  | .string text => text
  | _ => none

end Formulary

import Formulary.Decimal.Basic

/-!
# Values

What a formula evaluates to. A number can stand where a truth value is asked for,
nonzero for true, and a truth value where a number is, as 1 or 0.
-/

namespace Formulary

/-- The value of a formula. -/
inductive Value
  | number (d : Decimal)
  | boolean (b : Bool)
deriving DecidableEq

namespace Value

/-- The value as a number, true as 1 and false as 0. -/
def asNumber : Value → Decimal
  | number d => d
  | boolean true => .one
  | boolean false => .zero

/-- The value as a truth value, nonzero as true. -/
def isTruthy : Value → Bool
  | number d => !d.isZero
  | boolean b => b

/-- The number, if the value is one. -/
def number? : Value → Option Decimal
  | number d => some d
  | boolean _ => none

/-- The truth value, if the value is one. -/
def boolean? : Value → Option Bool
  | number _ => none
  | boolean b => some b

/-- Equality of values: a number is never equal to a truth value. -/
def same : Value → Value → Bool
  | number a, number b => a.sameValue b
  | boolean a, boolean b => a == b
  | _, _ => false

/-- The printed value, the canonical text of a number or `true` or `false`. -/
def text : Value → String
  | number d => d.canonicalText
  | boolean true => "true"
  | boolean false => "false"

end Value

end Formulary

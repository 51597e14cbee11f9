/-!
# Natural numbers

Both kinds of number that a formula meets are made of natural numbers. Here are the rounding
of a quotient of two of them, and their digits: read below a bound, and written with a point.

* `nearestEven`, `nearestUp`: the natural number nearest to a quotient. They differ only where
  the quotient lies halfway between two, the one taking the even, the other the larger of them.
* `Text.natural?`: a natural number in digits, with a plus sign or none, below a bound.
* `Text.positional`: the text of `m / 10 ^ places`, never with an exponent.
-/

namespace Formulary

-- `^` on natural numbers is that of the core library, whatever else is imported
attribute [local instance (high)] instPowNat

/-- The natural number nearest to `a / b`, the even one of two that are equally near. -/
def nearestEven (a b : Nat) : Nat :=
  if b < 2 * (a % b) ∨ (2 * (a % b) = b ∧ (a / b) % 2 = 1) then a / b + 1 else a / b

/-- The natural number nearest to `a / b`, the larger one of two that are equally near. -/
def nearestUp (a b : Nat) : Nat :=
  if b ≤ 2 * (a % b) then a / b + 1 else a / b

namespace Text

/-- The digits behind a plus sign, if there is one. -/
def withoutPlus : List Char → List Char
  | '+' :: digits => digits
  | digits => digits

/-- The natural number that the characters denote, if it is below the bound. -/
def natural? (bound : Nat) (cs : List Char) : Option Nat :=
  let digits := withoutPlus cs
  let n := Nat.ofDigitChars 10 digits 0
  if digits.isEmpty || !digits.all Char.isDigit then none
  else if n < bound then some n
  else none

/-- The digits of `m / 10 ^ places`, with exactly `places` of them behind the
point and at least one before it; no point is written for `places = 0`. -/
def positional (m places : Nat) : List Char :=
  if places = 0 then Nat.toDigits 10 m
  else
    Nat.toDigits 10 (m / 10 ^ places) ++
      '.' :: (Nat.toDigits 10 (m % 10 ^ places)).leftpad places '0'

@[simp] theorem positional_zero (m : Nat) : positional m 0 = Nat.toDigits 10 m := by
  simp [positional]

end Text

end Formulary

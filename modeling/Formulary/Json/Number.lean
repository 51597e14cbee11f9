import Formulary.Binary64.Shortest
import Formulary.Decimal.Reader
import Formulary.Json.Basic

/-!
# The values of JSON numbers

A number that is written as an integer and has at most 64 bits stands for itself.
Any other number stands for a binary floating-point number, found from as many of
its digits as 64 bits hold: their integer is rounded to the format, and then
multiplied or divided by a power of ten of the format, and rounded again.

* `Number.integer?`: the integer of 64 bits that a number is.
* `Number.float?`: the floating-point number that a number stands for.
* `Number.decimal?`: the decimal of either, a floating-point number by its text.
-/

namespace Formulary.Json.Number

-- `^` on natural numbers is that of the core library, whatever else is imported
attribute [local instance (high)] instPowNat

/-- The integer that the number is, if it is written as one and has at most 64
bits, with a sign or without. The negative zero is no integer. -/
def integer? (n : Number) : Option Int :=
  let value := Nat.ofDigitChars 10 n.whole 0
  if !n.isInteger then none
  else if n.negative then
    if 0 < value ∧ value ≤ 2 ^ (63 : Nat) then some (-value) else none
  else if value < wordBound then some value
  else none

/-- Leading digits of a number, as an integer, with the power of ten that is due. -/
structure Leading where
  significand : Nat
  exponent : Int

/-- Appends digits as long as the significand keeps to 64 bits, and answers the
digits that are left. -/
def appendDigits (m : Nat) : List Char → Nat × List Char
  | [] => (m, [])
  | c :: cs =>
    let m' := m * 10 + (c.toNat - '0'.toNat)
    if m' < wordBound then appendDigits m' cs else (m, c :: cs)

/-- The leading digits of the whole part and then of the fraction. Digits of the
whole part that are left out still count as places; those of the fraction do not. -/
def leading (n : Number) : Leading :=
  let (m, dropped) := appendDigits 0 n.whole
  let (m, ignored) := appendDigits m n.fraction
  ⟨m, dropped.length - (n.fraction.length - ignored.length : Nat)⟩

/-- The largest exponent of a power of ten that is finite in the format. -/
abbrev maxPower : Nat := 308

/-- The floating-point number nearest to `10 ^ k`. -/
def powerOfTen (k : Nat) : Option Binary64.Finite := Binary64.Finite.nearest false (10 ^ k) 1

/-- Divides by `10 ^ k`, at most 308 places at a time, until nothing is left. -/
def divideByPower (x : Binary64.Finite) (k : Nat) : Option Binary64.Finite :=
  if _h : k ≤ maxPower then do x.div (← powerOfTen k)
  else if x.isZero then some x
  else do
    let next ← x.div (← powerOfTen maxPower)
    divideByPower next (k - maxPower)
termination_by k
decreasing_by simp only [maxPower] at *; omega

/-- Scales by `10 ^ e`; a number other than zero that becomes too large fails. -/
def scaleByPower (x : Binary64.Finite) (e : Int) : Option Binary64.Finite :=
  if e < 0 then divideByPower x (-e).toNat
  else if e.toNat ≤ maxPower then do x.mul (← powerOfTen e.toNat)
  else if x.isZero then some x
  else none

/-- The magnitude that the number stands for. An exponent beyond 31 bits takes all
but zero to zero, or too far. -/
def magnitude? (n : Number) : Option Binary64.Finite :=
  let start := n.leading
  let significand := Binary64.Finite.nearest false start.significand 1
  match n.exponent with
  | none => do scaleByPower (← significand) start.exponent
  | some (lowers, ds) =>
    let e := Nat.ofDigitChars 10 ds 0
    if 2 ^ (31 : Nat) ≤ e then
      if start.significand ≠ 0 && !lowers then none else some (.zero false)
    else do scaleByPower (← significand) (start.exponent + if lowers then -(e : Int) else e)

/-- The floating-point number that the number stands for, with its sign. -/
def float? (n : Number) : Option Binary64.Finite :=
  n.magnitude?.map fun x => { x with negative := n.negative }

/-- The decimal that the number stands for. -/
def decimal? (n : Number) : Option Decimal :=
  match n.integer? with
  | some i => Decimal.ofInt? i
  | none => do
    let x ← n.float?
    (Decimal.ofText (Binary64.finite x).text).toOption

end Formulary.Json.Number

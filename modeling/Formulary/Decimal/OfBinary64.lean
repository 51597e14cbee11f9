import Formulary.Binary64.Basic
import Formulary.Decimal.Basic

/-!
# Decimals of binary numbers

A finite binary number `m · 2 ^ e` becomes a decimal by factors: `2 ^ e` is
`10 ^ e / 5 ^ e`, so the powers of five are moved into the mantissa, and the rest
is a power of ten, the scale. Digits that exceed the mantissa are lost on the way,
and in the end no more than 52 bits of mantissa are kept behind the point.

* `absorbFives`, `releaseFives`: the powers of five, by the sign of the exponent.
* `ofBinary64?`: the decimal, or nothing when the number is too large.
-/

namespace Formulary.Decimal

-- `^` on natural numbers is that of the core library, whatever else is imported
attribute [local instance (high)] instPowNat

/-- A number on its way to a decimal: `mantissa · 10 ^ exponent`. -/
structure Scaled where
  mantissa : Nat
  exponent : Int

/-- Multiplies by `10 / 2` for each of `n` powers of two below the point: twos
leave the mantissa, fives enter it while there is room. -/
def absorbFives : Nat → Scaled → Scaled
  | 0, x => x
  | n + 1, ⟨m, e⟩ =>
    if m % 2 = 0 then absorbFives n ⟨m / 2, e + 1⟩
    else if m * 5 < mantissaBound then absorbFives n ⟨m * 5, e⟩
    else absorbFives n ⟨m / 2, e + 1⟩

/-- Divides by `10 / 2` for each of `n` powers of two above the point: twos enter
the mantissa while there is room, fives leave it otherwise. -/
def releaseFives : Nat → Scaled → Option Scaled
  | 0, x => some x
  | n + 1, ⟨m, e⟩ =>
    if m < 2 ^ (95 : Nat) then releaseFives n ⟨m * 2, e - 1⟩
    else if (n + 1 : Int) < e * 2 then none
    else releaseFives n ⟨m / 5, e⟩

/-- Moves a positive exponent into the mantissa, if there is room. -/
def raiseMantissa : Nat → Nat → Option Nat
  | 0, m => some m
  | n + 1, m => if m * 10 < mantissaBound then raiseMantissa n (m * 10) else none

/-- Drops the last digit, a half upwards. -/
def dropDigit (m : Nat) : Nat := if 5 ≤ m % 10 then m / 10 + 1 else m / 10

/-- Drops `n` digits one after the other; a mantissa that runs out of digits is
the plain zero. The result is the mantissa with the scale `s`, or with 0. -/
def dropDigits (s : Nat) : Nat → Nat → Nat × Nat
  | 0, m => (m, s)
  | n + 1, m => if m / 10 = 0 then (0, 0) else dropDigits s n (dropDigit m)

/-- Drops digits behind the point until 52 bits are left. -/
def dropBits (m : Nat) : Nat → Nat × Nat
  | 0 => (m, 0)
  | s + 1 => if 2 ^ (52 : Nat) ≤ m then dropBits (dropDigit m) s else (m, s + 1)

/-- The mantissa and scale of `m · 10 ^ e`. -/
def settle (x : Scaled) : Option (Nat × Nat) := do
  if 0 < x.exponent then
    return (← raiseMantissa x.exponent.toNat x.mantissa, 0)
  let places := (-x.exponent).toNat
  let (m, s) := dropDigits (min places maxScale) (places - maxScale) x.mantissa
  let (m, s) := dropBits m s
  return stripZeros m s

/-- The decimal of a finite binary number, or nothing when it is too large. -/
def ofBinary64? (x : Binary64.Finite) : Option Decimal := do
  if x.isZero then
    return { zero with negative := x.negative }
  let start : Scaled := ⟨x.significand, x.exponent⟩
  let scaled ←
    if x.exponent < 0 then pure (absorbFives (-x.exponent).toNat start)
    else releaseFives x.exponent.toNat start
  let (m, s) ← settle scaled
  ofParts? x.negative m s

end Formulary.Decimal

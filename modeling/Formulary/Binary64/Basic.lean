import Formulary.Natural

/-!
# Binary floating point of 64 bits

A number of the format is not a number at all, infinite, or finite; a finite one
is `± significand · 2 ^ exponent` in the one form that the format encodes.

* `Binary64.ofBits`: the number that a word of 64 bits encodes.
* `Binary64.Finite.nearest`: the finite number nearest to a quotient, ties to the
  even significand, and nothing when the quotient is too large for the format.
-/

namespace Formulary

-- `^` on natural numbers is that of the core library, whatever else is imported
attribute [local instance (high)] instPowNat

/-- A finite number `± significand · 2 ^ exponent`: the significand has 53 bits,
and its leading bit is set unless the exponent is the least one. -/
structure Binary64.Finite where
  negative : Bool
  significand : Nat
  exponent : Int
  significand_lt : significand < 2 ^ (53 : Nat)
  exponent_ge : -1074 ≤ exponent
  exponent_le : exponent ≤ 971
  canonical : exponent = -1074 ∨ 2 ^ (52 : Nat) ≤ significand
deriving DecidableEq

/-- A number of the binary floating-point format of 64 bits. -/
inductive Binary64
  | nan
  | infinite (negative : Bool)
  | finite (x : Binary64.Finite)
deriving DecidableEq

namespace Binary64

/-- The number that a word encodes: one bit of sign, eleven of biased exponent
and 52 of fraction. -/
def ofBits (w : UInt64) : Binary64 :=
  let negative := decide (2 ^ (63 : Nat) ≤ w.toNat)
  let biased : Nat := w.toNat / 2 ^ (52 : Nat) % 2 ^ (11 : Nat)
  let fraction : Nat := w.toNat % 2 ^ (52 : Nat)
  if hmax : biased = 2047 then
    if fraction = 0 then .infinite negative else .nan
  else if hmin : biased = 0 then
    .finite
      { negative := negative
        significand := fraction
        exponent := -1074
        significand_lt := by omega
        exponent_ge := by omega
        exponent_le := by omega
        canonical := .inl rfl }
  else
    .finite
      { negative := negative
        significand := 2 ^ (52 : Nat) + fraction
        exponent := (biased : Int) - 1075
        significand_lt := by omega
        exponent_ge := by omega
        exponent_le := by omega
        canonical := .inr (by omega) }

namespace Finite

/-- The zero of the given sign. -/
def zero (negative : Bool) : Finite :=
  ⟨negative, 0, -1074, by decide, by decide, by decide, .inl rfl⟩

/-- The number with these parts, if they are the parts of a finite number. -/
def ofParts? (negative : Bool) (significand : Nat) (exponent : Int) : Option Finite :=
  if h : significand < 2 ^ (53 : Nat) ∧ -1074 ≤ exponent ∧ exponent ≤ 971 ∧
      (exponent = -1074 ∨ 2 ^ (52 : Nat) ≤ significand) then
    some ⟨negative, significand, exponent, h.1, h.2.1, h.2.2.1, h.2.2.2⟩
  else none

/-- Whether the number is a zero of either sign. -/
def isZero (x : Finite) : Bool := x.significand == 0

/-- The numerator of the magnitude `significand · 2 ^ exponent`. -/
def num (x : Finite) : Nat := x.significand * 2 ^ x.exponent.toNat

/-- The denominator of the magnitude `significand · 2 ^ exponent`. -/
def den (x : Finite) : Nat := 2 ^ (-x.exponent).toNat

/-- The exponent at which `a / b` has a significand of 53 bits, or the least
exponent of the format if that is larger. -/
def exponentOf (a b : Nat) : Int :=
  let guess : Int := (Nat.log2 a : Int) - Nat.log2 b - 53
  let small := a * 2 ^ (-guess).toNat < 2 ^ (53 : Nat) * (b * 2 ^ guess.toNat)
  max (-1074) (if small then guess else guess + 1)

/-- The finite number of magnitude nearest to `a / b`, for `b` positive, a tie
going to the even significand; `none` when it would be too large. -/
def nearest (negative : Bool) (a b : Nat) : Option Finite :=
  if a = 0 then some (zero negative)
  else
    let e := exponentOf a b
    let m := nearestEven (a * 2 ^ (-e).toNat) (b * 2 ^ e.toNat)
    if m = 2 ^ (53 : Nat) then ofParts? negative (2 ^ (52 : Nat)) (e + 1) else ofParts? negative m e

/-- The product, rounded to the format. -/
def mul (x y : Finite) : Option Finite :=
  nearest (x.negative != y.negative) (x.num * y.num) (x.den * y.den)

/-- The quotient, rounded to the format, for a divisor other than zero. -/
def div (x y : Finite) : Option Finite :=
  nearest (x.negative != y.negative) (x.num * y.den) (x.den * y.num)

theorem den_pos (x : Finite) : 0 < x.den := Nat.pow_pos (by decide)

end Finite

end Binary64

end Formulary

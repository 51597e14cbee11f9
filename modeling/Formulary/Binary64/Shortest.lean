import Formulary.Binary64.Basic

/-!
# Shortest decimal digits of a binary number

A finite number is printed by the fewest decimal digits that read back as it: a
point of the coarsest grid `10 ^ k · ℕ` that lies in the interval of reals which
round to the number. Of two such points the nearer one is taken, and of two
equally near ones the larger.

* `Binary64.Finite.Reads`: the numbers `d · 10 ^ k` that read back as `x`.
* `Binary64.Finite.shortest`: the digits and their exponent.
* `Binary64.text`: the printed form, positional and without an exponent.
-/

namespace Formulary.Binary64

-- `^` on natural numbers is that of the core library, whatever else is imported
attribute [local instance (high)] instPowNat

namespace Finite

/-- Comparing `a · 2 ^ e` with `d · 10 ^ k`, both sides cleared of their denominators. -/
def compareScaled (a : Nat) (e : Int) (d : Nat) (k : Int) : Ordering :=
  compare (a * 2 ^ e.toNat * 10 ^ (-k).toNat) (d * 10 ^ k.toNat * 2 ^ (-e).toNat)

/-- Four times the significand of the lower end of the interval that rounds to
`x`: halfway to the number below, which is nearer at a power of two. -/
def lowerEnd (x : Finite) : Nat :=
  if x.significand = 2 ^ (52 : Nat) ∧ x.exponent ≠ -1074 then 4 * x.significand - 1
  else 4 * x.significand - 2

/-- Four times the significand of the upper end of the interval that rounds to `x`. -/
def upperEnd (x : Finite) : Nat := 4 * x.significand + 2

/-- Whether `d · 10 ^ k` rounds to the magnitude of `x`: it lies between the ends
of the interval, which belong to it when the significand is even. -/
def reads (x : Finite) (d : Nat) (k : Int) : Bool :=
  let low := compareScaled x.lowerEnd (x.exponent - 2) d k
  let high := compareScaled x.upperEnd (x.exponent - 2) d k
  if x.significand % 2 = 0 then low.isLE && high.isGE else low.isLT && high.isGT

/-- The largest `d` with `d · 10 ^ k` at most the magnitude of `x`. -/
def floorAt (x : Finite) (k : Int) : Nat :=
  x.num * 10 ^ (-k).toNat / (x.den * 10 ^ k.toNat)

/-- Whether `d + 1` is at least as near to the magnitude of `x` as `d` is, on the
grid of step `10 ^ k`. -/
def nearerAbove (x : Finite) (d : Nat) (k : Int) : Bool :=
  (compareScaled (2 * x.significand) x.exponent (2 * d + 1) k).isGE

/-- The point of the grid of step `10 ^ k` that reads back as `x`, if there is
one: one of the two neighbours of `x` on the grid. -/
def onGrid? (x : Finite) (k : Int) : Option Nat :=
  let d := x.floorAt k
  match x.reads d k, x.reads (d + 1) k with
  | true, true => if x.nearerAbove d k then some (d + 1) else some d
  | true, false => some d
  | false, true => some (d + 1)
  | false, false => none

/-- The first grid with a point that reads back as `x`, from step
`10 ^ (n - 1074)` down; on the last one every finite number is itself a point. -/
def coarsest (x : Finite) : Nat → Nat × Int
  | 0 => (x.floorAt (-1074), -1074)
  | n + 1 =>
    match x.onGrid? ((n : Int) - 1073) with
    | some d => (d, (n : Int) - 1073)
    | none => x.coarsest n

/-- The fewest digits `d`, with an exponent `k`, such that `d · 10 ^ k` reads back
as the magnitude of `x`. -/
def shortest (x : Finite) : Nat × Int :=
  x.coarsest ((Nat.toDigits 10 (x.num / x.den)).length + 1074)

/-- The magnitude of `x` in positional notation, by its shortest digits. -/
def magnitudeText (x : Finite) : List Char :=
  if x.isZero then ['0']
  else
    let (d, k) := x.shortest
    if 0 ≤ k then Text.positional (d * 10 ^ k.toNat) 0 else Text.positional d (-k).toNat

end Finite

/-- The printed form of a number: `NaN`, `inf` with its sign, or the shortest
digits in positional notation, with a sign also on a negative zero. -/
def text : Binary64 → String
  | .nan => "NaN"
  | .infinite true => "-inf"
  | .infinite false => "inf"
  | .finite x => String.ofList ((if x.negative then ['-'] else []) ++ x.magnitudeText)

end Formulary.Binary64

import Formulary.Decimal.Basic

/-!
# Decimal arithmetic

Each operation computes exactly and then makes the result fit into 96 bits of
mantissa and 28 places, rounding to the nearest decimal with ties to the even
digit. `none` is an overflow: the whole part of the result is too large.

* `fit`: the exact quotient `m / 10 ^ s` as a decimal of as many places as fit.
* `add`, `sub`, `mul`: the exact result, made to fit.
* `div`: long division, in steps of up to nine places.
-/

namespace Formulary.Decimal

-- `^` on natural numbers is that of the core library, whatever else is imported
attribute [local instance (high)] instPowNat

/-- The least number of digits to drop from `m` so that a mantissa is left. -/
def excessDigits (m : Nat) : Nat :=
  if m < mantissaBound then 0 else excessDigits (m / 10) + 1
termination_by m
decreasing_by simp only [mantissaBound] at *; omega

/-- A mantissa that may have been rounded up to the bound drops one more digit. -/
def ofRounded? (negative : Bool) (m s : Nat) : Option Decimal :=
  if m = mantissaBound then
    if s = 0 then none else ofParts? negative (nearestEven m 10) (s - 1)
  else ofParts? negative m s

/-- The quotient `m / 10 ^ s` as a decimal: as few digits as possible are dropped,
and there must be as many behind the point. -/
def fit (negative : Bool) (m s : Nat) : Option Decimal :=
  let k := max (s - maxScale) (excessDigits m)
  if s < k then none else ofRounded? negative (nearestEven m (10 ^ k)) (s - k)

/-- The sum. A zero is neutral and leaves the form of the other summand; a sum of
value zero has no sign. -/
def add (a b : Decimal) : Option Decimal :=
  if a.isZero then some b
  else if b.isZero then some a
  else
    let s := max a.scale b.scale
    let total := a.signed * 10 ^ (s - a.scale) + b.signed * 10 ^ (s - b.scale)
    fit (decide (total < 0)) total.natAbs s

/-- The difference. A zero on the right is neutral, also for a zero on the left. -/
def sub (a b : Decimal) : Option Decimal :=
  if a.isZero && b.isZero then some b else add a b.neg

/-- Whether the mantissa has at most 32 bits. -/
def isSmall (d : Decimal) : Bool := d.mantissa < 2 ^ (32 : Nat)

/-- The product. It is the plain zero when a factor is zero, and when two small
mantissas have more than 47 places between them; a product of small mantissas that
rounds to zero has no sign. -/
def mul (a b : Decimal) : Option Decimal :=
  let small := a.isSmall && b.isSmall
  if a.isZero || b.isZero then some zero
  else if small && 47 < a.scale + b.scale then some zero
  else
    (fit (a.negative != b.negative) (a.mantissa * b.mantissa) (a.scale + b.scale)).map fun p =>
      if small && p.isZero then { p with negative := false } else p

/-- The largest `p ≤ limit` such that `q · 10 ^ p` is still a mantissa. -/
def headroom (q : Nat) : Nat → Nat
  | 0 => 0
  | p + 1 => if q * 10 ^ (p + 1) < mantissaBound then p + 1 else headroom q p

theorem headroom_le (q limit : Nat) : headroom q limit ≤ limit := by
  induction limit with
  | zero => simp [headroom]
  | succ p ih => unfold headroom; split <;> omega

/-- What long division has found: a quotient with its scale, and whether digits of
the remainder entered it. -/
structure Quotient where
  digits : Nat
  scale : Int
  extended : Bool

/-- A quotient that has grown to the bound or beyond drops its last digit, rounded
to the nearest; a remainder lifts a tie. -/
def Quotient.shorten (digits : Nat) (scale : Int) (inexact : Bool) (extended : Bool) :
    Option Quotient :=
  if scale ≤ 0 then none
  else
    let digits' :=
      if inexact && digits % 10 = 5 then digits / 10 + 1 else nearestEven digits 10
    some ⟨digits', scale - 1, extended⟩

/-- How many places the next step of a long division adds: up to nine, towards
scale 0 while the division is exact, and as many as fit while it is not. -/
def stepSize (q r : Nat) (s : Int) : Nat :=
  if r = 0 then min 9 (-s).toNat else headroom q (min 9 (28 - s).toNat)

theorem stepSize_le (q r : Nat) (s : Int) (h : stepSize q r s ≠ 0) :
    s + stepSize q r s ≤ 28 := by
  unfold stepSize at *
  split <;> rename_i hr
  · simp only [hr, if_true] at h; omega
  · have := headroom_le q (min 9 (28 - s).toNat)
    simp only [hr, if_false] at h; omega

/-- Long division by `b`, from a quotient `q` of scale `s` and a remainder `r`: it
ends when nothing remains, or when no further place fits and the last digit is
rounded by what remains. -/
def divideFrom (b q r : Nat) (s : Int) (extended : Bool) : Option Quotient :=
  let p := stepSize q r s
  let extended := extended || r != 0
  if hp : p = 0 then
    if r = 0 then some ⟨q, s, extended⟩
    else if s < 0 then none
    else
      -- no further place fits: what remains decides the last digit
      let rounded := if b < 2 * r ∨ (2 * r = b ∧ q % 2 = 1) then q + 1 else q
      if rounded = mantissaBound then Quotient.shorten rounded s false extended
      else some ⟨rounded, s, extended⟩
  else if mantissaBound ≤ q * 10 ^ p then none
  else
    let q' := q * 10 ^ p + r * 10 ^ p / b
    let r' := r * 10 ^ p % b
    -- the next digits may carry the quotient over the bound, though their places fit
    if mantissaBound ≤ q' then Quotient.shorten q' (s + p) (r' != 0) extended
    else divideFrom b q' r' (s + p) extended
termination_by (28 - s).toNat
decreasing_by
  have := stepSize_le q r s hp
  have : 0 < stepSize q r s := Nat.pos_of_ne_zero hp
  omega

/-- Drops `k` zeros at the end of `q` if they are there and the scale has room. -/
def dropZeros (k : Nat) (q s : Nat) : Nat × Nat :=
  if k ≤ s ∧ q % 10 ^ k = 0 then (q / 10 ^ k, s - k) else (q, s)

/-- Drops zeros at the end of `q` eight at a time, as long as `2 ^ 32` divides it. -/
def dropEights (q s : Nat) : Nat × Nat :=
  if 8 ≤ s ∧ q % 2 ^ (32 : Nat) = 0 ∧ q % 10 ^ (8 : Nat) = 0 then
    dropEights (q / 10 ^ (8 : Nat)) (s - 8)
  else (q, s)
termination_by s

/-- Drops zeros that the steps of a long division have left at the end of `q`. -/
def trimQuotient (q s : Nat) : Nat × Nat :=
  let (q, s) := dropEights q s
  let (q, s) := dropZeros 4 q s
  let (q, s) := dropZeros 2 q s
  dropZeros 1 q s

/-- The quotient by a divisor other than zero. -/
def div (a b : Decimal) : Option Decimal :=
  if a.isZero then some zero
  else do
    let q ← divideFrom b.mantissa (a.mantissa / b.mantissa) (a.mantissa % b.mantissa)
      ((a.scale : Int) - b.scale) false
    let (m, s) :=
      if q.extended then trimQuotient q.digits q.scale.toNat else (q.digits, q.scale.toNat)
    ofParts? ((a.negative != b.negative) && m != 0) m s

end Formulary.Decimal

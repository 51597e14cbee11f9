import Formulary.Natural

/-!
# Decimal numbers

A decimal is `± mantissa / 10 ^ scale` with a mantissa of 96 bits and a scale of
at most 28. One value has several forms, `1.5` and `1.50` among them, and zero
may have a sign; arithmetic and text keep the form, comparison looks at the value.

* `Decimal.compareValue`: the order of the values, exact and blind to the form.
* `Decimal.normalize`: the form with the least scale, and without a sign on zero.
* `Decimal.signed_normalize`: the least form has the value of the decimal.
* `Decimal.text`: the text that shows the form, with exactly `scale` digits behind the point
  and a sign also on zero; `Decimal.canonicalText`: the text of the least form, and thus the
  same for all forms of a value.
-/

namespace Formulary

-- `^` on natural numbers is that of the core library, whatever else is imported
attribute [local instance (high)] instPowNat

/-- A decimal number `± mantissa / 10 ^ scale`. -/
structure Decimal where
  negative : Bool
  mantissa : Nat
  scale : Nat
  mantissa_lt : mantissa < 2 ^ (96 : Nat)
  scale_le : scale ≤ 28
deriving DecidableEq

namespace Decimal

/-- The least natural number too large for a mantissa. -/
abbrev mantissaBound : Nat := 2 ^ (96 : Nat)

/-- The largest scale. -/
abbrev maxScale : Nat := 28

/-- The decimal with these parts, if they fit. -/
def ofParts? (negative : Bool) (mantissa scale : Nat) : Option Decimal :=
  if h : mantissa < 2 ^ (96 : Nat) ∧ scale ≤ 28 then some ⟨negative, mantissa, scale, h.1, h.2⟩
  else none

/-- The integer `0`, without a sign. -/
def zero : Decimal := ⟨false, 0, 0, by decide, by decide⟩

/-- The integer `1`. -/
def one : Decimal := ⟨false, 1, 0, by decide, by decide⟩

/-- The decimal of scale 0 of a small enough natural number. -/
def ofNat? (n : Nat) : Option Decimal := ofParts? false n 0

/-- The decimal of scale 0 of a small enough integer. -/
def ofInt? (n : Int) : Option Decimal := ofParts? (decide (n < 0)) n.natAbs 0

/-- Whether the value is zero. -/
def isZero (d : Decimal) : Bool := d.mantissa == 0

/-- The mantissa with the sign of the decimal. -/
def signed (d : Decimal) : Int := if d.negative then -d.mantissa else d.mantissa

/-- The decimal with its sign flipped, also on zero. -/
def neg (d : Decimal) : Decimal := { d with negative := !d.negative }

/-- The order of two values, by their numerators over the common denominator. -/
def compareValue (a b : Decimal) : Ordering :=
  compare (a.signed * 10 ^ b.scale) (b.signed * 10 ^ a.scale)

/-- Whether two decimals have one value. -/
def sameValue (a b : Decimal) : Bool := a.compareValue b == .eq

/-- Strips trailing zeros from a mantissa, as many as the scale has room for. -/
def stripZeros (m : Nat) : Nat → Nat × Nat
  | 0 => (m, 0)
  | s + 1 => if m % 10 = 0 then stripZeros (m / 10) s else (m, s + 1)

theorem stripZeros_le (m s : Nat) : (stripZeros m s).1 ≤ m ∧ (stripZeros m s).2 ≤ s := by
  induction s generalizing m with
  | zero => simp [stripZeros]
  | succ s ih =>
    unfold stripZeros
    split
    · have := ih (m / 10); omega
    · simp

/-- Stripping zeros keeps the quotient `m / 10 ^ s`. -/
theorem stripZeros_value (m s : Nat) :
    (stripZeros m s).1 * 10 ^ s = m * 10 ^ (stripZeros m s).2 := by
  induction s generalizing m with
  | zero => simp [stripZeros]
  | succ s ih =>
    unfold stripZeros
    split
    · have h := ih (m / 10)
      have hm : m / 10 * 10 = m := by omega
      calc (stripZeros (m / 10) s).1 * 10 ^ (s + 1)
          = (stripZeros (m / 10) s).1 * 10 ^ s * 10 := by rw [Nat.pow_succ, Nat.mul_assoc]
        _ = m / 10 * 10 * 10 ^ (stripZeros (m / 10) s).2 := by
          rw [h, Nat.mul_assoc, Nat.mul_comm (10 ^ _) 10, ← Nat.mul_assoc]
        _ = m * 10 ^ (stripZeros (m / 10) s).2 := by rw [hm]
    · rfl

/-- The form of least scale: no trailing zero in the fraction and no sign on zero. -/
def normalize (d : Decimal) : Decimal :=
  let stripped := stripZeros d.mantissa d.scale
  { negative := d.negative && !d.isZero
    mantissa := stripped.1
    scale := stripped.2
    mantissa_lt := Nat.lt_of_le_of_lt (stripZeros_le _ _).1 d.mantissa_lt
    scale_le := Nat.le_trans (stripZeros_le _ _).2 d.scale_le }

/-- **The least form has the value of the decimal.** -/
theorem signed_normalize (d : Decimal) :
    d.normalize.signed * 10 ^ d.scale = d.signed * 10 ^ d.normalize.scale := by
  have h : ((stripZeros d.mantissa d.scale).1 : Int) * 10 ^ d.scale
      = (d.mantissa : Int) * 10 ^ (stripZeros d.mantissa d.scale).2 := by
    exact_mod_cast stripZeros_value d.mantissa d.scale
  have hz : d.mantissa = 0 → (stripZeros d.mantissa d.scale).1 = 0 := fun h0 => by
    have := (stripZeros_le d.mantissa d.scale).1; omega
  unfold normalize signed isZero
  by_cases hn : d.negative = true
  · by_cases h0 : d.mantissa = 0
    · have hs := hz h0
      rw [h0] at hs
      simp [hn, h0, hs]
    · have hsign : (d.negative && !(d.mantissa == 0)) = true := by simp [hn, h0]
      rw [if_pos hsign, if_pos hn, Int.neg_mul, Int.neg_mul, h]
  · simp [hn, h]

/-- The text that shows the form: sign, digits, and `scale` of them behind the point. -/
def text (d : Decimal) : String :=
  String.ofList ((if d.negative then ['-'] else []) ++ Text.positional d.mantissa d.scale)

/-- The canonical text: no trailing zeros, and zero without a sign. -/
def canonicalText (d : Decimal) : String := d.normalize.text

end Decimal

end Formulary

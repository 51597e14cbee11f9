import Mathlib.Algebra.Order.Field.Rat
import Mathlib.Tactic.FieldSimp
import Mathlib.Tactic.NormNum
import Mathlib.Tactic.Positivity
import Formulary.Decimal.Basic

/-!
# The value of a decimal

A decimal is a rational number in one of its forms (`value`). Comparison sees only
the value (`compareValue_eq`), and the least form has it too (`value_normalize`). A value
has only one least form (`normalize_eq_iff`).
-/

namespace Formulary.Decimal

variable {a b : Decimal}

/-- **The rational number that a decimal is a form of.** -/
def value (d : Decimal) : ℚ := d.signed / 10 ^ d.scale

theorem value_eq (d : Decimal) :
    d.value =
      if d.negative then -(d.mantissa / 10 ^ d.scale : ℚ) else d.mantissa / 10 ^ d.scale := by
  unfold value signed
  cases d.negative <;> simp [neg_div]

@[simp] theorem value_zero : zero.value = 0 := by simp [value, signed, zero]

@[simp] theorem value_one : one.value = 1 := by simp [value, signed, one]

@[simp] theorem value_neg (d : Decimal) : d.neg.value = -d.value := by
  simp only [value_eq, neg]
  cases d.negative <;> simp

theorem abs_value (d : Decimal) : |d.value| = d.mantissa / 10 ^ d.scale := by
  have hnonneg : (0 : ℚ) ≤ d.mantissa / 10 ^ d.scale := by positivity
  rw [value_eq]
  cases d.negative <;> simp [abs_of_nonneg hnonneg]

theorem value_eq_zero_iff (d : Decimal) : d.value = 0 ↔ d.mantissa = 0 := by
  rw [← abs_eq_zero, abs_value]
  simp

theorem isZero_iff (d : Decimal) : d.isZero ↔ d.value = 0 := by
  rw [value_eq_zero_iff]
  simp [isZero]

/-- **Comparison sees the values alone**, whatever the forms. -/
theorem compareValue_eq (a b : Decimal) : a.compareValue b = compare a.value b.value := by
  have hpow (n : Nat) : (0 : ℚ) < 10 ^ n := by positivity
  have hlt (a b : Decimal) :
      a.value < b.value ↔ a.signed * 10 ^ b.scale < b.signed * 10 ^ a.scale := by
    rw [value, value, div_lt_div_iff₀ (hpow _) (hpow _)]
    exact_mod_cast Iff.rfl
  unfold compareValue
  rcases lt_trichotomy a.value b.value with h | h | h
  · rw [compare_lt_iff_lt.2 h, compare_lt_iff_lt.2 ((hlt a b).1 h)]
  · have heq : a.signed * 10 ^ b.scale = b.signed * 10 ^ a.scale := by
      rw [value, value, div_eq_div_iff (hpow _).ne' (hpow _).ne'] at h
      exact_mod_cast h
    rw [compare_eq_iff_eq.2 h, compare_eq_iff_eq.2 heq]
  · rw [compare_gt_iff_gt.2 h, compare_gt_iff_gt.2 ((hlt b a).1 h)]

/-- The tests of comparisons, on rational numbers. -/
theorem compare_tests (x y : ℚ) :
    (compare x y).isLT = decide (x < y) ∧ (compare x y).isLE = decide (x ≤ y) ∧
      (compare x y).isGT = decide (x > y) ∧ (compare x y).isGE = decide (x ≥ y) ∧
      (compare x y).isEq = decide (x = y) ∧ (compare x y).isNe = decide (x ≠ y) := by
  rcases lt_trichotomy x y with h | h | h
  · rw [compare_lt_iff_lt.2 h]
    simp [h, h.le, h.ne, h.not_gt]
  · rw [compare_eq_iff_eq.2 h]
    simp [h]
  · rw [compare_gt_iff_gt.2 h]
    simp [h, h.le, h.ne', h.not_gt]

theorem sameValue_iff : a.sameValue b ↔ a.value = b.value := by
  rw [sameValue, compareValue_eq]
  simp

/-- The least form has the value of the decimal. -/
@[simp] theorem value_normalize (d : Decimal) : d.normalize.value = d.value := by
  have h : (d.normalize.signed : ℚ) * 10 ^ d.scale = d.signed * 10 ^ d.normalize.scale := by
    exact_mod_cast d.signed_normalize
  rw [value, value, div_eq_div_iff (by positivity) (by positivity), h]

/-- What is stripped of its zeros has none left to strip. -/
theorem stripZeros_idem (m s : Nat) :
    stripZeros (stripZeros m s).1 (stripZeros m s).2 = stripZeros m s := by
  induction s generalizing m with
  | zero => rfl
  | succ s ih =>
    by_cases h : m % 10 = 0
    · simp only [stripZeros, if_pos h, ih]
    · simp only [stripZeros, if_neg h]

/-- The least form is its own. -/
@[simp] theorem normalize_normalize (d : Decimal) : d.normalize.normalize = d.normalize := by
  have h := stripZeros_idem d.mantissa d.scale
  have hzero : d.normalize.isZero = d.isZero := by
    rw [Bool.eq_iff_iff, isZero_iff, isZero_iff, value_normalize]
  unfold normalize at hzero ⊢
  simp only [h, hzero, Bool.and_self, Bool.and_assoc]

/-- A mantissa that is stripped of its zeros has none left in the fraction. -/
theorem stripZeros_reduced (m s : Nat) : (stripZeros m s).2 = 0 ∨ (stripZeros m s).1 % 10 ≠ 0 := by
  induction s generalizing m with
  | zero => exact .inl rfl
  | succ s ih =>
    unfold stripZeros
    split
    · exact ih (m / 10)
    · rename_i h
      exact .inr h

/-- Of two quotients without trailing zeros that are equal, neither has more places. -/
theorem scale_le_of_reduced {m m' s s' : Nat} (hreduced : s' = 0 ∨ m' % 10 ≠ 0)
    (h : m * 10 ^ s' = m' * 10 ^ s) : s' ≤ s := by
  by_contra hlt
  obtain ⟨k, rfl⟩ : ∃ k, s' = s + (k + 1) := ⟨s' - s - 1, by omega⟩
  have hpow : 0 < 10 ^ s := Nat.pow_pos (by decide)
  -- one place more than the other has would make the last digit a zero
  have hm : m' = m * 10 ^ k * 10 := by
    refine Nat.eq_of_mul_eq_mul_right hpow ?_
    rw [← h, Nat.pow_add, Nat.pow_succ]
    ac_rfl
  rcases hreduced with hzero | hdigit
  · omega
  · exact hdigit (by rw [hm, Nat.mul_mod_left])

/-- The least form has a sign only below zero. -/
theorem negative_normalize_iff (d : Decimal) : d.normalize.negative ↔ d.value < 0 := by
  have hmagnitude : (0 : ℚ) ≤ d.mantissa / 10 ^ d.scale := by positivity
  have hzero := d.isZero_iff
  rw [value_eq] at hzero ⊢
  unfold normalize
  cases hneg : d.negative with
  | false => simp [hmagnitude]
  | true =>
    rw [hneg, if_pos rfl, neg_eq_zero] at hzero
    simp only [Bool.true_and, Bool.not_eq_true', if_true, neg_lt_zero]
    rw [lt_iff_le_and_ne, ← Bool.not_eq_true, hzero]
    exact ⟨fun hne => ⟨hmagnitude, Ne.symm hne⟩, fun h => Ne.symm h.2⟩

/-- **A value has one least form**: the places are as few as can be, so they are equally many,
and then the mantissas agree. -/
theorem normalize_eq_iff : a.normalize = b.normalize ↔ a.value = b.value := by
  constructor
  · intro h
    rw [← a.value_normalize, h, b.value_normalize]
  · intro h
    have hsign : a.normalize.negative = b.normalize.negative := by
      rw [Bool.eq_iff_iff, negative_normalize_iff, negative_normalize_iff, h]
    have hcross : a.normalize.mantissa * 10 ^ b.normalize.scale =
        b.normalize.mantissa * 10 ^ a.normalize.scale := by
      have habs : |a.normalize.value| = |b.normalize.value| := by
        rw [value_normalize, value_normalize, h]
      rw [abs_value, abs_value, div_eq_div_iff (by positivity) (by positivity)] at habs
      exact_mod_cast habs
    have hscale : a.normalize.scale = b.normalize.scale :=
      Nat.le_antisymm (scale_le_of_reduced (stripZeros_reduced _ _) hcross.symm)
        (scale_le_of_reduced (stripZeros_reduced _ _) hcross)
    have hmantissa : a.normalize.mantissa = b.normalize.mantissa := by
      rw [hscale] at hcross
      exact Nat.eq_of_mul_eq_mul_right (Nat.pow_pos (by decide)) hcross
    rcases ha : a.normalize with ⟨negative, mantissa, scale, hm, hs⟩
    rcases hb : b.normalize with ⟨negative', mantissa', scale', hm', hs'⟩
    rw [ha, hb] at hsign hscale hmantissa
    obtain rfl : negative = negative' := hsign
    obtain rfl : mantissa = mantissa' := hmantissa
    obtain rfl : scale = scale' := hscale
    rfl

end Formulary.Decimal

import Formulary.Proofs.Decimal.Rounding

/-!
# Sums and products are rounded exact ones

Each operation gives the decimal value nearest to the exact result (`map_value_add`,
`map_value_sub`, `map_value_mul`), so its value depends on the values of the operands
alone, whatever their forms. The shortcuts for zeros and for small factors change the
form of the result only.
-/

namespace Formulary.Decimal

variable {a b : Decimal}

theorem withSign_natAbs (total : Int) (s : Nat) :
    withSign (decide (total < 0)) (total.natAbs / 10 ^ s) = total / 10 ^ s := by
  unfold withSign
  by_cases h : total < 0
  · have habs : (total.natAbs : ℚ) = -total := by
      rw [Nat.cast_natAbs, abs_of_neg h]
      push_cast
      rfl
    simp [h, habs, neg_div]
  · have habs : (total.natAbs : ℚ) = total := by
      rw [Nat.cast_natAbs, abs_of_nonneg (not_lt.1 h)]
    simp [h, habs]

/-- A numerator over a greater power of ten. -/
theorem value_eq_div {s : Nat} (h : a.scale ≤ s) :
    a.value = (a.signed * 10 ^ (s - a.scale) : Int) / 10 ^ s := by
  obtain ⟨k, rfl⟩ := Nat.exists_eq_add_of_le h
  rw [Nat.add_sub_cancel_left, value, pow_add]
  push_cast
  field_simp

/-- **The sum is the rounded exact sum.** -/
theorem map_value_add (a b : Decimal) : (add a b).map value = round? (a.value + b.value) := by
  unfold add
  by_cases ha : a.isZero
  · rw [if_pos ha, (isZero_iff a).1 ha, zero_add, round?_value]
    rfl
  · by_cases hb : b.isZero
    · rw [if_neg ha, if_pos hb, (isZero_iff b).1 hb, add_zero, round?_value]
      rfl
    · rw [if_neg ha, if_neg hb]
      dsimp only
      rw [map_value_fit, withSign_natAbs, value_eq_div (Nat.le_max_left a.scale b.scale),
        value_eq_div (Nat.le_max_right a.scale b.scale), ← add_div, ← Int.cast_add]

/-- **The difference is the rounded exact difference.** -/
theorem map_value_sub (a b : Decimal) : (sub a b).map value = round? (a.value - b.value) := by
  unfold sub
  by_cases h : a.isZero && b.isZero
  · obtain ⟨ha, hb⟩ := Bool.and_eq_true_iff.1 h
    rw [if_pos h, (isZero_iff a).1 ha, zero_sub, (isZero_iff b).1 hb, neg_zero,
      ← (isZero_iff b).1 hb, round?_value]
    rfl
  · rw [if_neg h, map_value_add, value_neg, sub_eq_add_neg]

/-- What is less than half of the last place rounds to zero. -/
theorem roundNonneg?_of_small {v : ℚ} (h0 : 0 ≤ v) (h : v * 10 ^ maxScale < 1 / 2) :
    roundNonneg? v = some 0 := by
  have hfit : v * 10 ^ maxScale < mantissaBound := h.trans (by norm_num)
  rw [roundNonneg?_of_scale h0 le_rfl hfit (.inl rfl), roundEven_eq_zero (by positivity) h,
    settled?_of_lt (by decide)]
  simp

/-- Two small mantissas with more than 47 places between them make less than half of
the last place. -/
theorem mul_small_lt {m n s : Nat} (hm : m < 2 ^ 32) (hn : n < 2 ^ 32) (hs : 47 < s) :
    ((m * n : Nat) / 10 ^ s * 10 ^ maxScale : ℚ) < 1 / 2 := by
  obtain ⟨k, rfl⟩ := Nat.exists_eq_add_of_le hs
  have hmn : m * n < 2 ^ 32 * 2 ^ 32 := Nat.mul_lt_mul_of_lt_of_lt hm hn
  have hk : 1 ≤ 10 ^ k := Nat.one_le_pow k 10 (by decide)
  have hlt : 2 * (m * n) * 10 ^ maxScale < 10 ^ (48 + k) := by
    rw [pow_add]
    calc 2 * (m * n) * 10 ^ maxScale < 2 * (2 ^ 32 * 2 ^ 32) * 10 ^ maxScale :=
          Nat.mul_lt_mul_of_pos_right (by omega) (by decide)
      _ ≤ 10 ^ 48 := by decide
      _ ≤ 10 ^ 48 * 10 ^ k := Nat.le_mul_of_pos_right _ hk
  rw [div_mul_eq_mul_div, div_lt_div_iff₀ (by positivity) (by norm_num)]
  have hcast : ((2 * (m * n) * 10 ^ maxScale : Nat) : ℚ) < (10 ^ (48 + k) : Nat) := by
    exact_mod_cast hlt
  push_cast at hcast ⊢
  linarith

/-- **The product is the rounded exact product.** -/
theorem map_value_mul (a b : Decimal) : (mul a b).map value = round? (a.value * b.value) := by
  have hproduct : a.value * b.value = withSign (a.negative != b.negative)
      ((a.mantissa * b.mantissa : Nat) / 10 ^ (a.scale + b.scale)) := by
    rw [value_eq_withSign, value_eq_withSign]
    push_cast
    cases a.negative <;> cases b.negative <;> simp [withSign, pow_add] <;> field_simp
  unfold mul
  dsimp only
  split_ifs with hzero hmany
  · have h0 : a.value * b.value = 0 := by
      rcases Bool.or_eq_true_iff.1 hzero with h | h
      · rw [(isZero_iff a).1 h, zero_mul]
      · rw [(isZero_iff b).1 h, mul_zero]
    rw [h0, ← value_zero, round?_value]
    rfl
  · obtain ⟨hsmall, hscale⟩ := Bool.and_eq_true_iff.1 hmany
    obtain ⟨ha, hb⟩ := Bool.and_eq_true_iff.1 hsmall
    have hlt := mul_small_lt (of_decide_eq_true ha) (of_decide_eq_true hb)
      (of_decide_eq_true hscale)
    rw [hproduct, round?_withSign _ (by positivity), roundNonneg?_of_small (by positivity) hlt]
    simp [withSign_zero]
  · -- the sign of a zero does not show in its value
    have hunsigned (p : Decimal) : value (if a.isSmall && b.isSmall && p.isZero then
        { p with negative := false } else p) = p.value := by
      split_ifs with h
      · have hp := (Bool.and_eq_true_iff.1 h).2
        have hm := (value_eq_zero_iff p).1 ((isZero_iff p).1 hp)
        rw [(isZero_iff p).1 hp, value_eq_zero_iff]
        exact hm
      · rfl
    rw [Option.map_map, hproduct, ← map_value_fit]
    exact congrArg (Option.map · _) (funext hunsigned)

end Formulary.Decimal

import Mathlib.Algebra.Order.Floor.Semifield
import Mathlib.Data.Rat.Floor
import Mathlib.Tactic.Linarith
import Mathlib.Tactic.Ring
import Formulary.Decimal.Arithmetic
import Formulary.Proofs.Decimal.Value

/-!
# Rounding a rational to a decimal

What an operation on decimals should return is a function of its exact result
alone: with as many places as fit, rounded to the nearest, ties to even. The
operations are measured against it.

* `roundEven`: the nearest natural number; `roundEven_div` says that `nearestEven` is it.
* `round?`: **the decimal value nearest to a rational**, or none when it is too large.
* `roundNonneg?_of_scale`: which places fit, and what the rounding is there.
* `round?_value`: the value of a decimal is its own rounding.
* `map_value_fit`: `fit` rounds its quotient.
-/

namespace Formulary

/-- The natural number nearest to `x`, the even one of two that are equally near. -/
def roundEven (x : ℚ) : Nat :=
  if 1 / 2 < x - ⌊x⌋₊ ∨ (x - ⌊x⌋₊ = 1 / 2 ∧ ⌊x⌋₊ % 2 = 1) then ⌊x⌋₊ + 1 else ⌊x⌋₊

/-- A rational in its whole part and the rest rounds by the rest. -/
theorem roundEven_add {q : Nat} {f : ℚ} (h0 : 0 ≤ f) (h1 : f < 1) :
    roundEven (q + f) = if 1 / 2 < f ∨ (f = 1 / 2 ∧ q % 2 = 1) then q + 1 else q := by
  have hfloor : ⌊(q : ℚ) + f⌋₊ = q := by
    rw [Nat.floor_eq_iff (by positivity)]
    constructor <;> linarith
  simp only [roundEven, hfloor, add_sub_cancel_left]

theorem roundEven_natCast (q : Nat) : roundEven q = q := by
  have h := roundEven_add (q := q) le_rfl (zero_lt_one (α := ℚ))
  norm_num at h
  exact h

/-- A quotient in its whole part and the remainder rounds by the remainder. -/
theorem roundEven_add_div {q r b : Nat} (hr : r < b) :
    roundEven (q + r / b) = if b < 2 * r ∨ (2 * r = b ∧ q % 2 = 1) then q + 1 else q := by
  have hb : (0 : ℚ) < b := by exact_mod_cast Nat.zero_lt_of_lt hr
  have hlt : (1 / 2 < (r / b : ℚ)) ↔ b < 2 * r := by
    rw [lt_div_iff₀ hb, ← Nat.cast_lt (α := ℚ)]
    push_cast
    constructor <;> intro h <;> linarith
  have heq : ((r / b : ℚ) = 1 / 2) ↔ 2 * r = b := by
    rw [div_eq_iff hb.ne', ← Nat.cast_inj (R := ℚ)]
    push_cast
    constructor <;> intro h <;> linarith
  rw [roundEven_add (by positivity) ((div_lt_one hb).2 (by exact_mod_cast hr))]
  simp only [hlt, heq]

/-- **Rounding a quotient of natural numbers** rounds the rational. -/
theorem roundEven_div (a : Nat) {b : Nat} (hb : 0 < b) : roundEven (a / b) = nearestEven a b := by
  have hsplit : (a / b : ℚ) = (a / b : Nat) + (a % b : Nat) / b := by
    have h : ((b * (a / b) + a % b : Nat) : ℚ) = a := by rw [Nat.div_add_mod]
    have hb : (b : ℚ) ≠ 0 := by exact_mod_cast hb.ne'
    push_cast at h
    field_simp
    linarith
  rw [hsplit, roundEven_add_div (Nat.mod_lt a hb), nearestEven]

/-- What is less than a half rounds to zero. -/
theorem roundEven_eq_zero {x : ℚ} (h0 : 0 ≤ x) (h : x < 1 / 2) : roundEven x = 0 := by
  have hround := roundEven_add (q := 0) h0 (by linarith)
  rw [Nat.cast_zero, zero_add] at hround
  rw [hround, if_neg (by rintro (h | h) <;> linarith [h])]

theorem roundEven_le {x : ℚ} (hx : 0 ≤ x) {n : Nat} (h : x < n) : roundEven x ≤ n := by
  have hfloor : ⌊x⌋₊ < n := (Nat.floor_lt hx).2 h
  unfold roundEven
  split <;> omega

namespace Decimal

/-- The number of places that fit: the most of them, up to the largest scale, with
which the mantissa stays within its bound. -/
def places (v : ℚ) : Nat := Nat.findGreatest (fun s => v * 10 ^ s < mantissaBound) maxScale

/-- The value of a rounded mantissa; one that has reached the bound gives up a place. -/
def settled? (m s : Nat) : Option ℚ :=
  if m = mantissaBound then if s = 0 then none else some (nearestEven m 10 / 10 ^ (s - 1) : ℚ)
  else some (m / 10 ^ s : ℚ)

/-- The decimal value nearest to a rational that is not negative. -/
def roundNonneg? (v : ℚ) : Option ℚ :=
  if v < mantissaBound then settled? (roundEven (v * 10 ^ places v)) (places v) else none

/-- A magnitude with a sign. -/
def withSign (negative : Bool) (x : ℚ) : ℚ := if negative then -x else x

/-- **The decimal value nearest to a rational**, with as many places as fit and ties to
the even digit; none if its whole part is too large. -/
def round? (v : ℚ) : Option ℚ := (roundNonneg? |v|).map (withSign (decide (v < 0)))

variable {v : ℚ} {m s : Nat}

/-- **Which places fit, and what the rounding is there.** -/
theorem roundNonneg?_of_scale (h0 : 0 ≤ v) (hs : s ≤ maxScale) (hfit : v * 10 ^ s < mantissaBound)
    (hmax : s = maxScale ∨ mantissaBound ≤ v * 10 ^ (s + 1)) :
    roundNonneg? v = settled? (roundEven (v * 10 ^ s)) s := by
  have hmono {i j : Nat} (h : i ≤ j) : v * 10 ^ i ≤ v * 10 ^ j :=
    mul_le_mul_of_nonneg_left (pow_le_pow_right₀ (by norm_num) h) h0
  -- the places that fit are those up to `s`, since more places make more digits
  have hplaces : places v = s := by
    rw [places, Nat.findGreatest_eq_iff]
    refine ⟨hs, fun _ => hfit, fun k hk hk28 => ?_⟩
    rcases hmax with rfl | hmax
    · omega
    · exact not_lt.2 (hmax.trans (hmono hk))
  have hlt : v < mantissaBound := by
    have h := hmono (Nat.zero_le s)
    rw [pow_zero, mul_one] at h
    exact h.trans_lt hfit
  rw [roundNonneg?, if_pos hlt, hplaces]

theorem roundNonneg?_of_le (h : mantissaBound ≤ v) : roundNonneg? v = none :=
  if_neg (not_lt.2 h)

theorem settled?_of_lt (h : m < mantissaBound) : settled? m s = some (m / 10 ^ s : ℚ) :=
  if_neg h.ne

/-- **What a mantissa and a scale mean is its own rounding**, also where more places
fit than it has. -/
theorem roundNonneg?_div_pow (hm : m < mantissaBound) (hs : s ≤ maxScale) :
    roundNonneg? (m / 10 ^ s) = some (m / 10 ^ s : ℚ) := by
  have hpow (n : Nat) : (10 ^ n : ℚ) ≠ 0 := by positivity
  -- with further places it is the mantissa with zeros behind it
  have hshift {n : Nat} (h : s ≤ n) : (m / 10 ^ s * 10 ^ n : ℚ) = (m * 10 ^ (n - s) : Nat) := by
    obtain ⟨k, rfl⟩ := Nat.exists_eq_add_of_le h
    push_cast
    rw [pow_add, Nat.add_sub_cancel_left]
    field_simp
  have hfits : (m / 10 ^ s * 10 ^ s : ℚ) < mantissaBound := by
    rw [div_mul_cancel₀ _ (hpow s)]
    exact_mod_cast hm
  have hlt : (m / 10 ^ s : ℚ) < mantissaBound :=
    (le_mul_of_one_le_right (by positivity) (one_le_pow₀ (by norm_num))).trans_lt hfits
  have hle : s ≤ places (m / 10 ^ s) := Nat.le_findGreatest hs hfits
  have hplaces : (m / 10 ^ s * 10 ^ places (m / 10 ^ s) : ℚ) < mantissaBound :=
    Nat.findGreatest_spec (P := fun n => (m / 10 ^ s * 10 ^ n : ℚ) < mantissaBound) hs hfits
  rw [roundNonneg?, if_pos hlt]
  rw [hshift hle] at hplaces ⊢
  rw [roundEven_natCast, settled?_of_lt (by exact_mod_cast hplaces), ← hshift hle,
    mul_div_cancel_right₀ _ (hpow _)]

theorem value_eq_withSign (d : Decimal) :
    d.value = withSign d.negative (d.mantissa / 10 ^ d.scale) :=
  d.value_eq

theorem withSign_zero (negative : Bool) : withSign negative 0 = 0 := by
  cases negative <;> simp [withSign]

/-- A rational rounds as its magnitude does. -/
theorem round?_withSign (negative : Bool) (h : 0 ≤ v) :
    round? (withSign negative v) = (roundNonneg? v).map (withSign negative) := by
  rcases h.eq_or_lt with rfl | hpos
  · have hzero : roundNonneg? 0 = some 0 := by
      have h := roundNonneg?_div_pow (m := 0) (s := 0) (by decide) (by decide)
      simpa using h
    simp [round?, withSign_zero, hzero]
  · cases negative with
    | false => simp [round?, withSign, abs_of_pos hpos, not_lt.2 h]
    | true => simp [round?, withSign, abs_of_pos hpos, hpos]

/-- **The value of a decimal is its own rounding.** -/
theorem round?_value (d : Decimal) : round? d.value = some d.value := by
  rw [value_eq_withSign, round?_withSign _ (by positivity),
    roundNonneg?_div_pow d.mantissa_lt d.scale_le]
  rfl

theorem map_value_ofParts? (negative : Bool) (hm : m < mantissaBound) (hs : s ≤ maxScale) :
    (ofParts? negative m s).map value = some (withSign negative (m / 10 ^ s)) := by
  rw [ofParts?, dif_pos ⟨hm, hs⟩, Option.map_some, value_eq_withSign]

/-- A rounded mantissa is settled as its value is. -/
theorem map_value_ofRounded? (negative : Bool) (hm : m ≤ mantissaBound) (hs : s ≤ maxScale) :
    (ofRounded? negative m s).map value = (settled? m s).map (withSign negative) := by
  unfold ofRounded? settled?
  by_cases hbound : m = mantissaBound
  · subst hbound
    rw [if_pos rfl, if_pos rfl]
    by_cases h0 : s = 0
    · rw [if_pos h0, if_pos h0]
      rfl
    · rw [if_neg h0, if_neg h0, map_value_ofParts? _ (by decide) (by omega)]
      rfl
  · rw [if_neg hbound, if_neg hbound, map_value_ofParts? _ (by omega) hs]
    rfl

/-- The digits dropped are enough, and no fewer would be. -/
theorem excessDigits_spec (m : Nat) :
    m < mantissaBound * 10 ^ excessDigits m ∧
      ∀ j < excessDigits m, mantissaBound * 10 ^ j ≤ m := by
  fun_induction excessDigits m with
  | case1 m h => simpa using h
  | case2 m h ih =>
    obtain ⟨hlt, hmin⟩ := ih
    refine ⟨?_, fun j hj => ?_⟩
    · rw [pow_succ, ← mul_assoc]
      omega
    · cases j with
      | zero => simpa using Nat.le_of_not_lt h
      | succ j =>
        have hj := hmin j (by omega)
        rw [pow_succ, ← mul_assoc]
        omega

/-- With so many digits dropped, a mantissa is left. -/
theorem div_pow_lt {k : Nat} (h : excessDigits m ≤ k) : (m / 10 ^ k : ℚ) < mantissaBound := by
  have hle : mantissaBound * 10 ^ excessDigits m ≤ mantissaBound * 10 ^ k :=
    Nat.mul_le_mul_left _ (Nat.pow_le_pow_right (by decide) h)
  rw [div_lt_iff₀ (by positivity)]
  exact_mod_cast (excessDigits_spec m).1.trans_le hle

/-- With fewer digits dropped, no mantissa is left. -/
theorem le_div_pow {j : Nat} (h : j < excessDigits m) : (mantissaBound : ℚ) ≤ m / 10 ^ j := by
  rw [le_div_iff₀ (by positivity)]
  exact_mod_cast (excessDigits_spec m).2 j h

/-- Dropping digits leaves the quotient at fewer places. -/
theorem div_pow_mul_pow {j : Nat} (h : j ≤ s) : (m / 10 ^ s * 10 ^ (s - j) : ℚ) = m / 10 ^ j := by
  obtain ⟨i, rfl⟩ := Nat.exists_eq_add_of_le h
  rw [Nat.add_sub_cancel_left, pow_add]
  field_simp

theorem roundEven_div_pow (m k : Nat) : roundEven (m / 10 ^ k) = nearestEven m (10 ^ k) := by
  have h := roundEven_div m (Nat.pow_pos (n := k) (by decide : 0 < 10))
  push_cast at h
  exact h

/-- **`fit` rounds its quotient.** -/
theorem map_value_fit (negative : Bool) (m s : Nat) :
    (fit negative m s).map value = round? (withSign negative (m / 10 ^ s)) := by
  rw [round?_withSign _ (by positivity)]
  unfold fit
  generalize hk : max (s - maxScale) (excessDigits m) = k
  dsimp only
  by_cases hsk : s < k
  · rw [if_pos hsk, roundNonneg?_of_le (le_div_pow (by omega))]
    rfl
  · have hfits : (m / 10 ^ k : ℚ) < mantissaBound := div_pow_lt (by omega)
    have hbound : roundEven (m / 10 ^ k) ≤ mantissaBound :=
      roundEven_le (by positivity) (by exact_mod_cast hfits)
    rw [if_neg hsk, ← roundEven_div_pow, map_value_ofRounded? _ hbound (by omega)]
    congr 1
    rcases Nat.eq_zero_or_pos k with rfl | hpos
    · -- nothing is dropped, so the quotient is a decimal already
      have hm : m < mantissaBound := by
        rw [pow_zero, div_one] at hfits
        exact_mod_cast hfits
      rw [pow_zero, div_one, roundEven_natCast, Nat.sub_zero, settled?_of_lt hm,
        roundNonneg?_div_pow hm (by omega)]
    · rw [roundNonneg?_of_scale (by positivity) (by omega : s - k ≤ maxScale)]
      · rw [div_pow_mul_pow (by omega)]
      · rw [div_pow_mul_pow (by omega)]
        exact hfits
      · -- one more place is beyond the largest scale, or leaves no mantissa
        by_cases hscale : s - k = maxScale
        · exact .inl hscale
        · right
          rw [show s - k + 1 = s - (k - 1) by omega, div_pow_mul_pow (by omega)]
          exact le_div_pow (by omega)

end Decimal

end Formulary

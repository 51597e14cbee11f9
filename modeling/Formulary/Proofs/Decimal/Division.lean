import Formulary.Proofs.Decimal.Rounding

/-!
# Long division rounds the exact quotient

Long division keeps a quotient and a remainder that together are the exact quotient at
the scale reached so far (`Partial`). It ends where nothing remains, where no place
fits any more, or where the quotient is too large, and in each of these cases with the
rounding of the exact quotient (`Settles`).

* `Partial.step`: one step of the division.
* `settles_divideFrom` (every division): by induction on the steps.
* `map_value_div`: **the quotient is the rounded exact quotient**, with the zeros that
  the steps leave behind dropped or not.
-/

namespace Formulary.Decimal

/-- **What a long division knows** of the quotient `v` by `b`: its whole part at scale
`s` and what remains of it there. -/
structure Partial (v : ℚ) (b q r : Nat) (s : Int) : Prop where
  value_eq : v * 10 ^ s = q + r / b
  remainder_lt : r < b
  digits_lt : q < mantissaBound
  scale_le : s ≤ maxScale

/-- A result of long division that is the rounding of `v`. -/
def Settles (v : ℚ) : Option Quotient → Prop
  | none => roundNonneg? v = none
  | some z => z.digits < mantissaBound ∧ 0 ≤ z.scale ∧ z.scale ≤ maxScale ∧
      roundNonneg? v = some (z.digits / 10 ^ z.scale.toNat : ℚ)

variable {v : ℚ} {b q r : Nat} {s : Int}

theorem headroom_fits {limit : Nat} (h : headroom q limit ≠ 0) :
    q * 10 ^ headroom q limit < mantissaBound := by
  induction limit with
  | zero => exact absurd rfl h
  | succ p ih =>
    unfold headroom at h ⊢
    split_ifs at h ⊢ with hfit
    · exact hfit
    · exact ih h

theorem headroom_eq_zero {limit : Nat} (h : headroom q limit = 0) :
    limit = 0 ∨ mantissaBound ≤ q * 10 := by
  induction limit with
  | zero => exact .inl rfl
  | succ p ih =>
    unfold headroom at h
    split_ifs at h with hfit
    rcases ih h with rfl | hle
    · exact .inr (by simpa using hfit)
    · exact .inr hle

theorem zpow_nonneg_ten (s : Int) : (0 : ℚ) < 10 ^ s := zpow_pos (by norm_num) s

/-- The exact quotient, a few places further on. -/
theorem mul_zpow_add (v : ℚ) (s : Int) (p : Nat) : v * 10 ^ (s + p) = v * 10 ^ s * 10 ^ p := by
  rw [zpow_add₀ (by norm_num), zpow_natCast, mul_assoc]

/-- A whole part that reaches the bound before any place does is too large. -/
theorem roundNonneg?_of_whole (h0 : 0 ≤ v) (hs : s ≤ 0) (h : mantissaBound ≤ v * 10 ^ s) :
    roundNonneg? v = none := by
  refine roundNonneg?_of_le (h.trans ?_)
  exact mul_le_of_le_one_right h0 (zpow_le_one_of_nonpos₀ (by norm_num) hs)

namespace Partial

theorem nonneg (h : Partial v b q r s) : 0 ≤ v := by
  have hpos : 0 ≤ v * 10 ^ s := by
    rw [h.value_eq]
    positivity
  exact nonneg_of_mul_nonneg_left hpos (zpow_nonneg_ten s)

theorem le_mul (h : Partial v b q r s) : (q : ℚ) ≤ v * 10 ^ s := by
  rw [h.value_eq]
  exact le_add_of_nonneg_right (by positivity)

theorem lt_add_one (h : Partial v b q r s) : v * 10 ^ s < q + 1 := by
  have hb : (0 : ℚ) < b := by exact_mod_cast Nat.zero_lt_of_lt h.remainder_lt
  rw [h.value_eq, add_lt_add_iff_left, div_lt_one hb]
  exact_mod_cast h.remainder_lt

/-- **One step**: the next places of the quotient, and what remains behind them. -/
theorem step_eq (h : Partial v b q r s) (p : Nat) :
    v * 10 ^ (s + p) = (q * 10 ^ p + r * 10 ^ p / b : Nat) + (r * 10 ^ p % b : Nat) / b := by
  have hb : (b : ℚ) ≠ 0 := by exact_mod_cast (Nat.zero_lt_of_lt h.remainder_lt).ne'
  have hsplit : ((b * (r * 10 ^ p / b) + r * 10 ^ p % b : Nat) : ℚ) = (r * 10 ^ p : Nat) := by
    rw [Nat.div_add_mod]
  rw [mul_zpow_add, h.value_eq]
  push_cast at hsplit ⊢
  field_simp
  linarith

/-- Where no whole place is left, a quotient that has no room is too large. -/
theorem overflow (h : Partial v b q r s) {p : Nat} (hs : s + p ≤ 0)
    (hq : mantissaBound ≤ q * 10 ^ p) : roundNonneg? v = none := by
  refine roundNonneg?_of_whole h.nonneg hs ?_
  rw [mul_zpow_add]
  have hle : (mantissaBound : ℚ) ≤ q * 10 ^ p := by exact_mod_cast hq
  exact hle.trans (mul_le_mul_of_nonneg_right h.le_mul (by positivity))

/-- Where no further place fits, the rounding of the last digit is the rounding. -/
theorem roundNonneg?_eq (h : Partial v b q r s) (h0 : 0 ≤ s)
    (hmax : s = maxScale ∨ mantissaBound ≤ q * 10) :
    roundNonneg? v =
      settled? (if b < 2 * r ∨ (2 * r = b ∧ q % 2 = 1) then q + 1 else q) s.toNat := by
  obtain ⟨n, rfl⟩ := Int.eq_ofNat_of_zero_le h0
  have hvalue := h.value_eq
  have hle := h.le_mul
  have hlt := h.lt_add_one
  rw [zpow_natCast] at hvalue hle hlt
  have hq : (q + 1 : ℚ) ≤ mantissaBound := by exact_mod_cast h.digits_lt
  rw [roundNonneg?_of_scale h.nonneg (by exact_mod_cast h.scale_le) (hlt.trans_le hq), hvalue,
    roundEven_add_div h.remainder_lt, Int.toNat_natCast]
  rcases hmax with hs | hq
  · exact .inl (by exact_mod_cast hs)
  · right
    have hq : (mantissaBound : ℚ) ≤ q * 10 := by exact_mod_cast hq
    rw [pow_succ, ← mul_assoc]
    linarith

end Partial

/-- A rounded quotient that has reached the bound gives up a place. -/
theorem settles_bound {n : Nat} (hn : n ≤ maxScale) (h : roundNonneg? v = settled? mantissaBound n)
    (extended : Bool) : Settles v (Quotient.shorten mantissaBound n false extended) := by
  rw [settled?, if_pos rfl] at h
  unfold Quotient.shorten
  by_cases h0 : n = 0
  · rw [if_pos h0] at h
    rw [if_pos (by omega)]
    exact h
  · rw [if_neg h0] at h
    rw [if_neg (by omega)]
    have hshort : nearestEven mantissaBound 10 < mantissaBound := by decide
    have hscale : ((n : Int) - 1).toNat = n - 1 := by omega
    refine ⟨hshort, by dsimp only; omega, by dsimp only; omega, ?_⟩
    rw [h, hscale]
    rfl

theorem settles_of_lt {m n : Nat} (hm : m < mantissaBound) (hn : n ≤ maxScale)
    (h : roundNonneg? v = settled? m n) (extended : Bool) : Settles v (some ⟨m, n, extended⟩) := by
  rw [settled?_of_lt hm] at h
  exact ⟨hm, by dsimp only; omega, by dsimp only; omega, by simpa using h⟩

/-- The last digit of a quotient, with what remains behind it, rounds as `shorten` says. -/
theorem roundEven_shorten {digits : Nat} (hr : r < b) :
    roundEven ((digits + r / b) / 10) =
      if (r != 0) && digits % 10 = 5 then digits / 10 + 1 else nearestEven digits 10 := by
  rcases Nat.eq_zero_or_pos r with rfl | hpos
  · have h := roundEven_div digits (b := 10) (by decide)
    simpa using h
  · have hb : (0 : ℚ) < b := by exact_mod_cast Nat.zero_lt_of_lt hr
    have hrpos : (0 : ℚ) < r / b := div_pos (by exact_mod_cast hpos) hb
    have hrlt : (r / b : ℚ) < 1 := (div_lt_one hb).2 (by exact_mod_cast hr)
    have hdigit : ((digits % 10 : Nat) : ℚ) ≤ 9 := by exact_mod_cast (by omega : digits % 10 ≤ 9)
    have hsplit : ((10 * (digits / 10) + digits % 10 : Nat) : ℚ) = digits := by
      rw [Nat.div_add_mod]
    have hvalue : ((digits + r / b) / 10 : ℚ) =
        (digits / 10 : Nat) + ((digits % 10 : Nat) + r / b) / 10 := by
      push_cast at hsplit ⊢
      linarith
    -- what remains makes a digit of five or more greater than a half
    have hup : (1 / 2 < (((digits % 10 : Nat) + r / b) / 10 : ℚ)) ↔ 5 ≤ digits % 10 := by
      constructor
      · intro h
        by_contra hlt
        have hle : ((digits % 10 : Nat) : ℚ) ≤ 4 := by exact_mod_cast (by omega : digits % 10 ≤ 4)
        linarith
      · intro h
        have hle : (5 : ℚ) ≤ (digits % 10 : Nat) := by exact_mod_cast h
        linarith
    have htie : (((digits % 10 : Nat) + r / b) / 10 : ℚ) ≠ 1 / 2 := by
      intro h
      rcases Nat.lt_or_ge (digits % 10) 5 with hlt | hge
      · have hle : ((digits % 10 : Nat) : ℚ) ≤ 4 := by exact_mod_cast (by omega : digits % 10 ≤ 4)
        linarith
      · exact absurd h (hup.2 hge).ne'
    rw [hvalue, roundEven_add (by positivity) (by linarith)]
    simp only [hup, htie, false_and, or_false, nearestEven, bne_iff_ne, ne_eq, hpos.ne',
      not_false_iff, Bool.and_eq_true, decide_eq_true_eq, true_and]
    split_ifs <;> omega

/-- **A quotient that the next digits carry over the bound** drops the last of them. -/
theorem settles_shorten {digits : Nat} {extended : Bool} (h0 : 0 ≤ v)
    (hvalue : v * 10 ^ s = digits + r / b) (hr : r < b) (hs : s ≤ maxScale)
    (hle : mantissaBound ≤ digits) (hlt : digits / 10 + 1 < mantissaBound) :
    Settles v (Quotient.shorten digits s (r != 0) extended) := by
  have hbound : (mantissaBound : ℚ) ≤ v * 10 ^ s := by
    have hle : (mantissaBound : ℚ) ≤ digits := by exact_mod_cast hle
    rw [hvalue]
    exact hle.trans (le_add_of_nonneg_right (by positivity))
  unfold Quotient.shorten
  by_cases hscale : s ≤ 0
  · rw [if_pos hscale]
    exact roundNonneg?_of_whole h0 hscale hbound
  · obtain ⟨n, rfl⟩ : ∃ n : Nat, s = n + 1 := ⟨(s - 1).toNat, by omega⟩
    have hten : v * 10 ^ n = (digits + r / b) / 10 := by
      rw [← hvalue, zpow_add₀ (by norm_num), zpow_natCast, zpow_one]
      ring
    have hbelow : v * 10 ^ n < (digits / 10 + 1 : Nat) := by
      have hb : (0 : ℚ) < b := by exact_mod_cast Nat.zero_lt_of_lt hr
      have hrlt : (r / b : ℚ) < 1 := (div_lt_one hb).2 (by exact_mod_cast hr)
      have hten' : (digits : ℚ) ≤ 10 * (digits / 10 : Nat) + 9 := by
        exact_mod_cast (by omega : digits ≤ 10 * (digits / 10) + 9)
      rw [hten]
      push_cast
      linarith
    have hdigits : roundEven (v * 10 ^ n) < mantissaBound :=
      (roundEven_le (by positivity) hbelow).trans_lt hlt
    have hround : roundNonneg? v = settled? (roundEven (v * 10 ^ n)) n := by
      refine roundNonneg?_of_scale h0 (by omega) ?_ (.inr (by exact_mod_cast hbound))
      exact hbelow.trans (by exact_mod_cast hlt)
    rw [if_neg hscale]
    rw [hten, roundEven_shorten hr] at hdigits hround
    refine ⟨hdigits, ?_, ?_, ?_⟩
    · dsimp only; omega
    · dsimp only; omega
    · rw [hround, settled?_of_lt hdigits]
      simp

theorem stepSize_le_nine (q r : Nat) (s : Int) : stepSize q r s ≤ 9 := by
  have hroom := headroom_le q (min 9 (28 - s).toNat)
  unfold stepSize
  split <;> omega

/-- An exact division steps towards scale zero, and stops there. -/
theorem stepSize_exact (q : Nat) (s : Int) : stepSize q 0 s = min 9 (-s).toNat := if_pos rfl

/-- An inexact division stops where no further place fits. -/
theorem stepSize_eq_zero (hr : r ≠ 0) (hs : s ≤ maxScale) (h : stepSize q r s = 0) :
    s = maxScale ∨ mantissaBound ≤ q * 10 := by
  rw [stepSize, if_neg hr] at h
  rcases headroom_eq_zero h with h | h
  · have hscale : (maxScale : Int) = 28 := rfl
    exact .inl (by omega)
  · exact .inr h

theorem stepSize_fits (hr : r ≠ 0) (h : stepSize q r s ≠ 0) :
    q * 10 ^ stepSize q r s < mantissaBound := by
  rw [stepSize, if_neg hr] at h ⊢
  exact headroom_fits h

namespace Partial

/-- The places of a step are places of the quotient. -/
theorem digits_lt_add (h : Partial v b q r s) (p : Nat) :
    q * 10 ^ p + r * 10 ^ p / b < q * 10 ^ p + 10 ^ p := by
  refine Nat.add_lt_add_left ?_ _
  rw [Nat.div_lt_iff_lt_mul (Nat.zero_lt_of_lt h.remainder_lt), Nat.mul_comm]
  exact Nat.mul_lt_mul_of_pos_left h.remainder_lt (Nat.pow_pos (by decide))

theorem step (h : Partial v b q r s) {p : Nat}
    (hlt : q * 10 ^ p + r * 10 ^ p / b < mantissaBound) (hs : s + p ≤ maxScale) :
    Partial v b (q * 10 ^ p + r * 10 ^ p / b) (r * 10 ^ p % b) (s + p) :=
  ⟨h.step_eq p, Nat.mod_lt _ (Nat.zero_lt_of_lt h.remainder_lt), hlt, hs⟩

/-- A quotient that nothing is left of is the exact one. -/
theorem settles_exact (h : Partial v b q 0 s) (h0 : 0 ≤ s) (extended : Bool) :
    Settles v (some ⟨q, s, extended⟩) := by
  refine ⟨h.digits_lt, h0, h.scale_le, ?_⟩
  obtain ⟨n, rfl⟩ := Int.eq_ofNat_of_zero_le h0
  have hvalue : v = q / 10 ^ n := by
    have h := h.value_eq
    rw [zpow_natCast, Nat.cast_zero, zero_div, add_zero] at h
    rw [← h, mul_div_cancel_right₀ _ (by positivity)]
  rw [hvalue]
  exact roundNonneg?_div_pow h.digits_lt (by exact_mod_cast h.scale_le)

end Partial

/-- **Long division ends with the rounding of the exact quotient**, by induction on its
steps: each of them keeps what is known of the quotient. -/
theorem settles_divideFrom (h : Partial v b q r s) (extended : Bool) :
    Settles v (divideFrom b q r s extended) := by
  fun_induction divideFrom b q r s extended with
  | case1 q s _ p _ hp =>
    -- nothing remains, at a scale that is not below zero
    have h0 : min 9 (-s).toNat = 0 := stepSize_exact q s ▸ hp
    exact h.settles_exact (by omega) _
  | case2 q r s _ p hp hr hs =>
    -- no place fits before the whole part is complete
    rcases stepSize_eq_zero hr h.scale_le hp with hmax | hle
    · omega
    · exact h.overflow (p := 1) (by omega) (by simpa using hle)
  | case3 q r s _ p _ hp hr hs rounded hbound =>
    -- the last digit is rounded up to the bound
    obtain ⟨n, rfl⟩ := Int.eq_ofNat_of_zero_le (Int.not_lt.1 hs)
    have hround : roundNonneg? v = settled? rounded n :=
      h.roundNonneg?_eq (by omega) (stepSize_eq_zero hr h.scale_le hp)
    rw [hbound] at hround ⊢
    exact settles_bound (by exact_mod_cast h.scale_le) hround _
  | case4 q r s _ p _ hp hr hs rounded hbound =>
    -- the last digit is rounded, and stays below the bound
    obtain ⟨n, rfl⟩ := Int.eq_ofNat_of_zero_le (Int.not_lt.1 hs)
    have hround : roundNonneg? v = settled? rounded n :=
      h.roundNonneg?_eq (by omega) (stepSize_eq_zero hr h.scale_le hp)
    have hle : rounded ≤ q + 1 := by
      simp only [rounded]
      split <;> omega
    have hlt : rounded < mantissaBound := lt_of_le_of_ne (hle.trans h.digits_lt) hbound
    exact settles_of_lt hlt (by exact_mod_cast h.scale_le) hround _
  | case5 q r s _ p hp hle =>
    -- only an exact quotient on its way to scale zero can have no room for its places
    by_cases hr : r = 0
    · subst hr
      have hstep : p = min 9 (-s).toNat := stepSize_exact q s
      exact h.overflow (by omega) hle
    · exact absurd (stepSize_fits hr hp) (Nat.not_lt.2 hle)
  | case6 q r s _ p _ hp hfit q' r' hcarry =>
    -- the places fit, but the digits in them carry over the bound, by less than a place
    have hlt : q' < q * 10 ^ p + 10 ^ p := h.digits_lt_add p
    have hpow : 10 ^ p ≤ 10 ^ 9 := Nat.pow_le_pow_right (by decide) (stepSize_le_nine q r s)
    refine settles_shorten h.nonneg (h.step_eq p)
      (Nat.mod_lt _ (Nat.zero_lt_of_lt h.remainder_lt)) (stepSize_le q r s hp) hcarry ?_
    simp only [mantissaBound] at *
    omega
  | case7 q r s _ p _ hp hfit q' r' hcarry ih =>
    -- the division goes on with what is known of the quotient
    exact ih (h.step (Nat.not_le.1 hcarry) (stepSize_le q r s hp))

/-- The parts `t` are those of `q / 10 ^ s` with zeros dropped at the end of `q`. -/
def Trims (q s : Nat) (t : Nat × Nat) : Prop := ∃ k, s = t.2 + k ∧ q = t.1 * 10 ^ k

namespace Trims

variable {q s k : Nat} {t u : Nat × Nat}

theorem refl (q s : Nat) : Trims q s (q, s) := ⟨0, rfl, by simp⟩

theorem trans (h : Trims q s t) (h' : Trims t.1 t.2 u) : Trims q s u := by
  obtain ⟨j, rfl, rfl⟩ := h
  obtain ⟨k, hs, hq⟩ := h'
  exact ⟨k + j, by omega, by rw [hq, pow_add, mul_assoc]⟩

/-- Digits that are all zero are dropped, if the scale has as many. -/
theorem of_mod_eq_zero (hs : k ≤ s) (hq : q % 10 ^ k = 0) : Trims q s (q / 10 ^ k, s - k) :=
  ⟨k, by dsimp only; omega, (Nat.div_mul_cancel (Nat.dvd_of_mod_eq_zero hq)).symm⟩

theorem dropZeros (k q s : Nat) : Trims q s (dropZeros k q s) := by
  unfold Decimal.dropZeros
  split
  · rename_i h
    exact of_mod_eq_zero h.1 h.2
  · exact refl q s

theorem dropEights (q s : Nat) : Trims q s (dropEights q s) := by
  fun_induction Decimal.dropEights q s with
  | case1 q s h ih => exact (of_mod_eq_zero h.1 h.2.2).trans ih
  | case2 q s h => exact refl q s

theorem trimQuotient (q s : Nat) : Trims q s (trimQuotient q s) :=
  (((dropEights q s).trans (dropZeros 4 _ _)).trans (dropZeros 2 _ _)).trans (dropZeros 1 _ _)

theorem div_eq (h : Trims q s t) : (t.1 / 10 ^ t.2 : ℚ) = q / 10 ^ s := by
  obtain ⟨k, rfl, rfl⟩ := h
  push_cast
  rw [pow_add]
  field_simp

theorem fst_le (h : Trims q s t) : t.1 ≤ q := by
  obtain ⟨k, -, rfl⟩ := h
  exact Nat.le_mul_of_pos_right _ (Nat.pow_pos (by decide))

theorem snd_le (h : Trims q s t) : t.2 ≤ s := by
  obtain ⟨k, rfl, -⟩ := h
  omega

end Trims

/-- What long division starts from: the whole quotient of the mantissas. -/
theorem partial_start (a b : Decimal) (hb : 0 < b.mantissa) :
    Partial (a.mantissa / 10 ^ a.scale / (b.mantissa / 10 ^ b.scale)) b.mantissa
      (a.mantissa / b.mantissa) (a.mantissa % b.mantissa) ((a.scale : Int) - b.scale) where
  value_eq := by
    have hb : (b.mantissa : ℚ) ≠ 0 := by exact_mod_cast hb.ne'
    have hsplit : ((b.mantissa * (a.mantissa / b.mantissa) + a.mantissa % b.mantissa : Nat) : ℚ) =
        a.mantissa := by rw [Nat.div_add_mod]
    rw [zpow_sub₀ (by norm_num), zpow_natCast, zpow_natCast]
    push_cast at hsplit ⊢
    field_simp
    linarith
  remainder_lt := Nat.mod_lt _ hb
  digits_lt := (Nat.div_le_self _ _).trans_lt a.mantissa_lt
  scale_le := by
    have ha : (a.scale : Int) ≤ maxScale := by exact_mod_cast a.scale_le
    omega

/-- The sign that is left off a zero does not show in the value. -/
theorem withSign_and_ne_zero (negative : Bool) (m s : Nat) :
    withSign (negative && m != 0) (m / 10 ^ s) = withSign negative (m / 10 ^ s) := by
  rcases Nat.eq_zero_or_pos m with rfl | hpos
  · rw [Nat.cast_zero, zero_div, withSign_zero, withSign_zero]
  · have hne : (m != 0) = true := bne_iff_ne.2 hpos.ne'
    rw [hne, Bool.and_true]

/-- **The quotient is the rounded exact quotient.** -/
theorem map_value_div (a b : Decimal) (hb : b.value ≠ 0) :
    (div a b).map value = round? (a.value / b.value) := by
  unfold div
  by_cases ha : a.isZero
  · rw [if_pos ha, (isZero_iff a).1 ha, zero_div, ← value_zero, round?_value]
    rfl
  · have hpos : 0 < b.mantissa := Nat.pos_of_ne_zero fun h => hb ((value_eq_zero_iff b).2 h)
    have hquotient : a.value / b.value = withSign (a.negative != b.negative)
        (a.mantissa / 10 ^ a.scale / (b.mantissa / 10 ^ b.scale)) := by
      rw [value_eq_withSign, value_eq_withSign]
      cases a.negative <;> cases b.negative <;> simp [withSign, neg_div, div_neg]
    have hsettles := settles_divideFrom (partial_start a b hpos) false
    rw [if_neg ha, hquotient, round?_withSign _ (by positivity)]
    cases hdiv : divideFrom b.mantissa (a.mantissa / b.mantissa) (a.mantissa % b.mantissa)
        ((a.scale : Int) - b.scale) false with
    | none =>
      rw [hdiv] at hsettles
      have hround : roundNonneg? _ = none := hsettles
      rw [hround]
      rfl
    | some z =>
      rw [hdiv] at hsettles
      obtain ⟨hdigits, h0, hscale, hround⟩ := hsettles
      obtain ⟨t, ht, htrims⟩ : ∃ t, (if z.extended then trimQuotient z.digits z.scale.toNat
          else (z.digits, z.scale.toNat)) = t ∧ Trims z.digits z.scale.toNat t := by
        refine ⟨_, rfl, ?_⟩
        split
        · exact .trimQuotient _ _
        · exact .refl _ _
      simp only [bind, Option.bind, ht]
      have hplaces : z.scale.toNat ≤ maxScale := by omega
      rw [map_value_ofParts? _ (htrims.fst_le.trans_lt hdigits) (htrims.snd_le.trans hplaces),
        withSign_and_ne_zero, hround, htrims.div_eq]
      rfl

end Formulary.Decimal

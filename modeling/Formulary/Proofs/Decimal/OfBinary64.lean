import Mathlib.Algebra.Order.Floor.Semiring
import Mathlib.Data.Nat.Find
import Mathlib.Data.Rat.Floor
import Mathlib.Logic.Function.Iterate
import Mathlib.Tactic.Linarith
import Mathlib.Tactic.Ring
import Formulary.Decimal.OfBinary64
import Formulary.Proofs.Binary64.Shortest

/-!
# How a binary number is rounded to a decimal

A number `m / 2 ^ n` is made a decimal by putting fives for the twos, and then dropping digits,
one after the other, until there are at most 28 places and 52 bits. What the fives lose is too
little to matter (`absorbFives_spec`). The digits that are dropped one by one are rounded as a
whole, but at four ninths (`iterate_dropDigit_eq`).

* `keep`: a number with as many places as fit into 52 bits; `settle_spec`: that is what the
  digits are settled as.
* `abs_keep_sub_le`: fifteen digits are kept, or all 28 places.
* `ofBinary64?_spec`: **the decimal of a binary number** is what is kept of what arrives.
* `abs_value_of_whole`, `abs_abs_value_sub_le`: the conversion is exact on whole numbers and
  accurate on the others.
-/

namespace Formulary.Decimal

theorem dropDigit_eq (m : Nat) : dropDigit m = (m + 5) / 10 := by
  unfold dropDigit
  split <;> omega

/-- **A number without its digits behind the point**, dropped one after the other: more than
four ninths round up. -/
def roundNinths (q : ℚ) : Nat := ⌈q - 4 / 9⌉₊

theorem lt_roundNinths_iff {q : ℚ} {n : Nat} : n < roundNinths q ↔ n + 4 / 9 < q := by
  unfold roundNinths
  rw [Nat.lt_ceil, lt_sub_iff_add_lt]

theorem roundNinths_mono : Monotone roundNinths :=
  fun _ _ h => Nat.ceil_mono (sub_le_sub_right h _)

theorem roundNinths_natCast (n : Nat) : roundNinths n = n := by
  refine eq_of_forall_lt_iff fun m => ?_
  rw [lt_roundNinths_iff]
  constructor
  · intro h
    have hlt : (m : ℚ) < n := by linarith
    exact_mod_cast hlt
  · intro h
    have hle : (m : ℚ) + 1 ≤ n := by exact_mod_cast h
    linarith

/-- **Digits that are dropped one after the other** round as a whole, at four ninths: a half
upwards in one digit makes a half of less in the next. -/
theorem iterate_dropDigit_eq (n m : Nat) : dropDigit^[n] m = roundNinths (m / 10 ^ n) := by
  have hlt (g : Nat) : g < dropDigit^[n] m ↔ 10 ^ n * (9 * g + 4) < 9 * m := by
    induction n generalizing m with
    | zero =>
      rw [Function.iterate_zero, id_eq]
      omega
    | succ n ih =>
      have hmod : 10 ^ n * (9 * g + 4) % 9 = 4 := by
        have hpow : 10 ^ n % 9 = 1 := by rw [Nat.pow_mod]; simp
        rw [Nat.mul_mod, hpow]
        omega
      rw [Function.iterate_succ_apply, ih, dropDigit_eq, Nat.pow_succ, Nat.mul_right_comm]
      generalize 10 ^ n * (9 * g + 4) = bound at hmod
      omega
  refine eq_of_forall_lt_iff fun g => ?_
  have hpow : (0 : ℚ) < 10 ^ n := by positivity
  rw [hlt, lt_roundNinths_iff, lt_div_iff₀ hpow]
  rw [← Nat.cast_lt (α := ℚ)]
  push_cast
  constructor <;> intro h <;> linarith

/-- The largest part of a number that is lost where an odd mantissa is halved. -/
abbrev lossBound : ℚ := 5 / 2 ^ 96

/-- Two losses, of which the second is counted on less, are counted together. -/
theorem loss_add {u v w : ℚ} {n : Nat} (hle : v ≤ u) (hstep : u - v ≤ lossBound * u)
    (hrest : v - w ≤ n * lossBound * v) : u - w ≤ (n + 1 : Nat) * lossBound * u := by
  have hmono : n * lossBound * v ≤ n * lossBound * u :=
    mul_le_mul_of_nonneg_left hle (by positivity)
  push_cast
  linarith

/-- Where nothing is lost, a loss is counted with room for one more. -/
theorem loss_succ {u w : ℚ} {n : Nat} (hu : 0 ≤ u) (h : u - w ≤ n * lossBound * u) :
    u - w ≤ (n + 1 : Nat) * lossBound * u := by
  refine loss_add le_rfl ?_ h
  rw [sub_self]
  positivity

/-- A mantissa without room for a five is so large that one is a small part of it. -/
theorem one_le_loss {m : Nat} (hfull : ¬ m * 5 < mantissaBound) : 1 ≤ lossBound * m := by
  have hcast : (2 ^ 96 : ℚ) ≤ m * 5 := by exact_mod_cast Nat.le_of_not_lt hfull
  rw [div_mul_eq_mul_div, le_div_iff₀ (by positivity)]
  linarith

/-- **A decimal in place of a binary fraction** `m / 2 ^ n / 10 ^ q`: it is no larger, and what
it loses, it loses where odd mantissas that have no room for a five are halved. -/
theorem absorbFives_spec (n m q : Nat) (hm : m < mantissaBound) :
    ∃ a p : Nat, absorbFives n ⟨m, -((n + q : Nat) : Int)⟩ = ⟨a, -(p : Int)⟩ ∧ a < mantissaBound ∧
      (a / 10 ^ p : ℚ) ≤ m / (2 ^ n * 10 ^ q) ∧
      (m / (2 ^ n * 10 ^ q) - a / 10 ^ p : ℚ) ≤ n * lossBound * (m / (2 ^ n * 10 ^ q)) := by
  induction n generalizing m q with
  | zero => exact ⟨m, q, by simp [absorbFives], hm, by simp, by simp⟩
  | succ n ih =>
    have hscale : (0 : ℚ) < 2 ^ (n + 1) * 10 ^ q := by positivity
    have hraised : -((n + 1 + q : Nat) : Int) + 1 = -((n + q : Nat) : Int) := by
      push_cast
      ring
    have hkept : -((n + 1 + q : Nat) : Int) = -((n + (q + 1) : Nat) : Int) := by
      push_cast
      ring
    -- half a mantissa stands for the same number, a factor of two being taken out of it
    have hhalf : ((m / 2 : Nat) / (2 ^ n * 10 ^ q) : ℚ) =
        (2 * (m / 2) : Nat) / (2 ^ (n + 1) * 10 ^ q) := by
      push_cast
      rw [pow_succ]
      field_simp
    unfold absorbFives
    split
    · rename_i heven
      obtain ⟨a, p, heq, ha, hle, hloss⟩ := ih (m / 2) q (by omega)
      rw [hhalf, (by omega : 2 * (m / 2) = m)] at hle hloss
      exact ⟨a, p, by rw [hraised, heq], ha, hle, loss_succ (by positivity) hloss⟩
    · split
      · rename_i hroom
        have hfive : ((m * 5 : Nat) / (2 ^ n * 10 ^ (q + 1)) : ℚ) = m / (2 ^ (n + 1) * 10 ^ q) := by
          push_cast
          rw [pow_succ, pow_succ]
          field_simp
          ring
        obtain ⟨a, p, heq, ha, hle, hloss⟩ := ih (m * 5) (q + 1) hroom
        rw [hfive] at hle hloss
        exact ⟨a, p, by rw [hkept, heq], ha, hle, loss_succ (by positivity) hloss⟩
      · rename_i hodd hfull
        have hm1 : ((2 * (m / 2) : Nat) : ℚ) = m - 1 := by
          have hcast : ((2 * (m / 2) : Nat) : ℚ) + 1 = m := by
            exact_mod_cast (by omega : 2 * (m / 2) + 1 = m)
          linarith
        obtain ⟨a, p, heq, ha, hle, hloss⟩ := ih (m / 2) q (by omega)
        rw [hhalf, hm1] at hle hloss
        have hbelow : ((m - 1) / (2 ^ (n + 1) * 10 ^ q) : ℚ) ≤ m / (2 ^ (n + 1) * 10 ^ q) :=
          div_le_div_of_nonneg_right (by linarith) hscale.le
        refine ⟨a, p, by rw [hraised, heq], ha, hle.trans hbelow, loss_add hbelow ?_ hloss⟩
        rw [← sub_div, sub_sub_cancel, mul_div_assoc']
        exact div_le_div_of_nonneg_right (one_le_loss hfull) hscale.le

/-- A mantissa that has the twos in it gives them all. -/
theorem absorbFives_of_twos (n m : Nat) : absorbFives n ⟨m * 2 ^ n, -(n : Int)⟩ = ⟨m, 0⟩ := by
  induction n with
  | zero => simp [absorbFives]
  | succ n ih =>
    have hexponent : -((n + 1 : Nat) : Int) + 1 = -(n : Int) := by
      push_cast
      ring
    have heven : m * 2 ^ (n + 1) % 2 = 0 := by
      rw [Nat.pow_succ, ← Nat.mul_assoc, Nat.mul_mod_left]
    have hhalf : m * 2 ^ (n + 1) / 2 = m * 2 ^ n := by
      rw [Nat.pow_succ, ← Nat.mul_assoc, Nat.mul_div_cancel _ (by decide)]
    rw [absorbFives, if_pos heven, hhalf, hexponent, ih]

/-- Twos enter the mantissa as long as there is room for them. -/
theorem releaseFives_of_lt (n m : Nat) (hlt : m * 2 ^ n < mantissaBound) :
    releaseFives n ⟨m, n⟩ = some ⟨m * 2 ^ n, 0⟩ := by
  induction n generalizing m with
  | zero => simp [releaseFives]
  | succ n ih =>
    have hdouble : m * 2 ^ (n + 1) = m * 2 * 2 ^ n := by
      rw [Nat.pow_succ, Nat.mul_comm (2 ^ n), Nat.mul_assoc]
    have hexponent : ((n + 1 : Nat) : Int) - 1 = n := by
      push_cast
      ring
    have hroom : m < 2 ^ 95 := by
      have hle : m * 2 ≤ m * 2 * 2 ^ n := Nat.le_mul_of_pos_right _ (Nat.two_pow_pos n)
      have hdouble : m * 2 < 2 ^ 96 := Nat.lt_of_le_of_lt hle (hdouble ▸ hlt)
      omega
    rw [releaseFives, if_pos hroom, hexponent, ih _ (hdouble ▸ hlt), ← hdouble]

/-- Digits are dropped one after the other, unless the mantissa runs out of them. -/
theorem dropDigits_eq (s n m : Nat) :
    dropDigits s n m = (dropDigit^[n] m, s) ∨
      dropDigits s n m = (0, 0) ∧ ∃ j < n, dropDigit^[j] m < 10 := by
  induction n generalizing m with
  | zero => exact .inl rfl
  | succ n ih =>
    unfold dropDigits
    split
    · rename_i hout
      refine .inr ⟨rfl, 0, Nat.succ_pos n, ?_⟩
      rw [Function.iterate_zero, id_eq]
      omega
    · rcases ih (dropDigit m) with heq | ⟨heq, j, hj, hlt⟩
      · exact .inl heq
      · exact .inr ⟨heq, j + 1, Nat.succ_lt_succ hj, hlt⟩

/-- Bits are dropped digit by digit: the first mantissa of 52 bits is kept, or the one without
places. -/
theorem dropBits_eq (m s : Nat) :
    ∃ i ≤ s, dropBits m s = (dropDigit^[i] m, s - i) ∧ (i = s ∨ dropDigit^[i] m < 2 ^ 52) ∧
      ∀ j < i, 2 ^ 52 ≤ dropDigit^[j] m := by
  induction s generalizing m with
  | zero => exact ⟨0, Nat.le_refl 0, rfl, .inl rfl, fun j hj => absurd hj (Nat.not_lt_zero j)⟩
  | succ s ih =>
    unfold dropBits
    split
    · rename_i hlong
      obtain ⟨i, hi, heq, hend, hbefore⟩ := ih (dropDigit m)
      refine ⟨i + 1, Nat.succ_le_succ hi, ?_, ?_, ?_⟩
      · rw [heq, Function.iterate_succ_apply, Nat.succ_sub_succ]
      · rw [Function.iterate_succ_apply]
        exact hend.imp_left (congrArg _)
      · intro j hj
        cases j with
        | zero => exact hlong
        | succ j => exact hbefore j (Nat.lt_of_succ_lt_succ hj)
    · rename_i hshort
      exact ⟨0, Nat.zero_le _, rfl, .inr (Nat.lt_of_not_le hshort),
        fun j hj => absurd hj (Nat.not_lt_zero j)⟩

/-- Digits that are dropped do not make a mantissa larger. -/
theorem iterate_dropDigit_le (n m : Nat) : dropDigit^[n] m ≤ m := by
  induction n with
  | zero => exact Nat.le_refl m
  | succ n ih =>
    rw [Function.iterate_succ_apply', dropDigit_eq]
    omega

/-- The digits of a mantissa that are left with fewer places are those of the number. -/
theorem iterate_dropDigit_places {a p s : Nat} (hs : s ≤ p) :
    dropDigit^[p - s] a = roundNinths (a / 10 ^ p * 10 ^ s) := by
  rw [iterate_dropDigit_eq, pow_sub₀ (10 : ℚ) (by norm_num) hs]
  congr 1
  field_simp

/-- **The most places with which a number fits into 52 bits**, 28 at most. -/
def keptPlaces (q : ℚ) : Nat := Nat.findGreatest (fun s => roundNinths (q * 10 ^ s) < 2 ^ 52) 28

/-- **What is kept of a number**: so many places as fit into 52 bits. -/
def keep (q : ℚ) : ℚ := roundNinths (q * 10 ^ keptPlaces q) / 10 ^ keptPlaces q

theorem keptPlaces_eq_iff {q : ℚ} {s : Nat} :
    keptPlaces q = s ↔ s ≤ 28 ∧ (s ≠ 0 → roundNinths (q * 10 ^ s) < 2 ^ 52) ∧
      ∀ ⦃n⦄, s < n → n ≤ 28 → ¬ roundNinths (q * 10 ^ n) < 2 ^ 52 :=
  Nat.findGreatest_eq_iff

/-- The places that are kept: the digits fit, and with one place more they do not. -/
theorem keptPlaces_eq {q : ℚ} {s : Nat} (hq : 0 ≤ q) (hs : s ≤ 28)
    (hfit : s ≠ 0 → roundNinths (q * 10 ^ s) < 2 ^ 52)
    (hmore : s < 28 → 2 ^ 52 ≤ roundNinths (q * 10 ^ (s + 1))) : keptPlaces q = s := by
  refine keptPlaces_eq_iff.2 ⟨hs, hfit, fun n hn hn' => Nat.not_lt.2 ?_⟩
  have hmono : q * 10 ^ (s + 1) ≤ q * 10 ^ n :=
    mul_le_mul_of_nonneg_left (pow_le_pow_right₀ (by norm_num) hn) hq
  exact Nat.le_trans (hmore (Nat.lt_of_lt_of_le hn hn')) (roundNinths_mono hmono)

/-- A number that needs no more places than are kept is kept as it is. -/
theorem keep_of_mem {q : ℚ} {n s : Nat} (h : q * 10 ^ s = n) (hs : s ≤ keptPlaces q) :
    keep q = q := by
  obtain ⟨i, hi⟩ := Nat.exists_eq_add_of_le hs
  have hwhole : q * 10 ^ keptPlaces q = (n * 10 ^ i : Nat) := by
    rw [hi, pow_add, ← mul_assoc, h]
    push_cast
    rfl
  rw [keep, hwhole, roundNinths_natCast, ← hwhole, mul_div_cancel_right₀ _ (by positivity)]

/-- **Once the digits beyond the last place are dropped, the bits that are left** are what is
kept of the number. -/
theorem dropBits_spec (a p : Nat) :
    let kept := dropBits (dropDigit^[p - 28] a) (min p 28)
    kept.1 ≤ a ∧ kept.2 ≤ 28 ∧ (kept.1 / 10 ^ kept.2 : ℚ) = keep (a / 10 ^ p) := by
  obtain ⟨i, hi, hkept, hend, hbefore⟩ := dropBits_eq (dropDigit^[p - 28] a) (min p 28)
  -- the digits dropped for the places and those dropped for the bits are dropped as one
  have hboth (j : Nat) (hj : j ≤ min p 28) :
      dropDigit^[j] (dropDigit^[p - 28] a) =
        roundNinths (a / 10 ^ p * 10 ^ (min p 28 - j)) := by
    rw [← Function.iterate_add_apply, ← iterate_dropDigit_places (by omega)]
    congr 1
    omega
  have hle : dropDigit^[i] (dropDigit^[p - 28] a) ≤ a :=
    Nat.le_trans (iterate_dropDigit_le _ _) (iterate_dropDigit_le _ _)
  rw [hkept]
  refine ⟨hle, by omega, ?_⟩
  dsimp only
  rw [hboth i hi] at hend ⊢
  generalize hs : min p 28 - i = s at hend ⊢
  have hfit : s ≠ 0 → roundNinths (a / 10 ^ p * 10 ^ s) < 2 ^ 52 :=
    fun h => hend.resolve_left (by omega)
  by_cases hall : s = p
  · -- no digit is dropped at all
    have hmem : (a / 10 ^ p * 10 ^ s : ℚ) = a := by
      rw [hall, div_mul_cancel₀ _ (by positivity)]
    have hplaces : s ≤ keptPlaces (a / 10 ^ p) := by
      rcases Nat.eq_zero_or_pos s with hzero | hpos
      · omega
      · exact Nat.le_findGreatest (by omega) (hfit hpos.ne')
    rw [keep_of_mem hmem hplaces, hmem, roundNinths_natCast, hall]
  · have hmore : s < 28 → 2 ^ 52 ≤ roundNinths (a / 10 ^ p * 10 ^ (s + 1)) := by
      intro hlt
      have hj : min p 28 - (i - 1) = s + 1 := by omega
      rw [← hj, ← hboth (i - 1) (by omega)]
      exact hbefore (i - 1) (by omega)
    rw [keep, keptPlaces_eq (by positivity) (by omega) hfit hmore]

/-- Of less than four ninths of the last place, nothing is kept. -/
theorem keep_eq_zero {q : ℚ} (hq : 0 ≤ q) (h : q * 10 ^ 28 ≤ 4 / 9) : keep q = 0 := by
  have hround : roundNinths (q * 10 ^ 28) = 0 := by
    refine Nat.eq_zero_of_not_pos fun hpos => ?_
    have hlt := lt_roundNinths_iff.1 hpos
    rw [Nat.cast_zero, zero_add] at hlt
    exact absurd h (not_le.2 hlt)
  have hplaces : keptPlaces q = 28 :=
    keptPlaces_eq hq le_rfl (fun _ => by rw [hround]; decide) fun hlt => absurd hlt (lt_irrefl _)
  rw [keep, hplaces, hround, Nat.cast_zero, zero_div]

/-- **A number on its way is settled** as what is kept of it, unless it runs out of digits. -/
theorem settle_spec {a : Nat} (p : Nat) (ha : a < mantissaBound) :
    ∃ m s : Nat, settle ⟨a, -(p : Int)⟩ = some (m, s) ∧ m < mantissaBound ∧ s ≤ 28 ∧
      ((m / 10 ^ s : ℚ) = keep (a / 10 ^ p) ∨ m = 0 ∧ (a / 10 ^ p * 10 ^ 29 : ℚ) ≤ 85 / 9) := by
  have hsettle {d : Nat × Nat} (hdrop : dropDigits (min p 28) (p - 28) a = d) :
      settle ⟨a, -(p : Int)⟩ =
        some (stripZeros (dropBits d.1 d.2).1 (dropBits d.1 d.2).2) := by
    unfold settle
    simp [hdrop]
  rcases dropDigits_eq (min p 28) (p - 28) a with hdrop | ⟨hdrop, j, hj, hlt⟩
  · replace hsettle := hsettle hdrop
    obtain ⟨hle, hscale, hkeep⟩ := dropBits_spec a p
    dsimp only at hsettle
    generalize dropBits (dropDigit^[p - 28] a) (min p 28) = kept at hsettle hle hscale hkeep
    have hstrip := stripZeros_le kept.1 kept.2
    refine ⟨_, _, hsettle, by omega, by omega, .inl ?_⟩
    rw [← hkeep, div_eq_div_iff (by positivity) (by positivity)]
    exact_mod_cast stripZeros_value kept.1 kept.2
  · refine ⟨0, 0, hsettle hdrop, by decide, by decide, .inr ⟨rfl, ?_⟩⟩
    have hj' : 29 ≤ p - j := by
        omega
    have hout := iterate_dropDigit_places (a := a) (Nat.sub_le p j)
    rw [Nat.sub_sub_self (by omega)] at hout
    rw [hout] at hlt
    have hten : ¬ 9 < roundNinths (a / 10 ^ p * 10 ^ (p - j)) := by omega
    rw [lt_roundNinths_iff, not_lt] at hten
    have hmono : (a / 10 ^ p * 10 ^ 29 : ℚ) ≤ a / 10 ^ p * 10 ^ (p - j) :=
      mul_le_mul_of_nonneg_left (pow_le_pow_right₀ (by norm_num) hj') (by positivity)
    norm_num at hten
    linarith

/-- A number is off by five ninths at most when its places are rounded away. -/
theorem abs_roundNinths_sub_le {q : ℚ} (hq : 0 ≤ q) : |roundNinths q - q| ≤ 5 / 9 := by
  have hbelow : (roundNinths q : ℚ) < q + 5 / 9 := by
    rcases Nat.eq_zero_or_pos (roundNinths q) with hzero | hpos
    · rw [hzero, Nat.cast_zero]
      linarith
    · have hlt := lt_roundNinths_iff.1 (Nat.sub_one_lt_of_lt hpos)
      rw [Nat.cast_pred hpos] at hlt
      linarith
  have habove : q ≤ roundNinths q + 4 / 9 := not_lt.1 (mt lt_roundNinths_iff.2 (lt_irrefl _))
  rw [abs_le]
  constructor <;> linarith

/-- **Fifteen digits of a number are kept**, or all of its 28 places. -/
theorem abs_keep_sub_le {q : ℚ} (hq : 0 ≤ q) :
    |keep q - q| ≤ q / (81 * 10 ^ 13) + 5 / 9 / 10 ^ 28 := by
  obtain ⟨hplaces, -, hmore⟩ := keptPlaces_eq_iff.1 (rfl : keptPlaces q = _)
  generalize hs : keptPlaces q = s at hplaces hmore
  have hpow : (0 : ℚ) < 10 ^ s := by positivity
  have hoff : |keep q - q| ≤ 5 / 9 / 10 ^ s := by
    have hround := abs_roundNinths_sub_le (q := q * 10 ^ s) (by positivity)
    have hdiv : keep q - q = (roundNinths (q * 10 ^ s) - q * 10 ^ s) / 10 ^ s := by
      rw [keep, hs, sub_div, mul_div_cancel_right₀ _ hpow.ne']
    rw [hdiv, abs_div, abs_of_pos hpow]
    exact div_le_div_of_nonneg_right hround hpow.le
  rcases Nat.lt_or_ge s 28 with hlt | hge
  · -- one place more would not fit into 52 bits
    have hlong : (2 ^ 52 : ℚ) ≤ roundNinths (q * 10 ^ (s + 1)) := by
      exact_mod_cast Nat.not_lt.1 (hmore (Nat.lt_succ_self s) hlt)
    have hround := (abs_le.1 (abs_roundNinths_sub_le (q := q * 10 ^ (s + 1)) (by positivity))).2
    have hstep : 5 / 9 / 10 ^ s ≤ q / (81 * 10 ^ 13) := by
      rw [div_le_div_iff₀ hpow (by norm_num)]
      rw [pow_succ (10 : ℚ)] at hlong hround
      linarith
    have hfirst : (0 : ℚ) ≤ 5 / 9 / 10 ^ 28 := by positivity
    linarith
  · have hall : s = 28 := Nat.le_antisymm hplaces hge
    rw [hall] at hoff
    have hrest : 0 ≤ q / (81 * 10 ^ 13) := by positivity
    linarith

section Finite

variable {x : Binary64.Finite} {d : Decimal} {q : ℚ}

/-- **The decimal is what is kept of a number**, or zero where the number runs out of digits
before the last place. -/
def Keeps (d : Decimal) (q : ℚ) : Prop :=
  |d.value| = keep q ∨ d.value = 0 ∧ q * 10 ^ 29 ≤ 85 / 9

/-- **What arrives of a number where its decimal is rounded**: next to nothing is lost, and
nothing of a whole number. -/
structure Arrives (x : Binary64.Finite) (q : ℚ) : Prop where
  nonneg : 0 ≤ q
  le : q ≤ x.magnitude
  loss : x.magnitude - q ≤ 1074 * lossBound * x.magnitude
  whole (n : Nat) : x.magnitude = n → q = n

theorem Arrives.of_eq (h : q = x.magnitude) : Arrives x q where
  nonneg := h ▸ x.magnitude_nonneg
  le := h.le
  loss := by
    have hnonneg := x.magnitude_nonneg
    rw [h, sub_self]
    positivity
  whole _ hn := h.trans hn

/-- What arrives of a number, with its places before the point. -/
theorem Arrives.scale (ha : Arrives x q) (s : Nat) :
    q * 10 ^ s ≤ x.magnitude * 10 ^ s ∧
      x.magnitude * 10 ^ s - q * 10 ^ s ≤ 5370 / 2 ^ 96 * (x.magnitude * 10 ^ s) := by
  have hten : (0 : ℚ) < 10 ^ s := by positivity
  have hloss := mul_le_mul_of_nonneg_right ha.loss hten.le
  refine ⟨mul_le_mul_of_nonneg_right ha.le hten.le, ?_⟩
  unfold lossBound at hloss
  linarith

/-- Of a number with an exponent below zero, next to nothing is lost to the fives. -/
theorem absorbFives_arrives {n : Nat} (he : x.exponent = -n) :
    ∃ a p : Nat, absorbFives n ⟨x.significand, -(n : Int)⟩ = ⟨a, -(p : Int)⟩ ∧
      a < mantissaBound ∧ Arrives x (a / 10 ^ p) := by
  have hmagnitude := Binary64.Finite.magnitude_eq_div he
  have hsignificand : x.significand < mantissaBound := Nat.lt_trans x.significand_lt (by decide)
  by_cases htwos : 2 ^ n ∣ x.significand
  · obtain ⟨m, hm⟩ := htwos
    rw [Nat.mul_comm] at hm
    refine ⟨m, 0, by rw [hm, absorbFives_of_twos]; rfl, ?_, Arrives.of_eq ?_⟩
    · exact Nat.lt_of_le_of_lt (Nat.le_mul_of_pos_right m (Nat.two_pow_pos n)) (hm ▸ hsignificand)
    · rw [hmagnitude, hm]
      push_cast
      rw [mul_div_cancel_right₀ _ (by positivity), pow_zero, div_one]
  · obtain ⟨a, p, heq, ha, hle, hloss⟩ := absorbFives_spec n x.significand 0 hsignificand
    rw [pow_zero, mul_one, ← hmagnitude] at hle hloss
    refine ⟨a, p, heq, ha, by positivity, hle, hloss.trans ?_, ?_⟩
    · have hge := x.exponent_ge
      have hcast : (n : ℚ) ≤ 1074 := by exact_mod_cast (by omega : n ≤ 1074)
      have hnonneg := x.magnitude_nonneg
      gcongr
    · intro k hk
      rw [hmagnitude, div_eq_iff (by positivity)] at hk
      exact absurd ⟨k, by rw [Nat.mul_comm]; exact_mod_cast hk⟩ htwos

/-- A number with an exponent above zero arrives as it is. -/
theorem releaseFives_arrives {n : Nat} (he : x.exponent = n) (h : x.magnitude < 10 ^ 28) :
    ∃ a : Nat, releaseFives n ⟨x.significand, n⟩ = some ⟨a, 0⟩ ∧ a < mantissaBound ∧
      Arrives x a := by
  have hmagnitude : x.magnitude = (x.significand * 2 ^ n : Nat) := by
    rw [Binary64.Finite.magnitude, he, zpow_natCast]
    push_cast
    rfl
  have hlt : x.significand * 2 ^ n < mantissaBound := by
    rw [hmagnitude] at h
    exact Nat.lt_trans (by exact_mod_cast h) (by decide : 10 ^ 28 < mantissaBound)
  exact ⟨_, releaseFives_of_lt n _ hlt, hlt, Arrives.of_eq hmagnitude.symm⟩

/-- **The decimal of a binary number** has its sign, and is what is kept of what arrives. -/
theorem ofBinary64?_spec (h : x.magnitude < 10 ^ 28) :
    ∃ d q, ofBinary64? x = some d ∧ d.negative = x.negative ∧ Arrives x q ∧ Keeps d q := by
  have hsettled (a p : Nat) (ha : a < mantissaBound) :
      ∃ d, (settle ⟨a, -(p : Int)⟩).bind (fun r => ofParts? x.negative r.1 r.2) = some d ∧
        d.negative = x.negative ∧ Keeps d (a / 10 ^ p) := by
    obtain ⟨m, s, hsettle, hm, hs, hvalue⟩ := settle_spec p ha
    refine ⟨⟨x.negative, m, s, hm, hs⟩, ?_, rfl, ?_⟩
    · rw [hsettle]
      exact dif_pos ⟨hm, hs⟩
    · unfold Keeps
      rw [abs_value, value_eq_zero_iff]
      exact hvalue
  unfold ofBinary64?
  split
  · rename_i hzero
    refine ⟨_, 0, rfl, rfl, Arrives.of_eq ?_, .inr ⟨?_, by norm_num⟩⟩
    · simpa using (Binary64.Finite.of_isZero hzero).1.symm
    · simp [value_eq_zero_iff, zero]
  · dsimp only
    split
    · rename_i hsign
      obtain ⟨n, hn⟩ : ∃ n : Nat, x.exponent = -n := ⟨(-x.exponent).toNat, by omega⟩
      obtain ⟨a, p, hscaled, ha, harrives⟩ := absorbFives_arrives hn
      obtain ⟨d, hd, hnegative, hkeeps⟩ := hsettled a p ha
      refine ⟨d, _, ?_, hnegative, harrives, hkeeps⟩
      rw [hn, neg_neg, Int.toNat_natCast, hscaled]
      exact hd
    · rename_i hsign
      obtain ⟨n, hn⟩ : ∃ n : Nat, x.exponent = n := ⟨x.exponent.toNat, by omega⟩
      obtain ⟨a, hscaled, ha, harrives⟩ := releaseFives_arrives hn h
      obtain ⟨d, hd, hnegative, hkeeps⟩ := hsettled a 0 ha
      rw [pow_zero, div_one] at hkeeps
      refine ⟨d, a, ?_, hnegative, harrives, hkeeps⟩
      rw [hn, Int.toNat_natCast, hscaled]
      exact hd

/-- **The conversion is exact on whole numbers.** -/
theorem abs_value_of_whole {n : Nat} (hn : x.magnitude = n) (ha : Arrives x q) (hd : Keeps d q) :
    |d.value| = x.magnitude := by
  have hq := ha.whole n hn
  rw [hn]
  rcases hd with hkeep | ⟨hzero, hout⟩
  · rw [hkeep, keep_of_mem (n := n) (s := 0) (by rw [hq, pow_zero, mul_one]) (Nat.zero_le _), hq]
  · rw [hq] at hout
    have hlt : (n : ℚ) < 1 := by linarith
    have hn0 : n = 0 := Nat.lt_one_iff.1 (by exact_mod_cast hlt)
    rw [hzero, hn0, abs_zero, Nat.cast_zero]

/-- A number that is less than four ninths of the last place becomes a zero. -/
theorem value_eq_zero_of_small (h : x.magnitude * 10 ^ 28 ≤ 4 / 9) (ha : Arrives x q)
    (hd : Keeps d q) : d.value = 0 := by
  rcases hd with hkeep | ⟨hzero, -⟩
  · rw [← abs_eq_zero, hkeep]
    exact keep_eq_zero ha.nonneg ((ha.scale 28).1.trans h)
  · exact hzero

/-- **Accuracy of the conversion**: fifteen digits, or 28 places. -/
theorem abs_abs_value_sub_le (ha : Arrives x q) (hd : Keeps d q) :
    |(|d.value| - x.magnitude)| ≤ x.magnitude / (8 * 10 ^ 14) + 1 / 10 ^ 28 := by
  have hle := ha.le
  have hloss := ha.loss
  have hnonneg := x.magnitude_nonneg
  unfold lossBound at hloss
  rcases hd with hkeep | ⟨hzero, hout⟩
  · have hround := abs_le.1 (abs_keep_sub_le ha.nonneg)
    rw [hkeep, abs_le]
    constructor <;> linarith [hround.1, hround.2]
  · rw [hzero, abs_zero, zero_sub, abs_neg, abs_of_nonneg hnonneg]
    linarith

end Finite

end Formulary.Decimal

import Mathlib.Tactic.LinearCombination
import Formulary.Proofs.Decimal.OfBinary64

/-!
# When the decimal of a binary number is the one that is printed

A number `m / 2 ^ E` becomes a decimal by rounding it to as many places as fit into 52 bits.
Its printed digits are a decimal that is within half a step of the number, which is not always
what it rounds to: there may be more of the digits, and half a step may be up to 0.488 of the
last place that is kept, while more than four ninths of it are rounded up.

* `ten_pow_gap`, `halfStep_mul_le`: no power of ten up to `10 ^ 28` is much nearer to a power of
  two than 1000 is to 1024, so that half a step is no more of a place.
* `roundNinths_bounds`, `le_roundNinths_of_le`: the number rounds to its printed digits or to
  the next larger ones, and with as many places.
* `exceeds_iff`: to which of them does not depend on what is lost before.
* `Survives`, `abs_value_eq_shown_iff`: **the numbers whose decimal has the printed value**.
-/

namespace Formulary.Binary64.Finite

open Decimal (roundNinths lt_roundNinths_iff keep keptPlaces keptPlaces_eq keptPlaces_eq_iff
  Arrives Keeps)

variable {x : Finite} {q : ℚ} {s E G : Nat}

/-- Up to `10 ^ 28`, a power of ten that is not nine thousandths above a power of two is below
it, by twenty-four thousandths. -/
theorem ten_pow_gap (hs : s ≤ 28) (h0 : s ≠ 0) (h : 1000 * 10 ^ s < 1009 * 2 ^ E) :
    1024 * 10 ^ s ≤ 1000 * 2 ^ E := by
  have hcheck : ∀ s < 29, s ≠ 0 → 1009 * 2 ^ Nat.log2 (10 ^ s) ≤ 1000 * 10 ^ s ∧
      1024 * 10 ^ s ≤ 1000 * 2 ^ (Nat.log2 (10 ^ s) + 1) := by decide +kernel
  obtain ⟨hbelow, habove⟩ := hcheck s (by omega) h0
  rcases Nat.lt_or_ge (Nat.log2 (10 ^ s)) E with hlt | hge
  · have hmono : 2 ^ (Nat.log2 (10 ^ s) + 1) ≤ 2 ^ E := Nat.pow_le_pow_right (by decide) hlt
    omega
  · have hmono : 2 ^ E ≤ 2 ^ Nat.log2 (10 ^ s) := Nat.pow_le_pow_right (by decide) hge
    omega

/-- A power of ten up to `10 ^ 28` that is within a ninth below a power of two has an exponent
that is not much less. -/
theorem exponent_le_of_near (hs : s ≤ 28) (hlt : 10 ^ s < 2 ^ E) (hnear : 8 * 2 ^ E < 9 * 10 ^ s) :
    E ≤ s + 28 := by
  have hcheck : ∀ s < 29, 8 * 2 ^ (Nat.log2 (10 ^ s) + 1) < 9 * 10 ^ s →
      Nat.log2 (10 ^ s) + 1 ≤ s + 28 := by decide +kernel
  have hbelow : 2 ^ Nat.log2 (10 ^ s) ≤ 10 ^ s := Nat.log2_self_le (by positivity)
  have habove : 10 ^ s < 2 ^ (Nat.log2 (10 ^ s) + 1) := Nat.lt_log2_self
  have hE : E = Nat.log2 (10 ^ s) + 1 := by
    have hge : Nat.log2 (10 ^ s) < E :=
      (Nat.pow_lt_pow_iff_right (by decide : 1 < 2)).1 (Nat.lt_of_le_of_lt hbelow hlt)
    have hle : E < Nat.log2 (10 ^ s) + 2 := by
      refine (Nat.pow_lt_pow_iff_right (by decide : 1 < 2)).1 ?_
      rw [Nat.pow_succ 2 (Nat.log2 (10 ^ s) + 1)]
      omega
    omega
  rw [hE] at hnear ⊢
  exact hcheck s (by omega) hnear

/-- A number that has 28 bits at most behind a place is a multiple of the last of them. -/
theorem exists_units (he : x.exponent = -E) (hEs : E ≤ s + 28) :
    ∃ K : Nat, x.magnitude * 10 ^ s * 2 ^ 28 = K := by
  refine ⟨x.significand * 5 ^ s * 2 ^ (s + 28 - E), ?_⟩
  have hsplit : (2 ^ s * 2 ^ 28 : ℚ) = 2 ^ (s + 28 - E) * 2 ^ E := by
    rw [← pow_add, ← pow_add]
    congr 1
    omega
  have hten : (10 ^ s : ℚ) = 5 ^ s * 2 ^ s := by
    rw [← mul_pow]
    norm_num
  rw [magnitude_eq_div he, hten, div_mul_eq_mul_div, div_mul_eq_mul_div,
    div_eq_iff (by positivity)]
  push_cast
  linear_combination (x.significand * 5 ^ s : ℚ) * hsplit

section Fraction

variable (he : x.exponent = -E) (hE : E ≠ 0)
include he

/-- Where a number with a full significand has 52 bits before the point with its places moved
there, the power of ten is not far above the power of two. -/
theorem ten_pow_lt_of_normal (hnormal : 2 ^ 52 ≤ x.significand)
    (h : (x.magnitude - x.halfStep) * 10 ^ s < 2 ^ 52) :
    (2 ^ 53 - 1) * 10 ^ s < 2 ^ 53 * 2 ^ E := by
  have hcast : (2 ^ 52 : ℚ) ≤ x.significand := by exact_mod_cast hnormal
  have hscaled : (2 * x.significand - 1 : ℚ) * 10 ^ s < 2 ^ 52 * 2 ^ (E + 1) := by
    rw [magnitude_eq_halfSteps, halfStep_eq_div he, ← sub_one_mul, mul_right_comm, mul_one_div,
      div_lt_iff₀ (by positivity)] at h
    exact h
  have hlength : (2 ^ 53 - 1 : ℚ) * 10 ^ s ≤ (2 * x.significand - 1) * 10 ^ s :=
    mul_le_mul_of_nonneg_right (by linarith) (by positivity)
  have hlt : ((2 ^ 53 - 1 : Nat) * 10 ^ s : ℚ) < 2 ^ 53 * 2 ^ E := by
    rw [pow_succ (2 : ℚ) E] at hscaled
    push_cast
    linarith
  exact_mod_cast hlt

include hE

/-- **Where a number has 52 bits before the point with its places moved there**, half a step is
less than half of the last place, by more than a hundredth. -/
theorem halfStep_mul_le (hs : s ≤ 28) (h : (x.magnitude - x.halfStep) * 10 ^ s < 2 ^ 52) :
    x.halfStep * 10 ^ s ≤ 125 / 256 := by
  have htwo : (0 : ℚ) < 2 ^ (E + 1) := by positivity
  rw [halfStep_eq_div he, div_mul_eq_mul_div, one_mul, div_le_div_iff₀ htwo (by norm_num)]
  rcases x.canonical with hleast | hnormal
  · have hten : (10 ^ s : ℚ) ≤ 10 ^ 28 := pow_le_pow_right₀ (by norm_num) hs
    have hlarge : (2 ^ 95 : ℚ) ≤ 2 ^ (E + 1) := pow_le_pow_right₀ (by norm_num) (by omega)
    linarith
  · have hbits := ten_pow_lt_of_normal he hnormal h
    rcases Nat.eq_zero_or_pos s with hzero | hpos
    · have hlarge : (2 ^ 2 : ℚ) ≤ 2 ^ (E + 1) := pow_le_pow_right₀ (by norm_num) (by omega)
      rw [hzero]
      linarith
    · have hgap : (1024 * 10 ^ s : ℚ) ≤ 1000 * 2 ^ E := by
        exact_mod_cast ten_pow_gap hs hpos.ne' (by omega)
      rw [pow_succ]
      linarith

/-- **The printed digits are near where they have 52 bits.** -/
theorem abs_shown_sub_mul_le (hs : s ≤ 28)
    (h : x.shown * 10 ^ s < 2 ^ 52 ∨ x.magnitude * 10 ^ s < 2 ^ 52) :
    |x.shown * 10 ^ s - x.magnitude * 10 ^ s| ≤ 125 / 256 := by
  have hten : (0 : ℚ) < 10 ^ s := by positivity
  have hnear := x.abs_shown_sub_le
  have hlt : (x.magnitude - x.halfStep) * 10 ^ s < 2 ^ 52 := by
    have hpos := x.halfStep_pos
    have hbelow := (abs_le.1 hnear).1
    rcases h with h | h
    · exact lt_of_le_of_lt (mul_le_mul_of_nonneg_right (by linarith) hten.le) h
    · exact lt_of_le_of_lt (mul_le_mul_of_nonneg_right (by linarith) hten.le) h
  rw [← sub_mul, abs_mul, abs_of_pos hten]
  exact (mul_le_mul_of_nonneg_right hnear hten.le).trans (halfStep_mul_le he hE hs hlt)

/-- A number exceeds its printed digits by more than four ninths of a place only where half a
step is nearly half of the place, and then it has few bits behind the place. -/
theorem exponent_le_of_exceeds (hs : s ≤ 28) (hlt : x.shown * 10 ^ s < 2 ^ 52)
    (h : x.shown * 10 ^ s + 4 / 9 < x.magnitude * 10 ^ s) : E ≤ s + 28 := by
  have htwo : (0 : ℚ) < 2 ^ E := by positivity
  have hstep : (x.magnitude - x.halfStep) * 10 ^ s ≤ x.shown * 10 ^ s := by
    have hbelow := (abs_le.1 x.abs_shown_sub_le).1
    exact mul_le_mul_of_nonneg_right (by linarith) (by positivity)
  have hmost := halfStep_mul_le he hE hs (hstep.trans_lt hlt)
  have hleast : 4 / 9 < x.halfStep * 10 ^ s := by
    rw [sub_mul] at hstep
    linarith
  rw [halfStep_eq_div he, div_mul_eq_mul_div, one_mul, pow_succ] at hmost hleast
  rw [div_le_iff₀ (by positivity)] at hmost
  rw [lt_div_iff₀ (by positivity)] at hleast
  refine exponent_le_of_near hs ?_ ?_
  · have hcast : (10 ^ s : ℚ) < 2 ^ E := by linarith
    exact_mod_cast hcast
  · have hcast : (8 * 2 ^ E : ℚ) < 9 * 10 ^ s := by linarith
    exact_mod_cast hcast

variable (ha : Arrives x q)
include ha

/-- Places that make the printed digits longer than 52 bits make the number so. -/
theorem le_roundNinths_of_le (hs : s ≤ 28) (h : 2 ^ 52 ≤ x.shown * 10 ^ s) :
    2 ^ 52 ≤ roundNinths (q * 10 ^ s) := by
  obtain ⟨-, hloss⟩ := ha.scale s
  have hbelow : 2 ^ 52 - 125 / 256 ≤ x.magnitude * 10 ^ s := by
    rcases lt_or_ge (x.magnitude * 10 ^ s) (2 ^ 52) with hlt | hge
    · have hnear := (abs_le.1 (abs_shown_sub_mul_le he hE hs (.inr hlt))).2
      linarith
    · linarith
  have hlt : ((2 ^ 52 - 1 : Nat) : ℚ) + 4 / 9 < q * 10 ^ s := by
    push_cast
    linarith
  exact lt_roundNinths_iff.2 hlt

/-- **Where the printed digits have 52 bits**, the number rounds to them, or to the next
larger ones. -/
theorem roundNinths_bounds (hs : s ≤ 28) (hG : x.shown * 10 ^ s = G) (hlt : G < 2 ^ 52) :
    G ≤ roundNinths (q * 10 ^ s) ∧ roundNinths (q * 10 ^ s) ≤ G + 1 := by
  have hcast : (G : ℚ) < 2 ^ 52 := by exact_mod_cast hlt
  have hnear := abs_le.1 (abs_shown_sub_mul_le he hE hs (.inl (hG ▸ hcast)))
  obtain ⟨hle, hloss⟩ := ha.scale s
  rw [hG] at hnear
  constructor
  · rcases Nat.eq_zero_or_pos G with hzero | hpos
    · omega
    · refine Nat.le_of_pred_lt (lt_roundNinths_iff.2 ?_)
      rw [Nat.pred_eq_sub_one, Nat.cast_pred hpos]
      linarith [hnear.2]
  · refine Nat.not_lt.1 fun hmore => ?_
    have habove := lt_roundNinths_iff.1 hmore
    push_cast at habove
    linarith [hnear.1]

/-- **What is lost of a number does not matter** for whether it exceeds its printed digits by
more than four ninths of a place: if it does, then by more than is lost. -/
theorem exceeds_iff (hs : s ≤ 28) (hG : x.shown * 10 ^ s = G) (hlt : G < 2 ^ 52) :
    (G + 4 / 9 : ℚ) < q * 10 ^ s ↔ (G + 4 / 9 : ℚ) < x.magnitude * 10 ^ s := by
  obtain ⟨hle, hloss⟩ := ha.scale s
  refine ⟨fun h => h.trans_le hle, fun h => ?_⟩
  have hcast : (G : ℚ) < 2 ^ 52 := by exact_mod_cast hlt
  have hnear := (abs_le.1 (abs_shown_sub_mul_le he hE hs (.inl (hG ▸ hcast)))).1
  obtain ⟨K, hK⟩ := exists_units he (exponent_le_of_exceeds he hE hs (hG ▸ hcast) (hG ▸ h))
  have hmore : ((9 * G + 4) * 2 ^ 28 + 1 : ℚ) ≤ 9 * K := by
    have hlt : ((9 * G + 4) * 2 ^ 28 : ℚ) < 9 * K := by linarith
    have hnat : (9 * G + 4) * 2 ^ 28 + 1 ≤ 9 * K := by exact_mod_cast hlt
    exact_mod_cast hnat
  rw [hG] at hnear
  linarith

end Fraction

/-- A number whose printed digits fit into the places does not run out of digits. -/
theorem not_runsOut (ha : Arrives x q) (hs : s ≤ 28) (hG : x.shown * 10 ^ s = G) (h0 : G ≠ 0) :
    85 / 9 < q * 10 ^ 29 := by
  have hten : (10 ^ s : ℚ) ≤ 10 ^ 28 := pow_le_pow_right₀ (by norm_num) hs
  have hone : (1 : ℚ) ≤ x.shown * 10 ^ s := by
    rw [hG]
    exact_mod_cast Nat.one_le_iff_ne_zero.2 h0
  have hplaces : 1 ≤ x.shown * 10 ^ 28 :=
    hone.trans (mul_le_mul_of_nonneg_left hten x.shown_nonneg)
  have hnear := (abs_le.1 x.abs_shown_sub_le).2
  have hhalf := x.halfStep_le
  obtain ⟨-, hloss⟩ := ha.scale 29
  linarith

/-- The printed digits of a fraction are none of a whole number. -/
theorem shown_ne_natCast (he : x.exponent = -E) (hfraction : ∀ n : Nat, x.magnitude ≠ n) (n : Nat) :
    x.shown ≠ n := by
  intro hn
  have htwo : (0 : ℚ) < 2 ^ E := by positivity
  have hnear := abs_le.1 x.abs_shown_sub_le
  rw [hn, magnitude_eq_div he, halfStep_eq_div he, pow_succ] at hnear
  have hhalf : (1 / (2 ^ E * 2) * 2 ^ E : ℚ) = 1 / 2 := by field_simp
  have hdiv : (x.significand / 2 ^ E * 2 ^ E : ℚ) = x.significand := by field_simp
  have hbelow := mul_le_mul_of_nonneg_right hnear.1 htwo.le
  have habove := mul_le_mul_of_nonneg_right hnear.2 htwo.le
  rw [sub_mul, hdiv] at hbelow habove
  rw [neg_mul, hhalf] at hbelow
  rw [hhalf] at habove
  have hle : n * 2 ^ E < x.significand + 1 := by
    have hlt : (n * 2 ^ E : ℚ) < x.significand + 1 := by linarith
    exact_mod_cast hlt
  have hge : x.significand < n * 2 ^ E + 1 := by
    have hlt : (x.significand : ℚ) < n * 2 ^ E + 1 := by linarith
    exact_mod_cast hlt
  refine hfraction n ?_
  rw [magnitude_eq_div he, div_eq_iff htwo.ne']
  exact_mod_cast (by omega : x.significand = n * 2 ^ E)

/-- The printed digits have 52 bits, and 28 places at most. -/
def FitsBits (x : Finite) : Prop := ∃ s ≤ 28, (x.shown * 10 ^ s).isInt ∧ x.shown * 10 ^ s < 2 ^ 52

/-- The number exceeds its printed digits by four ninths of a place at most, whichever place they
have 52 bits with. -/
def WithinNinths (x : Finite) : Prop :=
  ∀ s ≤ 28, x.shown * 10 ^ s < 2 ^ 52 → (x.magnitude - x.shown) * 10 ^ s ≤ 4 / 9

/-- **The printed digits survive the conversion**: a whole number is printed as it is; the digits
of a fraction have 52 bits, and it does not exceed them by more than four ninths of a place. -/
def Survives (x : Finite) : Prop :=
  if x.magnitude.isInt then x.shown = x.magnitude else x.FitsBits ∧ x.WithinNinths

instance : DecidablePred FitsBits := fun x =>
  inferInstanceAs (Decidable (∃ s ≤ 28, (x.shown * 10 ^ s).isInt ∧ x.shown * 10 ^ s < 2 ^ 52))

instance : DecidablePred WithinNinths := fun x =>
  inferInstanceAs (Decidable (∀ s ≤ 28, x.shown * 10 ^ s < 2 ^ 52 →
    (x.magnitude - x.shown) * 10 ^ s ≤ 4 / 9))

instance : DecidablePred Survives := fun x =>
  inferInstanceAs (Decidable (if x.magnitude.isInt then x.shown = x.magnitude
    else x.FitsBits ∧ x.WithinNinths))

theorem isInt_iff_exists_natCast (hq : 0 ≤ q) : q.isInt ↔ ∃ n : Nat, q = n := by
  constructor
  · intro h
    refine ⟨q.num.toNat, ?_⟩
    have hnum : ((q.num.toNat : Int) : ℚ) = q.num := by
      rw [Int.toNat_of_nonneg (Rat.num_nonneg.2 hq)]
    rw [← Int.cast_natCast, hnum]
    exact Rat.eq_num_of_isInt h
  · rintro ⟨n, rfl⟩
    rfl

theorem fitsBits_iff :
    x.FitsBits ↔ ∃ m s : Nat, m < 2 ^ 52 ∧ s ≤ 28 ∧ x.shown * 10 ^ s = m := by
  have hnonneg (s : Nat) : 0 ≤ x.shown * 10 ^ s := mul_nonneg x.shown_nonneg (by positivity)
  constructor
  · rintro ⟨s, hs, hint, hlt⟩
    obtain ⟨m, hm⟩ := (isInt_iff_exists_natCast (hnonneg s)).1 hint
    rw [hm] at hlt
    exact ⟨m, s, by exact_mod_cast hlt, hs, hm⟩
  · rintro ⟨m, s, hlt, hs, hm⟩
    refine ⟨s, hs, (isInt_iff_exists_natCast (hnonneg s)).2 ⟨m, hm⟩, ?_⟩
    rw [hm]
    exact_mod_cast hlt

/-- The digits of a fraction that are kept have 52 bits and are not exceeded. -/
theorem survives_of_keep_eq (he : x.exponent = -E) (hE : E ≠ 0) (ha : Arrives x q)
    (hfraction : ∀ n : Nat, x.magnitude ≠ n) (h : keep q = x.shown) :
    x.FitsBits ∧ x.WithinNinths := by
  obtain ⟨hk, hfit, hmore⟩ := keptPlaces_eq_iff.1 (rfl : keptPlaces q = _)
  have hkept : x.shown * 10 ^ keptPlaces q = roundNinths (q * 10 ^ keptPlaces q) := by
    rw [← h, keep, div_mul_cancel₀ _ (by positivity)]
  generalize keptPlaces q = k at hk hfit hmore hkept
  have hk0 : k ≠ 0 := by
    intro hzero
    rw [hzero, pow_zero, mul_one] at hkept
    exact shown_ne_natCast he hfraction _ hkept
  have hlt := hfit hk0
  refine ⟨fitsBits_iff.2 ⟨_, k, hlt, hk, hkept⟩, fun s hs hshort => ?_⟩
  generalize hG : roundNinths (q * 10 ^ k) = G at hkept hlt
  rcases Nat.lt_or_ge k s with hks | hsk
  · -- with more places the number has 53 bits and its digits have 52, so that they are odd
    exfalso
    obtain ⟨j, rfl⟩ : ∃ j, s = k + (j + 1) := ⟨s - k - 1, by omega⟩
    have hdigits : x.shown * 10 ^ (k + (j + 1)) = (G * 10 ^ (j + 1) : Nat) := by
      rw [pow_add, ← mul_assoc, hkept]
      push_cast
      rfl
    rw [hdigits] at hshort
    have hshort : G * 10 ^ (j + 1) < 2 ^ 52 := by exact_mod_cast hshort
    have hlong := Nat.not_lt.1 (hmore hks hs)
    have hround := (roundNinths_bounds he hE ha hs hdigits hshort).2
    rw [Nat.pow_succ, ← Nat.mul_assoc] at hshort hround
    omega
  · have hround : ¬ (G + 4 / 9 : ℚ) < x.magnitude * 10 ^ k := by
      rw [← exceeds_iff he hE ha hk hkept hlt, ← lt_roundNinths_iff, hG]
      exact Nat.lt_irrefl G
    have hexcess : (x.magnitude - x.shown) * 10 ^ k ≤ 4 / 9 := by
      rw [sub_mul, hkept]
      linarith
    rcases le_total x.magnitude x.shown with hle | hge
    · have hnonpos : (x.magnitude - x.shown) * 10 ^ s ≤ 0 :=
        mul_nonpos_of_nonpos_of_nonneg (sub_nonpos.2 hle) (by positivity)
      linarith
    · refine le_trans (mul_le_mul_of_nonneg_left ?_ (sub_nonneg.2 hge)) hexcess
      exact pow_le_pow_right₀ (by norm_num) hsk

/-- The digits of a fraction that have 52 bits and are not exceeded are kept. -/
theorem keep_eq_of_survives (he : x.exponent = -E) (hE : E ≠ 0) (ha : Arrives x q)
    (hfit : x.FitsBits) (hexcess : x.WithinNinths) : keep q = x.shown := by
  obtain ⟨m, p, hm, hp, hdigits⟩ := fitsBits_iff.1 hfit
  have hshort : x.shown * 10 ^ p < 2 ^ 52 := by
    rw [hdigits]
    exact_mod_cast hm
  -- the most places with which the printed digits have 52 bits
  obtain ⟨j, hj⟩ := Nat.exists_eq_add_of_le
    (Nat.le_findGreatest (P := fun s => x.shown * 10 ^ s < 2 ^ 52) hp hshort)
  have hk := Nat.findGreatest_le (P := fun s => x.shown * 10 ^ s < 2 ^ 52) 28
  have hlt := Nat.findGreatest_spec (P := fun s => x.shown * 10 ^ s < 2 ^ 52) hp hshort
  have hmore (hlast : p + j < 28) : 2 ^ 52 ≤ x.shown * 10 ^ (p + j + 1) :=
    not_lt.1 (Nat.findGreatest_is_greatest (hj.trans_lt (Nat.lt_succ_self _)) hlast)
  rw [hj] at hk hlt
  have hdigits : x.shown * 10 ^ (p + j) = (m * 10 ^ j : Nat) := by
    rw [pow_add, ← mul_assoc, hdigits]
    push_cast
    rfl
  have hcast : m * 10 ^ j < 2 ^ 52 := by
    rw [hdigits] at hlt
    exact_mod_cast hlt
  have hround : roundNinths (q * 10 ^ (p + j)) = m * 10 ^ j := by
    refine Nat.le_antisymm (Nat.not_lt.1 fun hmore => ?_)
      (roundNinths_bounds he hE ha hk hdigits hcast).1
    have habove := (exceeds_iff he hE ha hk hdigits hcast).1 (lt_roundNinths_iff.1 hmore)
    have hbelow := hexcess (p + j) hk hlt
    rw [sub_mul, hdigits] at hbelow
    linarith
  have hplaces : keptPlaces q = p + j := by
    refine keptPlaces_eq ha.nonneg hk (fun _ => by rw [hround]; exact hcast) fun hlast => ?_
    exact le_roundNinths_of_le he hE ha hlast (hmore hlast)
  rw [keep, hplaces, hround, ← hdigits, mul_div_cancel_right₀ _ (by positivity)]

/-- A number with a fraction has an exponent below zero. -/
theorem exists_exponent (hfraction : ∀ n : Nat, x.magnitude ≠ n) :
    ∃ E : Nat, x.exponent = -E ∧ E ≠ 0 := by
  refine ⟨(-x.exponent).toNat, ?_⟩
  by_contra h
  obtain ⟨n, hn⟩ : ∃ n : Nat, x.exponent = n := ⟨x.exponent.toNat, by omega⟩
  refine hfraction (x.significand * 2 ^ n) ?_
  rw [magnitude, hn, zpow_natCast]
  push_cast
  rfl

/-- **The decimal of a number has its printed digits exactly if these survive.** -/
theorem abs_value_eq_shown_iff {d : Decimal} (ha : Arrives x q) (hd : Keeps d q) :
    |d.value| = x.shown ↔ x.Survives := by
  unfold Survives
  split
  · rename_i hwhole
    obtain ⟨n, hn⟩ := (isInt_iff_exists_natCast x.magnitude_nonneg).1 hwhole
    rw [Decimal.abs_value_of_whole hn ha hd, eq_comm]
  · rename_i hfraction
    rw [isInt_iff_exists_natCast x.magnitude_nonneg, not_exists] at hfraction
    obtain ⟨E, he, hE⟩ := exists_exponent hfraction
    have hzero : x.shown ≠ 0 := by
      have hne := shown_ne_natCast he hfraction 0
      rwa [Nat.cast_zero] at hne
    constructor
    · intro h
      rcases hd with hkeep | ⟨hout, -⟩
      · exact survives_of_keep_eq he hE ha hfraction (hkeep ▸ h)
      · rw [hout, abs_zero] at h
        exact absurd h.symm hzero
    · rintro ⟨hfit, hexcess⟩
      rcases hd with hkeep | ⟨-, hout⟩
      · rw [hkeep]
        exact keep_eq_of_survives he hE ha hfit hexcess
      · obtain ⟨m, s, -, hs, hm⟩ := fitsBits_iff.1 hfit
        have hm0 : m ≠ 0 := by
          intro hm0
          rw [hm0, Nat.cast_zero] at hm
          exact mul_ne_zero hzero (by positivity) hm
        exact absurd hout (not_le.2 (not_runsOut ha hs hm hm0))

end Formulary.Binary64.Finite

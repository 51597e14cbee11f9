import Mathlib.Algebra.Order.Field.Power
import Mathlib.Tactic.Linarith
import Mathlib.Tactic.Ring
import Formulary.Binary64.Shortest
import Formulary.Proofs.Decimal.Value

/-!
# What the printed digits of a binary number say

A finite number is a rational (`magnitude`, its sign apart), and its printed digits are a
rational that rounds to it. They are off by half a step between neighbours at most, and a
whole number is printed as a whole number.

* `RoundsTo`: the rationals that round to a number; `reads_iff`: the grid points that read
  back are those.
* `onGrid?_of_le`: a grid that is fine enough has such a point.
* `coarsest_spec`: the grid that is taken has one, and the grid before it has none.
* `roundsTo_shown`, `abs_shown_sub_le`: **the printed digits round to the number**, and are
  within half a step of it.
* `shown_eq_of_whole`: small whole numbers are printed as they are.
-/

namespace Formulary.Binary64.Finite

variable {x : Finite} {d : Nat} {k : Int}

/-- **The magnitude of a number**, as a rational. -/
def magnitude (x : Finite) : ℚ := x.significand * 2 ^ x.exponent

/-- Half the step from the number to the next one. -/
def halfStep (x : Finite) : ℚ := 2 ^ (x.exponent - 1)

/-- **The rationals that round to a number**: those between the ends of its interval, which
belong to it when the significand is even. -/
def RoundsTo (x : Finite) (v : ℚ) : Prop :=
  let low : ℚ := x.lowerEnd * 2 ^ (x.exponent - 2)
  let high : ℚ := x.upperEnd * 2 ^ (x.exponent - 2)
  if x.significand % 2 = 0 then low ≤ v ∧ v ≤ high else low < v ∧ v < high

/-- A power in two parts, of which one is a power of natural numbers. -/
theorem zpow_mul_toNat {b : ℚ} (hb : b ≠ 0) (e : Int) : b ^ e * b ^ (-e).toNat = b ^ e.toNat := by
  rw [← zpow_natCast b (-e).toNat, ← zpow_natCast b e.toNat, ← zpow_add₀ hb]
  congr 1
  omega

theorem magnitude_eq (x : Finite) : x.magnitude = x.num / x.den := by
  have hsplit := zpow_mul_toNat (b := 2) (by norm_num) x.exponent
  unfold magnitude num den
  rw [eq_div_iff (by positivity)]
  push_cast
  rw [mul_assoc, hsplit]

/-- Clearing denominators does not change the order. -/
theorem compareScaled_eq (a : Nat) (e : Int) (d : Nat) (k : Int) :
    compareScaled a e d k = compare ((a : ℚ) * 2 ^ e) (d * 10 ^ k) := by
  have hscale : (0 : ℚ) < 2 ^ (-e).toNat * 10 ^ (-k).toNat := by positivity
  have hleft : (a : ℚ) * 2 ^ e * (2 ^ (-e).toNat * 10 ^ (-k).toNat) =
      (a * 2 ^ e.toNat * 10 ^ (-k).toNat : Nat) := by
    push_cast
    rw [← zpow_mul_toNat (b := 2) (by norm_num) e]
    ring
  have hright : (d : ℚ) * 10 ^ k * (2 ^ (-e).toNat * 10 ^ (-k).toNat) =
      (d * 10 ^ k.toNat * 2 ^ (-e).toNat : Nat) := by
    push_cast
    rw [← zpow_mul_toNat (b := 10) (by norm_num) k]
    ring
  unfold compareScaled
  rcases lt_trichotomy ((a : ℚ) * 2 ^ e) (d * 10 ^ k) with h | h | h
  · rw [compare_lt_iff_lt.2 h]
    rw [← mul_lt_mul_iff_of_pos_right hscale, hleft, hright] at h
    exact compare_lt_iff_lt.2 (by exact_mod_cast h)
  · rw [compare_eq_iff_eq.2 h]
    rw [← mul_left_inj' hscale.ne', hleft, hright] at h
    exact compare_eq_iff_eq.2 (by exact_mod_cast h)
  · rw [compare_gt_iff_gt.2 h]
    rw [← mul_lt_mul_iff_of_pos_right hscale, hleft, hright] at h
    exact compare_gt_iff_gt.2 (by exact_mod_cast h)

/-- **The points that read back are those that round to the number.** -/
theorem reads_iff : x.reads d k ↔ x.RoundsTo (d * 10 ^ k) := by
  obtain ⟨hlt, hle, -⟩ := Decimal.compare_tests (x.lowerEnd * 2 ^ (x.exponent - 2)) (d * 10 ^ k)
  obtain ⟨-, -, hgt, hge, -⟩ := Decimal.compare_tests (x.upperEnd * 2 ^ (x.exponent - 2)) (d * 10 ^ k)
  unfold reads RoundsTo
  rw [compareScaled_eq, compareScaled_eq]
  split
  · simp [hle, hge]
  · simp [hlt, hgt]

/-- Half a step is two quarters of one, in which the ends of the interval are counted. -/
theorem halfStep_eq (x : Finite) : x.halfStep = 2 * 2 ^ (x.exponent - 2) := by
  unfold halfStep
  rw [← zpow_one_add₀ (by norm_num)]
  congr 1
  omega

theorem magnitude_eq_quarters (x : Finite) :
    x.magnitude = 4 * x.significand * 2 ^ (x.exponent - 2) := by
  have hquarter : (2 : ℚ) ^ x.exponent = 2 ^ (2 : Nat) * 2 ^ (x.exponent - 2) := by
    rw [← zpow_natCast, ← zpow_add₀ (by norm_num)]
    congr 1
    omega
  unfold magnitude
  rw [hquarter]
  ring

/-- A magnitude in half steps. -/
theorem magnitude_eq_halfSteps (x : Finite) : x.magnitude = 2 * x.significand * x.halfStep := by
  rw [magnitude_eq_quarters, halfStep_eq]
  ring

theorem halfStep_eq_div {n : Nat} (he : x.exponent = -n) : x.halfStep = 1 / 2 ^ (n + 1) := by
  rw [halfStep, he, one_div, ← zpow_natCast, ← zpow_neg]
  congr 1
  push_cast
  ring

/-- The magnitude of a number whose exponent is not above zero. -/
theorem magnitude_eq_div {n : Nat} (he : x.exponent = -n) :
    x.magnitude = x.significand / 2 ^ n := by
  rw [magnitude, he, zpow_neg, zpow_natCast, div_eq_mul_inv]

theorem halfStep_pos (x : Finite) : 0 < x.halfStep := by
  unfold halfStep
  positivity

theorem magnitude_nonneg (x : Finite) : 0 ≤ x.magnitude := by
  unfold magnitude
  positivity

/-- Half a step is a small part of a number with a full significand, and next to nothing
otherwise. -/
theorem halfStep_le (x : Finite) : x.halfStep ≤ x.magnitude / 2 ^ 53 + 1 / 2 ^ 255 := by
  rcases x.canonical with hleast | hnormal
  · have hmono : x.halfStep ≤ 2 ^ (-(255 : Nat) : Int) := by
      unfold halfStep
      exact zpow_le_zpow_right₀ (by norm_num) (by omega)
    have hpart : 0 ≤ x.magnitude / 2 ^ 53 := div_nonneg x.magnitude_nonneg (by positivity)
    rw [zpow_neg, zpow_natCast] at hmono
    rw [one_div]
    linarith
  · have hlength : (2 ^ 52 : ℚ) ≤ x.significand := by exact_mod_cast hnormal
    have hmagnitude : 2 * 2 ^ 52 * x.halfStep ≤ x.magnitude := by
      have hpos := x.halfStep_pos
      rw [magnitude_eq_halfSteps]
      gcongr
    linarith

/-- What rounds to a number is within half a step of it. -/
theorem RoundsTo.abs_sub_le {v : ℚ} (h : x.RoundsTo v) : |v - x.magnitude| ≤ x.halfStep := by
  have hquarter : (0 : ℚ) < 2 ^ (x.exponent - 2) := by positivity
  have hlow : 4 * (x.significand : ℚ) - 2 ≤ x.lowerEnd := by
    have hnat : 4 * x.significand ≤ x.lowerEnd + 2 := by
      unfold lowerEnd
      split <;> omega
    have hcast : (4 * x.significand : ℚ) ≤ x.lowerEnd + 2 := by exact_mod_cast hnat
    linarith
  have hhigh : (x.upperEnd : ℚ) = 4 * x.significand + 2 := by
    unfold upperEnd
    push_cast
    rfl
  have hends : x.lowerEnd * 2 ^ (x.exponent - 2) ≤ v ∧ v ≤ x.upperEnd * 2 ^ (x.exponent - 2) := by
    unfold RoundsTo at h
    dsimp only at h
    split at h
    · exact h
    · exact ⟨h.1.le, h.2.le⟩
  have hbelow := mul_le_mul_of_nonneg_right hlow hquarter.le
  rw [abs_le, halfStep_eq, magnitude_eq_quarters]
  rw [hhigh] at hends
  constructor <;> linarith [hends.1, hends.2]

/-- From the number up to half a step above it, everything rounds to it. -/
theorem roundsTo_of_ge {v : ℚ} (hge : x.magnitude ≤ v) (hlt : v < x.magnitude + x.halfStep) :
    x.RoundsTo v := by
  have hquarter : (0 : ℚ) < 2 ^ (x.exponent - 2) := by positivity
  have hlow : x.lowerEnd ≤ 4 * x.significand ∧
      (x.significand % 2 ≠ 0 → x.lowerEnd < 4 * x.significand) := by
    unfold lowerEnd
    split <;> omega
  have hhigh : (x.upperEnd : ℚ) = 4 * x.significand + 2 := by
    unfold upperEnd
    push_cast
    rfl
  have habove : v < x.upperEnd * 2 ^ (x.exponent - 2) := by
    rw [magnitude_eq_quarters, halfStep_eq] at hlt
    rw [hhigh]
    linarith
  rw [magnitude_eq_quarters] at hge
  unfold RoundsTo
  dsimp only
  split
  · have hle : (x.lowerEnd : ℚ) ≤ 4 * x.significand := by exact_mod_cast hlow.1
    exact ⟨(mul_le_mul_of_nonneg_right hle hquarter.le).trans hge, habove.le⟩
  · rename_i hodd
    have hlt : (x.lowerEnd : ℚ) < 4 * x.significand := by exact_mod_cast hlow.2 hodd
    exact ⟨(mul_lt_mul_of_pos_right hlt hquarter).trans_le hge, habove⟩

/-- The lower neighbour on a grid, and the upper one. -/
theorem floorAt_spec (x : Finite) (k : Int) :
    x.floorAt k * 10 ^ k ≤ x.magnitude ∧ x.magnitude < (x.floorAt k + 1 : Nat) * 10 ^ k := by
  have hden : 0 < x.den * 10 ^ k.toNat := Nat.mul_pos x.den_pos (Nat.pow_pos (by decide))
  have hmagnitude : x.magnitude * (x.den * 10 ^ k.toNat : Nat) =
      (x.num * 10 ^ (-k).toNat : Nat) * 10 ^ k := by
    have hsplit := zpow_mul_toNat (b := 10) (by norm_num) k
    have hpos : (x.den : ℚ) ≠ 0 := by exact_mod_cast x.den_pos.ne'
    rw [magnitude_eq]
    push_cast
    rw [← hsplit]
    field_simp
  have hstep : (0 : ℚ) < 10 ^ k := by positivity
  have hscale : (0 : ℚ) < (x.den * 10 ^ k.toNat : Nat) := by exact_mod_cast hden
  constructor
  · have hle : x.floorAt k * (x.den * 10 ^ k.toNat) ≤ x.num * 10 ^ (-k).toNat :=
      Nat.div_mul_le_self _ _
    have hcast : (x.floorAt k : ℚ) * (x.den * 10 ^ k.toNat : Nat) ≤
        (x.num * 10 ^ (-k).toNat : Nat) := by exact_mod_cast hle
    refine le_of_mul_le_mul_right ?_ hscale
    rw [hmagnitude, mul_right_comm]
    exact mul_le_mul_of_nonneg_right hcast hstep.le
  · have hlt : x.num * 10 ^ (-k).toNat < (x.floorAt k + 1) * (x.den * 10 ^ k.toNat) := by
      rw [Nat.add_one_mul]
      exact Nat.lt_div_mul_add hden
    have hcast : ((x.num * 10 ^ (-k).toNat : Nat) : ℚ) <
        (x.floorAt k + 1 : Nat) * (x.den * 10 ^ k.toNat : Nat) := by exact_mod_cast hlt
    refine lt_of_mul_lt_mul_right ?_ hscale.le
    rw [hmagnitude, mul_right_comm]
    exact mul_lt_mul_of_pos_right hcast hstep

/-- The point of a grid that is taken reads back, and if none is, neither neighbour does. -/
theorem onGrid?_spec (x : Finite) (k : Int) :
    match x.onGrid? k with
    | some d => x.RoundsTo (d * 10 ^ k)
    | none => ¬ x.RoundsTo (x.floorAt k * 10 ^ k) ∧ ¬ x.RoundsTo ((x.floorAt k + 1 : Nat) * 10 ^ k) := by
  have hlow := reads_iff (x := x) (d := x.floorAt k) (k := k)
  have hhigh := reads_iff (x := x) (d := x.floorAt k + 1) (k := k)
  unfold onGrid?
  dsimp only
  cases hl : x.reads (x.floorAt k) k with
  | true =>
    cases hh : x.reads (x.floorAt k + 1) k with
    | true =>
      by_cases hnear : x.nearerAbove (x.floorAt k) k = true
      · rw [if_pos hnear]
        exact hhigh.1 hh
      · rw [if_neg hnear]
        exact hlow.1 hl
    | false => exact hlow.1 hl
  | false =>
    cases hh : x.reads (x.floorAt k + 1) k with
    | true => exact hhigh.1 hh
    | false =>
      rw [← hlow, ← hhigh, hl, hh]
      exact ⟨Bool.false_ne_true, Bool.false_ne_true⟩

/-- A number on a grid is its own lower neighbour. -/
theorem floorAt_of_mem {j : Nat} (h : x.magnitude = j * 10 ^ k) : x.floorAt k = j := by
  have hstep : (0 : ℚ) < 10 ^ k := by positivity
  obtain ⟨hle, hlt⟩ := x.floorAt_spec k
  rw [h] at hle hlt
  have hle : x.floorAt k ≤ j := by exact_mod_cast le_of_mul_le_mul_right hle hstep
  have hlt : j < x.floorAt k + 1 := by exact_mod_cast lt_of_mul_lt_mul_right hlt hstep.le
  omega

/-- A grid that is fine enough for the exponent has the number on it. -/
theorem exists_mem_grid {n : Nat} (hn : -(n : Int) ≤ x.exponent) :
    ∃ j : Nat, x.magnitude = j * 10 ^ (-(n : Int)) := by
  refine ⟨x.significand * 2 ^ (x.exponent + n).toNat * 5 ^ n, ?_⟩
  have htwo : (2 : ℚ) ^ x.exponent = 2 ^ (x.exponent + n).toNat * 2 ^ (-(n : Int)) := by
    rw [← zpow_natCast, ← zpow_add₀ (by norm_num)]
    congr 1
    omega
  have hten : (10 : ℚ) ^ (-(n : Int)) = 2 ^ (-(n : Int)) * 5 ^ (-(n : Int)) := by
    rw [← mul_zpow]
    norm_num
  have hfive : (5 : ℚ) ^ n * 5 ^ (-(n : Int)) = 1 := by
    rw [← zpow_natCast, ← zpow_add₀ (by norm_num), add_neg_cancel, zpow_zero]
  unfold magnitude
  push_cast
  calc (x.significand : ℚ) * 2 ^ x.exponent
      = x.significand * 2 ^ (x.exponent + n).toNat * 2 ^ (-(n : Int)) *
          (5 ^ n * 5 ^ (-(n : Int))) := by rw [hfive, htwo]; ring
    _ = x.significand * 2 ^ (x.exponent + n).toNat * 5 ^ n * 10 ^ (-(n : Int)) := by
      rw [hten]; ring

/-- A number rounds to itself. -/
theorem roundsTo_magnitude (x : Finite) : x.RoundsTo x.magnitude :=
  roundsTo_of_ge le_rfl (lt_add_of_pos_right _ x.halfStep_pos)

/-- A grid that the number is on has a point that reads back. -/
theorem onGrid?_of_mem {j : Nat} (h : x.magnitude = j * 10 ^ k) : x.onGrid? k ≠ none := by
  intro hnone
  have hspec := x.onGrid?_spec k
  rw [hnone, floorAt_of_mem h, ← h] at hspec
  exact hspec.1 x.roundsTo_magnitude

/-- A grid with steps of half a step at most has a point that reads back: the number is on
it, or the neighbour above is near enough. -/
theorem onGrid?_of_le (h : 10 ^ k ≤ x.halfStep) : x.onGrid? k ≠ none := by
  obtain ⟨hle, hlt⟩ := x.floorAt_spec k
  rcases hle.eq_or_lt with heq | hbelow
  · exact onGrid?_of_mem heq.symm
  · intro hnone
    have hspec := x.onGrid?_spec k
    rw [hnone] at hspec
    refine hspec.2 (roundsTo_of_ge hlt.le ?_)
    push_cast
    linarith

/-- **The first grid with a point that reads back**: the point does, and the grid before it
has none, unless it is the first of all. -/
theorem coarsest_spec (x : Finite) (n : Nat) :
    x.RoundsTo ((x.coarsest n).1 * 10 ^ (x.coarsest n).2) ∧
      ((x.coarsest n).2 = n - 1074 ∨ x.onGrid? ((x.coarsest n).2 + 1) = none) := by
  induction n with
  | zero =>
    -- the number is a point of the last grid, as no exponent is less
    obtain ⟨j, hj⟩ : ∃ j : Nat, x.magnitude = j * 10 ^ (-1074 : Int) :=
      exists_mem_grid (n := 1074) x.exponent_ge
    refine ⟨?_, .inl rfl⟩
    show x.RoundsTo (x.floorAt (-1074) * 10 ^ (-1074 : Int))
    rw [floorAt_of_mem hj, ← hj]
    exact x.roundsTo_magnitude
  | succ n ih =>
    unfold coarsest
    cases hgrid : x.onGrid? ((n : Int) - 1073) with
    | some d =>
      have hspec := x.onGrid?_spec ((n : Int) - 1073)
      rw [hgrid] at hspec
      exact ⟨hspec, .inl (by push_cast; omega)⟩
    | none =>
      refine ⟨ih.1, ih.2.elim (fun hfirst => .inr ?_) .inr⟩
      rw [hfirst, ← hgrid]
      congr 1
      omega

/-- **The number that the printed digits show.** -/
def shown (x : Finite) : ℚ := x.shortest.1 * 10 ^ x.shortest.2

theorem shown_nonneg (x : Finite) : 0 ≤ x.shown := by
  unfold shown
  positivity

/-- How many digits are printed behind the point. -/
def places (x : Finite) : Nat := (-x.shortest.2).toNat

/-- **The printed digits round to the number.** -/
theorem roundsTo_shown (x : Finite) : x.RoundsTo x.shown := (x.coarsest_spec _).1

theorem abs_shown_sub_le (x : Finite) : |x.shown - x.magnitude| ≤ x.halfStep :=
  x.roundsTo_shown.abs_sub_le

/-- Where digits are printed behind the point, the grid with one place less has no point that
reads back. -/
theorem onGrid?_eq_none_of_places (h : x.places ≠ 0) : x.onGrid? (x.shortest.2 + 1) = none := by
  unfold places at h
  rcases (x.coarsest_spec _).2 with hfirst | hnone
  · -- the first grid of all is coarser than any fraction
    exfalso
    change x.shortest.2 = _ at hfirst
    push_cast at hfirst
    omega
  · exact hnone

/-- Digits behind the point are printed only where half a step is less than ten units of the
last of them. -/
theorem halfStep_mul_lt_of_places (h : x.places ≠ 0) : x.halfStep * 10 ^ x.places < 10 := by
  have hlt : x.halfStep < 10 ^ (x.shortest.2 + 1) := by
    by_contra hle
    exact onGrid?_of_le (not_lt.1 hle) (onGrid?_eq_none_of_places h)
  have hunits : (10 : ℚ) ^ (x.shortest.2 + 1) * 10 ^ x.places = 10 := by
    have hsum : x.shortest.2 + 1 + x.places = 1 := by
      unfold places at h ⊢
      omega
    rw [← zpow_natCast, ← zpow_add₀ (by norm_num), hsum, zpow_one]
  exact (mul_lt_mul_of_pos_right hlt (by positivity)).trans_eq hunits

/-- **A whole number is printed without a point.** -/
theorem places_eq_zero_of_whole {n : Nat} (h : x.magnitude = n) : x.places = 0 := by
  by_contra hplaces
  obtain ⟨i, hi⟩ : ∃ i : Nat, (i : Int) + (x.shortest.2 + 1) = 0 := by
    unfold places at hplaces
    exact ⟨(-(x.shortest.2 + 1)).toNat, by omega⟩
  have hcancel : (10 : ℚ) ^ i * 10 ^ (x.shortest.2 + 1) = 1 := by
    rw [← zpow_natCast, ← zpow_add₀ (by norm_num), hi, zpow_zero]
  refine onGrid?_of_mem (j := n * 10 ^ i) ?_ (onGrid?_eq_none_of_places hplaces)
  push_cast
  rw [h, mul_assoc, hcancel, mul_one]

/-- The printed digits in positional notation: a mantissa, with as many places as are shown. -/
def printed (x : Finite) : Nat := x.shortest.1 * 10 ^ x.shortest.2.toNat

/-- What is shown is what the printed digits denote. -/
theorem shown_eq (x : Finite) : x.shown = x.printed / 10 ^ x.places := by
  have hsplit := zpow_mul_toNat (b := 10) (by norm_num) x.shortest.2
  unfold shown printed places
  rw [eq_div_iff (by positivity), mul_assoc, hsplit]
  push_cast
  rfl

/-- The printed digits of a number below `10 ^ 28` fit into a mantissa. -/
theorem printed_lt (h : x.magnitude < 10 ^ 28) : x.printed < 2 ^ 96 := by
  have hprinted : (x.printed : ℚ) = x.shown * 10 ^ x.places := by
    rw [shown_eq, div_mul_cancel₀ _ (by positivity)]
  have hnear := (abs_le.1 x.abs_shown_sub_le).2
  have hlt : (x.printed : ℚ) < 2 ^ 96 := by
    by_cases hzero : x.places = 0
    · have hhalf := x.halfStep_le
      rw [hprinted, hzero, pow_zero, mul_one]
      linarith
    · -- a significand and half a unit, of which none has more than ten of the last place
      have hunits := halfStep_mul_lt_of_places hzero
      have hlength : (x.significand : ℚ) < 2 ^ 53 := by exact_mod_cast x.significand_lt
      have hsteps : x.shown ≤ (2 * 2 ^ 53 + 1) * x.halfStep := by
        have hpos := x.halfStep_pos
        have hmost := mul_le_mul_of_nonneg_right hlength.le hpos.le
        rw [magnitude_eq_halfSteps] at hnear
        linarith
      have hmost := mul_le_mul_of_nonneg_right hsteps (by positivity : (0 : ℚ) ≤ 10 ^ x.places)
      rw [mul_assoc] at hmost
      rw [hprinted]
      linarith
  exact_mod_cast hlt

/-- **A small whole number is printed as it is**: half a step does not reach to another. -/
theorem shown_eq_of_whole {n : Nat} (h : x.magnitude = n) (he : x.exponent ≤ 0) :
    x.shown = x.magnitude := by
  have hhalf : x.halfStep ≤ 1 / 2 := by
    have hmono : (2 : ℚ) ^ (x.exponent - 1) ≤ 2 ^ (-1 : Int) :=
      zpow_le_zpow_right₀ (by norm_num) (by omega)
    unfold halfStep
    norm_num at hmono ⊢
    exact hmono
  have hnear := abs_le.1 (x.abs_shown_sub_le.trans hhalf)
  have hwhole : x.shown = x.printed := by
    rw [shown_eq, places_eq_zero_of_whole h, pow_zero, div_one]
  rw [hwhole, h] at hnear ⊢
  have hle : x.printed < n + 1 := by
    have hlt : (x.printed : ℚ) < n + 1 := by linarith [hnear.2]
    exact_mod_cast hlt
  have hge : n < x.printed + 1 := by
    have hlt : (n : ℚ) < x.printed + 1 := by linarith [hnear.1]
    exact_mod_cast hlt
  have heq : x.printed = n := by omega
  rw [heq]

/-- Without a significand the number is zero, of the least exponent. -/
theorem of_isZero (h : x.isZero) : x.magnitude = (0 : Nat) ∧ x.exponent ≤ 0 := by
  have hzero : x.significand = 0 := by simpa [isZero] using h
  have hcanonical := x.canonical
  refine ⟨by simp [magnitude, hzero], ?_⟩
  omega

/-- **The text of a magnitude** is its printed digits in positional notation. -/
theorem magnitudeText_eq (x : Finite) : x.magnitudeText = Text.positional x.printed x.places := by
  unfold magnitudeText
  split
  · rename_i hzero
    obtain ⟨hwhole, he⟩ := of_isZero hzero
    have hplaces := places_eq_zero_of_whole hwhole
    have hprinted : x.printed = 0 := by
      have hshown := shown_eq_of_whole hwhole he
      rw [shown_eq, hplaces, pow_zero, div_one, hwhole] at hshown
      exact_mod_cast hshown
    rw [hplaces, hprinted]
    rfl
  · dsimp only
    unfold printed places
    split
    · rename_i hk
      rw [Int.toNat_of_nonpos (Int.neg_nonpos_of_nonneg hk)]
    · rename_i hk
      rw [Int.toNat_of_nonpos (by omega : x.shortest.2 ≤ 0), Nat.pow_zero, Nat.mul_one]

end Formulary.Binary64.Finite

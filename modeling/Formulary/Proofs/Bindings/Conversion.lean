import Formulary.Bindings
import Formulary.Proofs.Binary64.Agreement
import Formulary.Proofs.Decimal.Excess

/-!
# The decimal of a bound binary number

A binary number below `10 ^ 28` that is bound to a name converts to a decimal nearby, but not
always to the one that its printed text reads as: `4194304.23` becomes `4194304.230000001`. It
does exactly if its printed digits survive (`Binary64.Finite.Survives`).

* `ofText_text`: the printed text reads as a decimal of the digits that are shown, as far as
  they have places there.
* `BindingValue.toDecimal_float`: **the conversion of bound binary numbers**.
-/

namespace Formulary

namespace Decimal

/-- The value of a decimal that has a given sign, without which only a zero may be. -/
theorem value_eq_of_sign {d : Decimal} {negative : Bool}
    (h : d.negative = negative ∨ d.negative = (negative && d.mantissa != 0)) :
    d.value = if negative then -|d.value| else |d.value| := by
  have hvalue := d.value_eq
  rw [← d.abs_value] at hvalue
  rcases h with h | h
  · rw [h] at hvalue
    exact hvalue
  · by_cases hzero : d.mantissa = 0
    · have hv := (value_eq_zero_iff d).2 hzero
      simp [hv]
    · rw [h, bne_iff_ne.2 hzero, Bool.and_true] at hvalue
      exact hvalue

end Decimal

namespace Binary64.Finite

variable {x : Finite}

/-- **What the printed text of a number reads as**: the printed digits, rounded to 28 places. -/
def reading (x : Finite) : ℚ :=
  if x.places ≤ 28 then x.shown else ⌊x.shown * 10 ^ 28 + 1 / 2⌋₊ / 10 ^ 28

/-- The digit behind the last place rounds as a half. -/
theorem reading_of_lt (h : 28 < x.places) :
    x.reading = ((x.printed / 10 ^ (x.places - 29) + 5) / 10 : Nat) / 10 ^ 28 := by
  obtain ⟨i, hi⟩ := Nat.exists_eq_add_of_le h
  have hrest : x.places - 29 = i := by omega
  have hhalf : x.shown * 10 ^ 28 + 1 / 2 = (x.printed + 5 * 10 ^ i : Nat) / (10 ^ i * 10 : Nat) := by
    rw [shown_eq, hi]
    push_cast
    rw [pow_add]
    field_simp
    ring
  rw [reading, if_neg (by omega), hhalf, Nat.floor_div_eq_div, ← Nat.div_div_eq_div_mul,
    Nat.add_mul_div_right _ _ (by positivity), hrest]

/-- **The printed text of a number reads as a decimal.** -/
theorem ofText_text (h : x.magnitude < 10 ^ 28) :
    ∃ t, Decimal.ofText (text (.finite x)) = .ok t ∧
      t.negative = (x.negative && t.mantissa != 0) ∧ |t.value| = x.reading := by
  have hfit := printed_lt h
  have hread {m s : Nat} (hm : m < 2 ^ 96) (hs : s ≤ 28) :
      ∃ t, Decimal.ofRead x.negative m s = .ok t ∧
        t.negative = (x.negative && t.mantissa != 0) ∧ |t.value| = m / 10 ^ s := by
    refine ⟨⟨x.negative && m != 0, m, s, hm, hs⟩, ?_, rfl, Decimal.abs_value _⟩
    rw [Decimal.ofRead, Decimal.ofParts?, dif_pos ⟨hm, hs⟩]
  unfold Decimal.ofText text
  rw [String.toList_ofList, magnitudeText_eq]
  rcases Nat.lt_or_ge 28 x.places with hlt | hge
  · have hten : 10 ^ 1 ≤ 10 ^ (x.places - 28) := Nat.pow_le_pow_right (by decide) (by omega)
    have hdiv : x.printed / 10 ^ (x.places - 28) ≤ x.printed / 10 :=
      Nat.div_le_div_left hten (by decide)
    have hround : (x.printed / 10 ^ (x.places - 29) + 5) / 10 < 2 ^ 96 := by
      have hle := Nat.div_le_self x.printed (10 ^ (x.places - 29))
      omega
    obtain ⟨t, ht, hsign, hvalue⟩ := hread hround (Nat.le_refl 28)
    refine ⟨t, Decimal.read_positional_excess hlt ?_ ht, hsign, by rw [hvalue, reading_of_lt hlt]⟩
    show x.printed / 10 ^ (x.places - 28) + 1 < 2 ^ 96
    omega
  · obtain ⟨t, ht, hsign, hvalue⟩ := hread hfit hge
    refine ⟨t, Decimal.read_positional ?_, hsign, ?_⟩
    · rw [Decimal.readDigits_positional hfit hge, ht]
    · rw [hvalue, reading, if_pos hge, shown_eq]

/-- The text of a number that is less than four ninths of the last place reads as a zero. -/
theorem reading_eq_zero (h : x.magnitude * 10 ^ 28 ≤ 4 / 9) : x.reading = 0 := by
  have hnear := (abs_le.1 x.abs_shown_sub_le).2
  have hhalf := x.halfStep_le
  have hsmall : x.shown * 10 ^ 28 < 1 / 2 := by linarith
  unfold reading
  split
  · rename_i hplaces
    obtain ⟨i, hi⟩ := Nat.exists_eq_add_of_le hplaces
    have hwhole : x.shown * 10 ^ 28 = (x.printed * 10 ^ i : Nat) := by
      rw [shown_eq, hi, pow_add]
      push_cast
      field_simp
    rw [hwhole] at hsmall
    have hzero : x.printed * 10 ^ i = 0 := by
      have hlt : (x.printed * 10 ^ i : Nat) < (1 : ℚ) := by linarith
      exact Nat.lt_one_iff.1 (by exact_mod_cast hlt)
    rw [hzero, Nat.cast_zero, mul_eq_zero_iff_right (by positivity)] at hwhole
    exact hwhole
  · have hfloor : ⌊x.shown * 10 ^ 28 + 1 / 2⌋₊ = 0 := Nat.floor_eq_zero.2 (by linarith)
    rw [hfloor, Nat.cast_zero, zero_div]

end Binary64.Finite

open Binary64.Finite in
/-- **The conversion of a bound binary number.** Below `10 ^ 28` there is a decimal, of the sign
of the number and of fifteen digits of it, or 28 places; a whole number keeps all its digits.
The printed text reads as a decimal too. Where it has no more than 28 places, the two are one
value if and only if the printed digits survive, and a number of less than four ninths of the
last place is zero in both. What is not finite has no decimal, and its text is reported. -/
theorem BindingValue.toDecimal_float (name : String) (x : Binary64) :
    match x with
    | .finite x =>
      x.magnitude < 10 ^ 28 →
        ∃ d t, (float (.finite x)).toDecimal name = .ok d ∧
          Decimal.ofText (float (.finite x)).text = .ok t ∧ d.negative = x.negative ∧
          |(|d.value| - x.magnitude)| ≤ x.magnitude / (8 * 10 ^ 14) + 1 / 10 ^ 28 ∧
          (x.magnitude.isInt → |d.value| = x.magnitude) ∧
          (x.places ≤ 28 → (d.sameValue t ↔ x.Survives)) ∧
          (x.magnitude * 10 ^ 28 ≤ 4 / 9 → d.sameValue t)
    | x => (float x).toDecimal name = .error (.invalidBinding name (float x).text) := by
  rcases x with _ | negative | x
  · rfl
  · rfl
  · intro h
    obtain ⟨d, q, hof, hsign, harrives, hkeeps⟩ := Decimal.ofBinary64?_spec h
    obtain ⟨t, htext, hsign', hreading⟩ := ofText_text h
    have hsame : d.sameValue t ↔ |d.value| = x.reading := by
      rw [Decimal.sameValue_iff, Decimal.value_eq_of_sign (.inl hsign),
        Decimal.value_eq_of_sign (.inr hsign'), ← hreading]
      cases x.negative <;> simp
    refine ⟨d, t, ?_, htext, hsign, Decimal.abs_abs_value_sub_le harrives hkeeps, ?_, ?_, ?_⟩
    · simp only [toDecimal, hof]
    · intro hwhole
      obtain ⟨n, hn⟩ := (isInt_iff_exists_natCast x.magnitude_nonneg).1 hwhole
      exact Decimal.abs_value_of_whole hn harrives hkeeps
    · intro hplaces
      rw [hsame, reading, if_pos hplaces]
      exact abs_value_eq_shown_iff harrives hkeeps
    · intro hsmall
      rw [hsame, reading_eq_zero hsmall, Decimal.value_eq_zero_of_small hsmall harrives hkeeps,
        abs_zero]

/-- The digits of `19.99` survive. -/
theorem BindingValue.toDecimal_float_price :
    ∃ x : Binary64.Finite, Binary64.ofBits 0x4033fd70a3d70a3d = .finite x ∧
      x.magnitude < 10 ^ 28 ∧ x.places ≤ 28 ∧ x.Survives ∧
      ∃ d t, (float (.finite x)).toDecimal "price" = .ok d ∧
        Decimal.ofText (float (.finite x)).text = .ok t ∧ d.sameValue t := by
  let x : Binary64.Finite :=
    ⟨false, 5626684784446013, -48, by decide, by decide, by decide, by decide⟩
  have hmagnitude : x.magnitude < 10 ^ 28 := by decide +kernel
  have hplaces : x.places ≤ 28 := by decide +kernel
  have hsurvives : x.Survives := by decide +kernel
  obtain ⟨d, t, hd, ht, -, -, -, hsame, -⟩ := toDecimal_float "price" (.finite x) hmagnitude
  exact ⟨x, by decide +kernel, hmagnitude, hplaces, hsurvives, d, t, hd, ht,
    (hsame hplaces).2 hsurvives⟩

/-- The digits of `4194304.23` do not survive: the number exceeds them by more than four ninths of
the ninth place. -/
theorem BindingValue.toDecimal_float_not_printed :
    ∃ (x : Binary64.Finite) (d t : Decimal), Binary64.ofBits 0x415000000eb851ec = .finite x ∧
      x.magnitude < 10 ^ 28 ∧ (float (.finite x)).toDecimal "price" = .ok d ∧
      Decimal.ofText (float (.finite x)).text = .ok t ∧ d.text = "4194304.230000001" ∧
      t.text = "4194304.23" ∧ d.sameValue t = false := by
  refine ⟨⟨false, 4503599874331116, -30, by decide, by decide, by decide, by decide⟩,
    ⟨false, 4194304230000001, 9, by decide, by decide⟩,
    ⟨false, 419430423, 2, by decide, by decide⟩, ?_⟩
  decide +kernel

end Formulary

import Formulary.Proofs.Decimal.Reading
import Formulary.Proofs.Decimal.Rounding

/-!
# Literals that fit are read exactly

The text of a literal denotes a rational number, its digits over a power of ten. A
decimal has room for only so many digits, and reading rounds the others away; where the
number fits into a decimal, all of those are zeros, so nothing is lost.

* `Representable`: the rational numbers that fit into a decimal; `representable_iff`:
  they are the values of the decimals.
* `numeralValue`: the number that the text of a literal denotes.
* `readDigits_fraction`: digits behind a point, by induction on them.
* `IsNumeral.literal?_exact`: **a literal whose number fits denotes that number.**
-/

namespace Formulary

open Decimal

/-- **A rational number that fits into a decimal**: up to its sign, a mantissa over a
power of ten. -/
def Representable (q : ℚ) : Prop :=
  ∃ m s : Nat, m < mantissaBound ∧ s ≤ maxScale ∧ |q| = m / 10 ^ s

/-- What fits into a decimal is the value of one. -/
theorem representable_iff {q : ℚ} : Representable q ↔ ∃ d : Decimal, d.value = q := by
  constructor
  · rintro ⟨m, s, hm, hs, hq⟩
    refine ⟨⟨decide (q < 0), m, s, hm, hs⟩, ?_⟩
    rw [value_eq, ← hq]
    by_cases hneg : q < 0
    · rw [if_pos (decide_eq_true hneg), abs_of_neg hneg, neg_neg]
    · rw [if_neg (by simpa using hneg), abs_of_nonneg (not_lt.1 hneg)]
  · rintro ⟨d, rfl⟩
    exact ⟨d.mantissa, d.scale, d.mantissa_lt, d.scale_le, d.abs_value⟩

namespace Representable

variable {q : ℚ} {s : Nat}

/-- What fits into a decimal is its own rounding. -/
theorem round?_eq (h : Representable q) : round? q = some q := by
  obtain ⟨d, rfl⟩ := representable_iff.1 h
  exact round?_value d

theorem lt_mantissaBound (h : Representable q) : q < mantissaBound := by
  obtain ⟨m, s, hm, -, hq⟩ := h
  have hle : (m / 10 ^ s : ℚ) ≤ m := div_le_self (by positivity) (one_le_pow₀ (by norm_num))
  have hlt : (m : ℚ) < mantissaBound := by exact_mod_cast hm
  linarith [le_abs_self q]

/-- Behind the places that a number could have, it has none. -/
theorem exists_natCast (h : Representable q) (h0 : 0 ≤ q)
    (hfull : s = maxScale ∨ mantissaBound ≤ q * 10 ^ (s + 1)) : ∃ n : Nat, q * 10 ^ s = n := by
  obtain ⟨m, t, hm, ht, hq⟩ := h
  rw [abs_of_nonneg h0] at hq
  have hmt : q * 10 ^ t = m := by
    rw [hq]
    field_simp
  have hle : t ≤ s := by
    rcases hfull with rfl | hfull
    · exact ht
    · by_contra hlt
      -- then one place more than `s` would still leave less than the mantissa
      have hpow : q * 10 ^ (s + 1) ≤ q * 10 ^ t :=
        mul_le_mul_of_nonneg_left (pow_le_pow_right₀ (by norm_num) (by omega)) h0
      have hmq : (m : ℚ) < mantissaBound := by exact_mod_cast hm
      linarith
  obtain ⟨k, rfl⟩ := Nat.exists_eq_add_of_le hle
  refine ⟨m * 10 ^ k, ?_⟩
  rw [pow_add, ← mul_assoc, hmt]
  push_cast
  rfl

end Representable

/-- **The number that the text of a literal denotes**: its digits, over a power of ten for
each of those behind the point. -/
def numeralValue (cs : List Char) : ℚ :=
  Nat.ofDigitChars 10 (cs.filter Char.isDigit) 0 / 10 ^ (cs.dropWhile Char.isDigit).tail.length

section NumeralValue

variable {ds fs : List Char}

theorem numeralValue_whole (hd : ∀ c ∈ ds, c.isDigit) :
    numeralValue ds = Nat.ofDigitChars 10 ds 0 := by
  have hdrop : (ds ++ []).dropWhile Char.isDigit = [] := Lexer.dropWhile_append_eq hd (by simp)
  rw [List.append_nil] at hdrop
  rw [numeralValue, hdrop, List.filter_eq_self.2 hd]
  simp

theorem numeralValue_fraction (hd : ∀ c ∈ ds, c.isDigit) (hf : ∀ c ∈ fs, c.isDigit) :
    numeralValue (ds ++ '.' :: fs) = Nat.ofDigitChars 10 (ds ++ fs) 0 / 10 ^ fs.length := by
  have hpoint : ∀ y ∈ ('.' :: fs).head?, ¬ y.isDigit := by
    rintro y ⟨rfl⟩
    decide
  have hfilter : (ds ++ '.' :: fs).filter Char.isDigit = ds ++ fs := by
    rw [List.filter_append, List.filter_cons_of_neg (by decide), List.filter_eq_self.2 hd,
      List.filter_eq_self.2 hf]
  rw [numeralValue, Lexer.dropWhile_append_eq hd hpoint, hfilter, List.tail_cons]

example : numeralValue "12.50".toList = 25 / 2 := by decide +kernel

/-- The digits that a literal gets at its ends do not change its number. -/
theorem numeralValue_completeLiteral {cs : List Char} (h : IsNumeral cs) :
    numeralValue (completeLiteral cs) = numeralValue cs := by
  have hzero : ∀ c ∈ ['0'], c.isDigit := List.forall_mem_singleton.2 rfl
  have hnone : ∀ c ∈ ([] : List Char), c.isDigit := fun _ hc => absurd hc List.not_mem_nil
  cases h with
  | whole hne hd => rw [completeLiteral_eq (digits_ends hd).1 (digits_ends hd).2]
  | @fraction ds fs hne hd hf =>
    by_cases hfs : fs = []
    · subst hfs
      rw [completeLiteral_trailing hne hd, numeralValue_fraction hd hzero,
        numeralValue_fraction hd hnone, Nat.ofDigitChars_append]
      have htimes : Nat.ofDigitChars 10 ['0'] (Nat.ofDigitChars 10 ds 0) =
          10 * Nat.ofDigitChars 10 ds 0 := rfl
      rw [htimes, List.append_nil]
      push_cast
      simp
    · rw [completeLiteral_fraction hne hd hfs hf]
  | @bare fs hne hf =>
    have hbare : numeralValue ('.' :: fs) = Nat.ofDigitChars 10 fs 0 / 10 ^ fs.length :=
      numeralValue_fraction hnone hf
    rw [completeLiteral_leading hne hf, numeralValue_fraction hzero hf, hbare,
      Nat.ofDigitChars_append]
    rfl

end NumeralValue

namespace Decimal

variable {negative digits : Bool} {m s : Nat} {c : Char} {cs ds fs : List Char}

theorem digit_le_nine (hc : c.isDigit) : c.toNat - '0'.toNat ≤ 9 := by
  have hle := (Char.isDigit_iff_toNat.1 hc).2
  have hnine : '9'.toNat - '0'.toNat = 9 := rfl
  omega

theorem ofDigitChars_lt (hd : ∀ c ∈ ds, c.isDigit) :
    Nat.ofDigitChars 10 ds 0 < 10 ^ ds.length := by
  induction ds with
  | nil => decide
  | cons c ds ih =>
    obtain ⟨hc, hds⟩ := List.forall_mem_cons.1 hd
    have hrest := ih hds
    have hmul := Nat.mul_le_mul_left (10 ^ ds.length) (digit_le_nine hc)
    rw [Nat.ofDigitChars_cons, Nat.ofDigitChars_eq_ofDigitChars_zero, List.length_cons,
      Nat.pow_succ, Nat.mul_zero, Nat.zero_add]
    omega

theorem ofRead_exact (hm : m < mantissaBound) (hs : s ≤ maxScale) :
    ∃ d, ofRead false m s = .ok d ∧ d.value = m / 10 ^ s := by
  refine ⟨⟨false, m, s, hm, hs⟩, ?_, ?_⟩
  · rw [ofRead, ofParts?, dif_pos ⟨hm, hs⟩]
    rfl
  · rw [value_eq]
    rfl

/-- Of the digits that no longer fit, the first one rounds. -/
theorem readExcess_digits {v : Nat} (hd : ∀ x ∈ c :: cs, x.isDigit) (hv : digit? c = some v) :
    readExcess negative m s (c :: cs) = roundRead negative m s v := by
  have hfault : fractionFault? (c :: cs) = none := by
    rw [fractionFault?, List.find?_eq_none.2 fun x hx => by simp [hd x hx]]
    rfl
  unfold readExcess
  rw [hfault, List.head?_cons, Option.bind_some, hv, Option.getD_some]
  cases roundRead negative m s v with
  | error e => rfl
  | ok d => rfl

/-- A digit of a fraction that no longer fits ends the reading. -/
theorem readDigits_full {v : Nat} (hv : digit? c = some v)
    (hfull : s = maxScale ∨ mantissaBound ≤ 10 * m + v) :
    readDigits negative true digits m s (c :: cs) = readExcess negative m s (c :: cs) := by
  have hno : isFull true m s v = true := by
    rw [isFull, Nat.mul_comm m 10]
    simpa using hfull
  unfold readDigits
  split
  · rfl
  · rw [hv]
    simp [hno]

/-- Where the number fits, digits that no longer fit are zeros: it has no places behind
those that are taken. -/
theorem ofDigitChars_eq_zero (hd : ∀ x ∈ ds, x.isDigit)
    (hfit : Representable (Nat.ofDigitChars 10 ds m / 10 ^ (s + ds.length)))
    (hfull : s = maxScale ∨
      (mantissaBound : ℚ) ≤ Nat.ofDigitChars 10 ds m / 10 ^ (s + ds.length) * 10 ^ (s + 1)) :
    Nat.ofDigitChars 10 ds 0 = 0 := by
  obtain ⟨n, hn⟩ := hfit.exists_natCast (by positivity) hfull
  have hsplit : Nat.ofDigitChars 10 ds m = 10 ^ ds.length * m + Nat.ofDigitChars 10 ds 0 :=
    Nat.ofDigitChars_eq_ofDigitChars_zero
  have hcast : (Nat.ofDigitChars 10 ds m : ℚ) = (10 ^ ds.length * n : Nat) := by
    rw [pow_add] at hn
    field_simp at hn
    push_cast
    linarith
  have hmul : Nat.ofDigitChars 10 ds m = 10 ^ ds.length * n := by exact_mod_cast hcast
  have hdvd : 10 ^ ds.length ∣ Nat.ofDigitChars 10 ds 0 := by
    refine (Nat.dvd_add_right (Dvd.intro m rfl)).1 ?_
    rw [← hsplit, hmul]
    exact Dvd.intro n rfl
  exact Nat.eq_zero_of_dvd_of_lt hdvd (ofDigitChars_lt hd)

/-- A digit that no longer fits into the mantissa makes the number too large for one place
more. -/
theorem mantissaBound_le (hbound : mantissaBound ≤ 10 * m + (c.toNat - '0'.toNat)) (s : Nat) :
    (mantissaBound : ℚ) ≤
      Nat.ofDigitChars 10 (c :: ds) m / 10 ^ (s + (c :: ds).length) * 10 ^ (s + 1) := by
  have hplaces : s + (c :: ds).length = ds.length + (s + 1) := by
    rw [List.length_cons]
    omega
  have hle : mantissaBound * 10 ^ ds.length ≤ Nat.ofDigitChars 10 (c :: ds) m := by
    rw [Nat.ofDigitChars_cons, Nat.ofDigitChars_eq_ofDigitChars_zero, Nat.mul_comm]
    exact Nat.le_trans (Nat.mul_le_mul_left _ hbound) (Nat.le_add_right _ _)
  have hcast : (mantissaBound * 10 ^ ds.length : ℚ) ≤ Nat.ofDigitChars 10 (c :: ds) m := by
    exact_mod_cast hle
  rw [hplaces, pow_add, ← div_div, div_mul_cancel₀ _ (by positivity), le_div_iff₀ (by positivity)]
  exact hcast

/-- **Digits behind a point are read exactly** where the number fits: by induction on
them, as long as each still fits, and then because the others are zeros. -/
theorem readDigits_fraction (hd : ∀ x ∈ ds, x.isDigit) (hm : m < mantissaBound)
    (hs : s ≤ maxScale)
    (hfit : Representable (Nat.ofDigitChars 10 ds m / 10 ^ (s + ds.length))) :
    ∃ d, readDigits false true true m s ds = .ok d ∧
      d.value = Nat.ofDigitChars 10 ds m / 10 ^ (s + ds.length) := by
  induction ds generalizing m s with
  | nil =>
    obtain ⟨d, hread, hvalue⟩ := ofRead_exact hm hs
    exact ⟨d, hread, hvalue⟩
  | cons c ds ih =>
    obtain ⟨hc, hds⟩ := List.forall_mem_cons.1 hd
    have hv : digit? c = some (c.toNat - '0'.toNat) := if_pos hc
    have hplaces : s + (c :: ds).length = s + 1 + ds.length := by
      rw [List.length_cons]
      omega
    by_cases hroom : s < maxScale ∧ 10 * m + (c.toNat - '0'.toNat) < mantissaBound
    · rw [readDigits_cons hv hroom.2 fun _ => hroom.1, if_pos rfl, hplaces, Nat.ofDigitChars_cons]
      rw [hplaces, Nat.ofDigitChars_cons] at hfit
      exact ih hds hroom.2 hroom.1 hfit
    · have hfull : s = maxScale ∨ mantissaBound ≤ 10 * m + (c.toNat - '0'.toNat) := by omega
      have hzero := ofDigitChars_eq_zero hd hfit (hfull.imp_right fun h => mantissaBound_le h s)
      have hfirst : c.toNat - '0'.toNat = 0 := by
        have hle := le_ofDigitChars ds (10 * 0 + (c.toNat - '0'.toNat))
        rw [← Nat.ofDigitChars_cons, hzero] at hle
        omega
      obtain ⟨d, hread, hvalue⟩ := ofRead_exact hm hs
      refine ⟨d, ?_, ?_⟩
      · have hround : roundRead false m s 0 = ofRead false m s := if_pos (by decide)
        rw [readDigits_full hv hfull, readExcess_digits hd (hfirst ▸ hv), hround, hread]
      · rw [hvalue, Nat.ofDigitChars_eq_ofDigitChars_zero, hzero, pow_add]
        push_cast
        field_simp
        simp

/-- Digits around a point are read exactly where the number fits. -/
theorem readDigits_around (hne : ds ≠ []) (hd : ∀ x ∈ ds, x.isDigit) (hf : ∀ x ∈ fs, x.isDigit)
    (hfit : Representable (Nat.ofDigitChars 10 (ds ++ fs) 0 / 10 ^ fs.length)) :
    ∃ d, readDigits false false false 0 0 (ds ++ '.' :: fs) = .ok d ∧
      d.value = Nat.ofDigitChars 10 (ds ++ fs) 0 / 10 ^ fs.length := by
  rw [Nat.ofDigitChars_append] at hfit ⊢
  -- the digits in front of the point are no more than the number, so they fit
  have hwhole : Nat.ofDigitChars 10 ds 0 < mantissaBound := by
    have hlt := hfit.lt_mantissaBound
    rw [div_lt_iff₀ (by positivity)] at hlt
    have hnat : Nat.ofDigitChars 10 fs (Nat.ofDigitChars 10 ds 0) <
        mantissaBound * 10 ^ fs.length := by exact_mod_cast hlt
    rw [Nat.ofDigitChars_eq_ofDigitChars_zero, Nat.mul_comm] at hnat
    exact Nat.lt_of_mul_lt_mul_right (Nat.lt_of_le_of_lt (Nat.le_add_right _ _) hnat)
  rw [readDigits_digits hd hne hwhole (by simp), if_neg (by simp), readDigits_point]
  rw [← Nat.zero_add fs.length] at hfit ⊢
  exact readDigits_fraction hf hwhole (Nat.zero_le _) hfit

end Decimal

variable {cs : List Char}

/-- A numeral with a digit in front of any point is read exactly where its number fits. -/
theorem IsNumeral.readDigits_exact (h : IsNumeral cs) (hhead : cs.head? ≠ some '.')
    (hfit : Representable (numeralValue cs)) :
    ∃ d, readDigits false false false 0 0 cs = .ok d ∧ d.value = numeralValue cs := by
  cases h with
  | whole hne hd =>
    rw [numeralValue_whole hd] at hfit ⊢
    have hwhole : Nat.ofDigitChars 10 cs 0 < mantissaBound := by
      exact_mod_cast hfit.lt_mantissaBound
    obtain ⟨d, hread, hvalue⟩ := ofRead_exact hwhole (Nat.zero_le maxScale)
    refine ⟨d, ?_, by simpa using hvalue⟩
    rw [← List.append_nil cs, readDigits_digits hd hne hwhole (by simp), if_neg (by simp),
      readDigits, if_pos rfl, hread]
  | @fraction ds fs hne hd hf =>
    rw [numeralValue_fraction hd hf] at hfit ⊢
    exact readDigits_around hne hd hf hfit
  | bare => exact absurd rfl hhead

/-- **A literal whose number fits denotes that number**, however many digits it has. -/
theorem IsNumeral.literal?_exact (h : IsNumeral cs) (hfit : Representable (numeralValue cs)) :
    ∃ d, literal? cs = some d ∧ d.value = numeralValue cs := by
  rw [← numeralValue_completeLiteral h] at hfit ⊢
  obtain ⟨d, hread, hvalue⟩ := h.completeLiteral.readDigits_exact (head?_completeLiteral cs) hfit
  refine ⟨d, ?_, hvalue⟩
  rw [literal?, Decimal.read, readPlain_of_isNumeral h.completeLiteral, hread]
  rfl

end Formulary

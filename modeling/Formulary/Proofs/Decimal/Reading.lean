import Mathlib.Algebra.Group.Nat.Defs
import Mathlib.Data.List.Basic
import Formulary.Decimal.Reader
import Formulary.Proofs.Token.Lexeme

/-!
# Printed decimals read back

* `readDigits_digits`: a run of digits within the bounds is read into the mantissa.
* `read_text`: **the text of a decimal reads back as that decimal**, form and all;
  only the sign of a zero is lost.
* `read_canonicalText`: the canonical text reads back as the least form.
* `literal?_canonicalText`, `IsNumeral.literal?_nonneg`: the literals of formulas have
  no sign, and each is the numeral of its canonical text.
-/

namespace Formulary

open Lexer

theorem digits_ends {ds : List Char} (hd : ∀ c ∈ ds, c.isDigit) :
    ds.head? ≠ some '.' ∧ ds.getLast? ≠ some '.' :=
  ⟨fun h => not_mem_of_digits hd (List.mem_of_head? h),
    fun h => not_mem_of_digits hd (List.mem_of_getLast? h)⟩

/-- A literal without a point at an end stays as it is. -/
theorem completeLiteral_eq {cs : List Char} (h : cs.head? ≠ some '.')
    (h' : cs.getLast? ≠ some '.') : completeLiteral cs = cs := by
  simp [completeLiteral, h, h']

/-- A literal with the missing digits put in does not start with a point. -/
theorem head?_completeLiteral (cs : List Char) : (completeLiteral cs).head? ≠ some '.' := by
  unfold completeLiteral
  by_cases h : cs.head? = some '.'
  · simp only [if_pos h]
    split <;> simp
  · simp only [if_neg h]
    split
    · cases cs with
      | nil => simp
      | cons c cs => simpa using h
    · exact h

section Completion

variable {ds fs : List Char}

/-- A point between digits needs no more of them. -/
theorem completeLiteral_fraction (hne : ds ≠ []) (hd : ∀ c ∈ ds, c.isDigit) (hne' : fs ≠ [])
    (hf : ∀ c ∈ fs, c.isDigit) : completeLiteral (ds ++ '.' :: fs) = ds ++ '.' :: fs := by
  refine completeLiteral_eq ?_ ?_
  · rw [List.head?_append_of_ne_nil _ hne]
    exact (digits_ends hd).1
  · rw [List.getLast?_append_of_ne_nil _ (List.cons_ne_nil _ _), List.getLast?_cons_of_ne_nil hne']
    exact (digits_ends hf).2

/-- A point behind the digits gets a zero behind it. -/
theorem completeLiteral_trailing (hne : ds ≠ []) (hd : ∀ c ∈ ds, c.isDigit) :
    completeLiteral (ds ++ ['.']) = ds ++ '.' :: ['0'] := by
  have hhead : (ds ++ ['.']).head? ≠ some '.' := by
    rw [List.head?_append_of_ne_nil _ hne]
    exact (digits_ends hd).1
  rw [completeLiteral, if_neg hhead]
  simp

/-- A point in front of the digits gets a zero in front of it. -/
theorem completeLiteral_leading (hne : fs ≠ []) (hf : ∀ c ∈ fs, c.isDigit) :
    completeLiteral ('.' :: fs) = ['0'] ++ '.' :: fs := by
  have hlast : ('.' :: fs).getLast? ≠ some '.' := by
    rw [List.getLast?_cons_of_ne_nil hne]
    exact (digits_ends hf).2
  simp [completeLiteral, hlast]

end Completion

/-- A numeral with the missing digits put in is a numeral still. -/
theorem IsNumeral.completeLiteral {cs : List Char} (h : IsNumeral cs) :
    IsNumeral (completeLiteral cs) := by
  have hzero : ∀ c ∈ ['0'], c.isDigit := List.forall_mem_singleton.2 rfl
  cases h with
  | whole hne hd =>
    rw [completeLiteral_eq (digits_ends hd).1 (digits_ends hd).2]
    exact .whole hne hd
  | @fraction ds fs hne hd hf =>
    by_cases hfs : fs = []
    · rw [hfs, completeLiteral_trailing hne hd]
      exact .fraction hne hd hzero
    · rw [completeLiteral_fraction hne hd hfs hf]
      exact .fraction hne hd hf
  | @bare fs hne hf =>
    rw [completeLiteral_leading hne hf]
    exact .fraction (List.cons_ne_nil _ _) hzero hf

end Formulary

namespace Formulary.Text

theorem isDigit_of_mem_toDigits {n : Nat} : ∀ c ∈ Nat.toDigits 10 n, c.isDigit :=
  fun _ hc => Nat.isDigit_of_mem_toDigits (by decide) (by decide) hc

/-- The digits behind the point: exactly so many, with the value of the remainder. -/
theorem length_fraction {r places : Nat} (hp : places ≠ 0) (hr : r < 10 ^ places) :
    ((Nat.toDigits 10 r).leftpad places '0').length = places := by
  have hlen : (Nat.toDigits 10 r).length ≤ places :=
    (Nat.length_toDigits_le_iff (by decide) (Nat.pos_of_ne_zero hp)).2 hr
  rw [List.length_leftpad]
  omega

theorem isDigit_of_mem_leftpad (r places : Nat) :
    ∀ c ∈ (Nat.toDigits 10 r).leftpad places '0', c.isDigit := by
  intro c hc
  rcases List.mem_append.1 hc with hc | hc
  · rw [List.eq_of_mem_replicate hc]
    decide
  · exact isDigit_of_mem_toDigits c hc

theorem ofDigitChars_leftpad (r places : Nat) :
    Nat.ofDigitChars 10 ((Nat.toDigits 10 r).leftpad places '0') 0 = r := by
  unfold List.leftpad
  rw [Nat.ofDigitChars_append, Nat.ofDigitChars_replicate_zero]
  simp [Nat.ofDigitChars_ten_toDigits]

/-- The digits behind the point, where there are any, are digits and not empty. -/
theorem fraction_ne_nil {m places : Nat} (hp : places ≠ 0) :
    (Nat.toDigits 10 (m % 10 ^ places)).leftpad places '0' ≠ [] := by
  have hlen := length_fraction hp (Nat.mod_lt m (Nat.pow_pos (n := places) (by decide : 0 < 10)))
  exact List.ne_nil_of_length_pos (by omega)

/-- Positional notation is a numeral. -/
theorem isNumeral_positional (m places : Nat) : IsNumeral (positional m places) := by
  unfold positional
  split
  · exact .whole Nat.toDigits_ne_nil isDigit_of_mem_toDigits
  · exact .fraction Nat.toDigits_ne_nil isDigit_of_mem_toDigits (isDigit_of_mem_leftpad _ _)

/-- Positional notation has a digit at both ends. -/
theorem completeLiteral_positional (m places : Nat) :
    completeLiteral (positional m places) = positional m places := by
  have hhead := digits_ends (isDigit_of_mem_toDigits (n := m / 10 ^ places))
  unfold positional
  split
  · have h := digits_ends (isDigit_of_mem_toDigits (n := m))
    exact completeLiteral_eq h.1 h.2
  · rename_i hp
    have h := digits_ends (isDigit_of_mem_leftpad (m % 10 ^ places) places)
    refine completeLiteral_eq ?_ ?_
    · rw [List.head?_append_of_ne_nil _ Nat.toDigits_ne_nil]
      exact hhead.1
    · rw [List.getLast?_append_of_ne_nil _ (List.cons_ne_nil _ _),
        List.getLast?_cons_of_ne_nil (fraction_ne_nil hp)]
      exact h.2

end Formulary.Text

namespace Formulary.Decimal

open Lexer

variable {negative point digits : Bool} {m s : Nat} {c : Char} {cs ds rest : List Char}
  {d : Decimal}

/-- Further digits never make the number smaller. -/
theorem le_ofDigitChars (ds : List Char) (m : Nat) : m ≤ Nat.ofDigitChars 10 ds m := by
  rw [Nat.ofDigitChars_eq_ofDigitChars_zero]
  exact Nat.le_trans (Nat.le_mul_of_pos_left _ (Nat.pow_pos (by decide))) (Nat.le_add_right _ _)

/-- A digit that fits is read into the mantissa. -/
theorem readDigits_cons {v : Nat} (hv : digit? c = some v) (hm : 10 * m + v < mantissaBound)
    (hs : point → s + 1 ≤ maxScale) :
    readDigits negative point digits m s (c :: cs) =
      readDigits negative point true (10 * m + v) (if point then s + 1 else s) cs := by
  -- a place and a digit are free, so this digit is not the one that rounds
  have hroom : (point && s == maxScale) = false := by
    cases point with
    | false => rfl
    | true =>
      have hs := hs rfl
      simp
      omega
  have hfull : isFull point m s v = false := by
    rw [isFull, hroom, Bool.false_or, decide_eq_false_iff_not, Nat.mul_comm]
    omega
  have hnow : roundsAtOnce point m s = false := by
    simp [roundsAtOnce, hroom]
  rw [readDigits, if_neg (by simp [hnow]), hv, Nat.mul_comm m 10]
  simp [hfull]

/-- **A run of digits is read into the mantissa**, as long as mantissa and places
stay within the bounds of a decimal. -/
theorem readDigits_digits (hd : ∀ c ∈ ds, c.isDigit) (hne : ds ≠ [])
    (hm : Nat.ofDigitChars 10 ds m < mantissaBound) (hs : point → s + ds.length ≤ maxScale) :
    readDigits negative point digits m s (ds ++ rest) =
      readDigits negative point true (Nat.ofDigitChars 10 ds m)
        (if point then s + ds.length else s) rest := by
  induction ds generalizing digits m s with
  | nil => exact absurd rfl hne
  | cons c ds ih =>
    obtain ⟨hc, hds⟩ := List.forall_mem_cons.1 hd
    rw [Nat.ofDigitChars_cons] at hm ⊢
    rw [List.length_cons] at hs
    -- the digits to come only make the number larger, so this one fits as they all do
    have hle := le_ofDigitChars ds (10 * m + (c.toNat - '0'.toNat))
    rw [List.cons_append, readDigits_cons (if_pos hc) (by omega) fun hp => by have := hs hp; omega]
    cases ds with
    | nil => rfl
    | cons x ds =>
      rw [ih hds (by simp) hm fun hp => by simpa [hp, Nat.add_assoc, Nat.add_comm] using hs hp]
      cases point <;> simp [Nat.add_assoc, Nat.add_comm]

/-- The first point turns to the fraction. -/
theorem readDigits_point :
    readDigits negative false digits m s ('.' :: cs) = readDigits negative true digits m s cs := by
  simp [readDigits, roundsAtOnce, digit?]

/-- The digits behind the point complete those in front of it. -/
theorem ofDigitChars_fraction (hs : s ≠ 0) (m : Nat) :
    Nat.ofDigitChars 10 ((Nat.toDigits 10 (m % 10 ^ s)).leftpad s '0') (m / 10 ^ s) = m := by
  have hlen := Text.length_fraction hs (Nat.mod_lt m (Nat.pow_pos (by decide : 0 < 10)))
  rw [Nat.ofDigitChars_eq_ofDigitChars_zero, Text.ofDigitChars_leftpad, hlen]
  exact Nat.div_add_mod m (10 ^ s)

/-- Reading a number in positional notation comes to the digits behind the point. -/
theorem readDigits_positional_point (hs : s ≠ 0) (hm : m / 10 ^ s < mantissaBound) :
    readDigits negative false false 0 0 (Text.positional m s) =
      readDigits negative true true (m / 10 ^ s) 0
        ((Nat.toDigits 10 (m % 10 ^ s)).leftpad s '0') := by
  unfold Text.positional
  rw [if_neg hs, readDigits_digits Text.isDigit_of_mem_toDigits Nat.toDigits_ne_nil
      (by rwa [Nat.ofDigitChars_ten_toDigits]) (by simp),
    Nat.ofDigitChars_ten_toDigits, if_neg (by simp), readDigits_point]

/-- The parts of a decimal read back from its digits. -/
theorem readDigits_positional (hm : m < mantissaBound) (hs : s ≤ maxScale) :
    readDigits negative false false 0 0 (Text.positional m s) = ofRead negative m s := by
  by_cases hp : s = 0
  · rw [hp, Text.positional_zero, ← List.append_nil (Nat.toDigits 10 m),
      readDigits_digits Text.isDigit_of_mem_toDigits Nat.toDigits_ne_nil
        (by rwa [Nat.ofDigitChars_ten_toDigits]) (by simp),
      Nat.ofDigitChars_ten_toDigits]
    simp [readDigits]
  · have hlen := Text.length_fraction hp (Nat.mod_lt m (Nat.pow_pos (by decide : 0 < 10)))
    have hvalue := ofDigitChars_fraction hp m
    rw [readDigits_positional_point hp (Nat.lt_of_le_of_lt (Nat.div_le_self _ _) hm),
      ← List.append_nil (List.leftpad _ _ _),
      readDigits_digits (Text.isDigit_of_mem_leftpad _ _) (Text.fraction_ne_nil hp)
        (by rwa [hvalue]) (by rw [hlen]; simpa using hs), hvalue, hlen]
    simp [readDigits]

/-- A numeral has no sign. -/
theorem readPlain_of_isNumeral (h : IsNumeral cs) :
    readPlain cs = readDigits false false false 0 0 cs := by
  have hne : cs ≠ [] := by
    cases h <;> simp_all
  obtain ⟨c, more, rfl⟩ := List.exists_cons_of_ne_nil hne
  have hsign : c ≠ '-' ∧ c ≠ '+' := by
    rcases isNumeral_head h with hc | rfl
    · constructor <;> rintro rfl <;> exact absurd hc (by decide)
    · decide
  unfold readPlain
  split <;> simp_all

/-- A sign in front of a number in positional notation is the sign that its digits are read
with. -/
theorem read_positional
    (h : readDigits negative false false 0 0 (Text.positional m s) = .ok d) :
    read ((if negative then ['-'] else []) ++ Text.positional m s) = .ok d := by
  unfold read
  cases negative with
  | true =>
    have hplain : readPlain ('-' :: Text.positional m s) =
        readDigits true false false 0 0 (Text.positional m s) := rfl
    simp only [if_true, List.singleton_append, hplain, h]
  | false =>
    simp only [Bool.false_eq_true, if_false, List.nil_append,
      readPlain_of_isNumeral (Text.isNumeral_positional m s), h]

/-- **The text of a decimal reads back as the decimal**, in its form; only the sign
of a zero is lost. -/
theorem read_text (d : Decimal) :
    read d.text.toList = .ok { d with negative := d.negative && d.mantissa != 0 } := by
  rw [text, String.toList_ofList]
  refine read_positional ?_
  rw [readDigits_positional d.mantissa_lt d.scale_le, ofRead, ofParts?,
    dif_pos ⟨d.mantissa_lt, d.scale_le⟩]

/-- Only zero has a least form with the mantissa zero. -/
theorem mantissa_normalize_eq_zero_iff : d.normalize.mantissa = 0 ↔ d.mantissa = 0 := by
  have hvalue := stripZeros_value d.mantissa d.scale
  have hpow (n : Nat) : 10 ^ n ≠ 0 := Nat.ne_of_gt (Nat.pow_pos (by decide))
  constructor
  · intro h
    change (stripZeros d.mantissa d.scale).1 = 0 at h
    rw [h, Nat.zero_mul] at hvalue
    exact (Nat.mul_eq_zero.1 hvalue.symm).resolve_right (hpow _)
  · intro h
    rw [h, Nat.zero_mul] at hvalue
    exact h ▸ (Nat.mul_eq_zero.1 hvalue).resolve_right (hpow _)

/-- **The canonical text of a decimal reads back as its least form.** -/
theorem read_canonicalText (d : Decimal) : read d.canonicalText.toList = .ok d.normalize := by
  rw [canonicalText, read_text]
  congr 1
  -- zero has no sign in its least form, so no sign is lost
  have hsign : (d.normalize.negative && d.normalize.mantissa != 0) = d.normalize.negative := by
    change (d.negative && !(d.mantissa == 0) && d.normalize.mantissa != 0) =
      (d.negative && !(d.mantissa == 0))
    by_cases h : d.mantissa = 0
    · simp [h]
    · simp [h, mt mantissa_normalize_eq_zero_iff.1 h]
  rw [hsign]

theorem ofRead_nonneg (h : ofRead false m s = .ok d) : d.negative = false := by
  unfold ofRead ofParts? at h
  split at h
  · rename_i r hr
    split at hr
    · cases hr
      cases h
      rfl
    · cases hr
  · cases h

theorem roundRead_nonneg {first : Nat} (h : roundRead false m s first = .ok d) :
    d.negative = false := by
  unfold roundRead at h
  split at h
  · exact ofRead_nonneg h
  · split at h
    · exact ofRead_nonneg h
    · split at h
      · cases h
      · exact ofRead_nonneg h

theorem readExcess_nonneg (h : readExcess false m s cs = .ok d) : d.negative = false := by
  unfold readExcess at h
  cases hr : roundRead false m s ((cs.head?.bind digit?).getD 0) with
  | error e => simp [hr, bind, Except.bind] at h
  | ok r =>
    simp only [hr, bind, Except.bind] at h
    split at h
    · cases h
    · cases h
      exact roundRead_nonneg hr

/-- Digits read without a sign make no negative decimal. -/
theorem readDigits_nonneg (h : readDigits false point digits m s cs = .ok d) :
    d.negative = false := by
  induction cs generalizing point digits m s with
  | nil =>
    unfold readDigits at h
    split at h
    · exact ofRead_nonneg h
    · cases h
  | cons c cs ih =>
    unfold readDigits at h
    split at h
    · exact readExcess_nonneg h
    · split at h
      · split at h
        · exact ih h
        · split at h
          · exact readExcess_nonneg h
          · cases h
      · split at h
        · exact ih h
        · split at h
          · exact ih h
          · cases h

end Formulary.Decimal

namespace Formulary

open Decimal

variable {cs : List Char} {d : Decimal}

/-- **A literal of a formula is not negative**: its text has no sign and no exponent. -/
theorem IsNumeral.literal?_nonneg (h : IsNumeral cs) (hd : literal? cs = some d) :
    d.negative = false := by
  have hread : read (Formulary.completeLiteral cs) = .ok d := by
    unfold literal? at hd
    cases hr : read (Formulary.completeLiteral cs) with
    | error e => simp [hr, Except.toOption] at hd
    | ok r => simpa [hr, Except.toOption] using hd
  have hmark : (Formulary.completeLiteral cs).any isExponentMark = false := by
    refine List.any_eq_false.2 fun c hc => ?_
    rcases h.completeLiteral.mem c hc with hdigit | rfl
    · simp only [isExponentMark, Bool.or_eq_true, beq_iff_eq, not_or]
      constructor <;> rintro rfl <;> exact absurd hdigit (by decide)
    · decide
  rw [Decimal.read, readPlain_of_isNumeral h.completeLiteral] at hread
  split at hread
  · rename_i r hr
    cases hread
    exact readDigits_nonneg hr
  · rw [if_neg (by simp [hmark])] at hread
    cases hread

/-- The canonical text of a decimal without a sign is a numeral of its least form. -/
theorem literal?_canonicalText (h : d.negative = false) :
    IsNumeral d.canonicalText.toList ∧ literal? d.canonicalText.toList = some d.normalize := by
  have htext : d.canonicalText.toList =
      Text.positional d.normalize.mantissa d.normalize.scale := by
    rw [canonicalText, Decimal.text, String.toList_ofList]
    simp [Decimal.normalize, h]
  constructor
  · rw [htext]
    exact Text.isNumeral_positional _ _
  · rw [literal?, htext, Text.completeLiteral_positional, ← htext, read_canonicalText]
    rfl

end Formulary

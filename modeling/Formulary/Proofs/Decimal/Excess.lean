import Formulary.Proofs.Decimal.Literal

/-!
# Text with more places than a decimal has

Reading stops behind the last place that a decimal has. The digit there rounds, a half
upwards, and the others are left out.

* `ofDigitChars_div`: leaving out digits is a division.
* `read_positional_excess`: **text with more than 28 places is rounded by the next of them.**
-/

namespace Formulary.Decimal

variable {negative digits : Bool} {m s : Nat} {c : Char} {cs ds : List Char}
  {d : Decimal}

/-- A number without its last digits. -/
theorem ofDigitChars_div (hd : ∀ x ∈ ds, x.isDigit) (m : Nat) :
    Nat.ofDigitChars 10 ds m / 10 ^ ds.length = m := by
  have hlt : Nat.ofDigitChars 10 ds 0 < 10 ^ ds.length := ofDigitChars_lt hd
  rw [Nat.ofDigitChars_eq_ofDigitChars_zero, Nat.mul_add_div (Nat.pow_pos (by decide)),
    Nat.div_eq_of_lt hlt, Nat.add_zero]

/-- A digit rounds a mantissa as it would if it were the last of one more. -/
theorem roundRead_eq {v : Nat} (hv : v ≤ 9) (hfit : m + 1 < mantissaBound) :
    roundRead negative m s v = ofRead negative ((10 * m + v + 5) / 10) s := by
  unfold roundRead
  split
  · rw [(by omega : (10 * m + v + 5) / 10 = m)]
  · rw [(by omega : (10 * m + v + 5) / 10 = m + 1)]

/-- Digits behind a point, of which only the first 28 fit: the next one rounds. -/
theorem readDigits_excess (hd : ∀ x ∈ ds, x.isDigit) (hlength : 28 < ds.length)
    (hfit : Nat.ofDigitChars 10 ds m / 10 ^ (ds.length - 28) + 1 < mantissaBound) :
    readDigits negative true digits m 0 ds =
      ofRead negative ((Nat.ofDigitChars 10 ds m / 10 ^ (ds.length - 29) + 5) / 10) maxScale := by
  have htake : (ds.take 28).length = 28 := List.length_take_of_le (Nat.le_of_lt hlength)
  have hne : ds.take 28 ≠ [] := List.ne_nil_of_length_pos (by omega)
  obtain ⟨c, cs, hcs⟩ : ∃ c cs, ds.drop 28 = c :: cs := by
    refine List.exists_cons_of_ne_nil fun hnil => ?_
    rw [List.drop_eq_nil_iff] at hnil
    omega
  have hsplit : ds = ds.take 28 ++ c :: cs := by rw [← hcs, List.take_append_drop]
  have hdrop : (c :: cs).length = ds.length - 28 := by rw [← hcs, List.length_drop]
  have hcount : cs.length = ds.length - 29 := by
    rw [List.length_cons] at hdrop
    omega
  have hfirst : ∀ x ∈ ds.take 28, x.isDigit := fun x hx => hd x (List.mem_of_mem_take hx)
  have hlast : ∀ x ∈ c :: cs, x.isDigit := fun x hx => hd x (List.mem_of_mem_drop (hcs ▸ hx))
  obtain ⟨hc, hrest⟩ := List.forall_mem_cons.1 hlast
  -- the number with 28 of the places, and with 29
  have hnumber : Nat.ofDigitChars 10 ds m =
      Nat.ofDigitChars 10 (c :: cs) (Nat.ofDigitChars 10 (ds.take 28) m) := by
    rw [← Nat.ofDigitChars_append, ← hsplit]
  have hplaces : Nat.ofDigitChars 10 ds m / 10 ^ (ds.length - 28) =
      Nat.ofDigitChars 10 (ds.take 28) m := by
    rw [hnumber, ← hdrop, ofDigitChars_div hlast]
  have hnext : Nat.ofDigitChars 10 ds m / 10 ^ (ds.length - 29) =
      10 * Nat.ofDigitChars 10 (ds.take 28) m + (c.toNat - '0'.toNat) := by
    rw [hnumber, Nat.ofDigitChars_cons, ← hcount, ofDigitChars_div hrest]
  rw [hplaces] at hfit
  have hfits : Nat.ofDigitChars 10 (ds.take 28) m < mantissaBound := Nat.lt_of_succ_lt hfit
  rw [hnext]
  calc readDigits negative true digits m 0 ds
      = readDigits negative true digits m 0 (ds.take 28 ++ c :: cs) := by rw [← hsplit]
    _ = readDigits negative true true (Nat.ofDigitChars 10 (ds.take 28) m) maxScale (c :: cs) := by
      rw [readDigits_digits hfirst hne hfits fun _ => by rw [htake], htake]
      rfl
    _ = roundRead negative (Nat.ofDigitChars 10 (ds.take 28) m) maxScale (c.toNat - '0'.toNat) := by
      rw [readDigits_full (if_pos hc) (.inl rfl), readExcess_digits hlast (if_pos hc)]
    _ = _ := roundRead_eq (digit_le_nine hc) hfit

/-- **Text with more than 28 places is read rounded**, a half of the last place upwards. -/
theorem read_positional_excess (hs : 28 < s) (hfit : m / 10 ^ (s - 28) + 1 < mantissaBound)
    (hd : ofRead negative ((m / 10 ^ (s - 29) + 5) / 10) maxScale = .ok d) :
    read ((if negative then ['-'] else []) ++ Text.positional m s) = .ok d := by
  have hs0 : s ≠ 0 := by omega
  have hwhole : m / 10 ^ s < mantissaBound := by
    have hle : m / 10 ^ s ≤ m / 10 ^ (s - 28) :=
      Nat.div_le_div_left (Nat.pow_le_pow_right (by decide) (Nat.sub_le s 28))
        (Nat.pow_pos (by decide))
    omega
  have hlen := Text.length_fraction hs0 (Nat.mod_lt m (Nat.pow_pos (by decide : 0 < 10)))
  have hvalue := ofDigitChars_fraction hs0 m
  refine read_positional ?_
  rw [readDigits_positional_point hs0 hwhole,
    readDigits_excess (Text.isDigit_of_mem_leftpad _ _) (by rwa [hlen]) (by rwa [hvalue, hlen]),
    hvalue, hlen, hd]

end Formulary.Decimal

import Formulary.Value
import Formulary.Proofs.Expr.RoundTrip

/-!
# Printed text tells values and formulas apart

Printing shows least forms only, and a value has one of them; what is printed reads back.
So two things print alike exactly when they are equal, numbers and literals by value.

* `Decimal.canonicalText_eq_iff`: the canonical texts of decimals, by reading them back.
* `Value.text_eq_iff`: the same for values; no truth value is printed like a number.
* `Expr.same_iff` (every tree): trees are equal when their literals have one least form.
* `Formula.text_eq_iff`: trees of formulas print alike only when they are equal.
* `text_eq_iff_same`: **printed text is a complete invariant** of a value, and of a formula
  over its names.
-/

namespace Formulary

namespace Decimal

variable {a b : Decimal}

/-- **Decimals print alike exactly when they have one value.** -/
theorem canonicalText_eq_iff : a.canonicalText = b.canonicalText ↔ a.value = b.value := by
  rw [← normalize_eq_iff]
  constructor
  · intro h
    have hread := read_canonicalText a
    rw [h, read_canonicalText] at hread
    exact (Except.ok.inj hread).symm
  · intro h
    unfold canonicalText
    rw [h]

/-- The text of a truth value does not read as a number, and that of a number does. -/
theorem canonicalText_ne_boolean (d : Decimal) (b : Bool) :
    d.canonicalText ≠ (Value.boolean b).text := by
  intro h
  have hread := read_canonicalText d
  rw [h] at hread
  have hword : ∃ fault, read (Value.boolean b).text.toList = .error fault := by
    cases b with
    | false => exact ⟨.unknownCharacter, by decide +kernel⟩
    | true => exact ⟨.unknownCharacter, by decide +kernel⟩
  obtain ⟨fault, hfault⟩ := hword
  cases hread.symm.trans hfault

end Decimal

/-- **Values print alike exactly when they are equal**: numbers by value, and never a number
and a truth value. -/
theorem Value.text_eq_iff (v w : Value) : v.text = w.text ↔ v.same w := by
  cases v with
  | number a =>
    cases w with
    | number b =>
      unfold same
      rw [Decimal.sameValue_iff]
      exact Decimal.canonicalText_eq_iff
    | boolean b => exact iff_of_false (a.canonicalText_ne_boolean b) Bool.false_ne_true
  | boolean a =>
    cases w with
    | number b =>
      exact iff_of_false (fun h => b.canonicalText_ne_boolean a h.symm) Bool.false_ne_true
    | boolean b => cases a <;> cases b <;> decide

namespace Expr

/-- **Trees are equal when their least forms are one tree**, by induction on the first. -/
theorem same_iff {a b : Expr} : a.same b ↔ a.normalize = b.normalize := by
  induction a generalizing b with
  | literal d =>
    cases b with
    | literal d' => simp [same, normalize, Decimal.sameValue_iff, Decimal.normalize_eq_iff]
    | var | negate | binary | conditional => simp [same, normalize]
  | var name slot =>
    cases b with
    | var name' slot' => simp [same, normalize]
    | literal | negate | binary | conditional => simp [same, normalize]
  | negate e ih =>
    cases b with
    | negate e' => simp [same, normalize, ih]
    | literal | var | binary | conditional => simp [same, normalize]
  | binary op l r ihl ihr =>
    cases b with
    | binary op' l' r' => simp [same, normalize, ihl, ihr, and_assoc]
    | literal | var | negate | conditional => simp [same, normalize]
  | conditional c t e ihc iht ihe =>
    cases b with
    | conditional c' t' e' => simp [same, normalize, ihc, iht, ihe, and_assoc]
    | literal | var | negate | binary => simp [same, normalize]

/-- Equal trees print alike. -/
theorem text_eq_of_same {a b : Expr} (h : a.same b) : a.text = b.text := by
  rw [← a.text_normalize, same_iff.1 h, b.text_normalize]

/-- **Trees of formulas over the same names that print alike are equal**: read under limits
that let the text through, it can only be one of them. -/
theorem same_of_text_eq {names : List String} {a b : Expr}
    (hnames : Parser.checkNames [] names = .ok ()) (ha : a.Writable names) (hb : b.Writable names)
    (h : a.text = b.text) : a.same b := by
  let limits : Limits :=
    { maxFormulaLength := a.text.length
      maxTokenCount := max a.tokenCount b.tokenCount
      maxTreeDepth := max a.nesting b.nesting + 1 }
  have hreads (e : Expr) (he : e.Writable names) (htext : e.text = a.text)
      (hcount : e.tokenCount ≤ limits.maxTokenCount)
      (hdepth : e.nesting + 1 ≤ limits.maxTreeDepth) :
      Formula.compile a.text names limits = .ok ⟨a.text, names, e.normalize⟩ := by
    have hread := compile_text_eq hnames he limits
    rwa [htext, if_neg (Nat.lt_irrefl _), if_neg (Nat.not_lt.2 hcount), if_pos hdepth] at hread
  have hreada := hreads a ha rfl (Nat.le_max_left _ _)
    (Nat.succ_le_succ (Nat.le_max_left _ _))
  have hreadb := hreads b hb h.symm (Nat.le_max_right _ _)
    (Nat.succ_le_succ (Nat.le_max_right _ _))
  have hformula := Except.ok.inj (hreada.symm.trans hreadb)
  exact same_iff.2 (congrArg Formula.root hformula)

end Expr

/-- **Formulas over the same names print alike exactly when their trees are equal**, whatever
texts and limits they were compiled from. -/
theorem Formula.text_eq_iff {source source' : String} {names : List String}
    {limits limits' : Limits} {f g : Formula} (hf : compile source names limits = .ok f)
    (hg : compile source' names limits' = .ok g) : f.text = g.text ↔ f.root.same g.root := by
  obtain ⟨-, hnames, hwf⟩ := writable_of_compile hf
  obtain ⟨-, -, hwg⟩ := writable_of_compile hg
  exact ⟨Expr.same_of_text_eq hnames hwf hwg, Expr.text_eq_of_same⟩

/-- **Printed text is a complete invariant.** Values are equal exactly when they print alike,
and the text of a number reads back as an equal number. Formulas that were compiled over the
same names, from any texts and under any limits, have equal trees exactly when they print
alike. -/
theorem text_eq_iff_same :
    (∀ v w : Value, v.same w ↔ v.text = w.text) ∧
    (∀ d : Decimal, ∃ r, Decimal.ofText (Value.number d).text = .ok r ∧ r.sameValue d) ∧
    ∀ (source source' : String) (names : List String) (limits limits' : Limits) (f g : Formula),
      Formula.compile source names limits = .ok f →
      Formula.compile source' names limits' = .ok g →
      (f.root.same g.root ↔ f.text = g.text) := by
  refine ⟨?_, ?_, ?_⟩
  · intro v w
    exact (v.text_eq_iff w).symm
  · intro d
    have hread : Decimal.ofText (Value.number d).text = .ok d.normalize := d.read_canonicalText
    exact ⟨d.normalize, hread, Decimal.sameValue_iff.2 d.value_normalize⟩
  · intro source source' names limits limits' f g hf hg
    exact (Formula.text_eq_iff hf hg).symm

/-- A zero with a sign prints like the plain one. A difference with a literal in two forms is
one tree with one text, and the other grouping of its operands prints differently. -/
theorem text_eq_iff_same_difference :
    (Value.number ⟨true, 0, 3, by decide, by decide⟩).text = (Value.number .zero).text ∧
    ∃ f g h, Formula.compile "x - 1.50 - x" ["x"] {} = .ok f ∧
      Formula.compile "(x-1.5)-x" ["x"] { maxTreeDepth := 3 } = .ok g ∧
      Formula.compile "x - (1.5 - x)" ["x"] {} = .ok h ∧
      f.text = g.text ∧ g.text = "((x - 1.5) - x)" ∧ g.text ≠ h.text := by
  let x : Expr := .var "x" 0
  let rate : Expr := .literal ⟨false, 15, 1, by decide, by decide⟩
  let f : Formula := ⟨"x - 1.50 - x", ["x"],
    .binary .sub (.binary .sub x (.literal ⟨false, 150, 2, by decide, by decide⟩)) x⟩
  let g : Formula := ⟨"(x-1.5)-x", ["x"], .binary .sub (.binary .sub x rate) x⟩
  let h : Formula := ⟨"x - (1.5 - x)", ["x"], .binary .sub x (.binary .sub rate x)⟩
  have hf : Formula.compile "x - 1.50 - x" ["x"] {} = .ok f := by decide +kernel
  have hg : Formula.compile "(x-1.5)-x" ["x"] { maxTreeDepth := 3 } = .ok g := by decide +kernel
  have hh : Formula.compile "x - (1.5 - x)" ["x"] {} = .ok h := by decide +kernel
  obtain ⟨hvalues, -, hformulas⟩ := text_eq_iff_same
  refine ⟨(hvalues _ _).1 (by decide), f, g, h, hf, hg, hh, ?_, by decide +kernel, ?_⟩
  · exact (hformulas _ _ _ _ _ f g hf hg).1 (by decide +kernel)
  · exact fun htext => absurd ((hformulas _ _ _ _ _ g h hg hh).2 htext) (by decide +kernel)

end Formulary

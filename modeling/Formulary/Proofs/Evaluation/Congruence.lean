import Mathlib.Data.List.Forall2
import Formulary.Evaluation
import Formulary.Proofs.Decimal.Arithmetic
import Formulary.Proofs.Decimal.Division
import Formulary.Proofs.Expr.RoundTrip

/-!
# Evaluation respects equality

Trees that are the same up to the forms of their literals, over slots that hold the same
values, have the same value or fail alike, and in the same number of steps. The forms of
decimals never decide anything: every operation rounds an exact result that the values of
its operands determine.

* `Agree`, `Run.Agrees`: results, and runs from any count of steps, that are alike.
* `BinaryOp.apply_agree`: every operation respects the equality of values.
* `evalNode_agrees` (every tree): by induction, with a step for each node.
* `evaluate_agree`: **equal trees evaluate alike, and so does the canonical text of a
  formula, over all bindings and limits.**
-/

namespace Formulary

variable {α β : Type}

/-- Results that are alike: the same error, or related values. -/
inductive Agree (R : α → α → Prop) : Except EvalError α → Except EvalError α → Prop
  | ok {a b : α} (h : R a b) : Agree R (.ok a) (.ok b)
  | error (e : EvalError) : Agree R (.error e) (.error e)

theorem Agree.refl {R : α → α → Prop} (hR : ∀ a, R a a) (x : Except EvalError α) : Agree R x x := by
  cases x with
  | error e => exact .error e
  | ok a => exact .ok (hR a)

namespace Run

/-- **Runs that are alike**: from the same count of steps they end with the same count and
with results that are alike. -/
def Agrees (R : α → α → Prop) (x y : Run α) : Prop :=
  ∀ n, Agree R (x.run.run n).1 (y.run.run n).1 ∧ (x.run.run n).2 = (y.run.run n).2

namespace Agrees

variable {R : α → α → Prop} {S : β → β → Prop}

theorem refl (hR : ∀ a, R a a) (x : Run α) : Agrees R x x := fun _ => ⟨.refl hR _, rfl⟩

theorem pure {a b : α} (h : R a b) : Agrees R (Pure.pure a) (Pure.pure b) := fun _ => ⟨.ok h, rfl⟩

theorem ofExcept {x y : Except EvalError α} (h : Agree R x y) :
    Agrees R (Run.ofExcept x) (Run.ofExcept y) :=
  fun _ => ⟨h, rfl⟩

/-- Alike runs that go on alike are alike. -/
theorem bind {x y : Run α} {f g : α → Run β} (h : Agrees R x y)
    (hf : ∀ a b, R a b → Agrees S (f a) (g b)) : Agrees S (x >>= f) (y >>= g) := by
  intro n
  have hn := h n
  rw [run_bind, run_bind]
  rcases hx : x.run.run n with ⟨r, k⟩
  rcases hy : y.run.run n with ⟨r', k'⟩
  rw [hx, hy] at hn
  obtain ⟨hresult, rfl : k = k'⟩ := hn
  cases hresult with
  | error e => exact ⟨.error e, rfl⟩
  | ok hab => exact hf _ _ hab k

end Agrees

end Run

namespace Value

variable {a b : Value}

/-- Equal values are the same number wherever a number is asked for. -/
theorem value_asNumber (h : a.same b) : a.asNumber.value = b.asNumber.value := by
  cases a with
  | number d =>
    cases b with
    | number d' => exact Decimal.sameValue_iff.1 h
    | boolean r => cases h
  | boolean r =>
    cases b with
    | number d' => cases h
    | boolean r' =>
      obtain rfl : r = r' := by simpa [same] using h
      rfl

/-- Equal values are the same truth value. -/
theorem isTruthy_eq (h : a.same b) : a.isTruthy = b.isTruthy := by
  cases a with
  | number d =>
    cases b with
    | number d' =>
      have hzero : d.isZero = d'.isZero := by
        rw [Bool.eq_iff_iff, Decimal.isZero_iff, Decimal.isZero_iff, Decimal.sameValue_iff.1 h]
      exact congrArg (!·) hzero
    | boolean r => cases h
  | boolean r =>
    cases b with
    | number d' => cases h
    | boolean r' =>
      obtain rfl : r = r' := by simpa [same] using h
      rfl

theorem same_refl (a : Value) : a.same a := by
  cases a with
  | number d => exact Decimal.sameValue_iff.2 rfl
  | boolean r => simp [same]

end Value

open Decimal

/-- Results of arithmetic with one value are alike, and so are overflows. -/
theorem arithmetic_agree {x y : Option Decimal} (h : x.map value = y.map value) :
    Agree (Value.same · ·) (arithmetic x) (arithmetic y) := by
  cases x with
  | none =>
    cases y with
    | none => exact .error _
    | some d => cases h
  | some d =>
    cases y with
    | none => cases h
    | some d' => exact .ok (sameValue_iff.2 (Option.some.inj h))

/-- **Every operation respects the equality of values**, its failures included. -/
theorem BinaryOp.apply_agree (op : BinaryOp) {a a' b b' : Value} (ha : a.same a')
    (hb : b.same b') : Agree (Value.same · ·) (op.apply a b) (op.apply a' b') := by
  have hna := Value.value_asNumber ha
  have hnb := Value.value_asNumber hb
  have hcompare (test : Ordering → Bool) :
      Agree (Value.same · ·) (comparison test a b) (comparison test a' b') := by
    rw [comparison, comparison, compareValue_eq, compareValue_eq, hna, hnb]
    exact .refl Value.same_refl _
  -- a divisor is zero in all forms of its value or in none
  have hzero : b.asNumber.isZero = b'.asNumber.isZero := by
    rw [Bool.eq_iff_iff, isZero_iff, isZero_iff, hnb]
  cases op with
  | add => exact arithmetic_agree (by rw [map_value_add, map_value_add, hna, hnb])
  | sub => exact arithmetic_agree (by rw [map_value_sub, map_value_sub, hna, hnb])
  | mul => exact arithmetic_agree (by rw [map_value_mul, map_value_mul, hna, hnb])
  | div =>
    simp only [apply]
    rw [← hzero]
    by_cases h0 : b.asNumber.isZero
    · rw [if_pos h0, if_pos h0]
      exact .error _
    · have hb0 : b.asNumber.value ≠ 0 := mt (isZero_iff _).2 h0
      rw [if_neg h0, if_neg h0]
      refine arithmetic_agree ?_
      rw [map_value_div _ _ hb0, map_value_div _ _ (hnb ▸ hb0), hna, hnb]
  | less | lessEq | greater | greaterEq | equal | notEqual => exact hcompare _
  | and | or =>
    simp only [apply, Value.isTruthy_eq ha, Value.isTruthy_eq hb]
    exact .refl Value.same_refl _

variable {slots slots' : List Decimal} {budget : Nat}

/-- Slots that hold the same values are there or not alike. -/
theorem rel_getElem? (h : List.Forall₂ (sameValue · ·) slots slots') (i : Nat) :
    Option.Rel (sameValue · ·) slots[i]? slots'[i]? := by
  induction h generalizing i with
  | nil => exact .none
  | cons hab _ ih =>
    cases i with
    | zero => exact .some hab
    | succ i => exact ih i

/-- **Trees that are the same run alike** over slots that hold the same values, step by
step: by induction on the trees, node by node. -/
theorem evalNode_agrees (hslots : List.Forall₂ (sameValue · ·) slots slots') (e e' : Expr)
    (h : e.same e') :
    Run.Agrees (Value.same · ·) (evalNode slots budget e) (evalNode slots' budget e') := by
  have hstep : Run.Agrees Eq (Run.step budget) (Run.step budget) := .refl (fun _ => rfl) _
  -- the cases of `same`: two nodes of one kind, or trees that are not the same
  fun_induction Expr.same e e' with
  | case1 d d' =>
    rw [evalNode, evalNode]
    exact hstep.bind fun _ _ _ => .pure h
  | case2 name slot name' slot' =>
    obtain ⟨rfl, rfl⟩ : name = name' ∧ slot = slot' := by simpa using h
    rw [evalNode, evalNode]
    refine hstep.bind fun _ _ _ => ?_
    have hrel := rel_getElem? hslots slot
    generalize slots[slot]? = x at hrel ⊢
    generalize slots'[slot]? = y at hrel ⊢
    cases hrel with
    | some hd => exact .pure hd
    | none => exact .refl Value.same_refl _
  | case3 e e' ih =>
    rw [evalNode, evalNode]
    refine hstep.bind fun _ _ _ => (ih h).bind fun a b hab => .pure ?_
    refine sameValue_iff.2 ?_
    rw [value_neg, value_neg, Value.value_asNumber hab]
  | case4 op l r op' l' r' ihl ihr =>
    obtain ⟨⟨rfl, hl⟩, hr⟩ : (op = op' ∧ l.same l') ∧ r.same r' := by simpa using h
    rw [evalNode, evalNode]
    refine hstep.bind fun _ _ _ => (ihl hl).bind fun a a' ha => ?_
    rw [Value.isTruthy_eq ha]
    cases op.shortcut? a'.isTruthy with
    | some b => exact .pure (Value.same_refl _)
    | none => exact (ihr hr).bind fun b b' hb => .ofExcept (op.apply_agree ha hb)
  | case5 c t e c' t' e' ihc iht ihe =>
    obtain ⟨⟨hc, ht⟩, he⟩ : (c.same c' ∧ t.same t') ∧ e.same e' := by simpa using h
    rw [evalNode, evalNode]
    refine hstep.bind fun _ _ _ => (ihc hc).bind fun a a' ha => ?_
    rw [Value.isTruthy_eq ha]
    cases a'.isTruthy with
    | true => exact iht ht
    | false => exact ihe he
  | case6 => cases h

/-- **Evaluation respects equality, so the canonical form computes what the original
does.** Trees that are the same, literals by their values, evaluate alike over slots that
hold the same values; and a formula evaluates like the formula that its canonical text
compiles to, over all bindings and limits. -/
theorem evaluate_agree :
    (∀ (e e' : Expr) (slots slots' : List Decimal) (limits : Limits), e.same e' →
      List.Forall₂ (sameValue · ·) slots slots' →
      Agree (Value.same · ·) (evaluateExpr e slots limits) (evaluateExpr e' slots' limits)) ∧
    ∀ (source : String) (names : List String) (limits limits' : Limits) (f g : Formula),
      Formula.compile source names limits = .ok f →
      Formula.compile f.text names limits' = .ok g →
      ∀ (bindings : Bindings) (limits : Limits),
        Agree (Value.same · ·) (f.evaluate bindings limits) (g.evaluate bindings limits) := by
  have htrees (e e' : Expr) (slots slots' : List Decimal) (limits : Limits) (h : e.same e')
      (hslots : List.Forall₂ (sameValue · ·) slots slots') :
      Agree (Value.same · ·) (evaluateExpr e slots limits) (evaluateExpr e' slots' limits) :=
    (evalNode_agrees hslots e e' h 0).1
  refine ⟨htrees, fun source names limits limits' f g hf hg bindings limits => ?_⟩
  obtain ⟨hnames, hdeclared, hw⟩ := writable_of_compile hf
  rw [Formula.text, compile_text_eq hdeclared hw] at hg
  -- the canonical text compiles to the tree in least forms, whatever the limits
  obtain rfl : (⟨f.root.text, names, f.root.normalize⟩ : Formula) = g := by
    split_ifs at hg
    exact Except.ok.inj hg
  unfold Formula.evaluate
  rw [hnames]
  cases names.mapM bindings.resolve with
  | error e => exact .error e
  | ok slots =>
    have hself : List.Forall₂ (sameValue · ·) slots slots :=
      List.forall₂_same.2 fun _ _ => sameValue_iff.2 rfl
    exact htrees _ _ _ _ limits f.root.same_normalize hself

/-- A product whose canonical text is another tree, with a literal of another form: the
two evaluate alike. -/
theorem evaluate_agree_product :
    ∃ f g, Formula.compile "1.50 * x" ["x"] {} = .ok f ∧
      Formula.compile "(1.5 * x)" ["x"] {} = .ok g ∧ f.root ≠ g.root ∧
      ∀ (bindings : Bindings) (limits : Limits),
        Agree (Value.same · ·) (f.evaluate bindings limits) (g.evaluate bindings limits) := by
  let f : Formula := ⟨"1.50 * x", ["x"], .binary .mul
    (.literal ⟨false, 150, 2, by decide, by decide⟩) (.var "x" 0)⟩
  let g : Formula := ⟨"(1.5 * x)", ["x"], .binary .mul
    (.literal ⟨false, 15, 1, by decide, by decide⟩) (.var "x" 0)⟩
  have htext : f.text = "(1.5 * x)" := by decide +kernel
  have hf : Formula.compile "1.50 * x" ["x"] {} = .ok f := by decide +kernel
  have hg : Formula.compile "(1.5 * x)" ["x"] {} = .ok g := by decide +kernel
  exact ⟨f, g, hf, hg, by decide, evaluate_agree.2 _ _ {} {} f g hf (htext ▸ hg)⟩

end Formulary

import Formulary.Evaluation
import Formulary.Proofs.Decimal.Arithmetic
import Formulary.Proofs.Decimal.Division
import Formulary.Proofs.Decimal.Literal
import Formulary.Proofs.Expr.Written

/-!
# Evaluation is exact where the numbers fit

A formula as it is written can be run over the rational numbers, where nothing is rounded
and nothing overflows. The decimals of an evaluation are those numbers as long as each of
them fits into a decimal, so that the evaluation takes the branches of the exact run and
ends where it ends.

* `Exact.Run`, `Written.run`: exact runs, and the one of a written tree.
* `Exact.Follows`: a run that has the result of an exact one, if what that meets fits.
* `BinaryOp.apply_follows`: every operation, for its result is rounded from the exact one.
* `evalNode_follows` (every tree): by induction on the tree, with a step for each node.
* `evaluate_exact`: **a formula evaluates to the result of its exact run.**
-/

namespace Formulary

variable {α β γ δ : Type}

namespace Exact

/-- A value of an exact run. -/
inductive Value
  | number (q : ℚ)
  | boolean (b : Bool)
deriving DecidableEq

/-- The value as a number, true as 1 and false as 0. -/
def Value.asNumber : Value → ℚ
  | number q => q
  | boolean b => if b then 1 else 0

/-- The value as a truth value, nonzero as true. -/
def Value.isTruthy : Value → Bool
  | number q => q ≠ 0
  | boolean b => b

/-- **A run over the rational numbers**: its result, none where it divides by zero, the
numbers that it reads as literals or computes, and how many nodes it visits. -/
structure Run (α : Type) where
  result : Option α
  numbers : List ℚ
  visits : Nat

/-- Runs go on where the ones before them ended, unless those divided by zero. -/
instance : Monad Run where
  pure a := ⟨some a, [], 0⟩
  bind x f :=
    match x.result with
    | some a => ⟨(f a).result, x.numbers ++ (f a).numbers, x.visits + (f a).visits⟩
    | none => ⟨none, x.numbers, x.visits⟩

/-- A node is visited. -/
def visit : Run Unit := ⟨some (), [], 1⟩

/-- A number is read or computed. -/
def meet (q : ℚ) : Run Value := ⟨some (.number q), [q], 0⟩

/-- A division by zero, which has no result. -/
def divisionByZero : Run Value := ⟨none, [], 0⟩

/-- The exact value of an operation. -/
def apply (op : BinaryOp) (a b : Value) : Run Value :=
  match op with
  | .add => meet (a.asNumber + b.asNumber)
  | .sub => meet (a.asNumber - b.asNumber)
  | .mul => meet (a.asNumber * b.asNumber)
  | .div => if b.asNumber = 0 then divisionByZero else meet (a.asNumber / b.asNumber)
  | .less => pure (.boolean (a.asNumber < b.asNumber))
  | .lessEq => pure (.boolean (a.asNumber ≤ b.asNumber))
  | .greater => pure (.boolean (a.asNumber > b.asNumber))
  | .greaterEq => pure (.boolean (a.asNumber ≥ b.asNumber))
  | .equal => pure (.boolean (a.asNumber = b.asNumber))
  | .notEqual => pure (.boolean (a.asNumber ≠ b.asNumber))
  | .and => pure (.boolean (a.isTruthy && b.isTruthy))
  | .or => pure (.boolean (a.isTruthy || b.isTruthy))

end Exact

open Exact (visit meet)

/-- **The exact run of a written tree** over the values of its variables: with the shortcuts
and the branches of an evaluation, but with the numbers that literals denote and with
exact arithmetic. -/
def Written.run (env : String → ℚ) (w : Written) : Exact.Run Exact.Value := do
  visit
  match w with
  | .literal text => meet (numeralValue text.toList)
  | .var name => return .number (env name)
  | .negate w => meet (-(← w.run env).asNumber)
  | .binary op l r =>
    let a ← l.run env
    match op.shortcut? a.isTruthy with
    | some b => return .boolean b
    | none => Exact.apply op a (← r.run env)
  | .conditional c t e => if (← c.run env).isTruthy then t.run env else e.run env

namespace Exact

/-- A value that is an exact one: a number of that value, or that truth value. -/
inductive Is : Formulary.Value → Value → Prop
  | number {d : Decimal} {q : ℚ} (h : d.value = q) : Is (.number d) (.number q)
  | boolean (b : Bool) : Is (.boolean b) (.boolean b)

/-- **A result that is that of an exact run**: a related value, or the division by zero
where that run divides by zero. -/
inductive Matches (R : α → β → Prop) : Except EvalError α → Option β → Prop
  | ok {a : α} {b : β} (h : R a b) : Matches R (.ok a) (some b)
  | divisionByZero : Matches R (.error .divisionByZero) none

theorem Matches.divisionByZero_iff {R : α → β → Prop} {x : Except EvalError α} {y : Option β}
    (h : Matches R x y) : x = .error .divisionByZero ↔ y = none := by
  cases h with
  | ok h => simp
  | divisionByZero => simp

theorem Matches.ne_overflow {R : α → β → Prop} {x : Except EvalError α} {y : Option β}
    (h : Matches R x y) : x ≠ .error .overflow := by
  cases h with
  | ok h => simp
  | divisionByZero => simp

/-- **A run that follows an exact one**: where all numbers of that run fit and the budget
suffices, it ends with its result, and has counted its visits. -/
def Follows (budget : Nat) (R : α → β → Prop) (x : Formulary.Run α) (y : Run β) : Prop :=
  (∀ q ∈ y.numbers, Representable q) → ∀ n, n + y.visits ≤ budget →
    Matches R (x.run.run n).1 y.result ∧ (x.run.run n).2 = n + y.visits

namespace Follows

variable {budget : Nat} {R : α → β → Prop} {S : γ → δ → Prop}

theorem pure {a : α} {b : β} (h : R a b) : Follows budget R (Pure.pure a) (Pure.pure b) :=
  fun _ _ _ => ⟨.ok h, rfl⟩

theorem step : Follows budget (fun _ _ => True) (Run.step budget) visit := by
  intro _ n hn
  have hroom : ¬ budget < n + 1 := Nat.not_lt_of_le hn
  rw [Formulary.Run.run_step, if_neg hroom]
  exact ⟨.ok trivial, rfl⟩

/-- A number that is met counts only if it fits. -/
theorem meet {x : Except EvalError Formulary.Value} {q : ℚ}
    (h : Representable q → ∃ d, x = .ok (.number d) ∧ d.value = q) :
    Follows budget Is (Run.ofExcept x) (meet q) := by
  intro hfit n _
  obtain ⟨d, rfl, hd⟩ := h (hfit q List.mem_cons_self)
  exact ⟨.ok (.number hd), rfl⟩

/-- **Runs that go on as exact runs do follow them**, to the division by zero if there is
one. -/
theorem bind {x : Formulary.Run α} {y : Run β} {f : α → Formulary.Run γ} {g : β → Run δ}
    (h : Follows budget R x y) (hf : ∀ a b, R a b → Follows budget S (f a) (g b)) :
    Follows budget S (x >>= f) (y >>= g) := by
  rcases y with ⟨result, numbers, visits⟩
  intro hfit n hn
  rw [Formulary.Run.run_bind]
  cases result with
  | none =>
    obtain ⟨hmatch, hcount⟩ := h hfit n hn
    rcases hx : x.run.run n with ⟨r, k⟩
    rw [hx] at hmatch hcount
    cases hmatch
    exact ⟨.divisionByZero, hcount⟩
  | some b =>
    -- the exact run goes on from `b`, and so do its numbers and its visits
    have hbudget : n + (visits + (g b).visits) ≤ budget := hn
    have hnumbers : ∀ q ∈ numbers ++ (g b).numbers, Representable q := hfit
    have hfirst : n + visits ≤ budget := by omega
    obtain ⟨hmatch, hcount⟩ := h (fun q hq => hnumbers q (List.mem_append_left _ hq)) n hfirst
    rcases hx : x.run.run n with ⟨r, k⟩
    rw [hx] at hmatch hcount
    obtain rfl : k = n + visits := hcount
    cases hmatch with
    | ok hab =>
      obtain ⟨hmatch, hcount⟩ := hf _ _ hab (fun q hq => hnumbers q (List.mem_append_right _ hq))
        (n + visits) (by omega)
      exact ⟨hmatch, hcount.trans (Nat.add_assoc n visits (g b).visits)⟩

end Follows

variable {a b : Formulary.Value} {a' b' : Value}

/-- Related values are the same number wherever a number is asked for. -/
theorem Is.asNumber (h : Is a a') : a.asNumber.value = a'.asNumber := by
  cases h with
  | number h => exact h
  | boolean r =>
    cases r with
    | false => exact Decimal.value_zero
    | true => exact Decimal.value_one

/-- Related values are the same truth value. -/
theorem Is.isTruthy (h : Is a a') : a.isTruthy = a'.isTruthy := by
  cases h with
  | @number d q h =>
    rw [Bool.eq_iff_iff]
    simp [Value.isTruthy, Formulary.Value.isTruthy, ← h, ← Decimal.isZero_iff]
  | boolean r => rfl

end Exact

open Exact Decimal

variable {budget : Nat}

/-- Arithmetic that rounds a number which fits has that number as its result. -/
theorem arithmetic_follows {x : Option Decimal} {q : ℚ} (h : x.map value = round? q) :
    Follows budget Is (Run.ofExcept (arithmetic x)) (meet q) := by
  refine .meet fun hfit => ?_
  rw [hfit.round?_eq, Option.map_eq_some_iff] at h
  obtain ⟨d, rfl, hd⟩ := h
  exact ⟨d, rfl, hd⟩

/-- **Every operation is exact where its result fits**, and a division by zero is one in
both. -/
theorem BinaryOp.apply_follows (op : BinaryOp) {a b : Value} {a' b' : Exact.Value}
    (ha : Is a a') (hb : Is b b') :
    Follows budget Is (Run.ofExcept (op.apply a b)) (Exact.apply op a' b') := by
  have hna := ha.asNumber
  have hnb := hb.asNumber
  obtain ⟨hlt, hle, hgt, hge, heq, hnotEq⟩ := compare_tests a'.asNumber b'.asNumber
  have hcompare {test : Ordering → Bool} {r : Bool}
      (h : test (compare a'.asNumber b'.asNumber) = r) :
      Follows budget Is (Run.ofExcept (comparison test a b)) (pure (.boolean r)) := by
    rw [comparison, compareValue_eq, hna, hnb, h]
    exact .pure (.boolean r)
  cases op with
  | add => exact arithmetic_follows (by rw [map_value_add, hna, hnb])
  | sub => exact arithmetic_follows (by rw [map_value_sub, hna, hnb])
  | mul => exact arithmetic_follows (by rw [map_value_mul, hna, hnb])
  | div =>
    simp only [apply, Exact.apply]
    by_cases h0 : b'.asNumber = 0
    · rw [if_pos ((isZero_iff _).2 (hnb.trans h0)), if_pos h0]
      exact fun _ _ _ => ⟨.divisionByZero, rfl⟩
    · have hne : b.asNumber.value ≠ 0 := hnb ▸ h0
      rw [if_neg (mt (isZero_iff _).1 hne), if_neg h0]
      exact arithmetic_follows (by rw [map_value_div _ _ hne, hna, hnb])
  | less => exact hcompare hlt
  | lessEq => exact hcompare hle
  | greater => exact hcompare hgt
  | greaterEq => exact hcompare hge
  | equal => exact hcompare heq
  | notEqual => exact hcompare hnotEq
  | and | or =>
    simp only [apply, Exact.apply, ha.isTruthy, hb.isTruthy]
    exact .pure (.boolean _)

/-- **A tree is evaluated as its exact run goes**, node by node: by induction on how it is
written. -/
theorem evalNode_follows {names : List String} {slots : List Decimal} {env : String → ℚ}
    (hslots : ∀ name slot, names.idxOf? name = some slot →
      ∃ d, slots[slot]? = some d ∧ d.value = env name)
    {w : Written} {e : Expr} (h : w.Reads names e)
    (hw : ∀ text ∈ w.literals, IsNumeral text.toList) :
    Follows budget Is (evalNode slots budget e) (w.run env) := by
  induction h with
  | @literal text d h =>
    rw [evalNode, Written.run]
    refine Follows.step.bind fun _ _ _ => ?_
    refine .meet fun hfit => ⟨d, rfl, ?_⟩
    obtain ⟨d', hd', hvalue⟩ := (hw text List.mem_cons_self).literal?_exact hfit
    obtain rfl : d = d' := Option.some.inj (h.symm.trans hd')
    exact hvalue
  | @var name slot h =>
    rw [evalNode, Written.run]
    refine Follows.step.bind fun _ _ _ => ?_
    obtain ⟨d, hd, hvalue⟩ := hslots name slot h
    rw [hd]
    exact .pure (.number hvalue)
  | negate _ ih =>
    rw [evalNode, Written.run]
    refine Follows.step.bind fun _ _ _ => (ih hw).bind fun a a' ha => ?_
    have hvalue : a.asNumber.neg.value = -a'.asNumber := by rw [value_neg, ha.asNumber]
    exact .meet fun _ => ⟨a.asNumber.neg, rfl, hvalue⟩
  | @binary op v w l r _ _ ihl ihr =>
    rw [evalNode, Written.run]
    refine Follows.step.bind fun _ _ _ => ?_
    refine (ihl fun t ht => hw t (List.mem_append_left _ ht)).bind fun a a' ha => ?_
    rw [ha.isTruthy]
    cases op.shortcut? a'.isTruthy with
    | some b => exact .pure (.boolean b)
    | none =>
      exact (ihr fun t ht => hw t (List.mem_append_right _ ht)).bind fun b b' hb =>
        op.apply_follows ha hb
  | conditional _ _ _ ihc iht ihe =>
    rw [evalNode, Written.run]
    refine Follows.step.bind fun _ _ _ => ?_
    refine (ihc fun t ht => hw t (by simp [Written.literals, ht])).bind fun a a' ha => ?_
    rw [ha.isTruthy]
    cases a'.isTruthy with
    | true => exact iht fun t ht => hw t (by simp [Written.literals, ht])
    | false => exact ihe fun t ht => hw t (by simp [Written.literals, ht])

/-- Names that all resolve are resolved one by one. -/
theorem mapM_resolve {names : List String} {bindings : Bindings} {env : String → Decimal}
    (h : ∀ name ∈ names, bindings.resolve name = .ok (env name)) :
    names.mapM bindings.resolve = .ok (names.map env) := by
  induction names with
  | nil => rfl
  | cons name names ih =>
    obtain ⟨hname, hnames⟩ := List.forall_mem_cons.1 h
    rw [List.mapM_cons, hname, ih hnames]
    rfl

/-- **Evaluation is exact where the numbers fit.** A compiled formula is written in exactly
one way. Where its variables resolve, the budget suffices, and every number that its exact
run reads as a literal or computes fits into a decimal, it evaluates to the result of that
run: to a number of that value, to that truth value, or to a division by zero exactly where
that run divides by zero; and it never overflows. -/
theorem evaluate_exact {source : String} {names : List String} {limits : Limits} {f : Formula}
    (hf : Formula.compile source names limits = .ok f) :
    (∃! w : Written, w.Writes f) ∧
      ∀ w : Written, w.Writes f → ∀ (bindings : Bindings) (env : String → Decimal),
        (∀ name ∈ names, bindings.resolve name = .ok (env name)) → ∀ limits' : Limits,
        let run := w.run fun name => (env name).value
        run.visits ≤ limits'.maxEvalSteps → (∀ q ∈ run.numbers, Representable q) →
        Matches Is (f.evaluate bindings limits') run.result ∧
          (f.evaluate bindings limits' = .error .divisionByZero ↔ run.result = none) ∧
          f.evaluate bindings limits' ≠ .error .overflow := by
  refine ⟨existsUnique_writes hf, ?_⟩
  rintro w ⟨ts, hseg, hliterals, hreads⟩ bindings env henv limits' run hvisits hfit
  obtain ⟨-, hnames, -, -⟩ := derives_of_compile hf
  have hslots : ∀ name slot, f.names.idxOf? name = some slot →
      ∃ d, (names.map env)[slot]? = some d ∧ d.value = (env name).value := by
    intro name slot hslot
    rw [hnames] at hslot
    obtain ⟨hlt, hname, -⟩ := List.idxOf?_eq_some_iff.1 hslot
    refine ⟨env name, ?_, rfl⟩
    rw [List.getElem?_map, List.getElem?_eq_getElem hlt, hname]
    rfl
  have hmatch : Matches Is (f.evaluate bindings limits') run.result := by
    have hfollows : Follows limits'.maxEvalSteps Is
        (evalNode (names.map env) limits'.maxEvalSteps f.root) run :=
      evalNode_follows hslots hreads fun text ht => hseg.isNumeral text (hliterals ▸ ht)
    unfold Formula.evaluate
    rw [hnames, mapM_resolve henv]
    exact (hfollows hfit 0 (by omega)).1
  exact ⟨hmatch, hmatch.divisionByZero_iff, hmatch.ne_overflow⟩

/-- A quotient compared with a literal of more places than a decimal has, all behind the
third of them zeros: the exact run finds them equal, and so does the evaluation. -/
theorem evaluate_exact_quotient :
    let source := "x / 8 == 0.37500000000000000000000000000000"
    let x : Decimal := ⟨false, 3, 0, by decide, by decide⟩
    let bindings := Bindings.ofList [("x", .decimal x)]
    let w : Written := .binary .equal (.binary .div (.var "x") (.literal "8"))
      (.literal "0.37500000000000000000000000000000")
    let run := w.run fun _ => x.value
    ∃ f, Formula.compile source ["x"] {} = .ok f ∧ w.Writes f ∧
      bindings.resolve "x" = .ok x ∧ run.visits = 5 ∧ run.numbers = [8, 3 / 8, 3 / 8] ∧
      (∀ q ∈ run.numbers, Representable q) ∧ run.result = some (.boolean true) ∧
      f.evaluate bindings {} = .ok (.boolean true) := by
  intro source x bindings w run
  let f : Formula := ⟨source, ["x"], .binary .equal
    (.binary .div (.var "x" 0) (.literal ⟨false, 8, 0, by decide, by decide⟩))
    (.literal ⟨false, 3750000000000000000000000000, 28, by decide, by decide⟩)⟩
  have hf : Formula.compile source ["x"] {} = .ok f := by decide +kernel
  have hw : w.Writes f := by
    let ts : List Token := [⟨.identifier, "x", 0⟩, ⟨.operator .div, "/", 2⟩, ⟨.number, "8", 4⟩,
      ⟨.operator .equal, "==", 6⟩, ⟨.number, "0.37500000000000000000000000000000", 9⟩]
    have hseg : Segmentation ["x"] source.toList 0 ts :=
      (Lexer.scan_eq_ok_iff ["x"] source.toList 0 ts).1 (by decide +kernel)
    have hreads : w.Reads ["x"] f.root :=
      .binary (.binary (.var (by decide +kernel)) (.literal (by decide +kernel)))
        (.literal (by decide +kernel))
    exact ⟨ts, hseg, rfl, hreads⟩
  have hvisits : run.visits = 5 := by decide +kernel
  have hnumbers : run.numbers = [8, 3 / 8, 3 / 8] := by decide +kernel
  have hresult : run.result = some (.boolean true) := by decide +kernel
  have hresolve : bindings.resolve "x" = .ok x := by decide +kernel
  have hfit : ∀ q ∈ run.numbers, Representable q := by
    have height : Representable 8 := ⟨8, 0, by norm_num, by norm_num, by norm_num⟩
    have hquotient : Representable (3 / 8) := ⟨375, 3, by norm_num, by norm_num, by norm_num⟩
    rw [hnumbers]
    simp [height, hquotient]
  have hsteps : run.visits ≤ Limits.maxEvalSteps {} := hvisits ▸ by decide
  obtain ⟨hmatch, -⟩ := (evaluate_exact hf).2 w hw bindings (fun _ => x)
    (List.forall_mem_singleton.2 hresolve) {} hsteps hfit
  have hmatch : Matches Is (f.evaluate bindings {}) (some (.boolean true)) := hresult ▸ hmatch
  have hvalue : f.evaluate bindings {} = .ok (.boolean true) := by
    generalize f.evaluate bindings {} = result at hmatch
    cases hmatch with
    | ok hvalue =>
      cases hvalue
      rfl
  exact ⟨f, hf, hw, hresolve, hvisits, hnumbers, hfit, hresult, hvalue⟩

end Formulary

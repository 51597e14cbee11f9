import Formulary.Bindings
import Formulary.Decimal.Arithmetic
import Formulary.Formula
import Formulary.Value

/-!
# Evaluation

A tree is evaluated from left to right over the decimals in the slots of its
variables. Conjunction, disjunction and conditional visit only the operands that
matter, and every visited node counts against a budget of steps.

* `Run.run_bind`: a run goes on where the one before it ended, unless that failed;
  `Run.run_step`: a step ends a run exactly when the budget has been used up.
* `BinaryOp.apply`: the value of an operation; `shortcut?`: what its left operand may
  decide alone.
* `evalNode`: the value of a tree, as a run that counts its steps.
* `evaluateExpr`: the value of a tree within the budget.
* `Formula.evaluate`: the value of a formula, its variables resolved first, each
  of them and in the order of declaration.
* `evaluateText`: the value of a text.
-/

namespace Formulary

/-- A computation that counts steps, and keeps the count when it fails. -/
abbrev Run (α : Type) := ExceptT EvalError (StateM Nat) α

namespace Run

/-- Counts one step, and fails when it is beyond the budget. -/
def step (budget : Nat) : Run Unit := do
  modify (· + 1)
  if budget < (← get) then throw (.budgetExceeded budget)

/-- A result, in no steps. -/
def ofExcept {α : Type} (result : Except EvalError α) : Run α := ExceptT.mk (pure result)

theorem run_bind {α β : Type} (x : Run α) (f : α → Run β) (n : Nat) :
    (x >>= f).run.run n =
      match x.run.run n with
      | (.ok a, k) => (f a).run.run k
      | (.error e, k) => (.error e, k) := by
  rw [ExceptT.run_bind, StateT.run_bind]
  rcases x.run.run n with ⟨result, k⟩
  cases result <;> rfl

theorem run_step (budget n : Nat) :
    (Run.step budget).run.run n =
      if budget < n + 1 then (.error (.budgetExceeded budget), n + 1) else (.ok (), n + 1) := by
  have hstep : (Run.step budget).run.run n =
      (if budget < n + 1 then throw (.budgetExceeded budget) else pure () : Run Unit).run.run
        (n + 1) := rfl
  rw [hstep]
  split <;> rfl

end Run

/-- The result of an arithmetic operation, whose failure is an overflow. -/
def arithmetic (result : Option Decimal) : Except EvalError Value :=
  match result with
  | some d => .ok (.number d)
  | none => .error .overflow

/-- The truth value of a comparison. -/
def comparison (test : Ordering → Bool) (a b : Value) : Except EvalError Value :=
  .ok (.boolean (test (a.asNumber.compareValue b.asNumber)))

namespace BinaryOp

/-- The truth value of an operation that its left operand alone decides. -/
def shortcut? (op : BinaryOp) (left : Bool) : Option Bool :=
  match op, left with
  | .and, false => some false
  | .or, true => some true
  | _, _ => none

/-- The value of an operation on two values. A divisor of zero comes before any
overflow. -/
def apply (op : BinaryOp) (a b : Value) : Except EvalError Value :=
  match op with
  | .add => arithmetic (a.asNumber.add b.asNumber)
  | .sub => arithmetic (a.asNumber.sub b.asNumber)
  | .mul => arithmetic (a.asNumber.mul b.asNumber)
  | .div =>
    if b.asNumber.isZero then .error .divisionByZero
    else arithmetic (a.asNumber.div b.asNumber)
  | .less => comparison Ordering.isLT a b
  | .lessEq => comparison Ordering.isLE a b
  | .greater => comparison Ordering.isGT a b
  | .greaterEq => comparison Ordering.isGE a b
  | .equal => comparison Ordering.isEq a b
  | .notEqual => comparison Ordering.isNe a b
  | .and => .ok (.boolean (a.isTruthy && b.isTruthy))
  | .or => .ok (.boolean (a.isTruthy || b.isTruthy))

end BinaryOp

/-- The value of a tree over the slots of its variables, in steps counted against
the budget. -/
def evalNode (slots : List Decimal) (budget : Nat) (e : Expr) : Run Value := do
  Run.step budget
  match e with
  | .literal d => return .number d
  | .var name slot =>
    match slots[slot]? with
    | some d => return .number d
    | none => throw (.missingBinding name)
  | .negate e => return .number (← evalNode slots budget e).asNumber.neg
  | .binary op l r =>
    let a ← evalNode slots budget l
    match op.shortcut? a.isTruthy with
    | some b => return .boolean b
    | none => Run.ofExcept (op.apply a (← evalNode slots budget r))
  | .conditional c t e =>
    if (← evalNode slots budget c).isTruthy then evalNode slots budget t
    else evalNode slots budget e

/-- The value of a tree or the reason why it has none, and the number of steps. -/
def runExpr (e : Expr) (slots : List Decimal) (limits : Limits) :
    Except EvalError Value × Nat :=
  (evalNode slots limits.maxEvalSteps e).run.run 0

/-- The value of a tree over the slots of its variables. -/
def evaluateExpr (e : Expr) (slots : List Decimal) (limits : Limits) :
    Except EvalError Value :=
  (runExpr e slots limits).1

/-- The value of a formula whose variables are bound to these values. -/
def Formula.evaluate (f : Formula) (bindings : Bindings) (limits : Limits) :
    Except EvalError Value := do
  let slots ← f.names.mapM bindings.resolve
  evaluateExpr f.root slots limits

/-- The value of a text over declared names that are bound to these values. -/
def evaluateText (source : String) (names : List String) (bindings : Bindings)
    (limits : Limits) : Except FormulaError Value :=
  match Formula.compile source names limits with
  | .error e => .error (.parse e)
  | .ok f =>
    match f.evaluate bindings limits with
    | .error e => .error (.eval e)
    | .ok v => .ok v

end Formulary

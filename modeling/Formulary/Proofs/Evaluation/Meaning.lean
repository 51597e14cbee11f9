import Formulary.Evaluation
import Formulary.Proofs.Decimal.Value
import Formulary.Proofs.Expr.Nodes

/-!
# The meaning of a tree, without a budget

What a tree means is said by rules that know of no budget: which operands are visited, in
which order, and what ends the run. Every tree has one meaning, after a number of visits,
and an evaluation within a budget is that meaning if the budget has a step for every visit.

* `Means`: the result of a tree, and the number of nodes that are visited for it.
* `Run.Costs`: a run that comes to a result in so many steps, or else uses up its budget.
* `Means.costs` (every tree): by induction on the rules.
* `Means.visits_le`, `Means.visits_eq`: the visits against the nodes of the tree.
* `evaluateExpr_meaning`: **an evaluation is the meaning of its tree, cut off exactly where
  the budget is smaller than the visits.**
-/

namespace Formulary

/-- Whether a value counts as true: what is false is zero, as a number. -/
def Value.Truthy (v : Value) : Prop := v.asNumber.value ≠ 0

namespace BinaryOp

/-- The arithmetic of an operator; it has no result where that does not fit. -/
def arithmetic? : BinaryOp → Option (Decimal → Decimal → Option Decimal)
  | add => some Decimal.add
  | sub => some Decimal.sub
  | mul => some Decimal.mul
  | div => some Decimal.div
  | _ => none

/-- The relation between numbers that an operator compares by. -/
def comparison? : BinaryOp → Option (ℚ → ℚ → Bool)
  | less => some fun x y => x < y
  | lessEq => some fun x y => x ≤ y
  | greater => some fun x y => x > y
  | greaterEq => some fun x y => x ≥ y
  | equal => some fun x y => x = y
  | notEqual => some fun x y => x ≠ y
  | _ => none

/-- The truth value that the left operand of a logical operator decides alone. -/
inductive Decides (a : Value) : BinaryOp → Bool → Prop
  | and (h : ¬ a.Truthy) : Decides a .and false
  | or (h : a.Truthy) : Decides a .or true

/-- **What an operation makes of two values.** A divisor of value zero comes before a result
that does not fit, and a logical operator that has come to its right operand has its truth
value. -/
inductive Yields (a b : Value) : BinaryOp → Except EvalError Value → Prop
  | divisionByZero (h : b.asNumber.value = 0) : Yields a b .div (.error .divisionByZero)
  | number {op : BinaryOp} {f : Decimal → Decimal → Option Decimal} {d : Decimal}
      (hop : op.arithmetic? = some f) (hdivisor : op = .div → b.asNumber.value ≠ 0)
      (h : f a.asNumber b.asNumber = some d) : Yields a b op (.ok (.number d))
  | overflow {op : BinaryOp} {f : Decimal → Decimal → Option Decimal}
      (hop : op.arithmetic? = some f) (hdivisor : op = .div → b.asNumber.value ≠ 0)
      (h : f a.asNumber b.asNumber = none) : Yields a b op (.error .overflow)
  | comparison {op : BinaryOp} {r : ℚ → ℚ → Bool} (hop : op.comparison? = some r) :
      Yields a b op (.ok (.boolean (r a.asNumber.value b.asNumber.value)))
  | truthy {op : BinaryOp} (hop : op = .and ∨ op = .or) (h : b.Truthy) :
      Yields a b op (.ok (.boolean true))
  | falsy {op : BinaryOp} (hop : op = .and ∨ op = .or) (h : ¬ b.Truthy) :
      Yields a b op (.ok (.boolean false))

end BinaryOp

/-- **The meaning of a tree over the slots of its variables**: `Means slots e result visits`
says that `e` comes to `result`, a value or the first error, when it is run from left to
right, and that this visits so many nodes. -/
inductive Means (slots : List Decimal) : Expr → Except EvalError Value → Nat → Prop
  | literal (d : Decimal) : Means slots (.literal d) (.ok (.number d)) 1
  | var {name : String} {slot : Nat} {d : Decimal} (h : slots[slot]? = some d) :
      Means slots (.var name slot) (.ok (.number d)) 1
  | unbound {name : String} {slot : Nat} (h : slots.length ≤ slot) :
      Means slots (.var name slot) (.error (.missingBinding name)) 1
  | negate {e : Expr} {v : Value} {n : Nat} (h : Means slots e (.ok v) n) :
      Means slots (.negate e) (.ok (.number v.asNumber.neg)) (1 + n)
  | negateError {e : Expr} {err : EvalError} {n : Nat} (h : Means slots e (.error err) n) :
      Means slots (.negate e) (.error err) (1 + n)
  | leftError {op : BinaryOp} {l r : Expr} {err : EvalError} {m : Nat}
      (hl : Means slots l (.error err) m) : Means slots (.binary op l r) (.error err) (1 + m)
  | decided {op : BinaryOp} {l r : Expr} {a : Value} {b : Bool} {m : Nat}
      (hl : Means slots l (.ok a) m) (h : op.Decides a b) :
      Means slots (.binary op l r) (.ok (.boolean b)) (1 + m)
  | rightError {op : BinaryOp} {l r : Expr} {a : Value} {err : EvalError} {m n : Nat}
      (hl : Means slots l (.ok a) m) (h : ∀ b, ¬ op.Decides a b)
      (hr : Means slots r (.error err) n) : Means slots (.binary op l r) (.error err) (1 + (m + n))
  | binary {op : BinaryOp} {l r : Expr} {a b : Value} {result : Except EvalError Value}
      {m n : Nat} (hl : Means slots l (.ok a) m) (h : ∀ b, ¬ op.Decides a b)
      (hr : Means slots r (.ok b) n) (hop : op.Yields a b result) :
      Means slots (.binary op l r) result (1 + (m + n))
  | conditionError {c t e : Expr} {err : EvalError} {m : Nat}
      (hc : Means slots c (.error err) m) : Means slots (.conditional c t e) (.error err) (1 + m)
  | consequent {c t e : Expr} {a : Value} {result : Except EvalError Value} {m n : Nat}
      (hc : Means slots c (.ok a) m) (ha : a.Truthy) (ht : Means slots t result n) :
      Means slots (.conditional c t e) result (1 + (m + n))
  | alternative {c t e : Expr} {a : Value} {result : Except EvalError Value} {m n : Nat}
      (hc : Means slots c (.ok a) m) (ha : ¬ a.Truthy) (he : Means slots e result n) :
      Means slots (.conditional c t e) result (1 + (m + n))

/-! ### Operations -/

theorem Value.isTruthy_iff (v : Value) : v.isTruthy = true ↔ v.Truthy := by
  unfold Truthy
  cases v with
  | number d =>
    show (!d.isZero) = true ↔ d.value ≠ 0
    rw [Bool.not_eq_true', ← Bool.not_eq_true, Decimal.isZero_iff]
  | boolean b => cases b <;> simp [isTruthy, asNumber]

theorem Value.isTruthy_eq_false_iff (v : Value) : v.isTruthy = false ↔ ¬ v.Truthy := by
  rw [← v.isTruthy_iff, Bool.not_eq_true]

namespace BinaryOp

variable {op : BinaryOp} {a b : Value} {r : Bool} {result : Except EvalError Value}

theorem Decides.shortcut?_eq (h : op.Decides a r) : op.shortcut? a.isTruthy = some r := by
  cases h with
  | and h =>
    rw [a.isTruthy_eq_false_iff.2 h]
    rfl
  | or h =>
    rw [a.isTruthy_iff.2 h]
    rfl

theorem decides_of_shortcut? (h : op.shortcut? a.isTruthy = some r) : op.Decides a r := by
  cases ha : a.isTruthy with
  | true =>
    rw [ha] at h
    cases op <;> cases h
    exact .or (a.isTruthy_iff.1 ha)
  | false =>
    rw [ha] at h
    cases op <;> cases h
    exact .and (a.isTruthy_eq_false_iff.1 ha)

theorem shortcut?_eq_none (h : ∀ r, ¬ op.Decides a r) : op.shortcut? a.isTruthy = none := by
  cases hs : op.shortcut? a.isTruthy with
  | none => rfl
  | some r => exact absurd (decides_of_shortcut? hs) (h r)

/-- An operation that its left operand does not decide applies its rule. -/
theorem Yields.apply_eq (h : op.Yields a b result) (hleft : ∀ r, ¬ op.Decides a r) :
    op.apply a b = result := by
  have hzero : b.asNumber.isZero ↔ b.asNumber.value = 0 := Decimal.isZero_iff _
  cases h with
  | divisionByZero h => exact if_pos (hzero.2 h)
  | @number op f d hop hdivisor h =>
    cases op <;> cases hop
    · exact congrArg arithmetic h
    · exact congrArg arithmetic h
    · exact congrArg arithmetic h
    · exact (if_neg (mt hzero.1 (hdivisor rfl))).trans (congrArg arithmetic h)
  | @overflow op f hop hdivisor h =>
    cases op <;> cases hop
    · exact congrArg arithmetic h
    · exact congrArg arithmetic h
    · exact congrArg arithmetic h
    · exact (if_neg (mt hzero.1 (hdivisor rfl))).trans (congrArg arithmetic h)
  | @comparison op r hop =>
    obtain ⟨hlt, hle, hgt, hge, heq, hne⟩ :=
      Decimal.compare_tests a.asNumber.value b.asNumber.value
    cases op <;> cases hop <;>
      simp only [apply, Formulary.comparison, Decimal.compareValue_eq, hlt, hle, hgt, hge, heq, hne]
  | truthy hop h =>
    have hright := b.isTruthy_iff.2 h
    rcases hop with rfl | rfl
    · have hleft : a.isTruthy = true :=
        a.isTruthy_iff.2 (by_contra fun ha => hleft false (.and ha))
      simp only [apply, hleft, hright, Bool.and_self]
    · simp only [apply, hright, Bool.or_true]
  | falsy hop h =>
    have hright := b.isTruthy_eq_false_iff.2 h
    rcases hop with rfl | rfl
    · simp only [apply, hright, Bool.and_false]
    · have hleft : a.isTruthy = false :=
        a.isTruthy_eq_false_iff.2 fun ha => hleft true (.or ha)
      simp only [apply, hleft, hright, Bool.or_self]

/-- Every operation yields something, whatever the values are. -/
theorem exists_yields (op : BinaryOp) (a b : Value) : ∃ result, op.Yields a b result := by
  have harithmetic {op : BinaryOp} {f : Decimal → Decimal → Option Decimal}
      (hop : op.arithmetic? = some f) (hdivisor : op = .div → b.asNumber.value ≠ 0) :
      ∃ result, op.Yields a b result := by
    cases h : f a.asNumber b.asNumber with
    | some d => exact ⟨_, .number hop hdivisor h⟩
    | none => exact ⟨_, .overflow hop hdivisor h⟩
  have hlogic {op : BinaryOp} (hop : op = .and ∨ op = .or) : ∃ result, op.Yields a b result := by
    by_cases h : b.Truthy
    · exact ⟨_, .truthy hop h⟩
    · exact ⟨_, .falsy hop h⟩
  cases op with
  | add | sub | mul => exact harithmetic rfl nofun
  | div =>
    by_cases h : b.asNumber.value = 0
    · exact ⟨_, .divisionByZero h⟩
    · exact harithmetic rfl fun _ => h
  | less | lessEq | greater | greaterEq | equal | notEqual => exact ⟨_, .comparison rfl⟩
  | and => exact hlogic (.inl rfl)
  | or => exact hlogic (.inr rfl)

end BinaryOp

/-! ### Runs against a budget -/

namespace Run

variable {α β : Type} {budget m n : Nat} {x : Run α} {f : α → Run β} {a : α}

/-- **A run that comes to a result in so many steps**, from any count of steps within the
budget: it has that result and has counted them, or it is cut off at the first step beyond
the budget. -/
def Costs (budget visits : Nat) (x : Run α) (result : Except EvalError α) : Prop :=
  ∀ n, n ≤ budget → x.run.run n =
    if n + visits ≤ budget then (result, n + visits)
    else (.error (.budgetExceeded budget), budget + 1)

namespace Costs

theorem ofExcept (result : Except EvalError α) : Costs budget 0 (Run.ofExcept result) result := by
  intro n hn
  rw [Nat.add_zero, if_pos hn]
  rfl

theorem pure (a : α) : Costs budget 0 (Pure.pure a) (.ok a) := ofExcept (.ok a)

theorem step : Costs budget 1 (Run.step budget) (.ok ()) := by
  intro n hn
  rw [run_step]
  by_cases hroom : n + 1 ≤ budget
  · rw [if_pos hroom, if_neg (Nat.not_lt_of_le hroom)]
  · have hlast : n = budget := by omega
    rw [if_neg hroom, if_pos (Nat.lt_of_not_le hroom), hlast]

/-- The steps of a run that goes on are those of both of its parts. -/
theorem bind {result : Except EvalError β} (h : Costs budget m x (.ok a))
    (hf : Costs budget n (f a) result) : Costs budget (m + n) (x >>= f) result := by
  intro k hk
  rw [run_bind, h k hk]
  by_cases hroom : k + m ≤ budget
  · rw [if_pos hroom]
    show (f a).run.run (k + m) = _
    rw [hf (k + m) hroom, Nat.add_assoc]
  · have hno : ¬ k + (m + n) ≤ budget := by omega
    rw [if_neg hroom, if_neg hno]

theorem bind_error {e : EvalError} (h : Costs budget m x (.error e)) :
    Costs budget m (x >>= f) (.error e) := by
  intro k hk
  rw [run_bind, h k hk]
  by_cases hroom : k + m ≤ budget
  · rw [if_pos hroom, if_pos hroom]
  · rw [if_neg hroom, if_neg hroom]

end Costs

end Run

variable {slots : List Decimal} {e : Expr} {result result' : Except EvalError Value} {n n' : Nat}

/-- **An evaluation comes to the meaning of its tree**, with a step for every visit. -/
theorem Means.costs (h : Means slots e result n) (budget : Nat) :
    Run.Costs budget n (evalNode slots budget e) result := by
  have hstep : Run.Costs budget 1 (Run.step budget) (.ok ()) := .step
  induction h with
  | literal d =>
    rw [evalNode]
    refine hstep.bind (n := 0) ?_
    exact .pure _
  | var h =>
    rw [evalNode]
    refine hstep.bind (n := 0) ?_
    rw [h]
    exact .pure _
  | @unbound name slot h =>
    rw [evalNode]
    refine hstep.bind (n := 0) ?_
    rw [List.getElem?_eq_none h]
    exact .ofExcept _
  | negate _ ih =>
    rw [evalNode]
    refine hstep.bind (ih.bind (n := 0) ?_)
    exact .pure _
  | negateError _ ih =>
    rw [evalNode]
    exact hstep.bind ih.bind_error
  | leftError _ ih =>
    rw [evalNode]
    exact hstep.bind ih.bind_error
  | decided _ h ih =>
    rw [evalNode]
    refine hstep.bind (ih.bind (n := 0) ?_)
    rw [h.shortcut?_eq]
    exact .pure _
  | rightError _ h _ ihl ihr =>
    rw [evalNode]
    refine hstep.bind (ihl.bind ?_)
    rw [BinaryOp.shortcut?_eq_none h]
    exact ihr.bind_error
  | binary _ h _ hop ihl ihr =>
    rw [evalNode]
    refine hstep.bind (ihl.bind ?_)
    rw [BinaryOp.shortcut?_eq_none h, ← hop.apply_eq h]
    refine ihr.bind (n := 0) ?_
    exact .ofExcept _
  | conditionError _ ih =>
    rw [evalNode]
    exact hstep.bind ih.bind_error
  | @consequent c t e a result m n _ ha _ ihc iht =>
    rw [evalNode]
    refine hstep.bind (ihc.bind ?_)
    rw [if_pos (a.isTruthy_iff.2 ha)]
    exact iht
  | @alternative c t e a result m n _ ha _ ihc ihe =>
    rw [evalNode]
    refine hstep.bind (ihc.bind ?_)
    rw [if_neg (mt a.isTruthy_iff.1 ha)]
    exact ihe

/-- Every tree has a meaning: whatever its operands come to, a rule goes on from there. -/
theorem exists_means (slots : List Decimal) (e : Expr) : ∃ result n, Means slots e result n := by
  induction e with
  | literal d => exact ⟨_, _, .literal d⟩
  | var name slot =>
    by_cases h : slots.length ≤ slot
    · exact ⟨_, _, .unbound h⟩
    · exact ⟨_, _, .var (List.getElem?_eq_getElem (Nat.lt_of_not_le h))⟩
  | negate e ih =>
    obtain ⟨result, n, h⟩ := ih
    cases result with
    | error err => exact ⟨_, _, .negateError h⟩
    | ok v => exact ⟨_, _, .negate h⟩
  | binary op l r ihl ihr =>
    obtain ⟨left, m, hl⟩ := ihl
    obtain ⟨right, n, hr⟩ := ihr
    cases left with
    | error err => exact ⟨_, _, .leftError hl⟩
    | ok a =>
      by_cases hdecided : ∃ b, op.Decides a b
      · obtain ⟨b, hb⟩ := hdecided
        exact ⟨_, _, .decided hl hb⟩
      · have hopen : ∀ b, ¬ op.Decides a b := fun b hb => hdecided ⟨b, hb⟩
        cases right with
        | error err => exact ⟨_, _, .rightError hl hopen hr⟩
        | ok b =>
          obtain ⟨result, hop⟩ := op.exists_yields a b
          exact ⟨_, _, .binary hl hopen hr hop⟩
  | conditional c t e ihc iht ihe =>
    obtain ⟨condition, m, hc⟩ := ihc
    obtain ⟨consequent, n, ht⟩ := iht
    obtain ⟨alternative, k, he⟩ := ihe
    cases condition with
    | error err => exact ⟨_, _, .conditionError hc⟩
    | ok a =>
      by_cases ha : a.Truthy
      · exact ⟨_, _, .consequent hc ha ht⟩
      · exact ⟨_, _, .alternative hc ha he⟩

/-- A tree has one meaning: the evaluation under a budget that is large enough comes to it. -/
theorem Means.unique (h : Means slots e result n) (h' : Means slots e result' n') :
    result = result' ∧ n = n' := by
  have hrun := h.costs (max n n') 0 (Nat.zero_le _)
  have hrun' := h'.costs (max n n') 0 (Nat.zero_le _)
  rw [Nat.zero_add, if_pos (Nat.le_max_left n n')] at hrun
  rw [Nat.zero_add, if_pos (Nat.le_max_right n n')] at hrun'
  exact Prod.mk.inj (hrun.symm.trans hrun')

/-! ### Visits and nodes -/

/-- No node is visited twice. -/
theorem Means.visits_le (h : Means slots e result n) : n ≤ e.nodeCount := by
  induction h with
  | literal | var | unbound => exact Nat.le_refl _
  | negate _ ih | negateError _ ih =>
    unfold Expr.nodeCount
    omega
  | leftError _ ih | decided _ _ ih | conditionError _ ih =>
    unfold Expr.nodeCount
    omega
  | rightError _ _ _ ihl ihr | binary _ _ _ _ ihl ihr =>
    unfold Expr.nodeCount
    omega
  | consequent _ _ _ ihc ih | alternative _ _ _ ihc ih =>
    unfold Expr.nodeCount
    omega

/-- A node that may leave operands unvisited: a conditional, a conjunction or a disjunction. -/
inductive Expr.Selects : Expr → Prop
  | conditional (c t e : Expr) : Selects (.conditional c t e)
  | and (l r : Expr) : Selects (.binary .and l r)
  | or (l r : Expr) : Selects (.binary .or l r)

/-- Every node of a tree is visited if the run has a value and no node selects. -/
theorem Means.visits_eq (h : Means slots e result n) {v : Value} (hv : result = .ok v)
    (hnodes : ∀ x ∈ e.nodes, ¬ x.Selects) : n = e.nodeCount := by
  induction h generalizing v with
  | literal | var => rfl
  | unbound | negateError | leftError | rightError | conditionError => cases hv
  | negate _ ih =>
    have hoperand := ih rfl fun x hx => hnodes x (List.mem_cons_of_mem _ hx)
    unfold Expr.nodeCount
    omega
  | decided _ h =>
    have hself := hnodes _ List.mem_cons_self
    cases h with
    | and => exact absurd (.and _ _) hself
    | or => exact absurd (.or _ _) hself
  | binary _ _ _ _ ihl ihr =>
    have hleft := ihl rfl fun x hx => hnodes x (by simp [Expr.nodes, hx])
    have hright := ihr rfl fun x hx => hnodes x (by simp [Expr.nodes, hx])
    unfold Expr.nodeCount
    omega
  | consequent | alternative => exact absurd (.conditional _ _ _) (hnodes _ List.mem_cons_self)

/-- **The budget of an evaluation is exact, and changes nothing but where it cuts off.** Every
tree has one meaning over its slots, a value or the first error, after a number of visits.
An evaluation is that meaning if its budget has a step for every visit, and exceeds its
budget otherwise. No node is visited twice; and every node is visited if there is a value,
and no conditional, conjunction or disjunction in the tree. -/
theorem evaluateExpr_meaning (e : Expr) (slots : List Decimal) :
    ∃ result visits, (∀ result' n, Means slots e result' n ↔ result' = result ∧ n = visits) ∧
      (∀ limits : Limits, evaluateExpr e slots limits =
        if visits ≤ limits.maxEvalSteps then result
        else .error (.budgetExceeded limits.maxEvalSteps)) ∧
      visits ≤ e.nodeCount ∧
      ((∃ v, result = .ok v) → (∀ x ∈ e.nodes, ¬ x.Selects) → visits = e.nodeCount) := by
  obtain ⟨result, visits, h⟩ := exists_means slots e
  refine ⟨result, visits, fun result' n => ⟨fun h' => h'.unique h, ?_⟩, fun limits => ?_,
    h.visits_le, fun ⟨v, hv⟩ hnodes => h.visits_eq hv hnodes⟩
  · rintro ⟨rfl, rfl⟩
    exact h
  · have hrun := h.costs limits.maxEvalSteps 0 (Nat.zero_le _)
    rw [Nat.zero_add] at hrun
    unfold evaluateExpr runExpr
    rw [hrun]
    split <;> rfl

/-- A disjunction whose right operand divides by zero: its left operand decides it after two of
five visits, so that a budget of two is enough and no smaller one is. -/
theorem evaluateExpr_meaning_shortcut :
    let x : Decimal := ⟨false, 5, 1, by decide, by decide⟩
    let e : Expr := .binary .or (.var "x" 0) (.binary .div (.literal .one) (.literal .zero))
    Means [x] e (.ok (.boolean true)) 2 ∧ e.nodeCount = 5 ∧
      ∀ limits : Limits, evaluateExpr e [x] limits =
        if 2 ≤ limits.maxEvalSteps then .ok (.boolean true)
        else .error (.budgetExceeded limits.maxEvalSteps) := by
  intro x e
  have htruthy : (Value.number x).Truthy := (Value.isTruthy_iff _).1 (by decide)
  have hmeans : Means [x] e (.ok (.boolean true)) 2 := .decided (.var rfl) (.or htruthy)
  obtain ⟨result, visits, hunique, heval, -, -⟩ := evaluateExpr_meaning e [x]
  obtain ⟨rfl, rfl⟩ := (hunique _ _).1 hmeans
  exact ⟨hmeans, rfl, heval⟩

end Formulary

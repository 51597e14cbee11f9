import Formulary.Evaluation
import Formulary.Proofs.Expr.Nodes

/-!
# How an evaluation ends

An evaluation visits no node twice, so that it takes at most as many steps as its tree has
nodes. It can fail in four ways: by a division by zero, an overflow, a variable without a
slot, or a step beyond the budget; and for the last it must take that many steps.

* `Run.Fails`: the errors of a run that takes at most so many steps.
* `Run.Ends`: a run that takes at most so many steps and fails only so.
* `evalNode_ends` (every tree): by induction, with a step for each node.
-/

namespace Formulary

variable {α β : Type} {budget count count' : Nat} {unbound : String → Prop}

namespace Run

/-- **The errors of a run** that comes to at most `count` steps, where `unbound` are the
names of variables without a slot. -/
inductive Fails (budget count : Nat) (unbound : String → Prop) : EvalError → Prop
  | divisionByZero : Fails budget count unbound .divisionByZero
  | overflow : Fails budget count unbound .overflow
  | missingBinding {name : String} (h : unbound name) :
      Fails budget count unbound (.missingBinding name)
  | budgetExceeded (h : budget < count) : Fails budget count unbound (.budgetExceeded budget)

theorem Fails.mono {e : EvalError} (h : Fails budget count unbound e) (hle : count ≤ count') :
    Fails budget count' unbound e := by
  cases h with
  | divisionByZero => exact .divisionByZero
  | overflow => exact .overflow
  | missingBinding h => exact .missingBinding h
  | budgetExceeded h => exact .budgetExceeded (Nat.lt_of_lt_of_le h hle)

/-- **How a run ends**, from any count of steps: after at most `visits` more, and with one
of the errors of a run or none. -/
structure Ends (budget visits : Nat) (unbound : String → Prop) (x : Run α) : Prop where
  count_le : ∀ n, (x.run.run n).2 ≤ n + visits
  fails : ∀ n e, (x.run.run n).1 = .error e → Fails budget (n + visits) unbound e

namespace Ends

variable {visits visits' : Nat} {x : Run α}

theorem mono (h : Ends budget visits unbound x) (hle : visits ≤ visits') :
    Ends budget visits' unbound x where
  count_le n := Nat.le_trans (h.count_le n) (Nat.add_le_add_left hle n)
  fails n e he := (h.fails n e he).mono (Nat.add_le_add_left hle n)

theorem pure (a : α) : Ends budget 0 unbound (Pure.pure a) where
  count_le _ := Nat.le_refl _
  fails _ _ he := nomatch he

/-- A result that is not an error of the bindings or the budget, in no steps. -/
theorem ofExcept {r : Except EvalError α}
    (h : ∀ e, r = .error e → e = .divisionByZero ∨ e = .overflow) :
    Ends budget 0 unbound (Run.ofExcept r) where
  count_le _ := Nat.le_refl _
  fails n e he := by
    rcases h e he with rfl | rfl
    · exact .divisionByZero
    · exact .overflow

theorem missingBinding {name : String} (h : unbound name) :
    Ends budget 0 unbound (throw (.missingBinding name) : Run α) where
  count_le _ := Nat.le_refl _
  fails n e he := by
    cases he
    exact .missingBinding h

theorem step : Ends budget 1 unbound (Run.step budget) where
  count_le n := by
    rw [run_step]
    split <;> exact Nat.le_refl _
  fails n e he := by
    rw [run_step] at he
    split at he
    · rename_i hlt
      cases he
      exact .budgetExceeded hlt
    · cases he

/-- A run that goes on takes the steps of both of its parts. -/
theorem bind {f : α → Run β} (h : Ends budget visits unbound x)
    (hf : ∀ a, Ends budget visits' unbound (f a)) :
    Ends budget (visits + visits') unbound (x >>= f) := by
  constructor
  · intro n
    have hcount := h.count_le n
    rw [run_bind]
    rcases hx : x.run.run n with ⟨r, k⟩
    rw [hx] at hcount
    cases r with
    | error e => exact Nat.le_trans hcount (by omega)
    | ok a =>
      have hcount' := (hf a).count_le k
      dsimp only at hcount ⊢
      omega
  · intro n e he
    have hcount := h.count_le n
    have hfails := h.fails n
    rw [run_bind] at he
    rcases hx : x.run.run n with ⟨r, k⟩
    rw [hx] at he hcount hfails
    cases r with
    | error e' =>
      obtain rfl : e' = e := Except.error.inj he
      exact (hfails e' rfl).mono (by omega)
    | ok a =>
      dsimp only at hcount
      exact ((hf a).fails k e he).mono (by omega)

end Ends

end Run

/-- An operation fails by a division by zero or an overflow. -/
theorem BinaryOp.apply_error {op : BinaryOp} {a b : Value} {e : EvalError}
    (h : op.apply a b = .error e) : e = .divisionByZero ∨ e = .overflow := by
  have harithmetic {r : Option Decimal} (h : arithmetic r = .error e) : e = .overflow := by
    cases r with
    | none => exact (Except.error.inj h).symm
    | some d => cases h
  cases op with
  | add | sub | mul => exact .inr (harithmetic h)
  | div =>
    rw [apply] at h
    split at h
    · exact .inl (Except.error.inj h).symm
    · exact .inr (harithmetic h)
  | less | lessEq | greater | greaterEq | equal | notEqual | and | or => cases h

/-- **An evaluation takes at most one step for each node**, and a binding that it misses is
one of a variable that has no slot: by induction on the tree. -/
theorem evalNode_ends (slots : List Decimal) (budget : Nat) (e : Expr)
    (h : ∀ name slot, .var name slot ∈ e.nodes → slots[slot]? = none → unbound name) :
    Run.Ends budget e.nodeCount unbound (evalNode slots budget e) := by
  have hstep : Run.Ends budget 1 unbound (Run.step budget) := .step
  induction e with
  | literal d =>
    rw [evalNode]
    exact hstep.bind fun _ => .pure _
  | var name slot =>
    rw [evalNode]
    refine (hstep.bind fun _ => ?_ : Run.Ends budget (1 + 0) unbound _)
    cases hslot : slots[slot]? with
    | some d => exact .pure _
    | none => exact .missingBinding (h name slot List.mem_cons_self hslot)
  | negate e ih =>
    have hoperand := ih fun name slot hv => h name slot (List.mem_cons_of_mem _ hv)
    rw [evalNode]
    refine (hstep.bind fun _ => hoperand.bind fun a => .pure _).mono ?_
    simp only [Expr.nodeCount]
    omega
  | binary op l r ihl ihr =>
    have hl := ihl fun name slot hv => h name slot (by simp [Expr.nodes, hv])
    have hr := ihr fun name slot hv => h name slot (by simp [Expr.nodes, hv])
    rw [evalNode]
    refine (hstep.bind fun _ => hl.bind fun a =>
      (?_ : Run.Ends budget r.nodeCount unbound _)).mono ?_
    · cases op.shortcut? a.isTruthy with
      | some b => exact (Run.Ends.pure _).mono (Nat.zero_le _)
      | none => exact hr.bind fun b => .ofExcept fun e he => op.apply_error he
    · simp only [Expr.nodeCount]
      omega
  | conditional c t e ihc iht ihe =>
    have hc := ihc fun name slot hv => h name slot (by simp [Expr.nodes, hv])
    have ht := iht fun name slot hv => h name slot (by simp [Expr.nodes, hv])
    have he := ihe fun name slot hv => h name slot (by simp [Expr.nodes, hv])
    -- only one of the branches is visited
    have hbranch (a : Value) : Run.Ends budget (t.nodeCount + e.nodeCount) unbound
        (if a.isTruthy then evalNode slots budget t else evalNode slots budget e) := by
      cases a.isTruthy with
      | true => exact ht.mono (Nat.le_add_right _ _)
      | false => exact he.mono (Nat.le_add_left _ _)
    rw [evalNode]
    refine (hstep.bind fun _ => hc.bind hbranch).mono ?_
    simp only [Expr.nodeCount]
    omega

end Formulary

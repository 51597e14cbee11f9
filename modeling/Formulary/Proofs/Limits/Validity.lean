import Formulary.Evaluation
import Formulary.Proofs.Expr.Nodes

/-!
# Valid limits are those that let something through

Each limit has the stage that a zero closes: a text without characters has no tokens, no
tree comes from no tokens, every tree has a level, and every evaluation takes a step. Where
no limit is zero, the shortest formula of all, a digit, passes every stage.

* `evalNode_zero` (every tree): without a budget, the first step ends the run.
* `get_ne_zero_of_evaluateText`: what has a value was let through by every limit.
* `evaluateText_digit`: a digit is let through by every limit that is not zero.
* `validate_iff_evaluates`: **limits are valid exactly when something can be evaluated
  under them**, and under other limits nothing can.
-/

namespace Formulary

variable {source : String} {names : List String} {bindings : Bindings} {limits : Limits}

/-- Without a budget the step for the root is one too many. -/
theorem evalNode_zero (slots : List Decimal) (e : Expr) (n : Nat) :
    (evalNode slots 0 e).run.run n = (.error (.budgetExceeded 0), n + 1) := by
  unfold evalNode
  rw [Run.run_bind, Run.run_step, if_pos (Nat.succ_pos n)]

/-- A formula has a level, a node, a token for the node and a character for the token. -/
theorem limits_pos_of_compile {f : Formula} (h : Formula.compile source names limits = .ok f) :
    0 < limits.maxFormulaLength ∧ 0 < limits.maxTokenCount ∧ 0 < limits.maxTreeDepth := by
  obtain ⟨-, -, -, hdepth, ts, n, htokens, hd, -⟩ := stages_of_compile h
  obtain ⟨hlength, hcount, hseg⟩ := segmentation_of_tokenize htokens
  have hlevel : 0 < f.root.depth := f.root.depth_pos
  have hnode : 0 < f.root.nodeCount := Nat.lt_of_lt_of_le hlevel f.root.depth_le_nodeCount
  have htoken : f.root.nodeCount ≤ ts.length := hd.nodeCount_le
  have hchar : ts.length ≤ source.length := hseg.length_le
  omega

/-- A formula with a value has taken a step. -/
theorem steps_pos_of_evaluate {f : Formula} {v : Value} (h : f.evaluate bindings limits = .ok v) :
    0 < limits.maxEvalSteps := by
  refine Nat.pos_of_ne_zero fun hzero => ?_
  unfold Formula.evaluate at h
  cases hslots : f.names.mapM bindings.resolve with
  | error e => simp [hslots, bind, Except.bind] at h
  | ok slots =>
    rw [hslots] at h
    have hstuck : evaluateExpr f.root slots limits = .error (.budgetExceeded 0) := by
      unfold evaluateExpr runExpr
      rw [hzero, evalNode_zero]
    cases hstuck.symm.trans h

/-- **What has a value was let through by every limit.** -/
theorem get_ne_zero_of_evaluateText {v : Value}
    (h : evaluateText source names bindings limits = .ok v) (field : Limits.Field) :
    limits.get field ≠ 0 := by
  unfold evaluateText at h
  cases hcompile : Formula.compile source names limits with
  | error e => simp [hcompile] at h
  | ok f =>
    obtain ⟨hlength, hcount, hdepth⟩ := limits_pos_of_compile hcompile
    simp only [hcompile] at h
    split at h
    · cases h
    · rename_i v' hvalue
      have hsteps := steps_pos_of_evaluate hvalue
      cases field with
      | formulaLength => exact Nat.ne_of_gt hlength
      | tokenCount => exact Nat.ne_of_gt hcount
      | treeDepth => exact Nat.ne_of_gt hdepth
      | evalSteps => exact Nat.ne_of_gt hsteps

/-- **A digit is let through by every limit that is not zero**: it is one character, one
token, one level and one step, and it asks for no binding. -/
theorem evaluateText_digit (h : ∀ field, limits.get field ≠ 0) (bindings : Bindings) :
    evaluateText "1" [] bindings limits = .ok (.number .one) := by
  have hlength : ¬ limits.maxFormulaLength < "1".length :=
    Nat.not_lt.2 (Nat.pos_of_ne_zero (h .formulaLength))
  have hcount : ¬ limits.maxTokenCount < (Expr.literal .one).tokenCount :=
    Nat.not_lt.2 (Nat.pos_of_ne_zero (h .tokenCount))
  have hdepth : (Expr.literal .one).nesting + 1 ≤ limits.maxTreeDepth :=
    Nat.pos_of_ne_zero (h .treeDepth)
  have hsteps : ¬ limits.maxEvalSteps < 0 + 1 := Nat.not_lt.2 (Nat.pos_of_ne_zero (h .evalSteps))
  have hcompile : Formula.compile "1" [] limits = .ok ⟨"1", [], .literal .one⟩ := by
    have htext : (Expr.literal .one).text = "1" := by decide +kernel
    have hnormal : (Expr.literal .one).normalize = .literal .one := by decide +kernel
    have hdeclared : Parser.checkNames [] [] = .ok () := rfl
    have hread := compile_text_eq (e := .literal .one) hdeclared rfl limits
    rwa [htext, hnormal, if_neg hlength, if_neg hcount, if_pos hdepth] at hread
  have hvalue : evaluateExpr (.literal .one) [] limits = .ok (.number .one) := by
    unfold evaluateExpr runExpr evalNode
    rw [Run.run_bind, Run.run_step, if_neg hsteps]
    rfl
  unfold evaluateText
  simp only [hcompile, Formula.evaluate, List.mapM_nil, pure_bind, hvalue]

/-- **Limits are valid exactly when something can be evaluated under them.** Where they are
refused, every text fails, over whatever names and bindings. -/
theorem validate_iff_evaluates (limits : Limits) :
    (limits.validate = .ok () ↔
      ∃ source names bindings v, evaluateText source names bindings limits = .ok v) ∧
    ∀ refusal, limits.validate = .error refusal →
      ∀ source names bindings, ∃ e, evaluateText source names bindings limits = .error e := by
  have hvalid : limits.validate = .ok () ↔
      ∃ source names bindings v, evaluateText source names bindings limits = .ok v := by
    rw [Limits.validate_eq_ok_iff]
    constructor
    · intro h
      exact ⟨"1", [], .empty, .number .one, evaluateText_digit h .empty⟩
    · rintro ⟨source, names, bindings, v, hvalue⟩ field
      exact get_ne_zero_of_evaluateText hvalue field
  refine ⟨hvalid, fun refusal hrefused source names bindings => ?_⟩
  cases hresult : evaluateText source names bindings limits with
  | error e => exact ⟨e, rfl⟩
  | ok v =>
    have hok := hvalid.2 ⟨source, names, bindings, v, hresult⟩
    cases hrefused.symm.trans hok

end Formulary

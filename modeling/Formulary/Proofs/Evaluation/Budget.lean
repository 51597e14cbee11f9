import Formulary.Proofs.Evaluation.Resolution

/-!
# A budget that cannot be exceeded

The limits on the text of a formula bound its tree: the characters bound the tokens, the
tokens the nodes, and the nodes the steps of every evaluation. A budget of as many steps as
a formula may have tokens is therefore never used up.

* `lt_nodeCount_of_budgetExceeded` (every tree): a budget that is exceeded is smaller than
  the tree.
* `compile_bounded`: **the tree of a formula is well formed and within the limits, and so is
  every evaluation of it.**
-/

namespace Formulary

variable {source : String} {names : List String} {limits limits' : Limits} {f : Formula}

/-- **A budget that is exceeded is smaller than the tree**, whatever is bound: an error of the
bindings is none of the budget, and over the slots a step is taken for a node. -/
theorem lt_nodeCount_of_budgetExceeded {bindings : Bindings} {max : Nat}
    (h : f.evaluate bindings limits' = .error (.budgetExceeded max)) :
    max = limits'.maxEvalSteps ∧ limits'.maxEvalSteps < f.nodeCount := by
  by_cases hresolves : ∀ name ∈ f.names, bindings.Resolves name
  · obtain ⟨slots, heval, -⟩ := Formula.evaluate_eq_evaluateExpr hresolves
    have hends : Run.Ends limits'.maxEvalSteps f.root.nodeCount (fun _ => True)
        (evalNode slots limits'.maxEvalSteps f.root) :=
      evalNode_ends slots _ f.root fun _ _ _ _ => trivial
    rw [heval] at h
    cases hends.fails 0 _ h with
    | budgetExceeded hlt => exact ⟨rfl, by simpa [Formula.nodeCount] using hlt⟩
  · push Not at hresolves
    obtain ⟨-, name, -, e, -, -, hname, heval⟩ :=
      Formula.evaluate_first_unresolved hresolves limits'
    obtain rfl : e = .budgetExceeded max := Except.error.inj (heval.symm.trans h)
    rcases Bindings.resolve_error hname with hmissing | ⟨text, hinvalid⟩
    · cases hmissing
    · cases hinvalid

/-- **Formulas are well formed and bounded, and so are their evaluations.** The tree of a
formula is no deeper than the limit and than it has nodes; it has no more nodes than the
text has tokens, and these are within the limits on tokens and on characters; no literal in
it is negative, and every variable is in the slot of its name. A budget of as many steps as
nodes, or as many as the limits allow tokens, is therefore never exceeded, whatever is
bound. -/
theorem compile_bounded (h : Formula.compile source names limits = .ok f) :
    f.depth ≤ limits.maxTreeDepth ∧
    (∃ ts, tokenize source names limits = .ok ts ∧ f.nodeCount ≤ ts.length ∧
      ts.length ≤ limits.maxTokenCount ∧ ts.length ≤ limits.maxFormulaLength) ∧
    f.depth ≤ f.nodeCount ∧
    (∀ d, .literal d ∈ f.root.nodes → d.negative = false ∧ 0 ≤ d.value) ∧
    (∀ name slot, .var name slot ∈ f.root.nodes → ∃ hlt : slot < names.length, names[slot] = name) ∧
    ∀ limits' : Limits,
      f.nodeCount ≤ limits'.maxEvalSteps ∨
        min limits.maxTokenCount limits.maxFormulaLength ≤ limits'.maxEvalSteps ∨
        limits = {} ∧ limits' = {} →
      ∀ (bindings : Bindings) (max : Nat),
        f.evaluate bindings limits' ≠ .error (.budgetExceeded max) := by
  obtain ⟨-, -, -, hdepth, ts, n, htokens, hd, -⟩ := stages_of_compile h
  obtain ⟨hlength, hcount, hseg⟩ := segmentation_of_tokenize htokens
  obtain ⟨-, -, hw⟩ := writable_of_compile h
  have hnodes : f.nodeCount ≤ ts.length := hd.nodeCount_le
  have hchars : ts.length ≤ limits.maxFormulaLength := Nat.le_trans hseg.length_le hlength
  refine ⟨hdepth, ⟨ts, htokens, hnodes, hcount, hchars⟩, f.root.depth_le_nodeCount,
    fun d hliteral => ?_, fun name slot hv => ?_, fun limits' hbudget bindings max hexceeded => ?_⟩
  · have hsign : d.negative = false := hw.of_mem hliteral
    have hvalue : d.value = d.mantissa / 10 ^ d.scale := by
      rw [Decimal.value_eq, hsign, if_neg nofun]
    exact ⟨hsign, hvalue ▸ by positivity⟩
  · exact List.getElem?_eq_some_iff.1 (Formula.getElem?_of_var_mem h hv)
  · obtain ⟨-, hlt⟩ := lt_nodeCount_of_budgetExceeded hexceeded
    rcases hbudget with hle | hle | ⟨rfl, rfl⟩
    · omega
    · omega
    · have hdefault : ({} : Limits).maxTokenCount ≤ ({} : Limits).maxEvalSteps := by decide
      omega

/-- A comparison, a literal and a negation under the limits by default: a budget of a step
for each of the seven nodes is never exceeded. -/
theorem compile_bounded_conditional :
    ∃ f, Formula.compile "(price < 10) ? 0.5 : -price" ["qty", "price"] {} = .ok f ∧
      f.nodeCount = 7 ∧ f.depth ≤ 64 ∧
      (∀ name slot, .var name slot ∈ f.root.nodes →
        ∃ hlt : slot < 2, ["qty", "price"][slot] = name) ∧
      ∀ (bindings : Bindings) (max : Nat),
        f.evaluate bindings { maxEvalSteps := 7 } ≠ .error (.budgetExceeded max) := by
  let f : Formula := ⟨"(price < 10) ? 0.5 : -price", ["qty", "price"],
    .conditional
      (.binary .less (.var "price" 1) (.literal ⟨false, 10, 0, by decide, by decide⟩))
      (.literal ⟨false, 5, 1, by decide, by decide⟩) (.negate (.var "price" 1))⟩
  have hf : Formula.compile "(price < 10) ? 0.5 : -price" ["qty", "price"] {} = .ok f := by
    decide +kernel
  obtain ⟨hdepth, -, -, -, hvars, hbudget⟩ := compile_bounded hf
  exact ⟨f, hf, rfl, hdepth, hvars, hbudget _ (.inl (Nat.le_refl 7))⟩

end Formulary

import Formulary.Evaluation
import Formulary.Proofs.Expr.RoundTrip

/-!
# Limits only cut off

A limit stands between a formula and its result, and never changes the result: what
comes out under some limits comes out under all larger ones, unless one of the smaller
limits was reported. Each stage is compared with itself under larger limits, in
outcomes that are equal or cut off.

* `Limits.le_iff`: the order of limits, field by field.
* `CutOff`: a result that is another one, or an error allowed in its place.
* `tokenize_cutOff`, `parse_cutOff`, `compile_cutOff`: reading, stage by stage; the
  parsers by induction on the room for further `ternary`s.
* `evalNode_cutOff` (every tree): by induction, with a step for each node.
* `evaluateText_cutOff`: **larger limits give the same value or the same error, unless
  the smaller ones cut the formula off.**
-/

namespace Formulary

namespace Limits

/-- Limits are ordered field by field. -/
instance : LE Limits where
  le limits limits' := ∀ field, limits.get field ≤ limits'.get field

variable {limits limits' : Limits}

theorem le_iff : limits ≤ limits' ↔
    limits.maxFormulaLength ≤ limits'.maxFormulaLength ∧
      limits.maxTokenCount ≤ limits'.maxTokenCount ∧
      limits.maxTreeDepth ≤ limits'.maxTreeDepth ∧
      limits.maxEvalSteps ≤ limits'.maxEvalSteps := by
  constructor
  · intro h
    exact ⟨h .formulaLength, h .tokenCount, h .treeDepth, h .evalSteps⟩
  · rintro ⟨hlength, hcount, hdepth, hsteps⟩ field
    cases field with
    | formulaLength => exact hlength
    | tokenCount => exact hcount
    | treeDepth => exact hdepth
    | evalSteps => exact hsteps

end Limits

/-- Whether an error reports one of the limits. -/
def ErrorKind.isLimit : ErrorKind → Prop
  | .tooLong | .tooManyTokens | .tooDeep | .budgetExceeded => True
  | _ => False

variable {ε ε' α β : Type}

/-- **A result that is another one, or cut off**: an error that is allowed in its place. -/
def CutOff (allowed : ε → Prop) (x y : Except ε α) : Prop :=
  x = y ∨ ∃ e, allowed e ∧ x = .error e

namespace CutOff

variable {allowed : ε → Prop} {x y : Except ε α}

theorem refl (x : Except ε α) : CutOff allowed x x := .inl rfl

theorem error {e : ε} (h : allowed e) : CutOff allowed (.error e) y := .inr ⟨e, h, rfl⟩

theorem map (h : CutOff allowed x y) (f : α → β) : CutOff allowed (x.map f) (y.map f) := by
  rcases h with rfl | ⟨e, he, rfl⟩
  · exact refl _
  · exact error he

/-- Errors may be passed on in another form. -/
theorem mapError {allowed' : ε' → Prop} (h : CutOff allowed x y) (f : ε → ε')
    (hf : ∀ e, allowed e → allowed' (f e)) : CutOff allowed' (x.mapError f) (y.mapError f) := by
  rcases h with rfl | ⟨e, he, rfl⟩
  · exact refl _
  · exact error (hf e he)

/-- Results that go on alike are cut off at most where one of their stages is. -/
theorem bind {f g : α → Except ε β} (h : CutOff allowed x y)
    (hf : ∀ a, CutOff allowed (f a) (g a)) : CutOff allowed (x >>= f) (y >>= g) := by
  rcases h with rfl | ⟨e, he, rfl⟩
  · cases x with
    | error e => exact refl _
    | ok a => exact hf a
  · exact error he

/-- A value has not been cut off. -/
theorem eq_ok {a : α} (h : CutOff allowed x y) (hx : x = .ok a) : y = .ok a := by
  rcases h with rfl | ⟨e, -, rfl⟩
  · exact hx
  · cases hx

/-- An error that is not allowed in the place of a result is the result. -/
theorem eq_error {e : ε} (h : CutOff allowed x y) (hx : x = .error e) (he : ¬ allowed e) :
    y = .error e := by
  rcases h with rfl | ⟨e', he', rfl⟩
  · exact hx
  · cases hx
    exact absurd he' he

end CutOff

namespace Parser

variable {scope : Scope} {depth : Nat} {inner inner' operand operand' : Parser}

/-- The same scope with another limit on depth. -/
def Scope.withDepth (scope : Scope) (depth : Nat) : Scope := { scope with maxDepth := depth }

/-- A parser that reads what another one does, unless it finds the formula too deep. -/
def CutsOff (p p' : Parser) : Prop :=
  ∀ ts, CutOff (·.kind = .tooDeep) (outcome p ts) (outcome p' ts)

theorem unexpected_withDepth (scope : Scope) (depth : Nat) (ts : List Token) :
    (scope.withDepth depth).unexpected ts = scope.unexpected ts := by
  cases ts <;> rfl

/-- A node that is not too deep is made under a larger limit too. -/
theorem node_cutOff (hd : scope.maxDepth ≤ depth) (e : Expr) (below : Nat) :
    CutOff (·.kind = .tooDeep) (scope.node e below) ((scope.withDepth depth).node e below) := by
  rw [Scope.node_eq, Scope.node_eq]
  by_cases h : below + 1 ≤ scope.maxDepth
  · have h' : below + 1 ≤ (scope.withDepth depth).maxDepth := Nat.le_trans h hd
    rw [if_pos h, if_pos h']
    exact .refl _
  · rw [if_neg h]
    exact .error rfl

namespace CutsOff

theorem group (h : CutsOff inner inner') :
    CutsOff (group scope inner) (group (scope.withDepth depth) inner') := by
  intro ts
  rw [outcome_group, outcome_group]
  rcases h ts with h | ⟨e, he, h⟩
  · rw [h]
    -- behind the expression both look for the parenthesis alone
    exact .refl _
  · rw [h]
    exact .error he

theorem primary (h : CutsOff inner inner') :
    CutsOff (primary scope inner) (primary (scope.withDepth depth) inner') := by
  intro ts
  cases ts with
  | nil => exact .refl _
  | cons t rest =>
    rw [outcome_primary_cons, outcome_primary_cons]
    cases t.kind with
    | openParen => exact h.group rest
    | _ => exact .refl _

theorem unary (hd : scope.maxDepth ≤ depth) (h : CutsOff inner inner') :
    CutsOff (unary scope inner) (unary (scope.withDepth depth) inner') := by
  intro ts
  cases ts with
  | nil => exact .refl _
  | cons t rest =>
    rw [outcome_unary_cons, outcome_unary_cons]
    have hprimary : CutsOff (Parser.primary scope inner)
        (Parser.primary (scope.withDepth depth) inner') := h.primary
    by_cases hk : t.kind = .operator .sub
    · rw [if_pos hk, if_pos hk]
      rcases hprimary rest with hp | ⟨e, he, hp⟩
      · rw [hp]
        cases outcome (Parser.primary (scope.withDepth depth) inner') rest with
        | error e => exact .refl _
        | ok r => exact (node_cutOff hd _ _).map _
      · rw [hp]
        exact .error he
    · rw [if_neg hk, if_neg hk]
      exact hprimary (t :: rest)

/-- Going on behind a node: by induction on what is left, where every operand shortens it. -/
theorem follow (hd : scope.maxDepth ≤ depth) {level : Precedence} (h : CutsOff operand operand')
    (node : Node) (ts : List Token) :
    CutOff (·.kind = .tooDeep) (follow scope level operand node ts)
      (follow (scope.withDepth depth) level operand' node ts) := by
  induction hlen : ts.length using Nat.strongRecOn generalizing node ts with
  | _ len ih =>
    subst hlen
    by_cases hstop : ∀ t ∈ ts.head?, operatorAt? level t = none
    · rw [follow_stop hstop, follow_stop hstop]
      exact .refl _
    · cases ts with
      | nil => simp at hstop
      | cons t rest =>
        obtain ⟨op, hop⟩ : ∃ op, operatorAt? level t = some op := by
          simpa [Option.eq_none_iff_forall_ne_some] using hstop
        rw [follow_operator hop, follow_operator hop]
        rcases h rest with h | ⟨e, he, h⟩
        · rw [h]
          cases hright : outcome operand' rest with
          | error e => exact .refl _
          | ok r =>
            obtain ⟨right, rest'⟩ := r
            have hshorter : rest'.length < (t :: rest).length :=
              Nat.lt_succ_of_lt (length_lt_of_outcome hright)
            have hnode := node_cutOff hd (.binary op node.expr right.expr)
              (max node.depth right.depth)
            dsimp only
            rcases hnode with hnode | ⟨e, he, hnode⟩
            · rw [hnode]
              cases (scope.withDepth depth).node (.binary op node.expr right.expr)
                (max node.depth right.depth) with
              | error e => exact .refl _
              | ok joined => exact ih rest'.length hshorter joined rest' rfl
            · rw [hnode]
              exact .error he
        · rw [h]
          exact .error he

theorem chain (hd : scope.maxDepth ≤ depth) {level : Precedence} (h : CutsOff operand operand') :
    CutsOff (chain scope level operand) (chain (scope.withDepth depth) level operand') := by
  intro ts
  rw [outcome_chain, outcome_chain]
  rcases h ts with hts | ⟨e, he, hts⟩
  · rw [hts]
    cases outcome operand' ts with
    | error e => exact .refl _
    | ok r => exact h.follow hd r.1 r.2
  · rw [hts]
    exact .error he

/-- A disjunction is the chain of six levels, from the tightest on. -/
theorem disjunction (hd : scope.maxDepth ≤ depth) (h : CutsOff inner inner') :
    CutsOff (disjunction scope inner) (disjunction (scope.withDepth depth) inner') := by
  have hproduct : CutsOff (multiplicative scope inner)
      (multiplicative (scope.withDepth depth) inner') := (h.unary hd).chain hd
  have hsum : CutsOff (additive scope inner)
      (additive (scope.withDepth depth) inner') := hproduct.chain hd
  have hrelation : CutsOff (relation scope inner)
      (relation (scope.withDepth depth) inner') := hsum.chain hd
  have hequality : CutsOff (equality scope inner)
      (equality (scope.withDepth depth) inner') := hrelation.chain hd
  have hconjunction : CutsOff (conjunction scope inner)
      (conjunction (scope.withDepth depth) inner') := hequality.chain hd
  exact hconjunction.chain hd

theorem branches (hd : scope.maxDepth ≤ depth) (h : CutsOff inner inner') (condition : Node) :
    CutsOff (branches scope inner condition)
      (branches (scope.withDepth depth) inner' condition) := by
  intro ts
  rw [outcome_branches, outcome_branches]
  rcases h ts with hts | ⟨e, he, hts⟩
  · rw [hts]
    match outcome inner' ts with
    | .error e => exact .refl _
    | .ok (_, []) => exact .refl _
    | .ok (consequent, t :: rest) =>
      dsimp only
      by_cases hk : t.kind = .colon
      · rw [if_pos hk, if_pos hk]
        rcases h rest with hrest | ⟨e, he, hrest⟩
        · rw [hrest]
          cases outcome inner' rest with
          | error e => exact .refl _
          | ok r => exact (node_cutOff hd _ _).map _
        · rw [hrest]
          exact .error he
      · rw [if_neg hk, if_neg hk, unexpected_withDepth]
        exact .refl _
  · rw [hts]
    exact .error he

theorem conditional (hd : scope.maxDepth ≤ depth) (h : CutsOff inner inner') :
    CutsOff (conditional scope inner) (conditional (scope.withDepth depth) inner') := by
  intro ts
  rw [outcome_conditional, outcome_conditional]
  rcases h.disjunction hd ts with hts | ⟨e, he, hts⟩
  · rw [hts]
    match outcome (Parser.disjunction (scope.withDepth depth) inner') ts with
    | .error e => exact .refl _
    | .ok (_, []) => exact .refl _
    | .ok (condition, t :: rest) =>
      dsimp only
      by_cases hk : t.kind = .question
      · rw [if_pos hk, if_pos hk]
        exact h.branches hd condition rest
      · rw [if_neg hk, if_neg hk]
        exact .refl _
  · rw [hts]
    exact .error he

/-- **A whole expression is read alike where there is more room**, unless there was too
little: by induction on the smaller room. -/
theorem ternary (hd : scope.maxDepth ≤ depth) {room room' : Nat} (hroom : room ≤ room') :
    CutsOff (parserOf scope room .ternary) (parserOf (scope.withDepth depth) room' .ternary) := by
  induction room generalizing room' with
  | zero =>
    intro ts
    rw [outcome_ternary_zero]
    exact .error rfl
  | succ room ih =>
    intro ts
    obtain ⟨more, rfl⟩ : ∃ more, room' = more + 1 := ⟨room' - 1, by omega⟩
    have hinner := ih (Nat.le_of_succ_le_succ hroom)
    rw [outcome_ternary_succ, outcome_ternary_succ]
    exact hinner.conditional hd ts

end CutsOff

end Parser

open Lexer

variable {limits limits' : Limits}

/-- **Cutting a formula** is cut off by the limits on its characters and its tokens. -/
theorem tokenize_cutOff (h : limits ≤ limits') (source : String) (names : List String) :
    CutOff (·.kind.isLimit) (tokenize source names limits) (tokenize source names limits') := by
  obtain ⟨hlength, hcount, -, -⟩ := Limits.le_iff.1 h
  rw [tokenize_eq, tokenize_eq]
  by_cases hlong : limits.maxFormulaLength < source.length
  · rw [if_pos hlong]
    exact .error trivial
  · rw [if_neg hlong, if_neg (by omega)]
    cases scan (occursIn names) 0 source.toList with
    | error e => exact .refl _
    | ok ts =>
      dsimp only
      by_cases hmany : limits.maxTokenCount < ts.length
      · rw [if_pos hmany]
        exact .error trivial
      · rw [if_neg hmany, if_neg (by omega)]
        exact .refl _

/-- **Reading tokens** is cut off by the limit on depth. -/
theorem parse_cutOff (h : limits ≤ limits') (tokens : List Token) (names : List String) :
    CutOff (·.kind.isLimit) (parse tokens names limits) (parse tokens names limits') := by
  have hdepth := (Limits.le_iff.1 h).2.2.1
  rw [parse_eq, parse_eq]
  cases Parser.checkNames [] names with
  | error e => exact .refl _
  | ok _ =>
    cases tokens.getLast? with
    | none => exact .refl _
    | some last =>
      cases Parser.checkParens [] tokens with
      | error e => exact .refl _
      | ok _ =>
        dsimp only
        have hread : Parser.CutsOff
            (Parser.parserOf ⟨names, limits.maxTreeDepth, last.ending⟩ limits.maxTreeDepth .ternary)
            (Parser.parserOf ⟨names, limits'.maxTreeDepth, last.ending⟩ limits'.maxTreeDepth
              .ternary) := .ternary hdepth hdepth
        rcases hread tokens with hread | ⟨e, he, hread⟩
        · rw [hread]
          -- what is left over is reported alike, for the limit is no part of that
          exact .refl _
        · rw [hread]
          refine .error ?_
          rw [he]
          trivial

/-- **Compiling a formula** is cut off by the limits on its text and its tree. -/
theorem compile_cutOff (h : limits ≤ limits') (source : String) (names : List String) :
    CutOff (·.kind.isLimit) (Formula.compile source names limits)
      (Formula.compile source names limits') := by
  rw [Formula.compile_eq, Formula.compile_eq]
  rcases tokenize_cutOff h source names with htokens | ⟨e, he, htokens⟩
  · rw [htokens]
    cases tokenize source names limits' with
    | error e => exact .refl _
    | ok tokens => exact (parse_cutOff h tokens names).map _
  · rw [htokens]
    exact .error he

namespace Run

/-- **A run that is another one, or cut off**: from every count of steps it ends with the
same result and the same count, or beyond its budget. -/
def CutsOff (x y : Run α) : Prop :=
  ∀ n, x.run.run n = y.run.run n ∨ ∃ max, (x.run.run n).1 = .error (.budgetExceeded max)

namespace CutsOff

theorem refl (x : Run α) : CutsOff x x := fun _ => .inl rfl

theorem step {budget budget' : Nat} (h : budget ≤ budget') :
    CutsOff (Run.step budget) (Run.step budget') := by
  intro n
  rw [run_step, run_step]
  by_cases hn : budget < n + 1
  · rw [if_pos hn]
    exact .inr ⟨budget, rfl⟩
  · rw [if_neg hn, if_neg (by omega)]
    exact .inl rfl

/-- Runs that go on alike are cut off at most where one of their parts is. -/
theorem bind {x y : Run α} {f g : α → Run β} (h : CutsOff x y) (hf : ∀ a, CutsOff (f a) (g a)) :
    CutsOff (x >>= f) (y >>= g) := by
  intro n
  rw [run_bind, run_bind]
  rcases h n with h | ⟨max, h⟩
  · rw [h]
    rcases y.run.run n with ⟨result, k⟩
    cases result with
    | error e => exact .inl rfl
    | ok a => exact hf a k
  · rcases hx : x.run.run n with ⟨result, k⟩
    obtain rfl : result = .error (.budgetExceeded max) := by rw [hx] at h; exact h
    exact .inr ⟨max, rfl⟩

end CutsOff

end Run

/-- **A tree is evaluated alike within a larger budget**, unless the smaller one is used
up: by induction on the tree, node by node. -/
theorem evalNode_cutOff (slots : List Decimal) {budget budget' : Nat} (h : budget ≤ budget')
    (e : Expr) : Run.CutsOff (evalNode slots budget e) (evalNode slots budget' e) := by
  induction e with
  | literal d | var name slot =>
    rw [evalNode, evalNode]
    exact (Run.CutsOff.step h).bind fun _ => .refl _
  | negate e ih =>
    rw [evalNode, evalNode]
    exact (Run.CutsOff.step h).bind fun _ => ih.bind fun _ => .refl _
  | binary op l r ihl ihr =>
    rw [evalNode, evalNode]
    refine (Run.CutsOff.step h).bind fun _ => ihl.bind fun a => ?_
    cases op.shortcut? a.isTruthy with
    | some b => exact .refl _
    | none => exact ihr.bind fun _ => .refl _
  | conditional c t e ihc iht ihe =>
    rw [evalNode, evalNode]
    refine (Run.CutsOff.step h).bind fun _ => ihc.bind fun a => ?_
    cases a.isTruthy with
    | true => exact iht
    | false => exact ihe

/-- **Evaluating a formula** is cut off by the limit on steps: its variables are resolved
before any step is counted. -/
theorem Formula.evaluate_cutOff (h : limits ≤ limits') (f : Formula) (bindings : Bindings) :
    CutOff (·.kind.isLimit) (f.evaluate bindings limits) (f.evaluate bindings limits') := by
  have hsteps := (Limits.le_iff.1 h).2.2.2
  refine (CutOff.refl (f.names.mapM bindings.resolve)).bind fun slots => ?_
  rcases evalNode_cutOff slots hsteps f.root 0 with heq | ⟨max, hmax⟩
  · exact .inl (congrArg Prod.fst heq)
  · exact .inr ⟨.budgetExceeded max, trivial, hmax⟩

/-- The value of a text, stage by stage: its formula, and the value of that. -/
theorem evaluateText_eq (source : String) (names : List String) (bindings : Bindings)
    (limits : Limits) :
    evaluateText source names bindings limits =
      ((Formula.compile source names limits).mapError .parse >>= fun f =>
        (f.evaluate bindings limits).mapError .eval) := by
  unfold evaluateText
  cases Formula.compile source names limits with
  | error e => rfl
  | ok f =>
    simp only [Except.mapError, bind, Except.bind]
    cases f.evaluate bindings limits <;> rfl

/-- **Limits only ever cut off.** Under larger limits a text compiles to the same formula
and evaluates to the same value, form and all, or fails with the same error, unless the
smaller limits were reported. So a value stands under all larger limits, and so does an
error that reports no limit. -/
theorem evaluateText_cutOff {limits limits' : Limits} (h : limits ≤ limits') (source : String)
    (names : List String) :
    CutOff (·.kind.isLimit) (Formula.compile source names limits)
        (Formula.compile source names limits') ∧
      ∀ bindings : Bindings,
        CutOff (·.kind.isLimit) (evaluateText source names bindings limits)
            (evaluateText source names bindings limits') ∧
          (∀ v, evaluateText source names bindings limits = .ok v →
            evaluateText source names bindings limits' = .ok v) ∧
          ∀ e, evaluateText source names bindings limits = .error e → ¬ e.kind.isLimit →
            evaluateText source names bindings limits' = .error e := by
  have hcompile := compile_cutOff h source names
  refine ⟨hcompile, fun bindings => ?_⟩
  have hvalue : CutOff (·.kind.isLimit) (evaluateText source names bindings limits)
      (evaluateText source names bindings limits') := by
    rw [evaluateText_eq, evaluateText_eq]
    refine (hcompile.mapError FormulaError.parse fun _ he => he).bind fun f => ?_
    exact (f.evaluate_cutOff h bindings).mapError FormulaError.eval fun _ he => he
  exact ⟨hvalue, fun _ => hvalue.eq_ok, fun _ => hvalue.eq_error⟩

/-- A conditional whose limits just suffice: its value, in its form, is that under the
default limits. -/
theorem evaluateText_cutOff_conditional :
    (⟨12, 5, 2, 3⟩ : Limits) ≤ {} ∧
      evaluateText "0 ? 2 : 1.50" [] .empty ⟨12, 5, 2, 3⟩ =
        .ok (.number ⟨false, 150, 2, by decide, by decide⟩) ∧
      evaluateText "0 ? 2 : 1.50" [] .empty {} =
        .ok (.number ⟨false, 150, 2, by decide, by decide⟩) := by
  have hle : (⟨12, 5, 2, 3⟩ : Limits) ≤ {} := Limits.le_iff.2 (by decide)
  have hvalue : evaluateText "0 ? 2 : 1.50" [] .empty ⟨12, 5, 2, 3⟩ =
      .ok (.number ⟨false, 150, 2, by decide, by decide⟩) := by decide +kernel
  have hcut := (evaluateText_cutOff hle "0 ? 2 : 1.50" []).2 .empty
  exact ⟨hle, hvalue, hcut.2.1 _ hvalue⟩

end Formulary

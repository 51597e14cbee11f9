import Formulary.Proofs.Expr.Grammar

/-!
# What the parsers make of tokens

A parser's result is tied to the tokens it was given, by the proof that fewer are
left. Its `outcome` is the same without that tie: the node read and the tokens
left, or the error. One equation for each parser says what it makes of the
outcomes of the parsers inside it; later proofs use these and open no parser.

* `outcome`, `outcome_group` to `outcome_conditional`: the equations.
* `follow`: how a level goes on behind its first operand.
* `parserOf`: the parser of a nonterminal.
-/

namespace Formulary.Parser

variable {scope : Scope} {inner operand : Parser} {ts rest : List Token} {t : Token}
  {node : Node} {e : ParseError}

/-- What a step has read, and what it has left. -/
def Step.parts (s : Step ts) : Node × List Token := (s.node, s.rest)

/-- The node that a parser reads and the tokens that it leaves. -/
def outcome (p : Parser) (ts : List Token) : Except ParseError (Node × List Token) :=
  (p ts).map Step.parts

/-- A parser leaves fewer tokens than it found. -/
theorem length_lt_of_outcome {p : Parser} (h : outcome p ts = .ok (node, rest)) :
    rest.length < ts.length := by
  unfold outcome at h
  cases hp : p ts with
  | error e => simp [hp, Except.map] at h
  | ok s =>
    simp only [hp, Except.map, Step.parts, Except.ok.injEq, Prod.mk.injEq] at h
    obtain ⟨-, rfl⟩ := h
    exact s.shorter

/-- A group is what stands before its closing parenthesis. -/
theorem outcome_group (ts : List Token) :
    outcome (group scope inner) ts =
      match outcome inner ts with
      | .error e => .error e
      | .ok (_, []) => .error (scope.unexpected [])
      | .ok (node, t :: rest) =>
        if t.kind = .closeParen then .ok (node, rest)
        else .error (scope.unexpected (t :: rest)) := by
  unfold outcome group
  cases hi : inner ts with
  | error e => rfl
  | ok s =>
    obtain ⟨node, rest, hs⟩ := s
    cases rest with
    | nil => rfl
    | cons t rest =>
      by_cases hk : t.kind = .closeParen
      · simp only [Except.map, Step.parts, bind, Except.bind, hk, if_true]
        rfl
      · simp only [Except.map, Step.parts, bind, Except.bind, hk, if_false]
        rfl

/-- A primary expression is decided by its first token. -/
theorem outcome_primary_cons (t : Token) (rest : List Token) :
    outcome (primary scope inner) (t :: rest) =
      match t.kind with
      | .number =>
        match literal? t.text.toList with
        | some d => .ok (⟨.literal d, 1⟩, rest)
        | none => .error (scope.unexpected (t :: rest))
      | .identifier =>
        match scope.names.idxOf? t.text with
        | some slot => .ok (⟨.var t.text slot, 1⟩, rest)
        | none => .error (.unknownVariable t.text t.position)
      | .openParen => outcome (group scope inner) rest
      | _ => .error (scope.unexpected (t :: rest)) := by
  unfold outcome primary
  dsimp only
  cases t.kind with
  | number => cases literal? t.text.toList <;> rfl
  | identifier => cases scope.names.idxOf? t.text <;> rfl
  | openParen =>
    cases group scope inner rest <;> rfl
  | _ => rfl

/-- A unary expression is a primary one, behind a minus sign or not. -/
theorem outcome_unary_cons (t : Token) (rest : List Token) :
    outcome (unary scope inner) (t :: rest) =
      if t.kind = .operator .sub then
        match outcome (primary scope inner) rest with
        | .error e => .error e
        | .ok (node, rest) => (scope.node (.negate node.expr) node.depth).map (·, rest)
      else outcome (primary scope inner) (t :: rest) := by
  unfold outcome unary
  dsimp only
  split
  · cases primary scope inner rest with
    | error e => rfl
    | ok s =>
      simp only [Except.map, Step.parts, bind, Except.bind]
      cases scope.node (.negate s.node.expr) s.node.depth <;> rfl
  · rfl

/-- How a level goes on behind a node that it has read, from the tokens left there. -/
def follow (scope : Scope) (level : Precedence) (operand : Parser) (node : Node)
    (rest : List Token) : Except ParseError (Node × List Token) :=
  -- a step has to have begun somewhere, and any token in front of the rest will do
  let start : Step (⟨.colon, "", 0⟩ :: rest) := ⟨node, rest, Nat.lt_succ_self _⟩
  (chainFrom scope level operand start).map Step.parts

/-- Going on depends on what was read and what is left, not on where it began. -/
theorem chainFrom_congr {level : Precedence} {us : List Token} (s : Step ts) (s' : Step us)
    (h : s.parts = s'.parts) :
    (chainFrom scope level operand s).map Step.parts =
      (chainFrom scope level operand s').map Step.parts := by
  obtain ⟨node, rest, hs⟩ := s
  obtain ⟨node', rest', hs'⟩ := s'
  obtain ⟨rfl, rfl⟩ := Prod.mk.inj h
  clear h
  -- by induction on what is left, which is all that the loop looks at
  induction hn : rest.length using Nat.strongRecOn generalizing node rest with
  | _ n ih =>
    subst hn
    rw [chainFrom, chainFrom]
    cases rest with
    | nil => rfl
    | cons t rest =>
      dsimp only
      split
      · rfl
      · rename_i op _
        cases operand rest with
        | error e => rfl
        | ok r =>
          simp only [bind, Except.bind]
          cases scope.node (.binary op node.expr r.node.expr) (max node.depth r.node.depth) with
          | error e => rfl
          | ok joined =>
            have hr : r.rest.length < (t :: rest).length := Nat.lt_succ_of_lt r.shorter
            exact ih _ hr joined r.rest _ _ rfl

/-- A level reads its first operand and goes on behind it. -/
theorem outcome_chain (level : Precedence) (ts : List Token) :
    outcome (chain scope level operand) ts =
      match outcome operand ts with
      | .error e => .error e
      | .ok (node, rest) => follow scope level operand node rest := by
  unfold outcome chain
  cases operand ts with
  | error e => rfl
  | ok s => exact chainFrom_congr s _ rfl

/-- A level ends where none of its operators follows. -/
theorem follow_stop {level : Precedence} (h : ∀ t ∈ rest.head?, operatorAt? level t = none) :
    follow scope level operand node rest = .ok (node, rest) := by
  unfold follow
  dsimp only
  rw [chainFrom]
  cases rest with
  | nil => rfl
  | cons t rest =>
    have ht : operatorAt? level t = none := h t rfl
    simp only [ht]
    rfl

/-- Where an operator of the level follows, its right operand joins the tree. -/
theorem follow_operator {level : Precedence} {op : BinaryOp} (h : operatorAt? level t = some op) :
    follow scope level operand node (t :: rest) =
      match outcome operand rest with
      | .error e => .error e
      | .ok (right, rest') =>
        match scope.node (.binary op node.expr right.expr) (max node.depth right.depth) with
        | .error e => .error e
        | .ok joined => follow scope level operand joined rest' := by
  unfold follow
  dsimp only
  rw [chainFrom]
  simp only [h, outcome]
  cases operand rest with
  | error e => rfl
  | ok r =>
    simp only [bind, Except.bind, Except.map, Step.parts]
    cases scope.node (.binary op node.expr r.node.expr) (max node.depth r.node.depth) with
    | error e => rfl
    | ok joined => exact chainFrom_congr _ _ rfl

/-- The branches of a conditional are what stands before and behind its colon. -/
theorem outcome_branches (condition : Node) (ts : List Token) :
    outcome (branches scope inner condition) ts =
      match outcome inner ts with
      | .error e => .error e
      | .ok (_, []) => .error (scope.unexpected [])
      | .ok (consequent, t :: rest) =>
        if t.kind = .colon then
          match outcome inner rest with
          | .error e => .error e
          | .ok (alternative, rest') =>
            (scope.node (.conditional condition.expr consequent.expr alternative.expr)
              (max condition.depth (max consequent.depth alternative.depth))).map (·, rest')
        else .error (scope.unexpected (t :: rest)) := by
  unfold outcome branches
  cases inner ts with
  | error e => rfl
  | ok s =>
    obtain ⟨consequent, rest, hs⟩ := s
    cases rest with
    | nil => rfl
    | cons t rest =>
      by_cases hk : t.kind = .colon
      · simp only [Except.map, Step.parts, bind, Except.bind, hk, if_true]
        cases inner rest with
        | error e => rfl
        | ok s' =>
          dsimp only
          cases scope.node (.conditional condition.expr consequent.expr s'.node.expr)
            (max condition.depth (max consequent.depth s'.node.depth)) <;> rfl
      · simp only [Except.map, Step.parts, bind, Except.bind, hk, if_false]
        rfl

/-- A whole expression is a disjunction, or the condition before a question mark. -/
theorem outcome_conditional (ts : List Token) :
    outcome (conditional scope inner) ts =
      match outcome (disjunction scope inner) ts with
      | .error e => .error e
      | .ok (condition, []) => .ok (condition, [])
      | .ok (condition, t :: rest) =>
        if t.kind = .question then outcome (branches scope inner condition) rest
        else .ok (condition, t :: rest) := by
  unfold outcome conditional
  cases disjunction scope inner ts with
  | error e => rfl
  | ok s =>
    obtain ⟨condition, rest, hs⟩ := s
    cases rest with
    | nil => rfl
    | cons t rest =>
      by_cases hk : t.kind = .question
      · simp only [Except.map, Step.parts, bind, Except.bind, hk, if_true]
        cases branches scope inner condition rest <;> rfl
      · simp only [Except.map, Step.parts, bind, Except.bind, hk, if_false]
        rfl

/-- The parser of a level. -/
def levelOf (scope : Scope) (inner : Parser) : Precedence → Parser
  | .disjunction => disjunction scope inner
  | .conjunction => conjunction scope inner
  | .equality => equality scope inner
  | .relation => relation scope inner
  | .additive => additive scope inner
  | .multiplicative => multiplicative scope inner

/-- **The parser of a nonterminal**, with room for so many `ternary`s. -/
def parserOf (scope : Scope) (room : Nat) : Nonterminal → Parser
  | .ternary => ternary scope room
  | .level p => levelOf scope (ternary scope room) p
  | .unary => unary scope (ternary scope room)
  | .primary => primary scope (ternary scope room)

theorem parserOf_level (scope : Scope) (room : Nat) (p : Precedence) :
    parserOf scope room (.level p) = chain scope p (parserOf scope room p.operand) := by
  cases p <;> rfl

theorem outcome_ternary_zero (scope : Scope) (ts : List Token) :
    outcome (parserOf scope 0 .ternary) ts = .error (.tooDeep scope.maxDepth) := by
  cases ts <;> rfl

theorem outcome_ternary_succ (scope : Scope) (room : Nat) (ts : List Token) :
    outcome (parserOf scope (room + 1) .ternary) ts =
      outcome (conditional scope (parserOf scope room .ternary)) ts := by
  cases ts <;> rfl

end Formulary.Parser

namespace Formulary

open Formulary.Parser

/-- Reading a formula, stage by stage: its names, its parentheses, and its tokens as
one whole expression. -/
theorem parse_eq (tokens : List Token) (names : List String) (limits : Limits) :
    parse tokens names limits =
      match checkNames [] names with
      | .error e => .error e
      | .ok () =>
        match tokens.getLast? with
        | none => .error .emptyFormula
        | some last =>
          match checkParens [] tokens with
          | .error e => .error e
          | .ok () =>
            let scope : Scope := ⟨names, limits.maxTreeDepth, last.ending⟩
            match outcome (parserOf scope limits.maxTreeDepth .ternary) tokens with
            | .error e => .error e
            | .ok (node, []) => .ok node.expr
            | .ok (_, t :: rest) => .error (scope.unexpected (t :: rest)) := by
  unfold parse
  cases checkNames [] names with
  | error e => rfl
  | ok u =>
    cases tokens.getLast? with
    | none => rfl
    | some last =>
      cases checkParens [] tokens with
      | error e => rfl
      | ok u =>
        simp only [bind, Except.bind, outcome, parserOf]
        cases ternary ⟨names, limits.maxTreeDepth, last.ending⟩ limits.maxTreeDepth tokens with
        | error e => rfl
        | ok s =>
          obtain ⟨node, rest, hs⟩ := s
          cases rest <;> rfl

end Formulary

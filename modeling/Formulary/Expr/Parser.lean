import Formulary.Error
import Formulary.Expr.Basic
import Formulary.Limits

/-!
# Reading tokens as an expression

The grammar has a level for each precedence, from the loosest to the tightest:

    ternary        := disjunction [ '?' ternary ':' ternary ]
    disjunction    := conjunction    { '||' conjunction }
    conjunction    := equality       { '&&' equality }
    equality       := relation       { ('==' | '!=') relation }
    relation       := additive       { ('<' | '<=' | '>' | '>=') additive }
    additive       := multiplicative { ('+' | '-') multiplicative }
    multiplicative := unary          { ('*' | '/') unary }
    unary          := [ '-' ] primary
    primary        := number | name | '(' ternary ')'

Operators of a level associate to the left. Every level is a parser of its own,
built from the parser of the `ternary` inside it; a parser leaves fewer tokens
than it found, which is why the repetitions end.

* `Parser`, `Step`: a parser and what it has read.
* `disjunction` to `primary`: the levels.
* `ternary`: the parser of a whole formula, with room for so many `ternary`s
  inside one another.
* `parse`: the expression of a formula's tokens.
-/

namespace Formulary

namespace Parser

/-- What a formula is read against: the declared names, the limit on depth, and
the position behind the last token. -/
structure Scope where
  names : List String
  maxDepth : Nat
  ending : Nat

/-- An expression with its depth. -/
structure Node where
  expr : Expr
  depth : Nat

/-- What a parser has read from the tokens `ts`, and the tokens that it has left. -/
structure Step (ts : List Token) where
  node : Node
  rest : List Token
  shorter : rest.length < ts.length

end Parser

/-- A parser reads an expression from the start of a list of tokens. -/
abbrev Parser := (ts : List Token) → Except ParseError (Parser.Step ts)

namespace Parser

namespace Scope

/-- The error for tokens that cannot go on like this: it names the first of them,
or the end of the formula. -/
def unexpected (scope : Scope) : List Token → ParseError
  | t :: _ => .unexpectedToken t.describe t.position
  | [] => .unexpectedToken "end of formula" scope.ending

/-- A node above others of that depth, if the tree does not become too deep. -/
def node (scope : Scope) (expr : Expr) (below : Nat) : Except ParseError Node :=
  if scope.maxDepth < below + 1 then .error (.tooDeep scope.maxDepth) else .ok ⟨expr, below + 1⟩

end Scope

/-- A group in parentheses, behind the opening one. -/
def group (scope : Scope) (inner : Parser) : Parser := fun ts => do
  let s ← inner ts
  match h : s.rest with
  | t :: rest =>
    if t.kind = .closeParen then
      return ⟨s.node, rest, by have := s.shorter; simp only [h, List.length_cons] at this; omega⟩
    else throw (scope.unexpected s.rest)
  | [] => throw (scope.unexpected [])

/-- A number, a name or a group in parentheses. -/
def primary (scope : Scope) (inner : Parser) : Parser
  | [] => .error (scope.unexpected [])
  | t :: rest =>
    match t.kind with
    | .number =>
      match literal? t.text.toList with
      | some d => .ok ⟨⟨.literal d, 1⟩, rest, by simp⟩
      | none => .error (scope.unexpected (t :: rest))
    | .identifier =>
      match scope.names.idxOf? t.text with
      | some slot => .ok ⟨⟨.var t.text slot, 1⟩, rest, by simp⟩
      | none => .error (.unknownVariable t.text t.position)
    | .openParen =>
      match group scope inner rest with
      | .ok s => .ok ⟨s.node, s.rest, Nat.lt_succ_of_lt s.shorter⟩
      | .error e => .error e
    | _ => .error (scope.unexpected (t :: rest))

/-- A primary expression, negated or not. -/
def unary (scope : Scope) (inner : Parser) : Parser
  | [] => primary scope inner []
  | t :: rest =>
    if t.kind = .operator .sub then do
      let s ← primary scope inner rest
      let node ← scope.node (.negate s.node.expr) s.node.depth
      return ⟨node, s.rest, Nat.lt_succ_of_lt s.shorter⟩
    else primary scope inner (t :: rest)

/-- The operator of a level that a token is, if it is one. -/
def operatorAt? (level : Precedence) (t : Token) : Option BinaryOp :=
  match t.kind with
  | .operator op => if op.precedence = level then some op else none
  | _ => none

/-- Goes on from what has been read: as long as an operator of the level follows,
it and its right operand join the tree, from the left. -/
def chainFrom (scope : Scope) (level : Precedence) (operand : Parser) {ts : List Token}
    (s : Step ts) : Except ParseError (Step ts) :=
  match h : s.rest with
  | [] => .ok s
  | t :: rest =>
    match operatorAt? level t with
    | none => .ok s
    | some op => do
      let r ← operand rest
      let node ← scope.node (.binary op s.node.expr r.node.expr) (max s.node.depth r.node.depth)
      chainFrom scope level operand
        ⟨node, r.rest, by
          have := s.shorter
          have := r.shorter
          simp only [h, List.length_cons] at *
          omega⟩
termination_by s.rest.length
decreasing_by
  have := r.shorter
  simp only [h, List.length_cons]
  omega

/-- Operands joined from the left by operators of one level. -/
def chain (scope : Scope) (level : Precedence) (operand : Parser) : Parser := fun ts => do
  chainFrom scope level operand (← operand ts)

/-- Products and quotients. -/
def multiplicative (scope : Scope) (inner : Parser) : Parser :=
  chain scope .multiplicative (unary scope inner)

/-- Sums and differences. -/
def additive (scope : Scope) (inner : Parser) : Parser :=
  chain scope .additive (multiplicative scope inner)

/-- Comparisons by order. -/
def relation (scope : Scope) (inner : Parser) : Parser :=
  chain scope .relation (additive scope inner)

/-- Comparisons for equality. -/
def equality (scope : Scope) (inner : Parser) : Parser :=
  chain scope .equality (relation scope inner)

/-- Conjunctions. -/
def conjunction (scope : Scope) (inner : Parser) : Parser :=
  chain scope .conjunction (equality scope inner)

/-- Disjunctions. -/
def disjunction (scope : Scope) (inner : Parser) : Parser :=
  chain scope .disjunction (conjunction scope inner)

/-- The two branches of a conditional, behind the question mark. -/
def branches (scope : Scope) (inner : Parser) (condition : Node) : Parser := fun ts => do
  let consequent ← inner ts
  match h : consequent.rest with
  | [] => throw (scope.unexpected [])
  | t :: rest =>
    if t.kind = .colon then do
      let alternative ← inner rest
      let node ← scope.node
        (.conditional condition.expr consequent.node.expr alternative.node.expr)
        (max condition.depth (max consequent.node.depth alternative.node.depth))
      return ⟨node, alternative.rest, by
        have := consequent.shorter
        have := alternative.shorter
        simp only [h, List.length_cons] at *
        omega⟩
    else throw (scope.unexpected (t :: rest))

/-- A disjunction, or a conditional whose condition it is. -/
def conditional (scope : Scope) (inner : Parser) : Parser := fun ts => do
  let condition ← disjunction scope inner ts
  match h : condition.rest with
  | [] => return condition
  | t :: rest =>
    if t.kind = .question then do
      let s ← branches scope inner condition.node rest
      return ⟨s.node, s.rest, by
        have := condition.shorter
        have := s.shorter
        simp only [h, List.length_cons] at *
        omega⟩
    else return condition

/-- A conditional that may have `room - 1` further ones around each other inside:
groups and branches nest no deeper than that. -/
def ternary (scope : Scope) : (room : Nat) → Parser
  | 0, _ => .error (.tooDeep scope.maxDepth)
  | room + 1, ts => conditional scope (ternary scope room) ts

/-- Refuses a declared name that is no identifier, or that came before. -/
def checkNames (seen : List String) : List String → Except ParseError Unit
  | [] => .ok ()
  | name :: names =>
    if !isIdentifier name then .error (.invalidVariableName name)
    else if seen.contains name then .error (.duplicateVariable name)
    else checkNames (name :: seen) names

/-- Refuses parentheses that are empty or have no partner, where `opened` holds
the positions of those that wait for theirs, the innermost first. -/
def checkParens (opened : List Nat) : List Token → Except ParseError Unit
  | [] =>
    match opened with
    | [] => .ok ()
    | position :: _ => .error (.unbalancedParens position)
  | t :: rest =>
    match t.kind, opened with
    | .openParen, _ =>
      if rest.head?.any (·.kind = .closeParen) then .error (.emptyGroup t.position)
      else checkParens (t.position :: opened) rest
    | .closeParen, [] => .error (.unbalancedParens t.position)
    | .closeParen, _ :: outer => checkParens outer rest
    | _, _ => checkParens opened rest

end Parser

/-- The expression of a formula's tokens over the declared names. Names are checked
before the formula, and parentheses before the rest of the grammar. -/
def parse (tokens : List Token) (names : List String) (limits : Limits) :
    Except ParseError Expr := do
  Parser.checkNames [] names
  match tokens.getLast? with
  | none => throw .emptyFormula
  | some last =>
    Parser.checkParens [] tokens
    -- every group closes now, but what is inside may still not be an expression
    let scope : Parser.Scope := ⟨names, limits.maxTreeDepth, last.ending⟩
    let s ← Parser.ternary scope limits.maxTreeDepth tokens
    match s.rest with
    | [] => return s.node.expr
    | rest => throw (scope.unexpected rest)

end Formulary

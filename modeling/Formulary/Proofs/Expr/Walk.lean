import Formulary.Proofs.Expr.Outcome

/-!
# A descent that keeps books

The parsers are functions of the tokens that are left and of the room for further `ternary`s. A
descent that works in place keeps books instead: the index of the next token, and a count of the
`ternary`s that it has entered and not left. Here is that descent, call by call, with all the
spots that it comes to. The calls call one another with nothing in their definition that ends
them.

* `Spot`, `Course`, `Descent`: the books, all that they have been, and a computation on them.
* `Scope.descend`: the calls of the descent.
* `Returns`: that a computation does end, and with what; a rule for each way to build one.
-/

namespace Formulary

open Formulary.Parser

/-! ### The descent -/

/-- Where a descent is: the index of the next token, the `ternary`s that it has entered and not
left, and the calls of `ternary` that have not returned. -/
structure Spot where
  index : Nat
  nesting : Nat
  active : Nat

/-- The course of a descent: where it is, and where it has been, the latest first. -/
structure Course where
  here : Spot
  past : List Spot

/-- All the spots that a course has come to. -/
def Course.spots (c : Course) : List Spot := c.here :: c.past

/-- The course that has come nowhere yet: at the first token, with nothing entered. -/
def Course.initial : Course := ⟨⟨0, 0, 0⟩, []⟩

/-- The course that goes on to another spot. -/
def Course.move (c : Course) (f : Spot → Spot) : Course := ⟨f c.here, c.here :: c.past⟩

/-- A computation of the descent. It may not return at all; where it fails, it has come to some
spot as well. -/
abbrev Descent := ExceptT ParseError (StateT Course Option)

/-- What a computation makes of a course, if it returns. -/
def Descent.run {α : Type} (d : Descent α) (c : Course) : Option (Except ParseError α × Course) :=
  (ExceptT.run d).run c

namespace Spot

/-- Behind the next token. -/
def next (s : Spot) : Spot := { s with index := s.index + 1 }

/-- A call of `ternary` begins. -/
def call (s : Spot) : Spot := { s with active := s.active + 1 }

/-- A call of `ternary` has returned. -/
def back (s : Spot) : Spot := { s with active := s.active - 1 }

/-- A `ternary` is entered. -/
def enter (s : Spot) : Spot := { s with nesting := s.nesting + 1 }

/-- A `ternary` is left. -/
def leave (s : Spot) : Spot := { s with nesting := s.nesting - 1 }

end Spot

namespace Descent

variable (scope : Scope) (tokens : List Token)

/-- Goes on to another spot. -/
def move (f : Spot → Spot) : Descent Unit := modify fun c => c.move f

/-- The next token, if there is one. -/
def current : Descent (Option Token) := do return tokens[(← get).here.index]?

/-- Goes behind the next token, if it is of that kind. -/
def eat (kind : Token.Kind) : Descent Bool := do
  if (← current tokens).any (·.kind = kind) then
    move .next
    return true
  else return false

/-- Goes behind the next token, if there is one. -/
def consume : Descent Unit := do
  if (← current tokens).isSome then move .next

/-- Enters a `ternary`, if the limit on depth allows one more. -/
def enter : Descent Unit := do
  move .enter
  if scope.maxDepth < (← get).here.nesting then throw (.tooDeep scope.maxDepth)

/-- Fails at the next token, or at the end. -/
def unexpected : Descent Node := do
  throw (scope.unexpected (tokens.drop (← get).here.index))

/-- A node above others of that depth, if the tree does not become too deep. -/
def node (expr : Expr) (below : Nat) : Descent Node := ExceptT.mk (pure (scope.node expr below))

end Descent

/-- What is called in a descent: a nonterminal, or a group at its opening parenthesis. -/
inductive Call
  | phrase (N : Nonterminal)
  | group

mutual

/-- **The calls of the descent.** -/
def Parser.Scope.descend (scope : Scope) (tokens : List Token) (call : Call) : Descent Node :=
  match call with
  | .phrase .ternary => do
    Descent.move .call
    Descent.enter scope
    let condition ← scope |>.descend tokens (.phrase (.level .disjunction))
    if ← Descent.eat tokens .question then
      scope |>.branches tokens condition
    else
      Descent.move .leave
      Descent.move .back
      return condition
  | .phrase (.level p) => do
    let left ← scope |>.descend tokens (.phrase p.operand)
    scope |>.goOn tokens p left
  | .phrase .unary => do
    if ← Descent.eat tokens (.operator .sub) then
      let operand ← scope |>.descend tokens (.phrase .primary)
      Descent.node scope (.negate operand.expr) operand.depth
    else scope |>.descend tokens (.phrase .primary)
  | .phrase .primary => do
    match ← Descent.current tokens with
    | none => Descent.unexpected scope tokens
    | some t =>
      match t.kind with
      | .number =>
        Descent.consume tokens
        match literal? t.text.toList with
        | some d => return ⟨.literal d, 1⟩
        | none => throw (.unexpectedToken t.describe t.position)
      | .identifier =>
        Descent.consume tokens
        match scope.names.idxOf? t.text with
        | some slot => return ⟨.var t.text slot, 1⟩
        | none => throw (.unknownVariable t.text t.position)
      | .openParen => scope |>.descend tokens .group
      | _ => Descent.unexpected scope tokens
  | .group => do
    Descent.consume tokens
    let inner ← scope |>.descend tokens (.phrase .ternary)
    if ← Descent.eat tokens .closeParen then return inner
    else Descent.unexpected scope tokens
partial_fixpoint

/-- Goes on with a conditional behind its question mark, and leaves its `ternary`. -/
def Parser.Scope.branches (scope : Scope) (tokens : List Token) (condition : Node) :
    Descent Node := do
  let consequent ← scope |>.descend tokens (.phrase .ternary)
  if ← Descent.eat tokens .colon then
    let alternative ← scope |>.descend tokens (.phrase .ternary)
    let node ← Descent.node scope
      (.conditional condition.expr consequent.expr alternative.expr)
      (max condition.depth (max consequent.depth alternative.depth))
    Descent.move .leave
    Descent.move .back
    return node
  else Descent.unexpected scope tokens
partial_fixpoint

/-- Goes on with a level behind its first operand. -/
def Parser.Scope.goOn (scope : Scope) (tokens : List Token) (p : Precedence) (left : Node) :
    Descent Node := do
  match (← Descent.current tokens).bind (operatorAt? p) with
  | none => return left
  | some op =>
    Descent.consume tokens
    let right ← scope |>.descend tokens (.phrase p.operand)
    let joined ← Descent.node scope (.binary op left.expr right.expr) (max left.depth right.depth)
    scope |>.goOn tokens p joined
partial_fixpoint

end

/-! ### What a computation returns -/

/-- **That a computation returns** from a course, with a result and a course such that `post`. -/
def Returns {α : Type} (d : Descent α) (c : Course) (post : Except ParseError α → Course → Prop) :
    Prop :=
  match d.run c with
  | some (result, c') => post result c'
  | none => False

variable {scope : Scope} {tokens ts : List Token} {t : Token} {α β : Type} {c : Course}
  {d : Descent α}

theorem of_drop_eq_cons {i : Nat} (h : tokens.drop i = t :: ts) :
    tokens[i]? = some t ∧ tokens.drop (i + 1) = ts ∧ i + 1 ≤ tokens.length := by
  have hlen := congrArg List.length h
  rw [List.length_drop, List.length_cons] at hlen
  refine ⟨?_, ?_, by omega⟩
  · rw [← List.head?_drop, h, List.head?_cons]
  · rw [← List.tail_drop, h, List.tail_cons]

theorem of_drop_eq_nil {i : Nat} (h : tokens.drop i = []) : tokens[i]? = none := by
  rw [← List.head?_drop, h, List.head?_nil]

namespace Returns

theorem exists_run {post : Except ParseError α → Course → Prop} (h : Returns d c post) :
    ∃ result c', d.run c = some (result, c') ∧ post result c' := by
  unfold Returns at h
  split at h
  · rename_i result c' hrun
    exact ⟨result, c', hrun, h⟩
  · exact h.elim

theorem mono {post post' : Except ParseError α → Course → Prop} (h : Returns d c post)
    (himp : ∀ result c', post result c' → post' result c') : Returns d c post' := by
  obtain ⟨result, c', hrun, hpost⟩ := h.exists_run
  rw [Returns, hrun]
  exact himp result c' hpost

variable {f : α → Descent β} {post : Except ParseError β → Course → Prop}

/-- A computation goes on with the value of the one before it, and fails with its error. -/
theorem bind {mid : Except ParseError α → Course → Prop} (h : Returns d c mid)
    (hok : ∀ a c', mid (.ok a) c' → Returns (f a) c' post)
    (herror : ∀ e c', mid (.error e) c' → post (.error e) c') : Returns (d >>= f) c post := by
  obtain ⟨result, c', hrun, hmid⟩ := h.exists_run
  have hbind : (d >>= f).run c =
      (d.run c).bind fun
        | (.ok a, c') => (f a).run c'
        | (.error e, c') => some (.error e, c') := by
    rw [Descent.run, ExceptT.run_bind, StateT.run_bind]
    refine Option.bind_congr fun x _ => ?_
    rcases x with ⟨_ | _, _⟩ <;> rfl
  rw [Returns, hbind, hrun]
  cases result with
  | ok a => exact hok a c' hmid
  | error e => exact herror e c' hmid

/-- A computation goes on from where a value has been returned. -/
theorem bind_ok {a : α} {c' : Course} (hd : d.run c = some (.ok a, c'))
    (h : Returns (f a) c' post) : Returns (d >>= f) c post := by
  have hd' : Returns d c fun result c'' => result = .ok a ∧ c'' = c' := by
    rw [Returns, hd]
    exact ⟨rfl, rfl⟩
  refine hd'.bind ?_ nofun
  rintro _ _ ⟨⟨⟩, rfl⟩
  exact h

theorem move (g : Spot → Spot) {f : Unit → Descent β} (h : Returns (f ()) (c.move g) post) :
    Returns (Descent.move g >>= f) c post := h

/-- A computation looks at the next token, or finds the end. -/
theorem current {f : Option Token → Descent β}
    (hsome : ∀ t ts, tokens.drop c.here.index = t :: ts → Returns (f (some t)) c post)
    (hnone : tokens.drop c.here.index = [] → Returns (f none) c post) :
    Returns (Descent.current tokens >>= f) c post := by
  show Returns (f tokens[c.here.index]?) c post
  cases hrest : tokens.drop c.here.index with
  | nil =>
    rw [of_drop_eq_nil hrest]
    exact hnone hrest
  | cons t ts =>
    rw [(of_drop_eq_cons hrest).1]
    exact hsome t ts hrest

/-- Where there is a token, it is passed. -/
theorem consume {f : Unit → Descent β} (ht : tokens.drop c.here.index = t :: ts)
    (h : Returns (f ()) (c.move .next) post) : Returns (Descent.consume tokens >>= f) c post := by
  have hrun : (Descent.consume tokens).run c = some (.ok (), c.move .next) := by
    have hif : (Descent.consume tokens).run c =
        Descent.run (if tokens[c.here.index]?.isSome then Descent.move .next else pure ()) c := rfl
    rw [hif, (of_drop_eq_cons ht).1]
    rfl
  exact bind_ok hrun h

/-- A token of the kind is passed; any other is left, and so is the end. -/
theorem eat {kind : Token.Kind} {f : Bool → Descent β}
    (hyes : ∀ t ts, tokens.drop c.here.index = t :: ts → t.kind = kind →
      Returns (f true) (c.move .next) post)
    (hno : ∀ t ts, tokens.drop c.here.index = t :: ts → t.kind ≠ kind → Returns (f false) c post)
    (hend : tokens.drop c.here.index = [] → Returns (f false) c post) :
    Returns (Descent.eat tokens kind >>= f) c post := by
  have hif : (Descent.eat tokens kind).run c =
      Descent.run (if tokens[c.here.index]?.any (·.kind = kind) then
        Descent.move .next >>= fun _ => pure true else pure false) c := rfl
  cases hrest : tokens.drop c.here.index with
  | nil =>
    rw [of_drop_eq_nil hrest] at hif
    exact bind_ok hif (hend hrest)
  | cons t ts =>
    rw [(of_drop_eq_cons hrest).1, Option.any_some] at hif
    by_cases hk : t.kind = kind
    · rw [if_pos (by simpa using hk)] at hif
      exact bind_ok hif (hyes t ts hrest hk)
    · rw [if_neg (by simpa using hk)] at hif
      exact bind_ok hif (hno t ts hrest hk)

/-- A `ternary` is entered, and is found too deep or not. -/
theorem enter {f : Unit → Descent β}
    (hdeep : scope.maxDepth < c.here.nesting + 1 →
      post (.error (.tooDeep scope.maxDepth)) (c.move .enter))
    (hfits : c.here.nesting + 1 ≤ scope.maxDepth → Returns (f ()) (c.move .enter) post) :
    Returns (Descent.enter scope >>= f) c post := by
  have hif : (Descent.enter scope).run c =
      Descent.run (if scope.maxDepth < c.here.nesting + 1 then throw (.tooDeep scope.maxDepth)
        else pure ()) (c.move .enter) := rfl
  by_cases h : scope.maxDepth < c.here.nesting + 1
  · rw [if_pos h] at hif
    have herror : Returns (Descent.enter scope) c fun result c' =>
        result = .error (.tooDeep scope.maxDepth) ∧ c' = c.move .enter := by
      rw [Returns, hif]
      exact ⟨rfl, rfl⟩
    refine herror.bind nofun ?_
    rintro _ _ ⟨⟨⟩, rfl⟩
    exact hdeep h
  · rw [if_neg h] at hif
    exact bind_ok hif (hfits (Nat.le_of_not_lt h))

/-- A node is made, or is found too deep. -/
theorem node {expr : Expr} {below : Nat} {f : Node → Descent β}
    (hok : ∀ node, scope.node expr below = .ok node → Returns (f node) c post)
    (herror : ∀ e, scope.node expr below = .error e → post (.error e) c) :
    Returns (Descent.node scope expr below >>= f) c post := by
  have hmade : Returns (Descent.node scope expr below) c fun result c' =>
      scope.node expr below = result ∧ c' = c := ⟨rfl, rfl⟩
  refine hmade.bind ?_ ?_
  · rintro node _ ⟨hnode, rfl⟩
    exact hok node hnode
  · rintro e _ ⟨hnode, rfl⟩
    exact herror e hnode

end Returns

end Formulary

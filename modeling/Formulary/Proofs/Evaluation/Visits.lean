import Formulary.Evaluation

/-!
# What an evaluation does not visit

An evaluation visits a node when it looks at it: the operands that do not matter are not
visited, nor is anything behind the error that ends a run. What is not visited has no part in
the run. The trees that stand there, and the slots that only they read, may be any others.

* `Expr.at?`, `Expr.replace`: the tree at the end of a path, and a tree with others at the ends
  of some paths; `Expr.at?_replace`: they are found there.
* `traceNode`: the evaluation, with a list of the paths to the nodes that it visits.
* `traceNode_records` (every tree): it is the evaluation, step by step, and visits a node for
  each of its steps.
* `traceNode_blind` (every tree): it is the same where nothing that it visits has changed.
* `runExpr_unvisited`: **what a run does not visit influences neither its result nor its
  steps.**
-/

namespace Formulary

/-- The way from the root of a tree to a node, by the operand to take at each node. -/
abbrev Path := List Nat

namespace Expr

/-- The operands of a node, from left to right. -/
def children : Expr → List Expr
  | literal _ => []
  | var _ _ => []
  | negate e => [e]
  | binary _ l r => [l, r]
  | conditional c t e => [c, t, e]

/-- The tree at the end of a path. -/
def at? : Expr → Path → Option Expr
  | e, [] => some e
  | e, i :: path => e.children[i]?.bind (·.at? path)

/-- A tree at the end of `path`, with the trees of `new` at the ends of the paths that have
one. Of two such paths the one that comes first on the way counts. -/
def replaceBelow (new : Path → Option Expr) (path : Path) (e : Expr) : Expr :=
  match new path with
  | some e' => e'
  | none =>
    match e with
    | literal d => literal d
    | var name slot => var name slot
    | negate e => negate (e.replaceBelow new (path ++ [0]))
    | binary op l r =>
      binary op (l.replaceBelow new (path ++ [0])) (r.replaceBelow new (path ++ [1]))
    | conditional c t e =>
      conditional (c.replaceBelow new (path ++ [0])) (t.replaceBelow new (path ++ [1]))
        (e.replaceBelow new (path ++ [2]))

/-- **The tree with others in the places of some of its subtrees**: with the trees of `new` at
the ends of the paths that have one. -/
def replace (new : Path → Option Expr) (e : Expr) : Expr := e.replaceBelow new []

variable {new : Path → Option Expr} {path p : Path} {e e' : Expr} {i : Nat}

theorem at?_append (e : Expr) (p q : Path) : e.at? (p ++ q) = (e.at? p).bind (·.at? q) := by
  induction p generalizing e with
  | nil => rfl
  | cons i p ih =>
    rw [List.cons_append, at?, at?]
    cases e.children[i]? with
    | none => rfl
    | some c => exact ih c

/-- Where a node is kept, so are its operands, but for what is replaced in them. -/
theorem children_replaceBelow (h : new path = none) (i : Nat) :
    (e.replaceBelow new path).children[i]? =
      e.children[i]?.map (·.replaceBelow new (path ++ [i])) := by
  cases e <;> rcases i with _ | _ | _ | i <;> simp [replaceBelow, h, children]

theorem at?_replaceBelow (hin : (e.at? p).isSome) (hnew : new (path ++ p) = some e')
    (hway : ∀ q, q <+: p → q ≠ p → new (path ++ q) = none) :
    (e.replaceBelow new path).at? p = some e' := by
  induction p generalizing e path with
  | nil =>
    rw [List.append_nil] at hnew
    rw [at?, replaceBelow.eq_def, hnew]
  | cons i p ih =>
    have hkept : new path = none := by
      simpa using hway [] List.nil_prefix (List.cons_ne_nil i p).symm
    rw [at?] at hin ⊢
    rw [children_replaceBelow hkept]
    cases hc : e.children[i]? with
    | none => simp [hc] at hin
    | some c =>
      rw [hc] at hin
      refine ih hin (by simpa using hnew) fun q hq hne => ?_
      have hstep : i :: q <+: i :: p := List.cons_prefix_cons.2 ⟨rfl, hq⟩
      simpa using hway (i :: q) hstep fun heq => hne (List.cons.inj heq).2

/-- **A tree is where it is put**, if no other one is put on the way to it. -/
theorem at?_replace (hin : (e.at? p).isSome) (hnew : new p = some e')
    (hway : ∀ q, q <+: p → q ≠ p → new q = none) : (e.replace new).at? p = some e' :=
  at?_replaceBelow hin hnew hway

end Expr

/-! ### A run with the nodes that it visits -/

/-- What a run has done so far: the steps that it has counted, and the paths to the nodes that
it has looked at. -/
structure Progress where
  steps : Nat
  visited : List Path

/-- A computation that counts steps and lists the nodes that it visits. -/
abbrev Traced (α : Type) := ExceptT EvalError (StateM Progress) α

namespace Traced

/-- Counts a step for the node at the end of the path. The node is visited unless that step is
beyond the budget. -/
def visit (budget : Nat) (path : Path) : Traced Unit := do
  modify fun s => { s with steps := s.steps + 1 }
  if budget < (← get).steps then throw (.budgetExceeded budget)
  else modify fun s => { s with visited := s.visited ++ [path] }

/-- A result, in no steps. -/
def ofExcept {α : Type} (result : Except EvalError α) : Traced α := ExceptT.mk (pure result)

end Traced

/-- **The evaluation of a tree at the end of `path`, with the nodes that it visits.** -/
def traceNode (slots : List Decimal) (budget : Nat) (path : Path) (e : Expr) : Traced Value := do
  Traced.visit budget path
  match e with
  | .literal d => return .number d
  | .var name slot =>
    match slots[slot]? with
    | some d => return .number d
    | none => throw (.missingBinding name)
  | .negate e => return .number (← traceNode slots budget (path ++ [0]) e).asNumber.neg
  | .binary op l r =>
    let a ← traceNode slots budget (path ++ [0]) l
    match op.shortcut? a.isTruthy with
    | some b => return .boolean b
    | none => Traced.ofExcept (op.apply a (← traceNode slots budget (path ++ [1]) r))
  | .conditional c t e =>
    if (← traceNode slots budget (path ++ [0]) c).isTruthy then
      traceNode slots budget (path ++ [1]) t
    else traceNode slots budget (path ++ [2]) e

/-- The result of a tree, and what its evaluation has done for it. -/
def traceExpr (e : Expr) (slots : List Decimal) (limits : Limits) :
    Except EvalError Value × Progress :=
  (traceNode slots limits.maxEvalSteps [] e).run.run ⟨0, []⟩

variable {α β : Type} {budget : Nat} {path : Path} {s : Progress} {slots slots' : List Decimal}

namespace Traced

theorem run_bind (x : Traced α) (f : α → Traced β) (s : Progress) :
    (x >>= f).run.run s =
      match x.run.run s with
      | (.ok a, s') => (f a).run.run s'
      | (.error e, s') => (.error e, s') := by
  rw [ExceptT.run_bind, StateT.run_bind]
  rcases x.run.run s with ⟨result, s'⟩
  cases result <;> rfl

theorem run_visit (budget : Nat) (path : Path) (s : Progress) :
    (visit budget path).run.run s =
      if budget < s.steps + 1 then (.error (.budgetExceeded budget), ⟨s.steps + 1, s.visited⟩)
      else (.ok (), ⟨s.steps + 1, s.visited ++ [path]⟩) := by
  have hvisit : (visit budget path).run.run s =
      (if budget < s.steps + 1 then throw (.budgetExceeded budget)
        else modify fun s => { s with visited := s.visited ++ [path] } : Traced Unit).run.run
          ⟨s.steps + 1, s.visited⟩ := rfl
  rw [hvisit]
  split <;> rfl

/-- **A run that records what another one does**: it has the same result in the same steps,
forgets no node that was visited, and visits a node for each step within the budget. -/
structure Records (budget : Nat) (x : Traced α) (y : Run α) : Prop where
  run_eq : ∀ s, y.run.run s.steps = ((x.run.run s).1, (x.run.run s).2.steps)
  grows : ∀ s, s.visited ⊆ (x.run.run s).2.visited
  count : ∀ s, s.visited.length = min s.steps budget →
    (x.run.run s).2.visited.length = min (x.run.run s).2.steps budget

namespace Records

variable {x : Traced α} {y : Run α} {f : α → Traced β} {g : α → Run β}

theorem ofExcept (r : Except EvalError α) :
    Records budget (Traced.ofExcept r) (Run.ofExcept r) where
  run_eq _ := rfl
  grows _ := List.Subset.refl _
  count _ := id

theorem pure (a : α) : Records budget (Pure.pure a) (Pure.pure a) := ofExcept (.ok a)

theorem bind (h : Records budget x y) (hf : ∀ a, Records budget (f a) (g a)) :
    Records budget (x >>= f) (y >>= g) := by
  refine ⟨fun s => ?_, fun s => ?_, fun s hs => ?_⟩
  · have hrun := h.run_eq s
    rw [Run.run_bind, run_bind, hrun]
    rcases x.run.run s with ⟨_ | a, s'⟩
    · rfl
    · exact (hf a).run_eq s'
  · have hgrows := h.grows s
    rw [run_bind]
    rcases hx : x.run.run s with ⟨_ | a, s'⟩ <;> rw [hx] at hgrows
    · exact hgrows
    · exact List.Subset.trans hgrows ((hf a).grows s')
  · have hcount := h.count s hs
    rw [run_bind]
    rcases hx : x.run.run s with ⟨_ | a, s'⟩ <;> rw [hx] at hcount
    · exact hcount
    · exact (hf a).count s' hcount

theorem visit (budget : Nat) (path : Path) :
    Records budget (Traced.visit budget path) (Run.step budget) := by
  refine ⟨fun s => ?_, fun s => ?_, fun s hs => ?_⟩
  · rw [Run.run_step, run_visit]
    split <;> rfl
  · rw [run_visit]
    split
    · exact List.Subset.refl _
    · exact List.subset_append_left _ _
  · rw [run_visit]
    split
    · dsimp only
      omega
    · simp only [List.length_append, List.length_singleton]
      omega

end Records

/-- A node is visited where a run starts that may still count a step. -/
theorem mem_of_visit {f : Unit → Traced α} (hf : ∀ s, s.visited ⊆ ((f ()).run.run s).2.visited)
    (hs : s.steps < budget) :
    path ∈ ((Traced.visit budget path >>= f).run.run s).2.visited := by
  have hroom : ¬ budget < s.steps + 1 := by omega
  rw [run_bind, run_visit, if_neg hroom]
  exact hf _ (by simp)

end Traced

open Traced

/-- **The evaluation with its visits is the evaluation**, with a visit for each step, and visits
first where it starts: by induction on the tree. -/
theorem traceNode_records (slots : List Decimal) (budget : Nat) (path : Path) (e : Expr) :
    Records budget (traceNode slots budget path e) (evalNode slots budget e) ∧
      ∀ s : Progress, s.steps < budget →
        path ∈ ((traceNode slots budget path e).run.run s).2.visited := by
  -- what comes behind the visit of the node itself
  have hnode (path : Path) {f : Unit → Traced Value} {g : Unit → Run Value}
      (h : Records budget (f ()) (g ())) :
      Records budget (Traced.visit budget path >>= f) (Run.step budget >>= g) ∧
        ∀ s : Progress, s.steps < budget →
          path ∈ ((Traced.visit budget path >>= f).run.run s).2.visited :=
    ⟨(Records.visit budget path).bind fun _ => h, fun _ hs => mem_of_visit h.grows hs⟩
  induction e generalizing path with
  | literal d =>
    rw [traceNode, evalNode]
    exact hnode path (.pure _)
  | var name slot =>
    rw [traceNode, evalNode]
    refine hnode path ?_
    cases slots[slot]? with
    | some d => exact .pure _
    | none => exact .ofExcept _
  | negate e ih =>
    rw [traceNode, evalNode]
    exact hnode path ((ih (path ++ [0])).1.bind fun _ => .pure _)
  | binary op l r ihl ihr =>
    rw [traceNode, evalNode]
    refine hnode path ((ihl (path ++ [0])).1.bind fun a => ?_)
    cases op.shortcut? a.isTruthy with
    | some b => exact .pure _
    | none => exact (ihr (path ++ [1])).1.bind fun b => .ofExcept _
  | conditional c t e ihc iht ihe =>
    rw [traceNode, evalNode]
    refine hnode path ((ihc (path ++ [0])).1.bind fun a => ?_)
    cases a.isTruthy with
    | true => exact (iht (path ++ [1])).1
    | false => exact (ihe (path ++ [2])).1

/-- A node beyond the budget ends the run, whatever it is. -/
theorem traceNode_of_le (slots : List Decimal) (path : Path) (e : Expr)
    (hs : budget ≤ s.steps) :
    (traceNode slots budget path e).run.run s =
      (.error (.budgetExceeded budget), ⟨s.steps + 1, s.visited⟩) := by
  have hbeyond : budget < s.steps + 1 := by omega
  cases e <;> rw [traceNode, run_bind, run_visit, if_pos hbeyond]

/-! ### The same run where nothing that it visits has changed -/

/-- A place that is the same after the trees of `new` have been put into `root` and the slots
have got other values: no tree has been put there, and the slot that is read there is the
same. -/
structure Unchanged (root : Expr) (new : Path → Option Expr) (slots slots' : List Decimal)
    (p : Path) : Prop where
  kept : new p = none
  read : ∀ name slot, root.at? p = some (.var name slot) → slots'[slot]? = slots[slot]?

namespace Traced

variable {ok : Path → Prop}

/-- **Runs that differ only where they do not look**: `y` does the same as `x` if `x` visits only
places that are `ok`, and `x` forgets no node that was visited before it. -/
structure Blind (ok : Path → Prop) (x y : Traced α) : Prop where
  grows : ∀ s, s.visited ⊆ (x.run.run s).2.visited
  run_eq : ∀ s, (∀ p ∈ (x.run.run s).2.visited, ok p) → y.run.run s = x.run.run s

namespace Blind

variable {x y : Traced α} {f g : α → Traced β}

theorem ofExcept (r : Except EvalError α) :
    Blind ok (Traced.ofExcept r) (Traced.ofExcept r) where
  grows _ := List.Subset.refl _
  run_eq _ _ := rfl

theorem pure (a : α) : Blind ok (Pure.pure a) (Pure.pure a) := ofExcept (.ok a)

theorem visit (budget : Nat) (path : Path) :
    Blind ok (Traced.visit budget path) (Traced.visit budget path) where
  grows := (Records.visit budget path).grows
  run_eq _ _ := rfl

/-- What the first part visits is visited by the whole, so it does not matter where the run
ends. -/
theorem bind (h : Blind ok x y) (hf : ∀ a, Blind ok (f a) (g a)) :
    Blind ok (x >>= f) (y >>= g) := by
  refine ⟨fun s => ?_, fun s hok => ?_⟩
  · have hgrows := h.grows s
    rw [run_bind]
    rcases hx : x.run.run s with ⟨_ | a, s'⟩ <;> rw [hx] at hgrows
    · exact hgrows
    · exact List.Subset.trans hgrows ((hf a).grows s')
  · have hrun := h.run_eq s
    rw [run_bind] at hok
    rw [run_bind, run_bind]
    rcases hx : x.run.run s with ⟨_ | a, s'⟩ <;> rw [hx] at hok hrun
    · rw [hrun hok]
    · rw [hrun fun p hp => hok p ((hf a).grows s' hp)]
      exact (hf a).run_eq s' hok

end Blind

end Traced

variable {root : Expr} {new : Path → Option Expr}

/-- Two nodes at one place do the same if they do so whenever nothing has changed there: a node
within the budget is visited, and beyond the budget no node matters. -/
theorem blind_node {ok : Path → Prop} {e e' : Expr}
    (h : ok path →
      Blind ok (traceNode slots budget path e) (traceNode slots' budget path e')) :
    Blind ok (traceNode slots budget path e) (traceNode slots' budget path e') := by
  obtain ⟨hrecords, hvisited⟩ := traceNode_records slots budget path e
  refine ⟨hrecords.grows, fun s hok => ?_⟩
  rcases Nat.lt_or_ge s.steps budget with hroom | hroom
  · exact (h (hok path (hvisited s hroom))).run_eq s hok
  · rw [traceNode_of_le slots path e hroom, traceNode_of_le slots' path e' hroom]

/-- **An evaluation is blind to what has changed where it does not look**: by induction on the
tree that stands at the end of a path of `root`. -/
theorem traceNode_blind (slots slots' : List Decimal) (budget : Nat) {e : Expr}
    (he : root.at? path = some e) :
    Blind (Unchanged root new slots slots') (traceNode slots budget path e)
      (traceNode slots' budget path (e.replaceBelow new path)) := by
  -- the operands stand where the way to them leads
  have hoperand {e c : Expr} {path : Path} {i : Nat} (he : root.at? path = some e)
      (hc : e.children[i]? = some c) : root.at? (path ++ [i]) = some c := by
    rw [Expr.at?_append, he, Option.bind_some, Expr.at?, hc]
    rfl
  induction e generalizing path with
  | literal d =>
    refine blind_node fun hpath => ?_
    rw [Expr.replaceBelow.eq_def, hpath.kept, traceNode, traceNode]
    exact (Blind.visit budget path).bind fun _ => .pure _
  | var name slot =>
    refine blind_node fun hpath => ?_
    rw [Expr.replaceBelow.eq_def, hpath.kept, traceNode, traceNode, hpath.read name slot he]
    refine (Blind.visit budget path).bind fun _ => ?_
    cases slots[slot]? with
    | some d => exact .pure _
    | none => exact .ofExcept _
  | negate e ih =>
    refine blind_node fun hpath => ?_
    rw [Expr.replaceBelow.eq_def, hpath.kept, traceNode, traceNode]
    exact (Blind.visit budget path).bind fun _ => (ih (hoperand he rfl)).bind fun _ => .pure _
  | binary op l r ihl ihr =>
    refine blind_node fun hpath => ?_
    rw [Expr.replaceBelow.eq_def, hpath.kept, traceNode, traceNode]
    refine (Blind.visit budget path).bind fun _ => (ihl (hoperand he rfl)).bind fun a => ?_
    cases op.shortcut? a.isTruthy with
    | some b => exact .pure _
    | none => exact (ihr (hoperand he rfl)).bind fun b => .ofExcept _
  | conditional c t e ihc iht ihe =>
    refine blind_node fun hpath => ?_
    rw [Expr.replaceBelow.eq_def, hpath.kept, traceNode, traceNode]
    refine (Blind.visit budget path).bind fun _ => (ihc (hoperand he rfl)).bind fun a => ?_
    cases a.isTruthy with
    | true => exact iht (hoperand he rfl)
    | false => exact ihe (hoperand he rfl)

/-- **What a run does not visit influences neither its result nor its steps.** `traceExpr` is
the run with the nodes that it visits, one for each step within the budget, and `replace` puts
other trees into places of which none is in another. Other trees in any places that are not
visited and other values in any slots that no visited variable reads leave the result, the steps
and even the visits as they are. -/
theorem runExpr_unvisited (e : Expr) (slots : List Decimal) (limits : Limits) :
    runExpr e slots limits =
        ((traceExpr e slots limits).1, (traceExpr e slots limits).2.steps) ∧
      (traceExpr e slots limits).2.visited.length =
        min (traceExpr e slots limits).2.steps limits.maxEvalSteps ∧
      (∀ (new : Path → Option Expr) (p : Path) (e' : Expr), (e.at? p).isSome → new p = some e' →
        (∀ q, q <+: p → q ≠ p → new q = none) → (e.replace new).at? p = some e') ∧
      ∀ (new : Path → Option Expr) (slots' : List Decimal),
        (∀ p ∈ (traceExpr e slots limits).2.visited, new p = none) →
        (∀ p ∈ (traceExpr e slots limits).2.visited, ∀ name slot,
          e.at? p = some (.var name slot) → slots'[slot]? = slots[slot]?) →
        traceExpr (e.replace new) slots' limits = traceExpr e slots limits ∧
          runExpr (e.replace new) slots' limits = runExpr e slots limits := by
  have hrun (e : Expr) (slots : List Decimal) : runExpr e slots limits =
      ((traceExpr e slots limits).1, (traceExpr e slots limits).2.steps) :=
    (traceNode_records slots limits.maxEvalSteps [] e).1.run_eq ⟨0, []⟩
  have hcount : (traceExpr e slots limits).2.visited.length =
      min (traceExpr e slots limits).2.steps limits.maxEvalSteps :=
    (traceNode_records slots limits.maxEvalSteps [] e).1.count ⟨0, []⟩ (Nat.zero_min _).symm
  refine ⟨hrun e slots, hcount, fun new p e' => Expr.at?_replace,
    fun new slots' hkept hread => ?_⟩
  have htrace : traceExpr (e.replace new) slots' limits = traceExpr e slots limits := by
    have hroot : e.at? [] = some e := rfl
    exact (traceNode_blind slots slots' limits.maxEvalSteps hroot).run_eq ⟨0, []⟩
      fun p hp => ⟨hkept p hp, hread p hp⟩
  refine ⟨htrace, ?_⟩
  rw [hrun, hrun, htrace]

/-- A conditional whose condition holds: another tree in the place of its alternative and
another value in the slot that only this alternative reads change nothing. -/
theorem runExpr_unvisited_alternative :
    let e : Expr := .conditional (.var "x" 0) (.negate (.var "x" 0))
      (.binary .div (.var "x" 0) (.var "y" 1))
    let new : Path → Option Expr := fun p => if p = [2] then some (.var "z" 7) else none
    e.replace new = .conditional (.var "x" 0) (.negate (.var "x" 0)) (.var "z" 7) ∧
      (traceExpr e [.one, .zero] {}).2.visited = [[], [0], [1], [1, 0]] ∧
      runExpr (e.replace new) [.one] {} = runExpr e [.one, .zero] {} := by
  intro e new
  have hvisited : (traceExpr e [.one, .zero] {}).2.visited = [[], [0], [1], [1, 0]] := by decide
  obtain ⟨-, -, -, hsame⟩ := runExpr_unvisited e [.one, .zero] {}
  have hkept : ∀ p ∈ (traceExpr e [.one, .zero] {}).2.visited, new p = none := by
    rw [hvisited]
    decide
  have hread : ∀ p ∈ (traceExpr e [.one, .zero] {}).2.visited, ∀ name slot,
      e.at? p = some (.var name slot) → [Decimal.one][slot]? = [Decimal.one, .zero][slot]? := by
    rw [hvisited]
    intro p hp name slot hat
    have hslot : slot = 0 := by
      simp only [List.mem_cons, List.not_mem_nil, or_false] at hp
      obtain rfl | rfl | rfl | rfl := hp <;> simp_all [e, Expr.at?, Expr.children]
    rw [hslot]
    rfl
  exact ⟨rfl, hvisited, (hsame new [.one] hkept hread).2⟩

end Formulary

import Formulary.Proofs.Expr.Outcome

/-!
# The parser accepts exactly its grammar

* `outcome_of_derives` (every derivation): on derived tokens, with behind them
  nothing that could go on, the parser reads the tree of the derivation, unless
  the `ternary`s of the derivation or the levels of the tree are too many; then
  it says so, and nothing else.
* `sound` (every run): what a parser reads has a derivation, with no more
  `ternary`s on a path than there was room for.
* `parse_eq_ok_iff`: **a token list has a tree exactly when the grammar derives it
  within the limits, over distinct identifiers, and then it is that tree.**
-/

namespace Formulary.Parser

variable {scope : Scope} {N : Nonterminal} {ts rest : List Token} {e : Expr} {n room : Nat}
  {node : Node}

/-- Whether a token can go on what the nonterminal has derived. -/
def Continues : Nonterminal → Token → Prop
  | .ternary, t => t.kind = .question ∨ ∃ op, t.kind = .operator op
  | .level p, t => ∃ op, t.kind = .operator op ∧ p.rank ≤ op.precedence.rank
  | .unary, _ => False
  | .primary, _ => False

/-- Whether a phrase of the nonterminal ends before these tokens. -/
def Ends (N : Nonterminal) (rest : List Token) : Prop := ∀ t ∈ rest.head?, ¬ Continues N t

theorem continues_operand {p : Precedence} {t : Token} :
    Continues p.operand t ↔ ∃ op, t.kind = .operator op ∧ p.rank < op.precedence.rank := by
  cases p with
  | multiplicative =>
    simp only [Precedence.operand, Continues, Precedence.rank, false_iff, not_exists, not_and]
    intro op _
    cases op <;> decide
  | _ => rfl

theorem Ends.operand {p : Precedence} (h : Ends (.level p) rest) : Ends p.operand rest := by
  intro t ht hc
  obtain ⟨op, hk, hp⟩ := continues_operand.1 hc
  exact h t ht ⟨op, hk, Nat.le_of_lt hp⟩

theorem Ends.disjunction (h : Ends .ternary rest) : Ends (.level .disjunction) rest := by
  intro t ht hc
  obtain ⟨op, hk, -⟩ := hc
  exact h t ht (.inr ⟨op, hk⟩)

theorem ends_of_kind {t : Token} (hq : t.kind ≠ .question) (ho : ∀ op, t.kind ≠ .operator op) :
    Ends .ternary (t :: rest) := by
  rintro _ ⟨rfl⟩ (h | ⟨op, h⟩)
  · exact hq h
  · exact ho op h

theorem operatorAt?_eq_some {p : Precedence} {t : Token} {op : BinaryOp}
    (h : operatorAt? p t = some op) : t.kind = .operator op ∧ op.precedence = p := by
  unfold operatorAt? at h
  split at h
  · rename_i op' hk
    split at h
    · rename_i hp
      cases h
      exact ⟨hk, hp⟩
    · cases h
  · cases h

/-- No operator of the level follows where its phrase ends. -/
theorem Ends.operatorAt? {p : Precedence} (h : Ends (.level p) rest) :
    ∀ t ∈ rest.head?, operatorAt? p t = none := by
  intro t ht
  cases hop : Parser.operatorAt? p t with
  | none => rfl
  | some op =>
    obtain ⟨hk, hp⟩ := operatorAt?_eq_some hop
    exact absurd ⟨op, hk, hp ▸ Nat.le_refl _⟩ (h t ht)

/-- The place where a phrase can be looked at: for a level behind any of its
operands, otherwise where the phrase ends. -/
def Settled : Nonterminal → List Token → Prop
  | .level p, rest => Ends p.operand rest
  | N, rest => Ends N rest

/-- What the parser of a nonterminal makes of a node and the tokens behind it: a
level goes on, the others are done. -/
def resume (scope : Scope) (room : Nat) (N : Nonterminal) (node : Node) (rest : List Token) :
    Except ParseError (Node × List Token) :=
  match N with
  | .level p => follow scope p (parserOf scope room p.operand) node rest
  | _ => .ok (node, rest)

theorem Ends.settled (h : Ends N rest) : Settled N rest := by
  cases N with
  | level p => exact h.operand
  | _ => exact h

theorem Ends.resume (h : Ends N rest) : resume scope room N node rest = .ok (node, rest) := by
  cases N with
  | level p => exact follow_stop h.operatorAt?
  | _ => rfl

/-- A primary expression starts with no operator. -/
theorem primary_head {names : List String} (h : Derives (Denotes names) .primary ts e n) :
    ∃ t us, ts = t :: us ∧ ∀ op, t.kind ≠ .operator op := by
  cases h with
  | leaf h =>
    refine ⟨_, _, rfl, fun op hk => ?_⟩
    cases h <;> simp_all
  | group ho _ _ => exact ⟨_, _, rfl, fun op hk => by simp [ho] at hk⟩

/-- A node above others is made if the limit on depth allows it. -/
theorem Scope.node_eq (scope : Scope) (e : Expr) (below : Nat) :
    scope.node e below =
      if below + 1 ≤ scope.maxDepth then .ok ⟨e, below + 1⟩
      else .error (.tooDeep scope.maxDepth) := by
  unfold Scope.node
  by_cases h : scope.maxDepth < below + 1
  · rw [if_pos h, if_neg (by omega)]
  · rw [if_neg h, if_pos (by omega)]

/-- What the parser of a nonterminal makes of tokens derived from it, wherever it
can be looked at. -/
def Reads (scope : Scope) (N : Nonterminal) (ts : List Token) (e : Expr) (n : Nat) : Prop :=
  ∀ room rest, Settled N rest →
    outcome (parserOf scope room N) (ts ++ rest) =
      if n ≤ room ∧ e.depth ≤ max 1 scope.maxDepth then resume scope room N ⟨e, e.depth⟩ rest
      else .error (.tooDeep scope.maxDepth)

theorem Reads.ends (h : Reads scope N ts e n) (room : Nat) (hr : Ends N rest) :
    outcome (parserOf scope room N) (ts ++ rest) =
      if n ≤ room ∧ e.depth ≤ max 1 scope.maxDepth then .ok (⟨e, e.depth⟩, rest)
      else .error (.tooDeep scope.maxDepth) := by
  rw [h room rest hr.settled, hr.resume]

theorem Reads.operand {p : Precedence} (h : Reads scope p.operand ts e n) :
    Reads scope (.level p) ts e n := by
  intro room rest hr
  rw [parserOf_level, outcome_chain, h.ends room hr]
  by_cases hfit : n ≤ room ∧ e.depth ≤ max 1 scope.maxDepth
  · rw [if_pos hfit, if_pos hfit]
    rfl
  · rw [if_neg hfit, if_neg hfit]

theorem Reads.operator {p : Precedence} {ls rs : List Token} {t : Token} {op : BinaryOp}
    {l r : Expr} {m n : Nat} (hl : Reads scope (.level p) ls l m) (hk : t.kind = .operator op)
    (hp : op.precedence = p) (hr : Reads scope p.operand rs r n) :
    Reads scope (.level p) (ls ++ t :: rs) (.binary op l r) (max m n) := by
  intro room rest hrest
  -- the left operand is looked at in front of an operator of its own level
  have ht : Ends p.operand (t :: (rs ++ rest)) := by
    rintro _ ⟨rfl⟩ hc
    obtain ⟨op', hk', hp'⟩ := continues_operand.1 hc
    cases hk.symm.trans hk'
    simp [hp] at hp'
  have hop : operatorAt? p t = some op := by simp [operatorAt?, hk, hp]
  rw [List.append_assoc, List.cons_append, hl room _ ht]
  have hd : (Expr.binary op l r).depth = max l.depth r.depth + 1 := rfl
  -- too deep on the left, on the right, or at the node above them
  by_cases h1 : m ≤ room ∧ l.depth ≤ max 1 scope.maxDepth
  · rw [if_pos h1, resume, follow_operator hop, hr.ends room hrest]
    by_cases h2 : n ≤ room ∧ r.depth ≤ max 1 scope.maxDepth
    · rw [if_pos h2]
      dsimp only
      rw [Scope.node_eq]
      by_cases h3 : max l.depth r.depth + 1 ≤ scope.maxDepth
      · rw [if_pos h3, if_pos (by omega)]
        rfl
      · have hpos := l.depth_pos
        rw [if_neg h3, if_neg (by omega)]
    · rw [if_neg h2, if_neg (by omega)]
  · rw [if_neg h1, if_neg (by omega)]

theorem Reads.plain (h : Reads scope (.level .disjunction) ts e n) :
    Reads scope .ternary ts e (n + 1) := by
  intro room rest hrest
  cases room with
  -- without room no `ternary` is entered at all
  | zero => rw [outcome_ternary_zero, if_neg (by omega)]
  | succ room =>
    have hd : outcome (disjunction scope (parserOf scope room .ternary)) (ts ++ rest) = _ :=
      h.ends room (Ends.disjunction hrest)
    rw [outcome_ternary_succ, outcome_conditional, hd]
    by_cases hfit : n ≤ room ∧ e.depth ≤ max 1 scope.maxDepth
    · rw [if_pos hfit, if_pos (by omega)]
      cases rest with
      | nil => rfl
      | cons t rest =>
        have hq : t.kind ≠ .question := fun hq => hrest t rfl (.inl hq)
        dsimp only
        rw [if_neg hq]
        rfl
    · rw [if_neg hfit, if_neg (by omega)]

theorem Reads.conditional {cs ts es : List Token} {mark colon : Token} {c t e : Expr} {k m n : Nat}
    (hc : Reads scope (.level .disjunction) cs c k) (hm : mark.kind = .question)
    (ht : Reads scope .ternary ts t m) (hl : colon.kind = .colon)
    (he : Reads scope .ternary es e n) :
    Reads scope .ternary (cs ++ mark :: (ts ++ colon :: es)) (.conditional c t e)
      (max k (max m n) + 1) := by
  intro room rest hrest
  have hd : (Expr.conditional c t e).depth = max c.depth (max t.depth e.depth) + 1 := rfl
  have hcolon : Ends .ternary (colon :: (es ++ rest)) :=
    ends_of_kind (by simp [hl]) (by simp [hl])
  have hmark : Ends (.level .disjunction) (mark :: (ts ++ colon :: (es ++ rest))) := by
    rintro _ ⟨rfl⟩ ⟨op, hk, -⟩
    simp [hm] at hk
  cases room with
  | zero => rw [outcome_ternary_zero, if_neg (by omega)]
  | succ room =>
    have hcond : outcome (disjunction scope (parserOf scope room .ternary))
        (cs ++ mark :: (ts ++ colon :: (es ++ rest))) = _ := hc.ends room hmark
    simp only [List.append_assoc, List.cons_append]
    -- too deep in the condition, in a branch, or at the node above them
    rw [outcome_ternary_succ, outcome_conditional, hcond]
    by_cases h1 : k ≤ room ∧ c.depth ≤ max 1 scope.maxDepth
    · rw [if_pos h1]
      dsimp only
      rw [if_pos hm, outcome_branches, ht.ends room hcolon]
      by_cases h2 : m ≤ room ∧ t.depth ≤ max 1 scope.maxDepth
      · rw [if_pos h2]
        dsimp only
        rw [if_pos hl, he.ends room hrest]
        by_cases h3 : n ≤ room ∧ e.depth ≤ max 1 scope.maxDepth
        · rw [if_pos h3]
          dsimp only
          rw [scope.node_eq]
          by_cases h4 : max c.depth (max t.depth e.depth) + 1 ≤ scope.maxDepth
          · rw [if_pos h4, if_pos (by omega)]
            rfl
          · have hpos := c.depth_pos
            rw [if_neg h4, if_neg (by omega)]
            rfl
        · rw [if_neg h3, if_neg (by omega)]
      · rw [if_neg h2, if_neg (by omega)]
    · rw [if_neg h1, if_neg (by omega)]

theorem Reads.unsigned (h : Reads scope .primary ts e n)
    (hd : Derives (Denotes scope.names) .primary ts e n) : Reads scope .unary ts e n := by
  intro room rest hrest
  have hp := h room rest hrest
  obtain ⟨t, us, rfl, ht⟩ := primary_head hd
  have hu : outcome (parserOf scope room .unary) (t :: (us ++ rest)) =
      outcome (parserOf scope room .primary) (t :: (us ++ rest)) :=
    (outcome_unary_cons t (us ++ rest)).trans (if_neg (ht _))
  rw [List.cons_append] at hp ⊢
  rw [hu, hp]
  rfl

theorem Reads.negation {t : Token} (hk : t.kind = .operator .sub)
    (h : Reads scope .primary ts e n) :
    Reads scope .unary (t :: ts) (.negate e) n := by
  intro room rest hrest
  have hd : (Expr.negate e).depth = e.depth + 1 := rfl
  have hu : outcome (parserOf scope room .unary) (t :: ts ++ rest) = _ :=
    (outcome_unary_cons t (ts ++ rest)).trans (if_pos hk)
  have hp : outcome (primary scope (ternary scope room)) (ts ++ rest) = _ := h room rest hrest
  rw [hu, hp]
  by_cases h1 : n ≤ room ∧ e.depth ≤ max 1 scope.maxDepth
  · rw [if_pos h1]
    dsimp only [resume]
    rw [Scope.node_eq]
    by_cases h2 : e.depth + 1 ≤ scope.maxDepth
    · rw [if_pos h2, if_pos (by omega)]
      rfl
    · have hpos := e.depth_pos
      rw [if_neg h2, if_neg (by omega)]
      rfl
  · rw [if_neg h1, if_neg (by omega)]

theorem Reads.leaf {t : Token} (h : Denotes scope.names t e) : Reads scope .primary [t] e 0 := by
  intro room rest _
  have hp : outcome (parserOf scope room .primary) ([t] ++ rest) = _ := outcome_primary_cons t rest
  rw [hp]
  cases h with
  | number hk hd =>
    rw [if_pos ⟨Nat.zero_le _, Nat.le_max_left _ _⟩, hk]
    dsimp only
    rw [hd]
    rfl
  | name hk hs =>
    rw [if_pos ⟨Nat.zero_le _, Nat.le_max_left _ _⟩, hk]
    dsimp only
    rw [hs]
    rfl

theorem Reads.group {opening closing : Token} (ho : opening.kind = .openParen)
    (h : Reads scope .ternary ts e n) (hc : closing.kind = .closeParen) :
    Reads scope .primary (opening :: (ts ++ [closing])) e n := by
  intro room rest _
  have hclosing : Ends .ternary (closing :: rest) := ends_of_kind (by simp [hc]) (by simp [hc])
  have hp : outcome (parserOf scope room .primary) (opening :: (ts ++ closing :: rest)) = _ :=
    outcome_primary_cons opening (ts ++ closing :: rest)
  have ht : outcome (ternary scope room) (ts ++ closing :: rest) = _ := h.ends room hclosing
  rw [List.cons_append, List.append_assoc, List.singleton_append, hp, ho]
  dsimp only
  rw [outcome_group, ht]
  by_cases h1 : n ≤ room ∧ e.depth ≤ max 1 scope.maxDepth
  · rw [if_pos h1, if_pos h1]
    dsimp only
    rw [if_pos hc]
    rfl
  · rw [if_neg h1, if_neg h1]

/-- A derivation is read, by induction on it. -/
theorem reads_of_derives (h : Derives (Denotes scope.names) N ts e n) : Reads scope N ts e n := by
  induction h with
  | plain _ ih => exact ih.plain
  | conditional _ hm _ hl _ ihc iht ihe => exact ihc.conditional hm iht hl ihe
  | operand _ ih => exact ih.operand
  | operator _ hk hp _ ihl ihr => exact ihl.operator hk hp ihr
  | unsigned h ih => exact ih.unsigned h
  | negation hk _ ih => exact ih.negation hk
  | leaf h => exact .leaf h
  | group ho _ hc ih => exact ih.group ho hc

/-- **What the parser makes of derived tokens**, where their phrase ends: it reads
their tree if the limits allow it, and otherwise finds it too deep. -/
theorem outcome_of_derives (scope : Scope) (h : Derives (Denotes scope.names) N ts e n)
    (room : Nat) (hrest : Ends N rest) :
    outcome (parserOf scope room N) (ts ++ rest) =
      if n ≤ room ∧ e.depth ≤ max 1 scope.maxDepth then .ok (⟨e, e.depth⟩, rest)
      else .error (.tooDeep scope.maxDepth) :=
  (reads_of_derives h).ends room hrest

/-- A node that stands for the tokens `read` of a nonterminal: derived from them
within the room, and of the depth it says. -/
structure Covers (scope : Scope) (room : Nat) (N : Nonterminal) (read : List Token) (node : Node) :
    Prop where
  derived : ∃ n, Derives (Denotes scope.names) N read node.expr n ∧ n ≤ room
  depth_eq : node.depth = node.expr.depth
  depth_le : node.depth ≤ max 1 scope.maxDepth

/-- A parser that only reads what its nonterminal derives. -/
def Sound (scope : Scope) (room : Nat) (N : Nonterminal) (p : Parser) : Prop :=
  ∀ ts node rest, outcome p ts = .ok (node, rest) →
    ∃ read, ts = read ++ rest ∧ Covers scope room N read node

theorem Scope.node_eq_ok {below : Nat} (h : scope.node e below = .ok node) :
    node = ⟨e, below + 1⟩ ∧ below + 1 ≤ scope.maxDepth := by
  rw [scope.node_eq] at h
  split at h
  · rename_i hle
    cases h
    exact ⟨rfl, hle⟩
  · cases h

theorem Covers.leaf {t : Token} (h : Denotes scope.names t e) (he : e.depth = 1) :
    Covers scope room .primary [t] ⟨e, 1⟩ :=
  ⟨⟨0, .leaf h, Nat.zero_le _⟩, he.symm, Nat.le_max_left _ _⟩

theorem Sound.group {inner : Parser} (hi : Sound scope room .ternary inner) {t : Token}
    (ht : t.kind = .openParen) (h : outcome (group scope inner) ts = .ok (node, rest)) :
    ∃ read, t :: ts = read ++ rest ∧ Covers scope room .primary read node := by
  rw [outcome_group] at h
  split at h
  · cases h
  · cases h
  · rename_i node' c rest' hin
    split at h
    · rename_i hc
      cases h
      obtain ⟨read, rfl, ⟨n, hd, hn⟩, hde, hdl⟩ := hi _ _ _ hin
      exact ⟨t :: (read ++ [c]), by simp, ⟨n, .group ht hd hc, hn⟩, hde, hdl⟩
    · cases h

theorem Sound.primary {inner : Parser} (hi : Sound scope room .ternary inner) :
    Sound scope room .primary (primary scope inner) := by
  intro ts node rest h
  cases ts with
  | nil => cases h
  | cons t ts =>
    rw [outcome_primary_cons] at h
    split at h
    · rename_i hk
      split at h
      · rename_i d hd
        cases h
        exact ⟨[t], rfl, .leaf (.number hk hd) rfl⟩
      · cases h
    · rename_i hk
      split at h
      · rename_i slot hs
        cases h
        exact ⟨[t], rfl, .leaf (.name hk hs) rfl⟩
      · cases h
    · rename_i hk
      exact hi.group hk h
    · cases h

theorem Sound.unary {inner : Parser} (hi : Sound scope room .ternary inner) :
    Sound scope room .unary (unary scope inner) := by
  intro ts node rest h
  cases ts with
  | nil => cases h
  | cons t ts =>
    rw [outcome_unary_cons] at h
    split at h
    · rename_i hk
      split at h
      · cases h
      · rename_i operand rest' hp
        obtain ⟨read, rfl, ⟨n, hd, hn⟩, hde, -⟩ := hi.primary _ _ _ hp
        cases hnode : scope.node (.negate operand.expr) operand.depth with
        | error e => simp [hnode, Except.map] at h
        | ok made =>
          simp only [hnode, Except.map, Except.ok.injEq, Prod.mk.injEq] at h
          obtain ⟨rfl, rfl⟩ := h
          obtain ⟨rfl, hle⟩ := Scope.node_eq_ok hnode
          exact ⟨t :: read, rfl, ⟨n, .negation hk hd, hn⟩, by simp [hde, Expr.depth],
            Nat.le_trans hle (Nat.le_max_right _ _)⟩
    · obtain ⟨read, hts, ⟨n, hd, hn⟩, hde, hdl⟩ := hi.primary _ _ _ h
      exact ⟨read, hts, ⟨n, .unsigned hd, hn⟩, hde, hdl⟩

/-- Going on keeps a level's derivation: each operator with its operand extends it. -/
theorem Sound.follow {p : Precedence} {operand : Parser} (ho : Sound scope room p.operand operand)
    {left : Node} {us : List Token} (hl : Covers scope room (.level p) us left)
    (h : follow scope p operand left ts = .ok (node, rest)) :
    ∃ read, us ++ ts = read ++ rest ∧ Covers scope room (.level p) read node := by
  -- by induction on what is left: what is covered grows by what is read
  induction hlen : ts.length using Nat.strongRecOn generalizing left us ts with
  | _ len ih =>
    subst hlen
    by_cases hstop : ∀ t ∈ ts.head?, operatorAt? p t = none
    · rw [follow_stop hstop] at h
      cases h
      exact ⟨us, rfl, hl⟩
    · cases ts with
      | nil => simp at hstop
      | cons t ts =>
        obtain ⟨op, hop⟩ : ∃ op, operatorAt? p t = some op := by
          simpa [Option.eq_none_iff_forall_ne_some] using hstop
        rw [follow_operator hop] at h
        split at h
        · cases h
        · rename_i right rest' hright
          split at h
          · cases h
          · rename_i joined hjoined
            obtain ⟨rs, rfl, ⟨n, hrd, hn⟩, hre, -⟩ := ho _ _ _ hright
            obtain ⟨⟨m, hld, hm⟩, hle, -⟩ := hl
            obtain ⟨rfl, hdepth⟩ := Scope.node_eq_ok hjoined
            obtain ⟨hk, hp⟩ := operatorAt?_eq_some hop
            have hcover : Covers scope room (.level p) (us ++ t :: rs)
                ⟨.binary op left.expr right.expr, max left.depth right.depth + 1⟩ :=
              ⟨⟨_, .operator hld hk hp hrd, Nat.max_le.2 ⟨hm, hn⟩⟩, by simp [hle, hre, Expr.depth],
                Nat.le_trans hdepth (Nat.le_max_right _ _)⟩
            have hshorter : rest'.length < (t :: (rs ++ rest')).length := by
              simp only [List.length_append, List.length_cons]
              omega
            obtain ⟨read, hread, hc⟩ := ih rest'.length hshorter hcover h rfl
            exact ⟨read, by simpa using hread, hc⟩

theorem Sound.chain {p : Precedence} {operand : Parser} (ho : Sound scope room p.operand operand) :
    Sound scope room (.level p) (chain scope p operand) := by
  intro ts node rest h
  rw [outcome_chain] at h
  split at h
  · cases h
  · rename_i left rest' hleft
    obtain ⟨us, rfl, ⟨n, hd, hn⟩, hde, hdl⟩ := ho _ _ _ hleft
    exact ho.follow ⟨⟨n, .operand hd, hn⟩, hde, hdl⟩ h

theorem Sound.level {inner : Parser} (hi : Sound scope room .ternary inner) (p : Precedence) :
    Sound scope room (.level p) (levelOf scope inner p) := by
  have h5 : Sound scope room (.level .multiplicative) (multiplicative scope inner) := hi.unary.chain
  have h4 : Sound scope room (.level .additive) (additive scope inner) := h5.chain
  have h3 : Sound scope room (.level .relation) (relation scope inner) := h4.chain
  have h2 : Sound scope room (.level .equality) (equality scope inner) := h3.chain
  have h1 : Sound scope room (.level .conjunction) (conjunction scope inner) := h2.chain
  cases p with
  | disjunction => exact h1.chain
  | conjunction => exact h1
  | equality => exact h2
  | relation => exact h3
  | additive => exact h4
  | multiplicative => exact h5

theorem Sound.branches {inner : Parser} (hi : Sound scope room .ternary inner) {condition : Node}
    {us : List Token} (hc : Covers scope room (.level .disjunction) us condition) {mark : Token}
    (hm : mark.kind = .question)
    (h : outcome (branches scope inner condition) ts = .ok (node, rest)) :
    ∃ read, us ++ mark :: ts = read ++ rest ∧ Covers scope (room + 1) .ternary read node := by
  obtain ⟨⟨k, hcd, hk⟩, hce, -⟩ := hc
  rw [outcome_branches] at h
  split at h
  · cases h
  · cases h
  · rename_i consequent colon rest' hcons
    split at h
    · rename_i hl
      split at h
      · cases h
      · rename_i alternative rest'' halt
        obtain ⟨ts', rfl, ⟨m, htd, hm'⟩, hte, -⟩ := hi _ _ _ hcons
        obtain ⟨es, rfl, ⟨n, hed, hn⟩, hee, -⟩ := hi _ _ _ halt
        cases hnode : scope.node
            (.conditional condition.expr consequent.expr alternative.expr)
            (max condition.depth (max consequent.depth alternative.depth)) with
        | error e => simp [hnode, Except.map] at h
        | ok made =>
          simp only [hnode, Except.map, Except.ok.injEq, Prod.mk.injEq] at h
          obtain ⟨rfl, rfl⟩ := h
          obtain ⟨rfl, hle⟩ := Scope.node_eq_ok hnode
          exact ⟨us ++ mark :: (ts' ++ colon :: es), by simp,
            ⟨_, .conditional hcd hm htd hl hed, by omega⟩, by simp [hce, hte, hee, Expr.depth],
            Nat.le_trans hle (Nat.le_max_right _ _)⟩
    · cases h

theorem Sound.conditional {inner : Parser} (hi : Sound scope room .ternary inner) :
    Sound scope (room + 1) .ternary (conditional scope inner) := by
  intro ts node rest h
  rw [outcome_conditional] at h
  split at h
  · cases h
  · rename_i condition hcond
    cases h
    obtain ⟨us, hts, ⟨n, hd, hn⟩, hde, hdl⟩ := hi.level .disjunction _ _ _ hcond
    exact ⟨us, hts, ⟨n + 1, .plain hd, by omega⟩, hde, hdl⟩
  · rename_i condition t rest' hcond
    obtain ⟨us, rfl, hc⟩ := hi.level .disjunction _ _ _ hcond
    split at h
    · rename_i hq
      exact hi.branches hc hq h
    · cases h
      obtain ⟨⟨n, hd, hn⟩, hde, hdl⟩ := hc
      exact ⟨us, rfl, ⟨n + 1, .plain hd, by omega⟩, hde, hdl⟩

/-- **Every parser is sound**: by induction on the room of the `ternary`s. -/
theorem sound (scope : Scope) (room : Nat) (N : Nonterminal) :
    Sound scope room N (parserOf scope room N) := by
  have ht : Sound scope room .ternary (ternary scope room) := by
    induction room with
    | zero =>
      intro ts node rest h
      exact absurd ((outcome_ternary_zero scope ts).symm.trans h) (by simp)
    | succ room ih =>
      intro ts node rest h
      exact ih.conditional ts node rest ((outcome_ternary_succ scope room ts).symm.trans h)
  cases N with
  | ternary => exact ht
  | level p => exact ht.level p
  | unary => exact ht.unary
  | primary => exact ht.primary

/-- Declared names pass when they are identifiers, no two the same. -/
theorem checkNames_eq_ok_iff (names : List String) :
    checkNames [] names = .ok () ↔ (∀ name ∈ names, isIdentifier name) ∧ names.Nodup := by
  have key : ∀ (names seen : List String), checkNames seen names = .ok () ↔
      (∀ name ∈ names, isIdentifier name) ∧ names.Nodup ∧ ∀ name ∈ names, name ∉ seen := by
    intro names
    induction names with
    | nil => simp [checkNames]
    | cons name names ih =>
      intro seen
      unfold checkNames
      by_cases hi : isIdentifier name
      · by_cases hs : name ∈ seen
        · simp [hi, hs]
        · simp only [hi, Bool.not_true, Bool.false_eq_true, if_false, List.contains_iff_mem, hs, ih,
            List.mem_cons, List.nodup_cons, not_or]
          grind
      · simp [hi]
  simpa using key names []

end Formulary.Parser

namespace Formulary

open Formulary.Parser

/-- The grammar has at most one tree for a list of tokens. -/
theorem Derives.unique {names : List String} {ts : List Token} {e e' : Expr} {n n' : Nat}
    (h : Derives (Denotes names) .ternary ts e n) (h' : Derives (Denotes names) .ternary ts e' n') :
    e = e' := by
  -- a scope and a room that are large enough for both of them
  let scope : Scope := ⟨names, max e.depth e'.depth, 0⟩
  have hend : Ends .ternary [] := by simp [Ends]
  have h1 := outcome_of_derives scope h (max n n') hend
  have h2 := outcome_of_derives scope h' (max n n') hend
  rw [if_pos (by simp only [scope]; omega)] at h1 h2
  cases h1.symm.trans h2
  rfl

/-- **What a derived list of tokens is read as**, over names that may be declared:
its tree, or too deep. -/
theorem parse_of_derives {tokens : List Token} {names : List String} {e : Expr} {n : Nat}
    (hnames : checkNames [] names = .ok ()) (h : Derives (Denotes names) .ternary tokens e n)
    (limits : Limits) :
    parse tokens names limits =
      if n ≤ limits.maxTreeDepth ∧ e.depth ≤ limits.maxTreeDepth then .ok e
      else .error (.tooDeep limits.maxTreeDepth) := by
  have hn := h.ternary_pos
  obtain ⟨t, us, rfl, -⟩ := h.head fun _ _ hd => hd.kind.2
  -- what is derived passes the check of parentheses, so it gets as far as the descent
  have hparens : checkParens [] (t :: us) = .ok () := by
    simpa [checkParens] using h.checkParens_append (fun _ _ hd => hd.kind) [] []
  have hend : Ends .ternary [] := by simp [Ends]
  have hread (ending : Nat) := outcome_of_derives ⟨names, limits.maxTreeDepth, ending⟩ h
    limits.maxTreeDepth hend
  simp only [List.append_nil] at hread
  rw [parse_eq, hnames, List.getLast?_cons, hparens]
  dsimp only
  rw [hread]
  by_cases hfit : n ≤ limits.maxTreeDepth ∧ e.depth ≤ limits.maxTreeDepth
  · rw [if_pos (by omega), if_pos hfit]
  · rw [if_neg (by omega), if_neg hfit]

/-- A list of tokens that is read as a tree over some names has a derivation. -/
theorem derives_of_parse {tokens : List Token} {names : List String} {limits : Limits} {e : Expr}
    (h : parse tokens names limits = .ok e) :
    checkNames [] names = .ok () ∧ ∃ n, Derives (Denotes names) .ternary tokens e n := by
  rw [parse_eq] at h
  split at h
  · cases h
  · rename_i hnames
    refine ⟨hnames, ?_⟩
    split at h
    · cases h
    · split at h
      · cases h
      · dsimp only at h
        split at h
        · cases h
        · rename_i node hread
          cases h
          obtain ⟨read, rfl, ⟨n, hd, -⟩, -, -⟩ := sound _ _ _ _ _ _ hread
          exact ⟨n, by simpa using hd⟩
        · cases h

/-- **The parser accepts exactly the grammar and builds its tree.** Tokens have a
tree over declared names exactly when these are distinct identifiers and the
grammar derives the tokens with it, with no more `ternary`s on a path and no more
levels in the tree than the limit on depth. The grammar has at most one tree for
a list of tokens. -/
theorem parse_eq_ok_iff (tokens : List Token) (names : List String) (limits : Limits) (e : Expr) :
    (parse tokens names limits = .ok e ↔
      (∀ name ∈ names, isIdentifier name) ∧ names.Nodup ∧
        (∃ n, Derives (Denotes names) .ternary tokens e n ∧ n ≤ limits.maxTreeDepth) ∧
        e.depth ≤ limits.maxTreeDepth) ∧
    ∀ e₁ e₂ n₁ n₂, Derives (Denotes names) .ternary tokens e₁ n₁ →
      Derives (Denotes names) .ternary tokens e₂ n₂ → e₁ = e₂ := by
  refine ⟨⟨fun h => ?_, ?_⟩, fun e₁ e₂ n₁ n₂ h₁ h₂ => h₁.unique h₂⟩
  · obtain ⟨hnames, n, hd⟩ := derives_of_parse h
    rw [parse_of_derives hnames hd] at h
    split at h
    · rename_i hfit
      obtain ⟨hid, hnodup⟩ := (checkNames_eq_ok_iff names).1 hnames
      exact ⟨hid, hnodup, ⟨n, hd, hfit.1⟩, hfit.2⟩
    · cases h
  · rintro ⟨hid, hnodup, ⟨n, hd, hn⟩, hdepth⟩
    rw [parse_of_derives ((checkNames_eq_ok_iff names).2 ⟨hid, hnodup⟩) hd, if_pos ⟨hn, hdepth⟩]

end Formulary

import Formulary.Proofs.Expr.Language
import Formulary.Proofs.Expr.Walk

/-!
# The books of the descent are right

The descent that keeps books reads what the parsers read, call by call. A call that returns a
node has moved forward and leaves the counts as it has found them; and no call, whatever becomes
of it, comes deeper than one behind the limit on depth.

* `Ready`, `Keeps`: the books that a call finds, and the ones that it leaves beside its parser.
* `InStep.goOn` to `InStep.ternary_succ`: one lemma for each call, from the calls that it makes.
* `inStep` (every call): by induction on the room for further `ternary`s.
* `parse_eq_descend`: reading a formula is this descent, from the first token on.
* `descend_bookkeeping`: **every call returns, and its books are exact.**
-/

namespace Formulary

open Formulary.Parser

variable {scope : Scope} {tokens ts : List Token} {t : Token} {c c' : Course} {room : Nat}
  {N : Nonterminal} {p : Precedence} {start : Spot} {call : Call}
  {parsed : Except ParseError (Node × List Token)} {result : Except ParseError Node}
  {e : ParseError}

/-- No spot is deeper than one behind the limit on depth. -/
def Course.Within (depth : Nat) (c : Course) : Prop :=
  ∀ s ∈ c.spots, s.nesting ≤ depth + 1 ∧ s.active ≤ depth + 1

theorem Course.Within.move {depth : Nat} (h : c.Within depth) {g : Spot → Spot}
    (hn : (g c.here).nesting ≤ depth + 1) (ha : (g c.here).active ≤ depth + 1) :
    (c.move g).Within depth :=
  List.forall_mem_cons.2 ⟨⟨hn, ha⟩, h⟩

/-- A course from which there is that room for further `ternary`s. -/
structure Ready (scope : Scope) (room : Nat) (c : Course) : Prop where
  room_eq : c.here.nesting + room = scope.maxDepth
  active_le : c.here.active ≤ c.here.nesting
  within : c.Within scope.maxDepth

/-- **Books that are kept** from a spot on, beside a parser: the result is the parser's and the
index is where the parser has stopped; a result that is no error leaves the counts as they were. -/
structure Keeps (scope : Scope) (tokens : List Token) (start : Spot)
    (parsed : Except ParseError (Node × List Token)) (result : Except ParseError Node)
    (c : Course) : Prop where
  parsed_eq : parsed = result.map (·, tokens.drop c.here.index)
  settled : ∀ node, result = .ok node → c.here.nesting = start.nesting ∧
    c.here.active = start.active ∧ c.here.index ≤ tokens.length
  within : c.Within scope.maxDepth

/-- The parser beside a call: at its opening parenthesis, a group is a primary expression. -/
def Call.nonterminal : Call → Nonterminal
  | .phrase N => N
  | .group => .primary

/-- A call that keeps its books beside its parser, wherever there is that room. -/
def InStep (scope : Scope) (tokens : List Token) (room : Nat) (call : Call) : Prop :=
  ∀ c : Course, Ready scope room c →
    (call = .group → ∃ t ts, tokens.drop c.here.index = t :: ts ∧ t.kind = .openParen) →
    Returns (scope.descend tokens call) c
      (Keeps scope tokens c.here
        (outcome (parserOf scope room call.nonterminal) (tokens.drop c.here.index)))

namespace Ready

theorem nesting_le (h : Ready scope room c) : c.here.nesting ≤ scope.maxDepth := by
  have hroom := h.room_eq
  omega

theorem next (h : Ready scope room c) : Ready scope room (c.move .next) := by
  have hnesting : c.here.nesting ≤ scope.maxDepth + 1 := Nat.le_succ_of_le h.nesting_le
  exact ⟨h.room_eq, h.active_le, h.within.move hnesting (Nat.le_trans h.active_le hnesting)⟩

/-- A `ternary` that is called comes one deeper, with one more call active. -/
theorem within_entered (h : Ready scope room c) :
    ((c.move .call).move .enter).Within scope.maxDepth := by
  have hnesting : c.here.nesting + 1 ≤ scope.maxDepth + 1 := Nat.succ_le_succ h.nesting_le
  have hactive : c.here.active + 1 ≤ scope.maxDepth + 1 :=
    Nat.succ_le_succ (Nat.le_trans h.active_le h.nesting_le)
  have hcall : (c.move .call).Within scope.maxDepth :=
    h.within.move (Nat.le_of_succ_le hnesting) hactive
  exact hcall.move hnesting hactive

theorem entered (h : Ready scope (room + 1) c) :
    Ready scope room ((c.move .call).move .enter) := by
  have hroom : c.here.nesting + 1 + room = scope.maxDepth := by
    rw [← h.room_eq]
    omega
  exact ⟨hroom, Nat.succ_le_succ h.active_le, h.within_entered⟩

end Ready

namespace Keeps

theorem error (hw : c.Within scope.maxDepth) : Keeps scope tokens start (.error e) (.error e) c :=
  ⟨rfl, nofun, hw⟩

/-- A `ternary` that is left and returns counts no more. -/
theorem left (hc : Ready scope room c) (hn : c.here.nesting = start.nesting + 1)
    (ha : c.here.active = start.active + 1) (hlen : c.here.index ≤ tokens.length) (node : Node) :
    Keeps scope tokens start (.ok (node, tokens.drop c.here.index)) (.ok node)
      ((c.move .leave).move .back) := by
  have hnesting : c.here.nesting - 1 = start.nesting := Nat.sub_eq_of_eq_add hn
  have hactive : c.here.active - 1 = start.active := Nat.sub_eq_of_eq_add ha
  have hdeep : c.here.nesting - 1 ≤ scope.maxDepth + 1 := by
    have hle := hc.nesting_le
    omega
  have hcalls : c.here.active ≤ scope.maxDepth + 1 :=
    Nat.le_succ_of_le (Nat.le_trans hc.active_le hc.nesting_le)
  have hleave : (c.move .leave).Within scope.maxDepth := hc.within.move hdeep hcalls
  have hback : ((c.move .leave).move .back).Within scope.maxDepth :=
    hleave.move hdeep (Nat.le_trans (Nat.sub_le _ _) hcalls)
  exact ⟨rfl, fun _ _ => ⟨hnesting, hactive, hlen⟩, hback⟩

end Keeps

/-- A token with which nothing goes on is the parser's error as well. -/
theorem returns_unexpected (h : tokens.drop c.here.index = ts) (hw : c.Within scope.maxDepth) :
    Returns (Descent.unexpected scope tokens) c
      (Keeps scope tokens start (.error (scope.unexpected ts))) := by
  subst h
  exact Keeps.error hw

/-- The call of a nonterminal needs no parenthesis in front of it. -/
theorem InStep.returns (h : InStep scope tokens room (.phrase N)) (hc : Ready scope room c) :
    Returns (scope.descend tokens (.phrase N)) c
      (Keeps scope tokens c.here
        (outcome (parserOf scope room N) (tokens.drop c.here.index))) :=
  h c hc nofun

/-- A call goes on where its parser does, with the counts as they were and the same room, and
fails with the error of its parser. -/
theorem InStep.bind (h : InStep scope tokens room (.phrase N)) (hc : Ready scope room c)
    (hts : tokens.drop c.here.index = ts) {f : Node → Descent Node}
    {post : Except ParseError Node → Course → Prop}
    (hok : ∀ node c',
      outcome (parserOf scope room N) ts = .ok (node, tokens.drop c'.here.index) →
      Ready scope room c' → c'.here.nesting = c.here.nesting →
      c'.here.active = c.here.active → c'.here.index ≤ tokens.length → Returns (f node) c' post)
    (herror : ∀ e c', outcome (parserOf scope room N) ts = .error e →
      c'.Within scope.maxDepth → post (.error e) c') :
    Returns (scope.descend tokens (.phrase N) >>= f) c post := by
  subst hts
  refine (h.returns hc).bind (fun node c' hkeeps => ?_) fun e c' hkeeps => ?_
  · obtain ⟨hn, ha, hlen⟩ := hkeeps.settled node rfl
    have hready : Ready scope room c' :=
      ⟨hn ▸ hc.room_eq, by rw [hn, ha]; exact hc.active_le, hkeeps.within⟩
    exact hok node c' hkeeps.parsed_eq hready hn ha hlen
  · exact herror e c' hkeeps.parsed_eq hkeeps.within

theorem InStep.goOn (ho : InStep scope tokens room (.phrase p.operand)) {left : Node}
    (hc : Ready scope room c) (hn : c.here.nesting = start.nesting)
    (ha : c.here.active = start.active) (hlen : c.here.index ≤ tokens.length) :
    Returns (scope.goOn tokens p left) c
      (Keeps scope tokens start
        (follow scope p (parserOf scope room p.operand) left (tokens.drop c.here.index))) := by
  -- by induction on the tokens that are left
  induction hleft : tokens.length - c.here.index using Nat.strongRecOn generalizing left c with
  | _ n ih =>
    subst hleft
    rw [Scope.goOn]
    refine .current (fun t rest hrest => ?_) fun hrest => ?_
    · obtain ⟨-, hdrop, -⟩ := of_drop_eq_cons hrest
      cases hop : operatorAt? p t with
      | none =>
        rw [Option.bind_some, hop, follow_stop (by simpa [hrest] using hop)]
        exact ⟨rfl, fun _ _ => ⟨hn, ha, hlen⟩, hc.within⟩
      | some op =>
        rw [Option.bind_some, hop, hrest, follow_operator hop]
        refine .consume hrest (ho.bind hc.next hdrop
          (fun right c' hright hc' hn' ha' hlen' => ?_) fun e c' hfail hw => ?_)
        · have hshorter := length_lt_of_outcome hright
          have hrestlen := congrArg List.length hdrop
          rw [List.length_drop] at hshorter hrestlen
          rw [hright]
          dsimp only
          refine .node (fun joined hjoined => ?_) fun e hdeep => ?_
          · rw [hjoined]
            exact ih _ (by omega) hc' (hn'.trans hn) (ha'.trans ha) hlen' rfl
          · rw [hdeep]
            exact .error hc'.within
        · rw [hfail]
          exact .error hw
    · rw [Option.bind_none, hrest, follow_stop (by simp)]
      exact ⟨by rw [hrest]; rfl, fun _ _ => ⟨hn, ha, hlen⟩, hc.within⟩

theorem InStep.level (ho : InStep scope tokens room (.phrase p.operand)) :
    InStep scope tokens room (.phrase (.level p)) := by
  intro c hc _
  rw [Scope.descend, Call.nonterminal, parserOf_level, outcome_chain]
  refine ho.bind hc rfl (fun left c' hleft hc' hn ha hlen => ?_) fun e c' hfail hw => ?_
  · rw [hleft]
    exact ho.goOn hc' hn ha hlen
  · rw [hfail]
    exact .error hw

theorem InStep.group (hi : InStep scope tokens room (.phrase .ternary)) :
    InStep scope tokens room .group := by
  intro c hc hopen
  obtain ⟨t, ts, ht, hk⟩ := hopen rfl
  obtain ⟨-, hdrop, -⟩ := of_drop_eq_cons ht
  have hprimary : outcome (parserOf scope room .primary) (t :: ts) = _ := outcome_primary_cons t ts
  rw [Scope.descend, Call.nonterminal, ht, hprimary, hk]
  dsimp only
  rw [outcome_group]
  refine .consume ht (hi.bind hc.next hdrop (fun node c' hinner hc' hn ha hlen => ?_)
    fun e c' hfail hw => ?_)
  · have hternary : outcome (ternary scope room) ts = _ := hinner
    rw [hternary]
    refine .eat (fun u us hu hclose => ?_) (fun u us hu hclose => ?_) fun hu => ?_
    · obtain ⟨-, hus, hlen'⟩ := of_drop_eq_cons hu
      rw [hu]
      dsimp only
      rw [if_pos hclose]
      exact ⟨by rw [← hus]; rfl, fun _ _ => ⟨hn, ha, hlen'⟩, hc'.next.within⟩
    · rw [hu]
      dsimp only
      rw [if_neg hclose]
      exact returns_unexpected hu hc'.within
    · rw [hu]
      exact returns_unexpected hu hc'.within
  · have hternary : outcome (ternary scope room) ts = _ := hfail
    rw [hternary]
    exact .error hw

theorem InStep.primary (hg : InStep scope tokens room .group) :
    InStep scope tokens room (.phrase .primary) := by
  intro c hc _
  rw [Scope.descend]
  refine .current (fun t ts ht => ?_) fun hend => ?_
  · obtain ⟨-, hdrop, hlen⟩ := of_drop_eq_cons ht
    -- a leaf is behind its token
    have hleaf (e : Expr) : Keeps scope tokens c.here (.ok (⟨e, 1⟩, ts)) (.ok ⟨e, 1⟩)
        (c.move .next) :=
      ⟨by rw [← hdrop]; rfl, fun _ _ => ⟨rfl, rfl, hlen⟩, hc.next.within⟩
    have hprimary : outcome (parserOf scope room .primary) (t :: ts) = _ :=
      outcome_primary_cons t ts
    rw [Call.nonterminal, ht, hprimary]
    dsimp only
    cases hk : t.kind with
    | number =>
      refine .consume ht ?_
      cases literal? t.text.toList with
      | some d => exact hleaf (.literal d)
      | none => exact Keeps.error hc.next.within
    | identifier =>
      refine .consume ht ?_
      cases scope.names.idxOf? t.text with
      | some slot => exact hleaf (.var t.text slot)
      | none => exact Keeps.error hc.next.within
    | openParen =>
      have hgroup := hg c hc fun _ => ⟨t, ts, ht, hk⟩
      rw [Call.nonterminal, ht, hprimary, hk] at hgroup
      exact hgroup
    | operator | closeParen | question | colon => exact returns_unexpected ht hc.within
  · rw [Call.nonterminal, hend]
    exact returns_unexpected hend hc.within

theorem InStep.unary (hp : InStep scope tokens room (.phrase .primary)) :
    InStep scope tokens room (.phrase .unary) := by
  intro c hc _
  rw [Scope.descend, Call.nonterminal]
  refine .eat (fun t ts ht hk => ?_) (fun t ts ht hk => ?_) fun hend => ?_
  · obtain ⟨-, hdrop, -⟩ := of_drop_eq_cons ht
    have hunary : outcome (parserOf scope room .unary) (t :: ts) = _ := outcome_unary_cons t ts
    rw [ht, hunary, if_pos hk]
    refine hp.bind hc.next hdrop (fun node c' hoperand hc' hn ha hlen => ?_)
      fun e c' hfail hw => ?_
    · have hprimary : outcome (Parser.primary scope (ternary scope room)) ts = _ := hoperand
      rw [hprimary]
      show Keeps scope tokens c.here _ (scope.node (.negate node.expr) node.depth) c'
      exact ⟨rfl, fun _ _ => ⟨hn, ha, hlen⟩, hc'.within⟩
    · have hprimary : outcome (Parser.primary scope (ternary scope room)) ts = _ := hfail
      rw [hprimary]
      exact .error hw
  · have hunary : outcome (parserOf scope room .unary) (t :: ts) = _ := outcome_unary_cons t ts
    have hprimary := hp.returns hc
    rw [ht, hunary, if_neg hk]
    rw [ht] at hprimary
    exact hprimary
  · have hprimary := hp.returns hc
    rw [hend] at hprimary
    rw [hend]
    exact hprimary

/-- Every level from the tightest on. -/
theorem InStep.levels (hu : InStep scope tokens room (.phrase .unary)) (p : Precedence) :
    InStep scope tokens room (.phrase (.level p)) := by
  have hproduct : InStep scope tokens room (.phrase (.level .multiplicative)) := level hu
  have hsum : InStep scope tokens room (.phrase (.level .additive)) := level hproduct
  have hrelation : InStep scope tokens room (.phrase (.level .relation)) := level hsum
  have hequality : InStep scope tokens room (.phrase (.level .equality)) := level hrelation
  have hconjunction : InStep scope tokens room (.phrase (.level .conjunction)) := level hequality
  cases p with
  | disjunction => exact level hconjunction
  | conjunction => exact hconjunction
  | equality => exact hequality
  | relation => exact hrelation
  | additive => exact hsum
  | multiplicative => exact hproduct

/-- A `ternary` that is called with no room is too deep. -/
theorem InStep.ternary_zero (scope : Scope) (tokens : List Token) :
    InStep scope tokens 0 (.phrase .ternary) := by
  intro c hc _
  have hroom := hc.room_eq
  rw [Scope.descend, Call.nonterminal, outcome_ternary_zero]
  refine .move .call (.enter (fun _ => .error hc.within_entered) fun hfits => ?_)
  have hfits' : c.here.nesting + 1 ≤ scope.maxDepth := hfits
  omega

/-- Behind a question mark, a conditional goes on inside its `ternary`. -/
theorem InStep.branches (hi : InStep scope tokens room (.phrase .ternary))
    (hc : Ready scope room c) (hn : c.here.nesting = start.nesting + 1)
    (ha : c.here.active = start.active + 1) (hts : tokens.drop c.here.index = ts)
    (condition : Node) :
    Returns (scope.branches tokens condition) c
      (Keeps scope tokens start
        (outcome (Parser.branches scope (parserOf scope room .ternary) condition) ts)) := by
  rw [Scope.branches, outcome_branches]
  refine hi.bind hc hts (fun consequent c₁ hcons hc₁ hn₁ ha₁ hlen₁ => ?_)
    fun e c' hfail hw => ?_
  · rw [hcons]
    refine .eat (fun t us ht hk => ?_) (fun t us ht hk => ?_) fun hend => ?_
    · obtain ⟨-, hdrop, -⟩ := of_drop_eq_cons ht
      rw [ht]
      dsimp only
      rw [if_pos hk]
      refine hi.bind hc₁.next hdrop (fun alternative c₂ halt hc₂ hn₂ ha₂ hlen₂ => ?_)
        fun e c' hfail hw => ?_
      · rw [halt]
        have hn' : c₂.here.nesting = start.nesting + 1 := hn₂.trans (hn₁.trans hn)
        have ha' : c₂.here.active = start.active + 1 := ha₂.trans (ha₁.trans ha)
        dsimp only
        refine .node (fun node hnode => ?_) fun e hdeep => ?_
        · rw [hnode]
          exact .move _ (.move _ (Keeps.left hc₂ hn' ha' hlen₂ node))
        · rw [hdeep]
          exact .error hc₂.within
      · rw [hfail]
        exact .error hw
    · rw [ht]
      dsimp only
      rw [if_neg hk]
      exact returns_unexpected ht hc₁.within
    · rw [hend]
      exact returns_unexpected hend hc₁.within
  · rw [hfail]
    exact .error hw

theorem InStep.ternary_succ (hi : InStep scope tokens room (.phrase .ternary))
    (hd : InStep scope tokens room (.phrase (.level .disjunction))) :
    InStep scope tokens (room + 1) (.phrase .ternary) := by
  intro c hc _
  rw [Scope.descend, Call.nonterminal, outcome_ternary_succ, outcome_conditional]
  refine .move .call (.enter (fun hdeep => ?_) fun _ => ?_)
  · have hroom := hc.room_eq
    have hdeep' : scope.maxDepth < c.here.nesting + 1 := hdeep
    omega
  refine hd.bind hc.entered rfl (fun condition c₁ hcond hc₁ hn ha hlen => ?_)
    fun e c' hfail hw => ?_
  · have hdisjunction : outcome (disjunction scope (parserOf scope room .ternary))
        (tokens.drop c.here.index) = _ := hcond
    have hn₁ : c₁.here.nesting = c.here.nesting + 1 := hn
    have ha₁ : c₁.here.active = c.here.active + 1 := ha
    rw [hdisjunction]
    refine .eat (fun t ts ht hk => ?_) (fun t ts ht hk => ?_) fun hend => ?_
    · obtain ⟨-, hdrop, -⟩ := of_drop_eq_cons ht
      rw [ht]
      dsimp only
      rw [if_pos hk]
      exact hi.branches hc₁.next hn₁ ha₁ hdrop condition
    · rw [ht]
      dsimp only
      rw [if_neg hk, ← ht]
      exact .move _ (.move _ (Keeps.left hc₁ hn₁ ha₁ hlen condition))
    · have hleft := Keeps.left hc₁ hn₁ ha₁ hlen condition
      rw [hend] at hleft ⊢
      exact .move _ (.move _ hleft)
  · have hdisjunction : outcome (disjunction scope (parserOf scope room .ternary))
        (tokens.drop c.here.index) = _ := hfail
    rw [hdisjunction]
    exact .error hw

/-- Every call keeps its books, by induction on the room for further `ternary`s. -/
theorem inStep (scope : Scope) (tokens : List Token) (room : Nat) (call : Call) :
    InStep scope tokens room call := by
  have ht : InStep scope tokens room (.phrase .ternary) := by
    induction room with
    | zero => exact .ternary_zero scope tokens
    | succ room ih => exact ih.ternary_succ (ih.group.primary.unary.levels .disjunction)
  cases call with
  | group => exact ht.group
  | phrase N =>
    cases N with
    | ternary => exact ht
    | level p => exact ht.group.primary.unary.levels p
    | unary => exact ht.group.primary.unary
    | primary => exact ht.group.primary

/-- **Reading a formula is this descent**, once its names and its parentheses have been checked:
from the first token on, with nothing entered. -/
theorem parse_eq_descend {names : List String} {limits : Limits} {last : Token}
    (hnames : checkNames [] names = .ok ()) (hlast : tokens.getLast? = some last)
    (hparens : checkParens [] tokens = .ok ())
    (hscope : scope = ⟨names, limits.maxTreeDepth, last.ending⟩) :
    ∃ result course,
      (scope.descend tokens (.phrase .ternary)).run .initial = some (result, course) ∧
      parse tokens names limits =
        match result, tokens.drop course.here.index with
        | .error e, _ => .error e
        | .ok node, [] => .ok node.expr
        | .ok _, rest => .error (scope.unexpected rest) := by
  have hready : Ready scope scope.maxDepth .initial :=
    ⟨Nat.zero_add _, Nat.le_refl _, List.forall_mem_singleton.2 ⟨Nat.zero_le _, Nat.zero_le _⟩⟩
  obtain ⟨result, course, hrun, hkeeps⟩ :=
    ((inStep scope tokens _ (.phrase .ternary)).returns hready).exists_run
  have hread : outcome (parserOf scope scope.maxDepth .ternary) tokens =
      result.map (·, tokens.drop course.here.index) := hkeeps.parsed_eq
  refine ⟨result, course, hrun, ?_⟩
  subst hscope
  rw [parse_eq, hnames, hlast, hparens]
  dsimp only
  rw [hread]
  cases result with
  | error e => rfl
  | ok node => cases tokens.drop course.here.index <;> rfl

/-- **The books of the descent are exact, in every call.** For all tokens, from any index on, and
with no more `ternary`s entered than the limit on depth allows, each call returns, with what its
parser reads or the error it finds. A node comes with the counts as they were on entry, with the
index behind at least one more token and not beyond the end, and with its own depth, which is one
or within the limit. And at no spot of the way, whatever comes of it, are more `ternary`s entered
than one more than the limit, nor more calls of them active: so many suffice, however long or
deep the tokens are. -/
theorem descend_bookkeeping (scope : Scope) (tokens : List Token) (call : Call) {start : Spot}
    (hnesting : start.nesting ≤ scope.maxDepth) (hactive : start.active ≤ start.nesting)
    (hgroup : call = .group → ∃ t ∈ tokens[start.index]?, t.kind = .openParen) :
    ∃ result course, (scope.descend tokens call).run ⟨start, []⟩ = some (result, course) ∧
      outcome (parserOf scope (scope.maxDepth - start.nesting) call.nonterminal)
        (tokens.drop start.index) = result.map (·, tokens.drop course.here.index) ∧
      (∀ node, result = .ok node →
        course.here.nesting = start.nesting ∧ course.here.active = start.active ∧
        start.index < course.here.index ∧ course.here.index ≤ tokens.length ∧
        node.depth = node.expr.depth ∧ (node.depth = 1 ∨ node.depth ≤ scope.maxDepth)) ∧
      ∀ spot ∈ course.spots,
        spot.nesting ≤ scope.maxDepth + 1 ∧ spot.active ≤ scope.maxDepth + 1 := by
  have hready : Ready scope (scope.maxDepth - start.nesting) ⟨start, []⟩ := by
    refine ⟨Nat.add_sub_cancel' hnesting, hactive, ?_⟩
    refine List.forall_mem_singleton.2 ⟨?_, ?_⟩
    · show start.nesting ≤ scope.maxDepth + 1
      omega
    · show start.active ≤ scope.maxDepth + 1
      omega
  have hopen : call = .group →
      ∃ t ts, tokens.drop start.index = t :: ts ∧ t.kind = .openParen := by
    intro hcall
    obtain ⟨t, ht, hk⟩ := hgroup hcall
    obtain ⟨hlt, rfl⟩ := List.getElem?_eq_some_iff.1 ht
    exact ⟨_, _, List.drop_eq_getElem_cons hlt, hk⟩
  obtain ⟨result, course, hrun, hkeeps⟩ := (inStep scope tokens _ call _ hready hopen).exists_run
  refine ⟨result, course, hrun, hkeeps.parsed_eq, ?_, hkeeps.within⟩
  rintro node rfl
  obtain ⟨hn, ha, hlen⟩ := hkeeps.settled node rfl
  have hread : outcome (parserOf scope (scope.maxDepth - start.nesting) call.nonterminal)
      (tokens.drop start.index) = .ok (node, tokens.drop course.here.index) := hkeeps.parsed_eq
  have hshorter := length_lt_of_outcome hread
  rw [List.length_drop, List.length_drop] at hshorter
  obtain ⟨-, -, -, hdepth, hle⟩ := sound _ _ _ _ _ _ hread
  have hpos := node.expr.depth_pos
  exact ⟨hn, ha, by omega, hlen, hdepth, by omega⟩

/-- The group in `2 * (1 ? 3 : 4)`, inside of one `ternary` and under a limit of three: the
branches of its conditional come to the limit, and not beyond it. -/
theorem descend_bookkeeping_group :
    let tokens : List Token := [⟨.number, "2", 0⟩, ⟨.operator .mul, "*", 2⟩,
      ⟨.openParen, "(", 4⟩, ⟨.number, "1", 5⟩, ⟨.question, "?", 7⟩, ⟨.number, "3", 9⟩,
      ⟨.colon, ":", 11⟩, ⟨.number, "4", 13⟩, ⟨.closeParen, ")", 14⟩]
    let scope : Scope := ⟨[], 3, 15⟩
    let start : Spot := ⟨2, 1, 1⟩
    start.nesting ≤ scope.maxDepth ∧ start.active ≤ start.nesting ∧
      (∃ t ∈ tokens[start.index]?, t.kind = .openParen) ∧
      ∃ node course, (scope.descend tokens .group).run ⟨start, []⟩ = some (.ok node, course) ∧
        course.here.index = 9 ∧ course.here.nesting = 1 ∧ course.here.active = 1 ∧
        node.depth = node.expr.depth ∧ (node.depth = 1 ∨ node.depth ≤ 3) ∧
        ∀ spot ∈ course.spots, spot.nesting ≤ 4 ∧ spot.active ≤ 4 := by
  intro tokens scope start
  have hnesting : start.nesting ≤ scope.maxDepth := by decide
  have hactive : start.active ≤ start.nesting := by decide
  have hopen : ∃ t ∈ tokens[start.index]?, t.kind = .openParen := ⟨_, rfl, rfl⟩
  obtain ⟨result, course, hrun, hparsed, hok, hspots⟩ :=
    descend_bookkeeping scope tokens .group hnesting hactive fun _ => hopen
  have hread : (outcome (parserOf scope 2 .primary) (tokens.drop 2)).toOption.map (·.2) =
      some [] := by decide +kernel
  have hresult : (result.map (·, tokens.drop course.here.index)).toOption.map (·.2) = some [] := by
    rw [← hparsed]
    exact hread
  cases result with
  | error e => cases hresult
  | ok node =>
    obtain ⟨hn, ha, -, hlen, hdepth, hle⟩ := hok node rfl
    -- the parser has stopped at the end, so the index is there
    have hrest : tokens.length ≤ course.here.index :=
      List.drop_eq_nil_iff.1 (Option.some.inj hresult)
    exact ⟨hnesting, hactive, hopen, node, course, hrun, Nat.le_antisymm hlen hrest, hn, ha,
      hdepth, hle, hspots⟩

end Formulary

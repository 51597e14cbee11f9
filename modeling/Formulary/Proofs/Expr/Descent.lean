import Formulary.Proofs.Expr.Viable

/-!
# Where the parser stops

A parser that reads something ends where its phrase does. One that fails has read tokens that
some phrase starts with, over declared names only, and stops at a token with which no phrase
goes on, at the end of the tokens, or at an operand that stands for nothing. Only the limit on
depth stops it elsewhere.

* `ends_of_outcome` (every parser): what it leaves does not go on what it has read.
* `Offends`: what a parser has read when it fails, and what it stops at.
* `Offends.within`: an offence inside a phrase is one in the phrase around it.
* `offends_of_outcome` (every parser): by induction on the room for `ternary`s.
-/

namespace Formulary.Parser

variable {scope : Scope} {room : Nat} {N M : Nonterminal} {ts us rest : List Token} {t : Token}
  {node : Node} {e : ParseError}

/-! ### Where a parser ends -/

/-- A parser that stops only where a phrase of the nonterminal ends. -/
def Munches (scope : Scope) (room : Nat) (N : Nonterminal) : Prop :=
  ∀ ts node rest, outcome (parserOf scope room N) ts = .ok (node, rest) → Ends N rest

/-- A level ends where its operands end, if no operator of its own follows. -/
theorem ends_level {p : Precedence} (ho : Ends p.operand rest)
    (h : ∀ t ∈ rest.head?, operatorAt? p t = none) : Ends (.level p) rest := by
  rintro t ht ⟨op, hk, hp⟩
  rcases Nat.eq_or_lt_of_le hp with heq | hlt
  · have hlevel : op.precedence = p := by
      revert heq
      cases p <;> cases op <;> decide
    have hnone := h t ht
    simp [operatorAt?, hk, hlevel] at hnone
  · exact ho t ht (continues_operand.2 ⟨op, hk, hlt⟩)

/-- Going on behind an operand ends where the level does, by induction on what is left. -/
theorem Munches.follow {p : Precedence} (ho : Munches scope room p.operand) {left : Node}
    (hleft : Ends p.operand ts)
    (h : follow scope p (parserOf scope room p.operand) left ts = .ok (node, rest)) :
    Ends (.level p) rest := by
  induction hlen : ts.length using Nat.strongRecOn generalizing left ts with
  | _ len ih =>
    subst hlen
    by_cases hstop : ∀ t ∈ ts.head?, operatorAt? p t = none
    · rw [follow_stop hstop] at h
      cases h
      exact ends_level hleft hstop
    · cases ts with
      | nil => simp at hstop
      | cons t ts =>
        obtain ⟨op, hop⟩ : ∃ op, operatorAt? p t = some op := by
          simpa [Option.eq_none_iff_forall_ne_some] using hstop
        rw [follow_operator hop] at h
        split at h
        · cases h
        · rename_i right rest' hright
          have hshorter : rest'.length < (t :: ts).length :=
            Nat.lt_succ_of_lt (length_lt_of_outcome hright)
          split at h
          · cases h
          · exact ih rest'.length hshorter (ho ts right rest' hright) h rfl

theorem Munches.level {p : Precedence} (ho : Munches scope room p.operand) :
    Munches scope room (.level p) := by
  intro ts node rest h
  rw [parserOf_level, outcome_chain] at h
  split at h
  · cases h
  · rename_i left rest' hleft
    exact ho.follow (ho ts left rest' hleft) h

/-- Nothing goes on an operand of a product, so that every level ends where it should. -/
theorem munches_level (scope : Scope) (room : Nat) (p : Precedence) :
    Munches scope room (.level p) := by
  have hunary : Munches scope room .unary := fun _ _ _ _ _ _ => id
  have hproduct : Munches scope room (.level .multiplicative) := .level hunary
  have hsum : Munches scope room (.level .additive) := .level hproduct
  have hrelation : Munches scope room (.level .relation) := .level hsum
  have hequality : Munches scope room (.level .equality) := .level hrelation
  have hconjunction : Munches scope room (.level .conjunction) := .level hequality
  cases p with
  | disjunction => exact .level hconjunction
  | conjunction => exact hconjunction
  | equality => exact hequality
  | relation => exact hrelation
  | additive => exact hsum
  | multiplicative => exact hproduct

/-- A whole expression ends where no operator and no question mark follows. -/
theorem ends_ternary (h : Ends (.level .disjunction) rest)
    (hq : ∀ t ∈ rest.head?, t.kind ≠ .question) : Ends .ternary rest := by
  rintro t ht (hk | ⟨op, hk⟩)
  · exact hq t ht hk
  · exact h t ht ⟨op, hk, Nat.zero_le _⟩

theorem rest_eq_of_map {made : Except ParseError Node}
    (h : made.map (·, us) = .ok (node, rest)) : us = rest := by
  cases made with
  | error e => cases h
  | ok n =>
    cases h
    rfl

theorem Munches.conditional (hi : Munches scope room .ternary) :
    Munches scope (room + 1) .ternary := by
  intro ts node rest h
  rw [outcome_ternary_succ, outcome_conditional] at h
  split at h
  · cases h
  · rename_i hcond
    cases h
    exact fun t ht => nomatch ht
  · rename_i condition t rest' hcond
    have hlevel : Ends (.level .disjunction) (t :: rest') :=
      munches_level scope room .disjunction _ _ _ hcond
    split at h
    · rw [outcome_branches] at h
      split at h
      · cases h
      · cases h
      · split at h
        · split at h
          · cases h
          · rename_i alternative rest'' halt
            have hends : Ends .ternary rest'' := hi _ _ _ halt
            obtain rfl := rest_eq_of_map h
            exact hends
        · cases h
    · rename_i hq
      cases h
      refine ends_ternary hlevel fun u hu => ?_
      obtain rfl : t = u := by simpa using hu
      exact hq

/-- **Every parser ends where its phrase does**: what it leaves does not go on what it read. -/
theorem ends_of_outcome (h : outcome (parserOf scope room N) ts = .ok (node, rest)) :
    Ends N rest := by
  have hternary : Munches scope room .ternary := by
    clear h
    induction room with
    | zero =>
      intro ts node rest h
      rw [outcome_ternary_zero] at h
      cases h
    | succ room ih => exact ih.conditional
  cases N with
  | ternary => exact hternary _ _ _ h
  | level p => exact munches_level scope room p _ _ _ h
  | unary | primary => exact fun _ _ => id

/-- What a parser has read when it ends, and that it ends there. -/
theorem read_of_outcome (h : outcome (parserOf scope room N) ts = .ok (node, rest)) :
    ∃ read, ts = read ++ rest ∧ IsRead scope.names N read ∧ Ends N rest := by
  obtain ⟨read, hts, ⟨n, hd, -⟩, -, -⟩ := sound scope room N ts node rest h
  exact ⟨read, hts, hd.isRead, ends_of_outcome h⟩

/-! ### What a parser stops at -/

/-- **What a parser has read when it fails, and what it stops at**: a token with which no
phrase goes on, or the end of the tokens; a literal that denotes no decimal; a name that is
not declared; or the limit on depth. -/
inductive Offends (scope : Scope) (N : Nonterminal) (ts : List Token) : ParseError → Prop
  | tooDeep : Offends scope N ts (.tooDeep scope.maxDepth)
  | unexpected {read rest : List Token} (hts : ts = read ++ rest) (hstarts : Starts N read)
      (hdeclared : Declared scope.names read)
      (hdead : ∀ t ∈ rest.head?, ∀ opened, Place.run ⟨N.wanted, opened⟩ (read ++ [t]) = none) :
      Offends scope N ts (scope.unexpected rest)
  | unreadable {read rest : List Token} {t : Token} (hts : ts = read ++ t :: rest)
      (hstarts : Starts N (read ++ [t])) (hdeclared : Declared scope.names read)
      (hk : t.kind = .number) (hd : literal? t.text.toList = none) :
      Offends scope N ts (scope.unexpected (t :: rest))
  | unknown {read rest : List Token} {t : Token} (hts : ts = read ++ t :: rest)
      (hstarts : Starts N (read ++ [t])) (hdeclared : Declared scope.names read)
      (hk : t.kind = .identifier) (hn : t.text ∉ scope.names) :
      Offends scope N ts (.unknownVariable t.text t.position)

/-- **An offence inside a phrase is one in the phrase around it.** -/
theorem Offends.within {lead : List Token} {opens : List Place.Opened} (h : Offends scope M ts e)
    (hlead : Leads scope.names N lead M opens) : Offends scope N (lead ++ ts) e := by
  cases h with
  | tooDeep => exact .tooDeep
  | @unexpected read rest hts hstarts hdeclared hdead =>
    subst hts
    refine .unexpected (List.append_assoc _ _ _).symm (hlead.starts read hstarts)
      (hlead.declared.append hdeclared) fun t ht opened => ?_
    rw [List.append_assoc, Place.run_append, hlead.run opened]
    exact hdead t ht _
  | @unreadable read rest t hts hstarts hdeclared hk hd =>
    subst hts
    have hstarts' := hlead.starts _ hstarts
    rw [← List.append_assoc] at hstarts'
    exact .unreadable (List.append_assoc _ _ _).symm hstarts' (hlead.declared.append hdeclared)
      hk hd
  | @unknown read rest t hts hstarts hdeclared hk hn =>
    subst hts
    have hstarts' := hlead.starts _ hstarts
    rw [← List.append_assoc] at hstarts'
    exact .unknown (List.append_assoc _ _ _).symm hstarts' (hlead.declared.append hdeclared) hk hn

/-- A parser that stops at nothing else when it fails. -/
def Offending (scope : Scope) (room : Nat) (N : Nonterminal) : Prop :=
  ∀ ts e, outcome (parserOf scope room N) ts = .error e → Offends scope N ts e

theorem Offends.of_node {expr : Expr} {below : Nat} (h : scope.node expr below = .error e) :
    Offends scope N ts e := by
  rw [scope.node_eq] at h
  split at h
  · cases h
  · cases h
    exact .tooDeep

theorem Offends.of_node_map {expr : Expr} {below : Nat}
    (h : (scope.node expr below).map (·, rest) = .error e) : Offends scope N ts e := by
  cases hnode : scope.node expr below with
  | error e' =>
    rw [hnode] at h
    cases h
    exact .of_node hnode
  | ok made =>
    rw [hnode] at h
    cases h

/-- At the very first token: nothing has been read. -/
theorem Offends.first
    (h : ∀ t ∈ ts.head?, ∀ opened, Place.step ⟨N.wanted, opened⟩ t.kind = none) :
    Offends scope N ts (scope.unexpected ts) := by
  have hts : ts = [] ++ ts := rfl
  refine .unexpected hts (starts_nil N) nofun fun t ht opened => ?_
  simp [h t ht opened]

/-- Behind a whole expression that is followed by nothing that closes what is open around it. -/
theorem Offends.unclosed {lead : List Token} {o : Place.Opened}
    (hlead : Leads scope.names N lead .ternary [o])
    (h : outcome (parserOf scope room .ternary) ts = .ok (node, rest))
    (hcolon : ∀ t ∈ rest.head?, t.kind = .colon → o ≠ .branch)
    (hclose : ∀ t ∈ rest.head?, t.kind = .closeParen → o ≠ .group) :
    Offends scope N (lead ++ ts) (scope.unexpected rest) := by
  obtain ⟨read, rfl, hread, hends⟩ := read_of_outcome h
  have hstarts : Starts N (lead ++ read) := hlead.starts read ⟨[], by simpa using hread.phrase⟩
  refine .unexpected (List.append_assoc lead read rest).symm hstarts
    (hlead.declared.append hread.declared) fun t ht opened => ?_
  cases rest with
  | nil => cases ht
  | cons u rest =>
    obtain rfl : u = t := by simpa using ht
    exact hlead.run_eq_none hread.phrase hends (hcolon u rfl) (hclose u rfl) opened

theorem Offending.group (hi : Offending scope room .ternary)
    (ho : t.kind = .openParen)
    (h : outcome (group scope (ternary scope room)) ts = .error e) :
    Offends scope .primary (t :: ts) e := by
  have hlead : Leads scope.names .primary [t] .ternary [.group] := .group ho
  rw [outcome_group] at h
  split at h
  · rename_i hin
    cases h
    exact (hi ts _ hin).within hlead
  · rename_i hin
    cases h
    exact .unclosed hlead hin nofun nofun
  · rename_i node u rest hin
    split at h
    · cases h
    · rename_i hclose
      cases h
      refine .unclosed hlead hin (fun _ _ _ => nofun) fun v hv hk => ?_
      obtain rfl : u = v := by simpa using hv
      exact absurd hk hclose

theorem Offending.primary (hi : Offending scope room .ternary) :
    Offending scope room .primary := by
  intro ts e h
  cases ts with
  | nil =>
    cases h
    exact .first nofun
  | cons t rest =>
    have hp : outcome (parserOf scope room .primary) (t :: rest) = _ := outcome_primary_cons t rest
    rw [hp] at h
    split at h
    · rename_i hk
      split at h
      · cases h
      · rename_i hd
        cases h
        have hstarts : Starts .primary ([] ++ [t]) := ⟨[], .literal .zero, 0, .leaf (.inl hk)⟩
        exact .unreadable rfl hstarts nofun hk hd
    · rename_i hk
      split at h
      · cases h
      · rename_i hslot
        cases h
        have hstarts : Starts .primary ([] ++ [t]) := ⟨[], .literal .zero, 0, .leaf (.inr hk)⟩
        exact .unknown rfl hstarts nofun hk (List.idxOf?_eq_none_iff.1 hslot)
    · rename_i hk
      exact hi.group hk h
    · rename_i hnumber hname hopen
      cases h
      refine .first fun u hu opened => ?_
      obtain rfl : t = u := by simpa using hu
      cases hk : t.kind with
      | number => exact absurd hk hnumber
      | identifier => exact absurd hk hname
      | openParen => exact absurd hk hopen
      | operator | closeParen | question | colon => rfl

/-- Tokens that start with no sign lead to the same places where one might stand. -/
theorem Offends.unsigned (h : Offends scope .primary ts e)
    (hk : ∀ t ∈ ts.head?, t.kind ≠ .operator .sub) : Offends scope .unary ts e := by
  have hstarts {read : List Token} (h : Starts .primary read) : Starts .unary read := by
    obtain ⟨behind, e, n, hd⟩ := h
    exact ⟨behind, e, n, .unsigned hd⟩
  cases h with
  | tooDeep => exact .tooDeep
  | @unexpected read rest hts hread hdeclared hdead =>
    refine .unexpected hts (hstarts hread) hdeclared fun t ht opened => ?_
    obtain ⟨u, us, hu⟩ := List.exists_cons_of_ne_nil (List.append_ne_nil_of_right_ne_nil read
      (List.cons_ne_nil t []))
    have hhead : u ∈ ts.head? := by
      subst hts
      cases read with
      | nil =>
        obtain ⟨rfl, -⟩ := List.cons.inj hu
        exact ht
      | cons v read =>
        obtain ⟨rfl, -⟩ := List.cons.inj hu
        rfl
    have hrun := hdead t ht opened
    rw [hu] at hrun ⊢
    simp only [Nonterminal.wanted, Place.run_cons] at hrun ⊢
    rw [← Place.step_unsigned (hk u hhead)]
    exact hrun
  | unreadable hts hread hdeclared hname hd =>
    exact .unreadable hts (hstarts hread) hdeclared hname hd
  | unknown hts hread hdeclared hname hn => exact .unknown hts (hstarts hread) hdeclared hname hn

theorem Offending.unary (hp : Offending scope room .primary) : Offending scope room .unary := by
  intro ts e h
  cases ts with
  | nil => exact (hp [] e h).unsigned nofun
  | cons t rest =>
    have hu : outcome (parserOf scope room .unary) (t :: rest) = _ := outcome_unary_cons t rest
    rw [hu] at h
    split at h
    · rename_i hk
      split at h
      · rename_i hoperand
        cases h
        exact (hp rest _ hoperand).within (.sign hk)
      · exact .of_node_map h
    · rename_i hk
      refine (hp (t :: rest) e h).unsigned fun u hu => ?_
      obtain rfl : t = u := by simpa using hu
      exact hk

/-- Going on behind what has been read of a level, by induction on what is left. -/
theorem Offending.follow {p : Precedence} (ho : Offending scope room p.operand) {left : Node}
    (hus : IsRead scope.names (.level p) us)
    (h : follow scope p (parserOf scope room p.operand) left ts = .error e) :
    Offends scope (.level p) (us ++ ts) e := by
  induction hlen : ts.length using Nat.strongRecOn generalizing left us ts with
  | _ len ih =>
    subst hlen
    by_cases hstop : ∀ t ∈ ts.head?, operatorAt? p t = none
    · rw [follow_stop hstop] at h
      cases h
    · cases ts with
      | nil => simp at hstop
      | cons t rest =>
        obtain ⟨op, hop⟩ : ∃ op, operatorAt? p t = some op := by
          simpa [Option.eq_none_iff_forall_ne_some] using hstop
        obtain ⟨hk, hp⟩ := operatorAt?_eq_some hop
        rw [follow_operator hop] at h
        split at h
        · rename_i hright
          cases h
          have hwithin := (ho rest _ hright).within (.operator hus hk hp)
          rwa [List.append_assoc] at hwithin
        · rename_i right rest' hright
          obtain ⟨rs, rfl, hrs, -⟩ := read_of_outcome hright
          split at h
          · rename_i hnode
            cases h
            exact .of_node hnode
          · -- what has been read grows by the operator and its right operand
            have hjoined : IsRead scope.names (.level p) (us ++ t :: rs) := by
              obtain ⟨l, m, hl⟩ := hus.phrase
              obtain ⟨r, n, hr⟩ := hrs.phrase
              have hoperator : Declared scope.names [t] := declared_singleton hk nofun
              exact ⟨⟨_, _, .operator hl hk hp hr⟩,
                hus.declared.append (hoperator.append hrs.declared)⟩
            have hshorter : rest'.length < (t :: (rs ++ rest')).length := by
              simp only [List.length_append, List.length_cons]
              omega
            have hgrown := ih rest'.length hshorter hjoined h rfl
            simpa using hgrown

theorem Offending.level {p : Precedence} (ho : Offending scope room p.operand) :
    Offending scope room (.level p) := by
  intro ts e h
  rw [parserOf_level, outcome_chain] at h
  split at h
  · rename_i hoperand
    cases h
    exact (ho ts _ hoperand).within (.operand p)
  · rename_i node rest hoperand
    obtain ⟨us, rfl, hus, -⟩ := read_of_outcome hoperand
    have hlevel : IsRead scope.names (.level p) us := by
      obtain ⟨l, n, hl⟩ := hus.phrase
      exact ⟨⟨l, n, .operand hl⟩, hus.declared⟩
    exact ho.follow hlevel h

/-- Every level from the tightest on. -/
theorem Offending.levels (hu : Offending scope room .unary) (p : Precedence) :
    Offending scope room (.level p) := by
  have hproduct : Offending scope room (.level .multiplicative) := level hu
  have hsum : Offending scope room (.level .additive) := level hproduct
  have hrelation : Offending scope room (.level .relation) := level hsum
  have hequality : Offending scope room (.level .equality) := level hrelation
  have hconjunction : Offending scope room (.level .conjunction) := level hequality
  cases p with
  | disjunction => exact level hconjunction
  | conjunction => exact hconjunction
  | equality => exact hequality
  | relation => exact hrelation
  | additive => exact hsum
  | multiplicative => exact hproduct

theorem Offending.branches (hi : Offending scope room .ternary) {condition : Node}
    (hus : IsRead scope.names (.level .disjunction) us) (hm : t.kind = .question)
    (h : outcome (branches scope (ternary scope room) condition) ts = .error e) :
    Offends scope .ternary (us ++ t :: ts) e := by
  have hlead : Leads scope.names .ternary (us ++ [t]) .ternary [.branch] := .consequent hus hm
  have hlist : us ++ t :: ts = us ++ [t] ++ ts := by simp
  rw [outcome_branches] at h
  split at h
  · rename_i hcons
    cases h
    rw [hlist]
    exact (hi ts _ hcons).within hlead
  · rename_i hcons
    cases h
    rw [hlist]
    exact .unclosed hlead hcons nofun nofun
  · rename_i consequent colon rest hcons
    split at h
    · rename_i hl
      split at h
      · rename_i halt
        cases h
        obtain ⟨read, rfl, hread, -⟩ := read_of_outcome (N := .ternary) hcons
        have hwithin := (hi rest _ halt).within (.alternative hus hm hread hl)
        simpa using hwithin
      · exact .of_node_map h
    · rename_i hcolon
      cases h
      rw [hlist]
      refine .unclosed hlead hcons (fun v hv hk => ?_) fun _ _ _ => nofun
      obtain rfl : colon = v := by simpa using hv
      exact absurd hk hcolon

theorem Offending.conditional (hi : Offending scope room .ternary) :
    Offending scope (room + 1) .ternary := by
  intro ts e h
  rw [outcome_ternary_succ, outcome_conditional] at h
  split at h
  · rename_i hcond
    cases h
    exact (hi.primary.unary.levels .disjunction ts _ hcond).within .condition
  · cases h
  · rename_i condition t rest hcond
    obtain ⟨us, rfl, hus, -⟩ := read_of_outcome (N := .level .disjunction) hcond
    split at h
    · rename_i hm
      exact hi.branches hus hm h
    · cases h

/-- **Every parser stops at an offender or the limit on depth**: by induction on the room. -/
theorem offends_of_outcome (scope : Scope) (room : Nat) (N : Nonterminal) :
    Offending scope room N := by
  have ht : Offending scope room .ternary := by
    induction room with
    | zero =>
      intro ts e h
      rw [outcome_ternary_zero] at h
      cases h
      exact .tooDeep
    | succ room ih => exact ih.conditional
  cases N with
  | ternary => exact ht
  | level p => exact ht.primary.unary.levels p
  | unary => exact ht.primary.unary
  | primary => exact ht.primary

end Formulary.Parser

import Formulary.Proofs.Expr.Language

/-!
# How a formula can start

Whether tokens can be the start of a formula is a matter of their kinds alone. A place in a
formula says what has to come next and what is open around it, and a token leads from one
place to another one or nowhere. Every phrase of the grammar leads on, so that tokens which
lead nowhere start no formula, whatever stands behind them.

* `IsPhrase`, `Starts`: the grammar by the kinds of tokens, and the starts of its phrases.
* `Place.step`, `Place.run`: where one token leads, and where a list of them does.
* `IsPhrase.run` (every phrase): it leads from where it is wanted to behind an operand, by
  induction on the derivation.
* `Leads`: the tokens of a phrase in front of a phrase inside it, with one lemma for each
  place of the grammar where a phrase stands in another.
-/

namespace Formulary

/-- Whether a token is an operand by its kind, whatever tree it may stand for. -/
def IsOperand (t : Token) (_ : Expr) : Prop := t.kind = .number ∨ t.kind = .identifier

/-- **The grammar by the kinds of tokens**, with no regard to texts, declared names and limits. -/
def IsPhrase (N : Nonterminal) (ts : List Token) : Prop := ∃ e n, Derives IsOperand N ts e n

/-- Whether a phrase of the nonterminal starts with the tokens. -/
def Starts (N : Nonterminal) (ts : List Token) : Prop := ∃ behind, IsPhrase N (ts ++ behind)

variable {N M : Nonterminal} {names : List String} {ts us lead : List Token} {t : Token} {e : Expr}
  {n : Nat} {p : Precedence}

/-- A derivation whose leaves can be read in another way gives one of that reading. -/
theorem Derives.exists_of_leaves {leaf leaf' : Token → Expr → Prop} (h : Derives leaf N ts e n)
    (hleaf : ∀ t ∈ ts, ∀ e, leaf t e → ∃ e', leaf' t e') : ∃ e', Derives leaf' N ts e' n := by
  induction h with
  | plain _ ih =>
    obtain ⟨e', h'⟩ := ih hleaf
    exact ⟨e', .plain h'⟩
  | conditional _ hm _ hl _ ihc iht ihe =>
    obtain ⟨c', hc'⟩ := ihc fun t ht => hleaf t (by simp [ht])
    obtain ⟨t', ht'⟩ := iht fun t ht => hleaf t (by simp [ht])
    obtain ⟨e', he'⟩ := ihe fun t ht => hleaf t (by simp [ht])
    exact ⟨_, .conditional hc' hm ht' hl he'⟩
  | operand _ ih =>
    obtain ⟨e', h'⟩ := ih hleaf
    exact ⟨e', .operand h'⟩
  | operator _ hk hp _ ihl ihr =>
    obtain ⟨l', hl'⟩ := ihl fun t ht => hleaf t (by simp [ht])
    obtain ⟨r', hr'⟩ := ihr fun t ht => hleaf t (by simp [ht])
    exact ⟨_, .operator hl' hk hp hr'⟩
  | unsigned _ ih =>
    obtain ⟨e', h'⟩ := ih hleaf
    exact ⟨e', .unsigned h'⟩
  | negation hk _ ih =>
    obtain ⟨e', h'⟩ := ih fun t ht => hleaf t (List.mem_cons_of_mem _ ht)
    exact ⟨_, .negation hk h'⟩
  | leaf h =>
    obtain ⟨e', h'⟩ := hleaf _ List.mem_cons_self _ h
    exact ⟨e', .leaf h'⟩
  | group ho _ hc ih =>
    obtain ⟨e', h'⟩ := ih fun t ht => hleaf t (by simp [ht])
    exact ⟨e', .group ho h' hc⟩

/-- What is derived over declared names is a phrase. -/
theorem Derives.isPhrase (h : Derives (Denotes names) N ts e n) : IsPhrase N ts := by
  have hoperand : ∀ t ∈ ts, ∀ e, Denotes names t e → ∃ e', IsOperand t e' := by
    intro t _ e hd
    cases hd with
    | number hk _ => exact ⟨e, .inl hk⟩
    | name hk _ => exact ⟨e, .inr hk⟩
  obtain ⟨e', h'⟩ := h.exists_of_leaves hoperand
  exact ⟨e', n, h'⟩

/-- What has to come next at a place: an operand with a sign or without one, an operand
without a sign, or something that may stand behind an operand. -/
inductive Place.Wanted
  | operand
  | unsigned
  | operator

/-- What is open around a place: a group up to its closing parenthesis, or the first branch
of a conditional up to its colon. -/
inductive Place.Opened
  | group
  | branch

/-- **A place in a formula**: what has to come next, and what is open, the innermost first. -/
structure Place where
  wanted : Place.Wanted
  opened : List Place.Opened

namespace Place

/-- The place behind a token of that kind, if it may stand here. -/
def step (place : Place) (kind : Token.Kind) : Option Place :=
  match place.wanted, kind with
  | .operator, .operator _ => some ⟨.operand, place.opened⟩
  | .operator, .question => some ⟨.operand, .branch :: place.opened⟩
  | .operator, .colon =>
    match place.opened with
    | .branch :: outer => some ⟨.operand, outer⟩
    | _ => none
  | .operator, .closeParen =>
    match place.opened with
    | .group :: outer => some ⟨.operator, outer⟩
    | _ => none
  | .operator, _ => none
  | _, .number => some ⟨.operator, place.opened⟩
  | _, .identifier => some ⟨.operator, place.opened⟩
  | _, .openParen => some ⟨.operand, .group :: place.opened⟩
  | .operand, .operator .sub => some ⟨.unsigned, place.opened⟩
  | _, _ => none

/-- The place behind a list of tokens, if each of them may stand where it does. -/
def run (place : Place) (ts : List Token) : Option Place :=
  ts.foldlM (fun place t => place.step t.kind) place

variable {place : Place} {opened : List Opened}

@[simp] theorem run_nil (place : Place) : place.run [] = some place := rfl

@[simp] theorem run_cons (place : Place) (t : Token) (ts : List Token) :
    place.run (t :: ts) = (place.step t.kind).bind (·.run ts) := List.foldlM_cons

theorem run_append (place : Place) (ts us : List Token) :
    place.run (ts ++ us) = (place.run ts).bind (·.run us) := List.foldlM_append

/-- A token that is no minus sign leads to the same place whether a sign may stand there. -/
theorem step_unsigned {kind : Token.Kind} (h : kind ≠ .operator .sub) (opened : List Opened) :
    step ⟨.unsigned, opened⟩ kind = step ⟨.operand, opened⟩ kind := by
  cases kind with
  | operator op =>
    cases op with
    | sub => exact absurd rfl h
    | _ => rfl
  | _ => rfl

/-- Behind an operand, a token that goes on nothing must close what is innermost. -/
theorem step_operator_eq_none (hends : Parser.Ends .ternary (t :: ts))
    (hcolon : t.kind = .colon → opened.head? ≠ some .branch)
    (hclose : t.kind = .closeParen → opened.head? ≠ some .group) :
    step ⟨.operator, opened⟩ t.kind = none := by
  have hcontinues : ¬ Parser.Continues .ternary t := hends t rfl
  cases hk : t.kind with
  | number | identifier | openParen => rfl
  | operator op => exact absurd (.inr ⟨op, hk⟩) hcontinues
  | question => exact absurd (.inl hk) hcontinues
  | colon =>
    rcases opened with _ | ⟨_ | _, outer⟩
    · rfl
    · rfl
    · exact absurd rfl (hcolon hk)
  | closeParen =>
    rcases opened with _ | ⟨_ | _, outer⟩
    · rfl
    · exact absurd rfl (hclose hk)
    · rfl

end Place

/-- What has to come next where a phrase of the nonterminal starts. -/
def Nonterminal.wanted : Nonterminal → Place.Wanted
  | .primary => .unsigned
  | _ => .operand

/-- The operand of a level may have a sign. -/
theorem Precedence.wanted_operand (p : Precedence) : p.operand.wanted = .operand := by
  cases p <;> rfl

/-- **Every phrase leads on**, from where it is wanted to behind an operand, and closes what it
opens. -/
theorem IsPhrase.run (h : IsPhrase N ts) (opened : List Place.Opened) :
    Place.run ⟨N.wanted, opened⟩ ts = some ⟨.operator, opened⟩ := by
  obtain ⟨e, n, h⟩ := h
  induction h generalizing opened with
  | plain _ ih => exact ih opened
  | conditional _ hm _ hl _ ihc iht ihe =>
    -- the colon closes the branch that the question mark has opened
    have hc := ihc opened
    have ht := iht (.branch :: opened)
    have he := ihe opened
    simp only [Nonterminal.wanted] at hc ht he ⊢
    simp [Place.run_append, hc, hm, hl, Place.step, ht, he]
  | @operand p _ _ _ _ ih =>
    have ho := ih opened
    rw [p.wanted_operand] at ho
    exact ho
  | @operator p _ _ _ _ _ _ _ _ _ hk _ _ ihl ihr =>
    have hl := ihl opened
    have hr := ihr opened
    rw [p.wanted_operand] at hr
    simp only [Nonterminal.wanted] at hl ⊢
    simp [Place.run_append, hl, hk, Place.step, hr]
  | @unsigned ts e n h ih =>
    have hp := ih opened
    -- a primary expression starts with no sign, so that none is missed
    have hhead : ∃ t us, ts = t :: us ∧ t.kind ≠ .operator .sub := by
      cases h with
      | leaf ht =>
        refine ⟨_, _, rfl, ?_⟩
        rcases ht with hk | hk <;> simp [hk]
      | group ho _ _ => exact ⟨_, _, rfl, by simp [ho]⟩
    obtain ⟨t, us, rfl, hk⟩ := hhead
    simp only [Nonterminal.wanted, Place.run_cons] at hp ⊢
    rw [← Place.step_unsigned hk]
    exact hp
  | negation hk _ ih =>
    have hp := ih opened
    simp only [Nonterminal.wanted] at hp ⊢
    simp [hk, Place.step, hp]
  | leaf h =>
    rcases h with hk | hk <;> simp [hk, Place.step, Nonterminal.wanted]
  | group ho _ hc ih =>
    have ht := ih (.group :: opened)
    simp only [Nonterminal.wanted] at ht ⊢
    simp [ho, hc, Place.step, Place.run_append, ht]

/-- Tokens that lead nowhere from where a phrase is wanted start none. -/
theorem not_starts_of_run {opened : List Place.Opened}
    (h : Place.run ⟨N.wanted, opened⟩ ts = none) : ¬ Starts N ts := by
  rintro ⟨behind, hphrase⟩
  have hrun := hphrase.run opened
  rw [Place.run_append, h] at hrun
  cases hrun

/-! ### Phrases inside phrases -/

/-- A number that stands for any operand. -/
def anyOperand : Token := ⟨.number, "0", 0⟩

theorem derives_anyOperand : Derives IsOperand .unary [anyOperand] (.literal .zero) 0 :=
  .unsigned (.leaf (.inl rfl))

/-- The names among the tokens are declared ones. -/
def Declared (names : List String) (ts : List Token) : Prop :=
  ∀ t ∈ ts, t.kind = .identifier → t.text ∈ names

theorem Declared.append (h : Declared names ts) (h' : Declared names us) :
    Declared names (ts ++ us) := by
  intro t ht
  rcases List.mem_append.1 ht with ht | ht
  · exact h t ht
  · exact h' t ht

theorem declared_singleton {kind : Token.Kind} (hk : t.kind = kind) (h : kind ≠ .identifier) :
    Declared names [t] := by
  intro u hu hname
  obtain rfl := List.mem_singleton.1 hu
  exact absurd (hk.symm.trans hname) h

/-- Tokens that have been read as a phrase over declared names. -/
structure IsRead (names : List String) (N : Nonterminal) (ts : List Token) : Prop where
  phrase : IsPhrase N ts
  declared : Declared names ts

theorem Derives.isRead (h : Derives (Denotes names) N ts e n) : IsRead names N ts := by
  refine ⟨h.isPhrase, ?_⟩
  induction h with
  | plain _ ih | operand _ ih | unsigned _ ih => exact ih
  | conditional _ hm _ hl _ ihc iht ihe =>
    have hmark : Declared names [_] := declared_singleton hm nofun
    have hcolon : Declared names [_] := declared_singleton hl nofun
    exact ihc.append (hmark.append (iht.append (hcolon.append ihe)))
  | operator _ hk _ _ ihl ihr =>
    have hoperator : Declared names [_] := declared_singleton hk nofun
    exact ihl.append (hoperator.append ihr)
  | negation hk _ ih =>
    have hsign : Declared names [_] := declared_singleton hk nofun
    exact hsign.append ih
  | leaf h =>
    intro t ht hk
    obtain rfl := List.mem_singleton.1 ht
    cases h with
    | number hk' _ => simp [hk'] at hk
    | name _ hs =>
      have hsome := Option.isSome_of_eq_some hs
      simpa using hsome
  | group ho _ hc ih =>
    have hopening : Declared names [_] := declared_singleton ho nofun
    have hclosing : Declared names [_] := declared_singleton hc nofun
    exact hopening.append (ih.append hclosing)

/-- **Tokens in front of a phrase inside a phrase**: with them in front, what starts the inner
one starts the outer one, and they lead from where the outer one is wanted to where the inner
one is, inside of what they open. -/
structure Leads (names : List String) (N : Nonterminal) (lead : List Token) (M : Nonterminal)
    (opens : List Place.Opened) : Prop where
  starts : ∀ ts, Starts M ts → Starts N (lead ++ ts)
  run : ∀ opened, Place.run ⟨N.wanted, opened⟩ lead = some ⟨M.wanted, opens ++ opened⟩
  declared : Declared names lead

namespace Leads

/-- A level starts with its first operand. -/
theorem operand (p : Precedence) : Leads names (.level p) [] p.operand [] where
  starts := by
    rintro ts ⟨behind, e, n, h⟩
    exact ⟨behind, e, n, .operand h⟩
  run opened := by
    rw [p.wanted_operand]
    rfl
  declared := nofun

/-- Behind an operator of the level comes another operand. -/
theorem operator {op : BinaryOp} (hl : IsRead names (.level p) us) (hk : t.kind = .operator op)
    (hp : op.precedence = p) : Leads names (.level p) (us ++ [t]) p.operand [] where
  starts := by
    rintro ts ⟨behind, r, n, hr⟩
    obtain ⟨l, m, hd⟩ := hl.phrase
    refine ⟨behind, .binary op l r, max m n, ?_⟩
    simpa using Derives.operator hd hk hp hr
  run opened := by
    have hrun := hl.phrase.run opened
    rw [p.wanted_operand, Place.run_append, hrun]
    simp [hk, Place.step]
  declared := hl.declared.append (declared_singleton hk nofun)

/-- Behind a minus sign comes an operand without one. -/
theorem sign (hk : t.kind = .operator .sub) : Leads names .unary [t] .primary [] where
  starts := by
    rintro ts ⟨behind, e, n, h⟩
    exact ⟨behind, .negate e, n, .negation hk h⟩
  run opened := by simp [Nonterminal.wanted, hk, Place.step]
  declared := declared_singleton hk nofun

/-- Behind an opening parenthesis comes a whole expression. -/
theorem group (ho : t.kind = .openParen) : Leads names .primary [t] .ternary [.group] where
  starts := by
    rintro ts ⟨behind, e, n, h⟩
    let closing : Token := ⟨.closeParen, ")", 0⟩
    have hc : closing.kind = .closeParen := rfl
    refine ⟨behind ++ [closing], e, n, ?_⟩
    simpa using Derives.group ho h hc
  run opened := by simp [Nonterminal.wanted, ho, Place.step]
  declared := declared_singleton ho nofun

/-- A whole expression starts with a disjunction. -/
theorem condition : Leads names .ternary [] (.level .disjunction) [] where
  starts := by
    rintro ts ⟨behind, e, n, h⟩
    exact ⟨behind, e, n + 1, .plain h⟩
  run _ := rfl
  declared := nofun

/-- Behind a condition and its question mark comes the first branch. -/
theorem consequent (hc : IsRead names (.level .disjunction) us) (hm : t.kind = .question) :
    Leads names .ternary (us ++ [t]) .ternary [.branch] where
  starts := by
    rintro ts ⟨behind, e, n, h⟩
    obtain ⟨c, k, hd⟩ := hc.phrase
    let colon : Token := ⟨.colon, ":", 0⟩
    have hl : colon.kind = .colon := rfl
    -- any operand will do as the second branch
    have hwhole := Derives.conditional hd hm h hl derives_anyOperand.whole
    have hlist : us ++ t :: ((ts ++ behind) ++ colon :: [anyOperand]) =
        us ++ [t] ++ ts ++ (behind ++ [colon, anyOperand]) := by simp
    exact ⟨behind ++ [colon, anyOperand], _, _, hlist ▸ hwhole⟩
  run opened := by
    have hrun : Place.run ⟨.operand, opened⟩ us = _ := hc.phrase.run opened
    simp [Nonterminal.wanted, Place.run_append, hrun, hm, Place.step]
  declared := hc.declared.append (declared_singleton hm nofun)

/-- Behind the first branch and its colon comes the second one. -/
theorem alternative {colon : Token} (hc : IsRead names (.level .disjunction) us)
    (hm : t.kind = .question) (ht : IsRead names .ternary ts) (hl : colon.kind = .colon) :
    Leads names .ternary (us ++ t :: (ts ++ [colon])) .ternary [] where
  starts := by
    rintro vs ⟨behind, e, n, h⟩
    obtain ⟨c, k, hcd⟩ := hc.phrase
    obtain ⟨a, m, htd⟩ := ht.phrase
    have hwhole := Derives.conditional hcd hm htd hl h
    have hlist : us ++ t :: (ts ++ colon :: (vs ++ behind)) =
        us ++ t :: (ts ++ [colon]) ++ vs ++ behind := by simp
    exact ⟨behind, _, _, hlist ▸ hwhole⟩
  run opened := by
    have hcond : Place.run ⟨.operand, opened⟩ us = _ := hc.phrase.run opened
    have hcons : Place.run ⟨.operand, .branch :: opened⟩ ts = _ := ht.phrase.run _
    simp [Nonterminal.wanted, Place.run_append, hcond, hm, Place.step, hcons, hl]
  declared := by
    have hmark : Declared names [t] := declared_singleton hm nofun
    have hcolon : Declared names [colon] := declared_singleton hl nofun
    exact hc.declared.append (hmark.append (ht.declared.append hcolon))

end Leads

/-- **What is open must be closed**: behind a whole expression inside of what `lead` opens,
a token leads nowhere that neither closes it nor goes on the expression. -/
theorem Leads.run_eq_none {read : List Token} {o : Place.Opened} (h : Leads names N lead .ternary [o])
    (hread : IsPhrase .ternary read) (hends : Parser.Ends .ternary (t :: ts))
    (hcolon : t.kind = .colon → o ≠ .branch) (hclose : t.kind = .closeParen → o ≠ .group)
    (opened : List Place.Opened) : Place.run ⟨N.wanted, opened⟩ (lead ++ read ++ [t]) = none := by
  have hinside : Place.run ⟨.operand, [o] ++ opened⟩ read = some ⟨.operator, [o] ++ opened⟩ :=
    hread.run _
  have hnext : Place.step ⟨.operator, [o] ++ opened⟩ t.kind = none :=
    Place.step_operator_eq_none hends (by simpa using hcolon) (by simpa using hclose)
  have hlead : Place.run ⟨N.wanted, opened⟩ lead = some ⟨.operand, [o] ++ opened⟩ := h.run opened
  rw [Place.run_append, Place.run_append, hlead, Option.bind_some, hinside, Option.bind_some,
    Place.run_cons, hnext, Option.bind_none]

/-- Nothing at all starts every phrase. -/
theorem starts_nil (N : Nonterminal) : Starts N [] := by
  have hunary := derives_anyOperand
  cases N with
  | ternary => exact ⟨[anyOperand], _, _, hunary.whole⟩
  | level p => exact ⟨[anyOperand], _, _, .operand (hunary.loosen p)⟩
  | unary => exact ⟨[anyOperand], _, _, hunary⟩
  | primary => exact ⟨[anyOperand], .literal .zero, 0, .leaf (.inl rfl)⟩

end Formulary

import Formulary.Proofs.Expr.Descent

/-!
# What the parser blames

A parser that fails has come to a place among the tokens, and its error is about that
place: the first token there or the end of the formula, or a name there that is not
declared. Only the limit on depth is no place.

* `Parser.Blames`: what the descent can blame.
* `Parser.blames_of_outcome` (every parser): what it stops at when it fails is such a place.
* `Parser.checkParens_error`, `Parser.checkNames_error`: what the checks before it blame.
* `parse_error`: **what an error of the parser is about.**
-/

namespace Formulary.Parser

variable {scope : Scope} {room : Nat} {N : Nonterminal} {ts rest : List Token} {node : Node}
  {e : ParseError}

/-- **What the descent blames** when it fails on the tokens `ts`: what is left at some
place, a name there that is not declared, or the limit on depth. -/
inductive Blames (scope : Scope) (ts : List Token) : ParseError → Prop
  | tooDeep : Blames scope ts (.tooDeep scope.maxDepth)
  | unexpected {rest : List Token} (h : rest <:+ ts) : Blames scope ts (scope.unexpected rest)
  | unknown {t : Token} {rest : List Token} (h : t :: rest <:+ ts) (hk : t.kind = .identifier)
      (hn : t.text ∉ scope.names) : Blames scope ts (.unknownVariable t.text t.position)

/-- What a parser leaves is the end of what it found. -/
theorem suffix_of_outcome (h : outcome (parserOf scope room N) ts = .ok (node, rest)) :
    rest <:+ ts := by
  obtain ⟨read, rfl, -⟩ := sound scope room N ts node rest h
  exact List.suffix_append read rest

/-- A parser that blames nothing else when it fails. -/
def Blaming (scope : Scope) (room : Nat) (N : Nonterminal) : Prop :=
  ∀ ts e, outcome (parserOf scope room N) ts = .error e → Blames scope ts e

/-- **Every parser blames a place or the limit on depth**: what it stops at is one. -/
theorem blames_of_outcome (scope : Scope) (room : Nat) (N : Nonterminal) :
    Blaming scope room N := by
  intro ts e h
  cases offends_of_outcome scope room N ts e h with
  | tooDeep => exact .tooDeep
  | unexpected hts => exact .unexpected (hts ▸ List.suffix_append _ _)
  | unreadable hts => exact .unexpected (hts ▸ List.suffix_append _ _)
  | unknown hts _ _ hk hn => exact .unknown (hts ▸ List.suffix_append _ _) hk hn

/-- A name that may not be declared has no place in the formula. -/
theorem checkNames_error {seen names : List String} (h : checkNames seen names = .error e) :
    e.position = none := by
  induction names generalizing seen with
  | nil => cases h
  | cons name names ih =>
    unfold checkNames at h
    split at h
    · cases h
      rfl
    · split at h
      · cases h
        rfl
      · exact ih h

/-- A name that is declared twice is blamed, if no name before that is. -/
theorem checkNames_duplicate (seen : List String) {before : List String} {name : String}
    (after : List String) (hnodup : before.Nodup) (hseen : ∀ n ∈ before, n ∉ seen)
    (hids : ∀ n ∈ before, isIdentifier n) (hname : isIdentifier name)
    (hmem : name ∈ seen ∨ name ∈ before) :
    checkNames seen (before ++ name :: after) = .error (.duplicateVariable name) := by
  induction before generalizing seen with
  | nil =>
    have hmem : name ∈ seen := by simpa using hmem
    simp [checkNames, hname, hmem]
  | cons n before ih =>
    obtain ⟨hn, hnodup⟩ := List.nodup_cons.1 hnodup
    obtain ⟨hfresh, hseen⟩ := List.forall_mem_cons.1 hseen
    obtain ⟨hid, hids⟩ := List.forall_mem_cons.1 hids
    have hseen' : ∀ m ∈ before, m ∉ n :: seen := by
      intro m hm hmem
      rcases List.mem_cons.1 hmem with rfl | hmem
      · exact hn hm
      · exact hseen m hm hmem
    have hmem' : name ∈ n :: seen ∨ name ∈ before := by
      simp only [List.mem_cons] at hmem ⊢
      rcases hmem with hmem | rfl | hmem
      · exact .inl (.inr hmem)
      · exact .inl (.inl rfl)
      · exact .inr hmem
    rw [List.cons_append, checkNames]
    simp [hid, hfresh, ih (n :: seen) hnodup hseen' hids hmem']

/-- **What the check of parentheses blames**: an opening one in front of a closing one, or
one that has no partner, which may be among those that are open. -/
theorem checkParens_error {opened : List Nat} (h : checkParens opened ts = .error e) :
    (∃ before t u after, ts = before ++ t :: u :: after ∧ t.kind = .openParen ∧
      u.kind = .closeParen ∧ e = .emptyGroup t.position) ∨
    ∃ p, e = .unbalancedParens p ∧
      (p ∈ opened ∨ ∃ t ∈ ts, t.position = p ∧ (t.kind = .openParen ∨ t.kind = .closeParen)) := by
  induction ts generalizing opened with
  | nil =>
    cases opened with
    | nil => cases h
    | cons p opened =>
      cases h
      exact .inr ⟨p, rfl, .inl List.mem_cons_self⟩
  | cons t rest ih =>
    -- what is blamed behind the first token, with more open ones or with fewer
    have hrest {opened' : List Nat} (h : checkParens opened' rest = .error e)
        (hopened : ∀ p ∈ opened', p ∈ opened ∨ (p = t.position ∧ t.kind = .openParen)) :
        (∃ before u v after, t :: rest = before ++ u :: v :: after ∧ u.kind = .openParen ∧
          v.kind = .closeParen ∧ e = .emptyGroup u.position) ∨
        ∃ p, e = .unbalancedParens p ∧
          (p ∈ opened ∨
            ∃ u ∈ t :: rest, u.position = p ∧ (u.kind = .openParen ∨ u.kind = .closeParen)) := by
      obtain ⟨before, u, v, after, rfl, hu, hv, he⟩ | ⟨p, he, hp | ⟨u, hu, hpos, hk⟩⟩ := ih h
      · exact .inl ⟨t :: before, u, v, after, rfl, hu, hv, he⟩
      · refine .inr ⟨p, he, (hopened p hp).imp_right ?_⟩
        rintro ⟨rfl, hk⟩
        exact ⟨t, List.mem_cons_self, rfl, .inl hk⟩
      · exact .inr ⟨p, he, .inr ⟨u, List.mem_cons_of_mem _ hu, hpos, hk⟩⟩
    unfold checkParens at h
    split at h
    · rename_i hk
      split at h
      · rename_i hclose
        cases h
        obtain ⟨u, after, rfl, hu⟩ : ∃ u after, rest = u :: after ∧ u.kind = .closeParen := by
          cases rest with
          | nil => cases hclose
          | cons u after => exact ⟨u, after, rfl, by simpa using hclose⟩
        exact .inl ⟨[], t, u, after, rfl, hk, hu, rfl⟩
      · exact hrest h fun p hp => (List.mem_cons.1 hp).symm.imp_right fun heq => ⟨heq, hk⟩
    · rename_i hk
      cases h
      exact .inr ⟨t.position, rfl, .inr ⟨t, List.mem_cons_self, rfl, .inr hk⟩⟩
    · exact hrest h fun p hp => .inl (List.mem_cons_of_mem _ hp)
    · exact hrest h fun p hp => .inl hp

end Formulary.Parser

namespace Formulary

open Formulary.Parser

/-- **What an error of the parser is about**: an empty group, a parenthesis without a
partner, what the descent blames, or no place. -/
theorem parse_error {tokens : List Token} {names : List String} {limits : Limits} {e : ParseError}
    (h : parse tokens names limits = .error e) :
    e.position = none ∨
    (∃ before t u after, tokens = before ++ t :: u :: after ∧ t.kind = .openParen ∧
      u.kind = .closeParen ∧ e = .emptyGroup t.position) ∨
    (∃ t ∈ tokens, (t.kind = .openParen ∨ t.kind = .closeParen) ∧
      e = .unbalancedParens t.position) ∨
    ∃ last ∈ tokens.getLast?, Blames ⟨names, limits.maxTreeDepth, last.ending⟩ tokens e := by
  rw [parse_eq] at h
  split at h
  · rename_i hnames
    cases h
    exact .inl (checkNames_error hnames)
  · split at h
    · cases h
      exact .inl rfl
    · rename_i last hlast
      split at h
      · rename_i hparens
        cases h
        obtain hempty | ⟨p, rfl, hp | ⟨t, ht, rfl, hk⟩⟩ := checkParens_error hparens
        · exact .inr (.inl hempty)
        · cases hp
        · exact .inr (.inr (.inl ⟨t, ht, hk, rfl⟩))
      · dsimp only at h
        split at h
        · rename_i hread
          cases h
          exact .inr (.inr (.inr ⟨last, hlast, blames_of_outcome _ _ _ _ _ hread⟩))
        · cases h
        · rename_i node t rest hread
          cases h
          exact .inr (.inr (.inr ⟨last, hlast, .unexpected (suffix_of_outcome hread)⟩))

end Formulary

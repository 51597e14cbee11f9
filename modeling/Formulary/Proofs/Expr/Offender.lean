import Mathlib.Data.List.Basic
import Formulary.Proofs.Expr.Blame

/-!
# Syntax errors are about the first offender

A list of tokens that is no formula has a first token with which no formula goes on, or it is
the start of formulas that have more of them; or a name among its tokens is not declared. The
parser reports which of these comes first, whatever the limits are, unless it finds the formula
too deep before.

* `FirstOffender`: what can be reported, and what has been read before it.
* `firstOffender_of_parse`: an error about a token or a name is one of these.
* `parse_first_offender`: **a syntax error is about the first token that cannot continue a
  formula, or the first name that is not declared.**
-/

namespace Formulary

open Formulary.Parser

variable {tokens : List Token} {names : List String} {limits : Limits} {e : ParseError}

/-- The literals among the tokens denote decimals. -/
def Readable (ts : List Token) : Prop :=
  ∀ t ∈ ts, t.kind = .number → (literal? t.text.toList).isSome

/-- **What is reported as the first offender** of a list of tokens: a token with which no formula
goes on, the end of tokens that some formula goes on from, or a name that is not declared. -/
inductive FirstOffender (names : List String) (tokens : List Token) : ParseError → Prop
  | token {before after : List Token} {t : Token} (htokens : tokens = before ++ t :: after)
      (hstarts : Starts .ternary before) (hdead : ¬ Starts .ternary (before ++ [t]))
      (hdeclared : Declared names before) :
      FirstOffender names tokens (.unexpectedToken t.describe t.position)
  | ending {position : Nat} (hstarts : Starts .ternary tokens) (hdeclared : Declared names tokens) :
      FirstOffender names tokens (.unexpectedToken "end of formula" position)
  | name {before after : List Token} {t : Token} (htokens : tokens = before ++ t :: after)
      (hstarts : Starts .ternary (before ++ [t])) (hdeclared : Declared names before)
      (hk : t.kind = .identifier) (hn : t.text ∉ names) :
      FirstOffender names tokens (.unknownVariable t.text t.position)

theorem FirstOffender.of_offends {scope : Scope} (hr : Readable tokens)
    (h : Offends scope .ternary tokens e) :
    e = .tooDeep scope.maxDepth ∨ FirstOffender scope.names tokens e := by
  cases h with
  | tooDeep => exact .inl rfl
  | @unexpected read rest htokens hstarts hdeclared hdead =>
    right
    cases rest with
    | nil =>
      obtain rfl : tokens = read := by simpa using htokens
      exact .ending hstarts hdeclared
    | cons t rest =>
      exact .token htokens hstarts (not_starts_of_run (hdead t rfl [])) hdeclared
  | @unreadable read rest t htokens _ _ hk hd =>
    have hliteral := hr t (by simp [htokens]) hk
    simp [hd] at hliteral
  | unknown htokens hstarts hdeclared hk hn => exact .inr (.name htokens hstarts hdeclared hk hn)

/-- What stands behind a whole formula is an offender: nothing is open that it could close. -/
theorem FirstOffender.of_rest {scope : Scope} {room : Nat} {node : Node} {t : Token}
    {rest : List Token}
    (h : outcome (parserOf scope room .ternary) tokens = .ok (node, t :: rest)) :
    FirstOffender scope.names tokens (.unexpectedToken t.describe t.position) := by
  obtain ⟨read, htokens, hread, hends⟩ := read_of_outcome h
  have hstarts : Starts .ternary read := ⟨[], by simpa using hread.phrase⟩
  have hwhole : Place.run ⟨.operand, []⟩ read = some ⟨.operator, []⟩ := hread.phrase.run []
  have hnext : Place.step ⟨.operator, []⟩ t.kind = none :=
    Place.step_operator_eq_none hends (fun _ => nofun) fun _ => nofun
  have hrun : Place.run ⟨.operand, []⟩ (read ++ [t]) = none := by
    rw [Place.run_append, hwhole, Option.bind_some, Place.run_cons, hnext, Option.bind_none]
  exact .token htokens hstarts (not_starts_of_run hrun) hread.declared

theorem position_ne_none_of_kind (h : e.kind = .unexpectedToken ∨ e.kind = .unknownVariable) :
    e.position ≠ none := by
  cases e with
  | lex error => cases error <;> simp [ParseError.kind, LexError.kind] at h
  | unexpectedToken | unknownVariable => simp [ParseError.position]
  | _ => simp [ParseError.kind] at h

/-- An error about a token or a name comes from the descent, and is about the first offender. -/
theorem firstOffender_of_parse (hr : Readable tokens) (h : parse tokens names limits = .error e)
    (he : e.kind = .unexpectedToken ∨ e.kind = .unknownVariable) :
    checkNames [] names = .ok () ∧ FirstOffender names tokens e := by
  rw [parse_eq] at h
  split at h
  · rename_i hnames
    cases h
    -- an error about declared names has no place among the tokens
    exact absurd (checkNames_error hnames) (position_ne_none_of_kind he)
  · rename_i hnames
    refine ⟨hnames, ?_⟩
    split at h
    · cases h
      simp [ParseError.kind] at he
    · split at h
      · rename_i hparens
        cases h
        obtain ⟨-, t, -, -, -, -, -, rfl⟩ | ⟨p, rfl, -⟩ := checkParens_error hparens <;>
          simp [ParseError.kind] at he
      · dsimp only at h
        split at h
        · rename_i hread
          cases h
          have hoffends := offends_of_outcome _ _ .ternary tokens _ hread
          obtain rfl | hfirst := FirstOffender.of_offends hr hoffends
          · simp [ParseError.kind] at he
          · exact hfirst
        · cases h
        · rename_i hread
          cases h
          exact .of_rest hread

/-- Tokens that are a formula by their kinds, over declared names, are read as one or found too
deep, and no token of theirs is unexpected. -/
theorem not_isPhrase_of_parse (hr : Readable tokens) (hdeclared : Declared names tokens)
    (h : parse tokens names limits = .error e) (he : e.kind = .unexpectedToken) :
    ¬ IsPhrase .ternary tokens := by
  rintro ⟨shape, n, hshape⟩
  have hleaf : ∀ t ∈ tokens, ∀ x, IsOperand t x → ∃ x', Denotes names t x' := by
    rintro t ht x (hk | hk)
    · obtain ⟨d, hd⟩ := Option.isSome_iff_exists.1 (hr t ht hk)
      exact ⟨_, .number hk hd⟩
    · have hslot : (names.idxOf? t.text).isSome := by simpa using hdeclared t ht hk
      obtain ⟨slot, hs⟩ := Option.isSome_iff_exists.1 hslot
      exact ⟨_, .name hk hs⟩
  obtain ⟨x, hx⟩ := hshape.exists_of_leaves hleaf
  have hnames := (firstOffender_of_parse hr h (.inl he)).1
  rw [parse_of_derives hnames hx] at h
  split at h
  · cases h
  · cases h
    cases he

/-- A token is described in quotes, which the end of a formula is not. -/
theorem describe_ne_end (t : Token) : t.describe ≠ "end of formula" := by
  intro h
  have hquoted (front : String) : (front ++ t.text ++ "'").toList.getLast? = some '\'' := by
    rw [String.toList_append]
    exact List.getLast?_concat
  have hlast : t.describe.toList.getLast? = some '\'' := by
    unfold Token.describe
    split <;> exact hquoted _
  rw [h] at hlast
  revert hlast
  decide

/-- **A syntax error is about the first token that cannot continue a formula**, whatever the
limits are, if the literals among the tokens denote decimals. Where it names a token, there is one
with that description and position such that the tokens before it start a formula, those up to it
start none, and every name before it is declared. Where it names the end, the tokens start a
formula that has more of them and are none themselves, and all their names are declared. Where it
names a variable, that is the first name which is not declared, and the tokens up to it start a
formula. No other token or text is ever called unexpected. -/
theorem parse_first_offender {tokens : List Token} (hr : Readable tokens) (names : List String)
    (limits : Limits) :
    (∀ t ∈ tokens, parse tokens names limits = .error (.unexpectedToken t.describe t.position) →
      ∃ before u after, tokens = before ++ u :: after ∧ u.describe = t.describe ∧
        u.position = t.position ∧ Starts .ternary before ∧ ¬ Starts .ternary (before ++ [u]) ∧
        Declared names before) ∧
    (∀ position, parse tokens names limits = .error (.unexpectedToken "end of formula" position) →
      (∃ behind, behind ≠ [] ∧ IsPhrase .ternary (tokens ++ behind)) ∧
        ¬ IsPhrase .ternary tokens ∧ Declared names tokens) ∧
    (∀ name position, parse tokens names limits = .error (.unknownVariable name position) →
      ∃ before u after, tokens = before ++ u :: after ∧ u.kind = .identifier ∧ u.text = name ∧
        u.position = position ∧ name ∉ names ∧ Declared names before ∧
        Starts .ternary (before ++ [u])) ∧
    ∀ found position, parse tokens names limits = .error (.unexpectedToken found position) →
      found = "end of formula" ∨ ∃ t ∈ tokens, found = t.describe ∧ position = t.position := by
  refine ⟨?_, ?_, ?_, ?_⟩
  · intro t _ h
    obtain ⟨-, hfirst⟩ := firstOffender_of_parse hr h (.inl rfl)
    generalize hfound : t.describe = found at hfirst
    generalize hposition : t.position = position at hfirst
    cases hfirst with
    | token htokens hstarts hdead hdeclared =>
      exact ⟨_, _, _, htokens, rfl, rfl, hstarts, hdead, hdeclared⟩
    | ending => exact absurd hfound (describe_ne_end t)
  · intro position h
    obtain ⟨-, hfirst⟩ := firstOffender_of_parse hr h (.inl rfl)
    generalize hfound : "end of formula" = found at hfirst
    cases hfirst with
    | @token _ _ t => exact absurd hfound.symm (describe_ne_end t)
    | ending hstarts hdeclared =>
      have hno := not_isPhrase_of_parse hr hdeclared h rfl
      obtain ⟨behind, hbehind⟩ := hstarts
      refine ⟨⟨behind, ?_, hbehind⟩, hno, hdeclared⟩
      rintro rfl
      exact hno (by simpa using hbehind)
  · intro name position h
    obtain ⟨-, hfirst⟩ := firstOffender_of_parse hr h (.inr rfl)
    cases hfirst with
    | name htokens hstarts hdeclared hk hn =>
      exact ⟨_, _, _, htokens, hk, rfl, rfl, hn, hdeclared, hstarts⟩
  · intro found position h
    obtain ⟨-, hfirst⟩ := firstOffender_of_parse hr h (.inl rfl)
    cases hfirst with
    | @token before after t htokens =>
      exact .inr ⟨t, by simp [htokens], rfl, rfl⟩
    | ending => exact .inl rfl

/-- A colon inside a group that is the branch of a conditional: the group must be closed before
the colon of the conditional comes, so the colon is the offender, and all before it starts a
formula. -/
theorem parse_first_offender_colon :
    let tokens : List Token := [⟨.identifier, "a", 0⟩, ⟨.question, "?", 1⟩, ⟨.openParen, "(", 2⟩,
      ⟨.number, "1", 3⟩, ⟨.colon, ":", 4⟩, ⟨.identifier, "b", 5⟩, ⟨.closeParen, ")", 6⟩]
    Readable tokens ∧
      parse tokens ["a"] {} = .error (.unexpectedToken "':'" 4) ∧
      ∃ before u after, tokens = before ++ u :: after ∧ u.describe = "':'" ∧ u.position = 4 ∧
        Starts .ternary before ∧ ¬ Starts .ternary (before ++ [u]) ∧ Declared ["a"] before := by
  intro tokens
  have hr : Readable tokens := by
    unfold Readable
    decide +kernel
  have herror : parse tokens ["a"] {} = .error (.unexpectedToken "':'" 4) := by decide +kernel
  exact ⟨hr, herror, (parse_first_offender hr ["a"] {}).1 ⟨.colon, ":", 4⟩ (by decide) herror⟩

end Formulary

import Formulary.Proofs.Expr.Blame
import Formulary.Proofs.Expr.Matching

/-!
# Errors about parentheses

The check of parentheses keeps the open ones on a stack, and the descent closes groups by
recursion. Both come to the partners of the usual matching. So what the check reports can be said
without a stack: the first fault, or the last opening parenthesis that has no partner.

* `Faulty`, `IsLone`: the faults.
* `Waits` (every run of the check): what is on the stack, token by token.
* `verdict_checkParens` (every run of the check): what it says, by induction on the tokens.
* `partners_of_group`: a group is closed by the partner of what opens it.
* `parse_parentheses`: **errors about parentheses come first, and are about the first fault.**
-/

namespace Formulary

open Formulary.Parser

variable {ts us vs tokens rest : List Token} {t : Token} {i j : Nat}

/-! ### Faults -/

/-- An opening parenthesis with a closing one directly behind it. -/
def IsEmptyGroup (tokens : List Token) (i : Nat) : Prop :=
  kindAt tokens i = some .openParen ∧ kindAt tokens (i + 1) = some .closeParen

/-- A closing parenthesis up to which, with itself, more close than open. -/
def ClosesNothing (tokens : List Token) (i : Nat) : Prop :=
  kindAt tokens i = some .closeParen ∧
    countKind .openParen (tokens.take (i + 1)) < countKind .closeParen (tokens.take (i + 1))

/-- A fault that shows at this token, whatever stands behind the next one. -/
def Faulty (tokens : List Token) (i : Nat) : Prop := IsEmptyGroup tokens i ∨ ClosesNothing tokens i

instance (tokens : List Token) (i : Nat) : Decidable (IsEmptyGroup tokens i) :=
  inferInstanceAs (Decidable (_ ∧ _))

instance (tokens : List Token) (i : Nat) : Decidable (ClosesNothing tokens i) :=
  inferInstanceAs (Decidable (_ ∧ _))

instance (tokens : List Token) (i : Nat) : Decidable (Faulty tokens i) :=
  inferInstanceAs (Decidable (_ ∨ _))

/-- An opening parenthesis that has no partner. -/
def IsLone (tokens : List Token) (i : Nat) : Prop :=
  kindAt tokens i = some .openParen ∧ ∀ j, ¬ Partners tokens i j

/-- An opening parenthesis with balanced tokens behind it, up to the end, is lone, and is the
last such one. -/
theorem lone_of_balanced (us : List Token) (ho : t.kind = .openParen) (hb : Balanced vs) :
    IsLone (us ++ t :: vs) us.length ∧ ∀ j, us.length < j → ¬ IsLone (us ++ t :: vs) j := by
  have hlist : us ++ t :: vs = (us ++ [t]) ++ vs := by simp
  have hlength : us.length + 1 = (us ++ [t]).length := by simp
  refine ⟨⟨by simp [kindAt, ho], fun j hpartners => ?_⟩, fun j hj hlone => ?_⟩
  · obtain ⟨m, -, hcloses, hbefore⟩ := hpartners.exists_take
    rw [hlist, hlength, List.drop_left] at hcloses hbefore
    exact hb.not_balanced_take hcloses hbefore
  · obtain ⟨m, rfl⟩ : ∃ m, j = us.length + 1 + m := Nat.exists_eq_add_of_le hj
    have hopens := hlone.1
    rw [hlist, hlength, kindAt_append] at hopens
    obtain ⟨k, hk⟩ := hb.exists_partner hopens
    have hpartners := hk.append (us ++ [t])
    rw [← hlist, ← hlength] at hpartners
    exact hlone.2 _ hpartners

/-! ### The check of parentheses -/

/-- **What the check has on its stack** behind the tokens: between opening parentheses at those
positions, the innermost first, all is balanced. -/
inductive Waits : List Nat → List Token → Prop
  | balanced {us : List Token} (h : Balanced us) : Waits [] us
  | inside {opened : List Nat} {us vs : List Token} {t : Token} (h : Waits opened us)
      (ho : t.kind = .openParen) (hb : Balanced vs) :
      Waits (t.position :: opened) (us ++ t :: vs)

namespace Waits

variable {opened : List Nat} {position : Nat}

theorem append (h : Waits opened us) (hb : Balanced vs) : Waits opened (us ++ vs) := by
  cases h with
  | balanced h => exact .balanced (h.append hb)
  | inside h ho hb' =>
    rw [List.append_assoc, List.cons_append]
    exact .inside h ho (hb'.append hb)

theorem push (h : Waits opened us) (ho : t.kind = .openParen) :
    Waits (t.position :: opened) (us ++ [t]) := .inside h ho .nil

/-- A closing parenthesis closes the innermost one. -/
theorem pop (h : Waits (position :: opened) us) (hc : t.kind = .closeParen) :
    Waits opened (us ++ [t]) := by
  cases h with
  | inside h ho hb =>
    rw [List.append_assoc, List.cons_append]
    exact h.append (hb.enclose ho hc)

/-- The stack is as high as there are more that open than close. -/
theorem countKind_eq (h : Waits opened us) :
    countKind .openParen us = countKind .closeParen us + opened.length := by
  induction h with
  | balanced h => simp [h.whole]
  | inside _ ho hb ih =>
    simp only [countKind_append, countKind_cons, ih, hb.whole, ho, List.length_cons]
    simp only [if_true, reduceCtorEq, if_false]
    omega

end Waits

/-- **What is to be said about the parentheses** of a list of tokens. -/
inductive Verdict (tokens : List Token) : Except ParseError Unit → Prop
  | empty {i : Nat} {t : Token} (ht : tokens[i]? = some t) (hfirst : ∀ j < i, ¬ Faulty tokens j)
      (h : IsEmptyGroup tokens i) : Verdict tokens (.error (.emptyGroup t.position))
  | excess {i : Nat} {t : Token} (ht : tokens[i]? = some t) (hfirst : ∀ j < i, ¬ Faulty tokens j)
      (h : ClosesNothing tokens i) : Verdict tokens (.error (.unbalancedParens t.position))
  | lone {i : Nat} {t : Token} (ht : tokens[i]? = some t) (hclean : ∀ j, ¬ Faulty tokens j)
      (hmore : countKind .closeParen tokens < countKind .openParen tokens)
      (h : IsLone tokens i) (hlast : ∀ j, i < j → ¬ IsLone tokens j) :
      Verdict tokens (.error (.unbalancedParens t.position))
  | matched (hclean : ∀ j, ¬ Faulty tokens j)
      (hequal : countKind .closeParen tokens = countKind .openParen tokens) : Verdict tokens (.ok ())

theorem not_faulty_of_length_le (h : tokens.length ≤ i) : ¬ Faulty tokens i := by
  have hnone : kindAt tokens i = none := by simp [kindAt, h]
  rintro (⟨hk, -⟩ | ⟨hk, -⟩) <;> simp [hnone] at hk

theorem isEmptyGroup_length_iff :
    IsEmptyGroup (us ++ t :: rest) us.length ↔
      t.kind = .openParen ∧ rest.head?.any (·.kind = .closeParen) := by
  have hkind : kindAt (us ++ t :: rest) us.length = some t.kind := by simp [kindAt]
  rw [IsEmptyGroup, hkind, kindAt_append]
  cases rest <;> simp [kindAt]

/-- A closing parenthesis closes nothing where the stack is empty. -/
theorem Waits.closesNothing_length_iff {opened : List Nat} (h : Waits opened us) :
    ClosesNothing (us ++ t :: rest) us.length ↔ t.kind = .closeParen ∧ opened = [] := by
  have hkind : kindAt (us ++ t :: rest) us.length = some t.kind := by simp [kindAt]
  have hcount := h.countKind_eq
  rw [ClosesNothing, countKind_take_succ hkind, countKind_take_succ hkind, hkind, Option.some_inj,
    List.take_left]
  refine and_congr_right fun hc => ?_
  simp only [hc, reduceCtorEq, if_false, if_true, ← List.length_eq_zero_iff]
  omega

/-- **The check finds the first fault**, from any place up to which it has found none. -/
theorem verdict_checkParens {opened : List Nat} (h : Waits opened us)
    (hclean : ∀ j < us.length, ¬ Faulty (us ++ ts) j) :
    Verdict (us ++ ts) (checkParens opened ts) := by
  induction ts generalizing us opened with
  | nil =>
    have hclean' (j : Nat) : ¬ Faulty (us ++ []) j := by
      rcases Nat.lt_or_ge j us.length with hj | hj
      · exact hclean j hj
      · exact not_faulty_of_length_le (by simpa using hj)
    have hcount := h.countKind_eq
    rw [List.append_nil] at hclean' ⊢
    cases h with
    | balanced h => exact .matched hclean' h.whole
    | @inside opened us vs t h ho hb =>
      obtain ⟨hlone, hlast⟩ := lone_of_balanced us ho hb
      rw [List.length_cons] at hcount
      exact .lone (by simp) hclean' (by omega) hlone hlast
  | cons t rest ih =>
    have ht : (us ++ t :: rest)[us.length]? = some t := by simp
    -- a token that is no fault is passed over
    have hnext {opened' : List Nat} (hwaits : Waits opened' (us ++ [t]))
        (hempty : ¬ IsEmptyGroup (us ++ t :: rest) us.length)
        (hexcess : ¬ ClosesNothing (us ++ t :: rest) us.length) :
        Verdict (us ++ t :: rest) (checkParens opened' rest) := by
      have hno : ¬ Faulty (us ++ t :: rest) us.length := not_or.2 ⟨hempty, hexcess⟩
      have hlist : us ++ t :: rest = us ++ [t] ++ rest := by simp
      rw [hlist] at hclean hno ⊢
      refine ih hwaits fun j hj => ?_
      rcases Nat.lt_succ_iff_lt_or_eq.1 (by simpa using hj) with hlt | rfl
      · exact hclean j hlt
      · exact hno
    rw [isEmptyGroup_length_iff, h.closesNothing_length_iff] at hnext
    by_cases ho : t.kind = .openParen
    · by_cases hclose : rest.head?.any (·.kind = .closeParen)
      · have hcheck : checkParens opened (t :: rest) = .error (.emptyGroup t.position) := by
          simp [checkParens, ho, hclose]
        rw [hcheck]
        exact .empty ht hclean (isEmptyGroup_length_iff.2 ⟨ho, hclose⟩)
      · rw [checkParens_open ho (by simpa using hclose)]
        exact hnext (h.push ho) (by simp [hclose]) (by simp [ho])
    · by_cases hc : t.kind = .closeParen
      · cases opened with
        | nil =>
          have hcheck : checkParens [] (t :: rest) = .error (.unbalancedParens t.position) := by
            simp [checkParens, hc]
          rw [hcheck]
          exact .excess ht hclean (h.closesNothing_length_iff.2 ⟨hc, rfl⟩)
        | cons position opened =>
          rw [checkParens_close hc]
          exact hnext (h.pop hc) (by simp [hc]) (by simp)
      · rw [checkParens_skip ho hc]
        exact hnext (h.append (.plain rfl ho hc)) (by simp [ho]) (by simp [hc])

namespace Verdict

variable {verdict : Except ParseError Unit}

/-- There is one first fault at most. -/
theorem first_unique (hi : ∀ k < i, ¬ Faulty tokens k) (hi' : Faulty tokens i)
    (hj : ∀ k < j, ¬ Faulty tokens k) (hj' : Faulty tokens j) : i = j := by
  rcases Nat.lt_trichotomy i j with hlt | heq | hlt
  · exact absurd hi' (hj i hlt)
  · exact heq
  · exact absurd hj' (hi j hlt)

theorem not_empty_of_excess (h : ClosesNothing tokens i) : ¬ IsEmptyGroup tokens i := by
  intro hempty
  have hkind := h.1.symm.trans hempty.1
  cases hkind

theorem eq_emptyGroup (h : Verdict tokens verdict) (ht : tokens[i]? = some t)
    (hfirst : ∀ j < i, ¬ Faulty tokens j) (hempty : IsEmptyGroup tokens i) :
    verdict = .error (.emptyGroup t.position) := by
  cases h with
  | empty ht' hfirst' hempty' =>
    obtain rfl := first_unique hfirst (.inl hempty) hfirst' (.inl hempty')
    cases ht.symm.trans ht'
    rfl
  | excess ht' hfirst' hexcess =>
    obtain rfl := first_unique hfirst (.inl hempty) hfirst' (.inr hexcess)
    exact absurd hempty (not_empty_of_excess hexcess)
  | lone _ hclean => exact absurd (.inl hempty) (hclean i)
  | matched hclean => exact absurd (.inl hempty) (hclean i)

theorem eq_unbalancedParens (h : Verdict tokens verdict) (ht : tokens[i]? = some t)
    (hfirst : ∀ j < i, ¬ Faulty tokens j) (hexcess : ClosesNothing tokens i) :
    verdict = .error (.unbalancedParens t.position) := by
  cases h with
  | empty ht' hfirst' hempty =>
    obtain rfl := first_unique hfirst (.inr hexcess) hfirst' (.inl hempty)
    exact absurd hempty (not_empty_of_excess hexcess)
  | excess ht' hfirst' hexcess' =>
    obtain rfl := first_unique hfirst (.inr hexcess) hfirst' (.inr hexcess')
    cases ht.symm.trans ht'
    rfl
  | lone _ hclean => exact absurd (.inr hexcess) (hclean i)
  | matched hclean => exact absurd (.inr hexcess) (hclean i)

theorem exists_lone (h : Verdict tokens verdict) (hclean : ∀ i, ¬ Faulty tokens i)
    (hmore : countKind .closeParen tokens < countKind .openParen tokens) :
    ∃ i t, tokens[i]? = some t ∧ IsLone tokens i ∧ (∀ j, i < j → ¬ IsLone tokens j) ∧
      verdict = .error (.unbalancedParens t.position) := by
  cases h with
  | empty _ _ hempty => exact absurd (.inl hempty) (hclean _)
  | excess _ _ hexcess => exact absurd (.inr hexcess) (hclean _)
  | lone ht _ _ hlone hlast => exact ⟨_, _, ht, hlone, hlast, rfl⟩
  | matched _ hequal => omega

theorem eq_ok (h : Verdict tokens verdict) (hclean : ∀ i, ¬ Faulty tokens i)
    (hle : countKind .openParen tokens ≤ countKind .closeParen tokens) : verdict = .ok () := by
  cases h with
  | empty _ _ hempty => exact absurd (.inl hempty) (hclean _)
  | excess _ _ hexcess => exact absurd (.inr hexcess) (hclean _)
  | lone _ _ hmore => omega
  | matched => rfl

end Verdict

/-! ### The descent -/

/-- **A group is closed by the partner** of the parenthesis that opens it. -/
theorem partners_of_group {scope : Scope} {room : Nat} {node : Node} {rest : List Token}
    (hk : kindAt tokens i = some .openParen)
    (h : outcome (group scope (ternary scope room)) (tokens.drop (i + 1)) = .ok (node, rest)) :
    ∃ j, Partners tokens i j ∧ rest = tokens.drop (j + 1) := by
  rw [outcome_group] at h
  split at h
  · cases h
  · cases h
  · rename_i inner closing behind hinner
    split at h
    · rename_i hc
      cases h
      obtain ⟨read, hread, ⟨n, hd, -⟩, -, -⟩ := sound scope room .ternary _ _ _ hinner
      have hb : Balanced read := hd.balanced fun _ _ hleaf => hleaf.kind
      have hcloses : kindAt (tokens.drop (i + 1)) read.length = some .closeParen := by
        rw [hread, ← Nat.add_zero read.length, kindAt_append]
        simp [kindAt, hc]
      have hbetween : Balanced ((tokens.drop (i + 1)).take read.length) := by
        rw [hread, List.take_left]
        exact hb
      refine ⟨i + 1 + read.length, .of_take hk hcloses hbetween, ?_⟩
      rw [Nat.add_assoc (i + 1), ← List.drop_drop, hread, List.drop_length_add_append]
      rfl
    · cases h

/-- The descent never complains about parentheses as such. -/
theorem Parser.Blames.kind_ne {scope : Scope} {e : ParseError} (h : Blames scope ts e) :
    e.kind ≠ .emptyGroup ∧ e.kind ≠ .unbalancedParens := by
  cases h with
  | tooDeep => exact ⟨nofun, nofun⟩
  | @unexpected rest => cases rest <;> exact ⟨nofun, nofun⟩
  | unknown => exact ⟨nofun, nofun⟩

/-- Behind the checks, nothing is said about parentheses as such. -/
theorem parse_error_kind {names : List String} {limits : Limits} {last : Token} {e : ParseError}
    (hnames : checkNames [] names = .ok ()) (hlast : tokens.getLast? = some last)
    (hparens : checkParens [] tokens = .ok ()) (h : parse tokens names limits = .error e) :
    e.kind ≠ .emptyGroup ∧ e.kind ≠ .unbalancedParens := by
  rw [parse_eq, hnames, hlast, hparens] at h
  dsimp only at h
  split at h
  · rename_i hread
    cases h
    exact (blames_of_outcome _ _ _ _ _ hread).kind_ne
  · cases h
  · cases h
    exact ⟨nofun, nofun⟩

/-- **Errors about parentheses come before every other syntax error, and are about the first
fault**, over declared names that are distinct identifiers and for all limits. The first token
that is an opening parenthesis in front of a closing one, or closes more than has been opened, is
blamed for that; if there is none, but more open than close, it is the last opening one without a
partner. Otherwise there is no such error. Every group that is read, wherever it opens, is closed
at the partner of the parenthesis that opens it, and that is its only one. -/
theorem parse_parentheses {tokens : List Token} {names : List String} (hne : tokens ≠ [])
    (hnames : ∀ name ∈ names, isIdentifier name) (hnodup : names.Nodup) (limits : Limits) :
    (∀ i t, tokens[i]? = some t → (∀ j < i, ¬ Faulty tokens j) →
      (IsEmptyGroup tokens i → parse tokens names limits = .error (.emptyGroup t.position)) ∧
      (ClosesNothing tokens i →
        parse tokens names limits = .error (.unbalancedParens t.position))) ∧
    ((∀ i, ¬ Faulty tokens i) →
      countKind .closeParen tokens < countKind .openParen tokens →
      ∃ i t, tokens[i]? = some t ∧ IsLone tokens i ∧ (∀ j, i < j → ¬ IsLone tokens j) ∧
        parse tokens names limits = .error (.unbalancedParens t.position)) ∧
    ((∀ i, ¬ Faulty tokens i) →
      countKind .openParen tokens ≤ countKind .closeParen tokens →
      ∀ e, parse tokens names limits = .error e →
        e.kind ≠ .emptyGroup ∧ e.kind ≠ .unbalancedParens) ∧
    ∀ (scope : Scope) (room i : Nat) (node : Node) (rest : List Token),
      kindAt tokens i = some .openParen →
      outcome (group scope (ternary scope room)) (tokens.drop (i + 1)) = .ok (node, rest) →
      ∃ j, Partners tokens i j ∧ (∀ k, Partners tokens i k → k = j) ∧
        rest = tokens.drop (j + 1) := by
  have hdeclared := (checkNames_eq_ok_iff names).2 ⟨hnames, hnodup⟩
  obtain ⟨last, hlast⟩ : ∃ last, tokens.getLast? = some last :=
    ⟨_, List.getLast?_eq_some_getLast hne⟩
  have hwaits : Waits [] [] := .balanced .nil
  have hverdict : Verdict tokens (checkParens [] tokens) := verdict_checkParens hwaits nofun
  -- what the check says is what is reported
  have hreport {e : ParseError} (h : checkParens [] tokens = .error e) :
      parse tokens names limits = .error e := by
    rw [parse_eq, hdeclared, hlast, h]
  refine ⟨fun i t ht hfirst => ⟨fun hempty => ?_, fun hexcess => ?_⟩, fun hclean hmore => ?_,
    fun hclean hle e he => ?_, fun scope room i node rest hk h => ?_⟩
  · exact hreport (hverdict.eq_emptyGroup ht hfirst hempty)
  · exact hreport (hverdict.eq_unbalancedParens ht hfirst hexcess)
  · obtain ⟨i, t, ht, hlone, hlast', hcheck⟩ := hverdict.exists_lone hclean hmore
    exact ⟨i, t, ht, hlone, hlast', hreport hcheck⟩
  · exact parse_error_kind hdeclared hlast (hverdict.eq_ok hclean hle) he
  · obtain ⟨j, hj, hrest⟩ := partners_of_group hk h
    exact ⟨j, hj, fun k hk => hk.unique hj, hrest⟩

/-- In `(a))()` the second closing parenthesis is blamed: the empty group comes behind it, and
that no depth at all is allowed does not matter. -/
theorem parse_parentheses_excess :
    let tokens : List Token := [⟨.openParen, "(", 0⟩, ⟨.identifier, "a", 1⟩,
      ⟨.closeParen, ")", 2⟩, ⟨.closeParen, ")", 3⟩, ⟨.openParen, "(", 4⟩, ⟨.closeParen, ")", 5⟩]
    let limits : Limits := { maxTreeDepth := 0 }
    tokens ≠ [] ∧ (∀ name ∈ ["a"], isIdentifier name) ∧ ["a"].Nodup ∧
      (∀ j < 3, ¬ Faulty tokens j) ∧ ClosesNothing tokens 3 ∧ IsEmptyGroup tokens 4 ∧
      parse tokens ["a"] limits = .error (.unbalancedParens 3) := by
  intro tokens limits
  have hne : tokens ≠ [] := by decide
  have hnames : ∀ name ∈ ["a"], isIdentifier name := by decide +kernel
  have hnodup : ["a"].Nodup := by decide
  have hfirst : ∀ j < 3, ¬ Faulty tokens j := by decide
  have hexcess : ClosesNothing tokens 3 := by decide
  have hexact := (parse_parentheses hne hnames hnodup limits).1 3 ⟨.closeParen, ")", 3⟩ rfl hfirst
  exact ⟨hne, hnames, hnodup, hfirst, hexcess, by decide, hexact.2 hexcess⟩

end Formulary

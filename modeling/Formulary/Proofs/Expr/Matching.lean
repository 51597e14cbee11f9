import Mathlib.Data.Nat.Find
import Formulary.Proofs.Expr.Grammar

/-!
# Partners of parentheses

Parentheses are counted. Tokens are balanced if nowhere more of them close than open, and as
many close as open in all; an opening and a closing one are partners if the tokens between them
are balanced.

* `Balanced`, `Partners`: the usual matching.
* `Balanced.exists_partner`, `Partners.unique`: in balanced tokens each opening parenthesis has a
  partner, and nowhere has it two.
* `Derives.balanced` (every derivation): **what the grammar derives is balanced.**
-/

namespace Formulary

variable {ts us vs tokens : List Token} {t : Token} {kind : Token.Kind} {i j k m n : Nat}

/-- The number of tokens of that kind. -/
def countKind (kind : Token.Kind) (ts : List Token) : Nat := ts.countP (·.kind = kind)

/-- The kind of the token at an index, if there is one. -/
def kindAt (ts : List Token) (i : Nat) : Option Token.Kind := ts[i]?.map (·.kind)

@[simp] theorem countKind_nil (kind : Token.Kind) : countKind kind [] = 0 := rfl

@[simp] theorem countKind_cons (kind : Token.Kind) (t : Token) (ts : List Token) :
    countKind kind (t :: ts) = countKind kind ts + if t.kind = kind then 1 else 0 := by
  simp [countKind, List.countP_cons]

@[simp] theorem countKind_append (kind : Token.Kind) (us vs : List Token) :
    countKind kind (us ++ vs) = countKind kind us + countKind kind vs := List.countP_append

theorem kindAt_append (us ts : List Token) (i : Nat) :
    kindAt (us ++ ts) (us.length + i) = kindAt ts i := by
  rw [kindAt, kindAt, List.getElem?_append_right (Nat.le_add_right _ _), Nat.add_sub_cancel_left]

theorem kindAt_drop (ts : List Token) (i m : Nat) : kindAt (ts.drop i) m = kindAt ts (i + m) := by
  simp [kindAt]

theorem kindAt_take (ts : List Token) (h : m < n) : kindAt (ts.take n) m = kindAt ts m := by
  rw [kindAt, kindAt, List.getElem?_take_of_lt h]

/-- One token more counts by its kind. -/
theorem countKind_take_succ (h : kindAt ts i = some kind) (kind' : Token.Kind) :
    countKind kind' (ts.take (i + 1)) =
      countKind kind' (ts.take i) + if kind = kind' then 1 else 0 := by
  obtain ⟨t, ht, rfl⟩ := Option.map_eq_some_iff.1 h
  simp [List.take_add_one, ht]

/-- **Balanced tokens**: nowhere do more parentheses close than open, and in all as many do. -/
structure Balanced (ts : List Token) : Prop where
  starts : ∀ n, countKind .closeParen (ts.take n) ≤ countKind .openParen (ts.take n)
  whole : countKind .closeParen ts = countKind .openParen ts

/-- **Partners in the usual matching**: an opening and a closing parenthesis with balanced tokens
between them. -/
structure Partners (tokens : List Token) (i j : Nat) : Prop where
  opens : kindAt tokens i = some .openParen
  closes : kindAt tokens j = some .closeParen
  lt : i < j
  balanced : Balanced ((tokens.drop (i + 1)).take (j - (i + 1)))

namespace Balanced

theorem nil : Balanced [] := ⟨by simp, rfl⟩

theorem plain (hk : t.kind = kind) (ho : kind ≠ .openParen) (hc : kind ≠ .closeParen) :
    Balanced [t] := by
  refine ⟨fun n => ?_, by simp [hk, ho, hc]⟩
  cases n <;> simp [hk, ho, hc]

theorem append (h : Balanced us) (h' : Balanced vs) : Balanced (us ++ vs) := by
  refine ⟨fun n => ?_, ?_⟩
  · rw [List.take_append, countKind_append, countKind_append]
    exact Nat.add_le_add (h.starts n) (h'.starts _)
  · rw [countKind_append, countKind_append, h.whole, h'.whole]

/-- Balanced tokens between parentheses are balanced with them. -/
theorem enclose {opening closing : Token} (ho : opening.kind = .openParen) (h : Balanced ts)
    (hc : closing.kind = .closeParen) : Balanced (opening :: (ts ++ [closing])) := by
  refine ⟨fun n => ?_, by simp [ho, hc, h.whole]⟩
  cases n with
  | zero => simp
  | succ n =>
    have hstart := h.starts n
    -- the closing one has been reached or not
    have hlast : countKind .closeParen ([closing].take (n - ts.length)) ≤ 1 := by
      cases n - ts.length <;> simp [hc]
    simp only [List.take_succ_cons, List.take_append, countKind_cons, countKind_append, ho]
    simp only [if_true, reduceCtorEq, if_false]
    omega

/-- No closing parenthesis stands behind balanced tokens inside of balanced ones. -/
theorem not_balanced_take (h : Balanced ts) (hk : kindAt ts m = some .closeParen) :
    ¬ Balanced (ts.take m) := by
  intro hbefore
  have hstart := h.starts (m + 1)
  have hwhole := hbefore.whole
  rw [countKind_take_succ hk, countKind_take_succ hk] at hstart
  simp only [if_true, reduceCtorEq, if_false] at hstart
  omega

end Balanced

/-- Where more parentheses close than open, one of them closes none of these. -/
theorem exists_balanced_take (h : countKind .openParen ts < countKind .closeParen ts) :
    ∃ m, kindAt ts m = some .closeParen ∧ Balanced (ts.take m) := by
  let Exceeds (n : Nat) : Prop :=
    countKind .openParen (ts.take n) < countKind .closeParen (ts.take n)
  have hexists : ∃ n, Exceeds n := ⟨ts.length, by simpa [Exceeds] using h⟩
  -- the shortest start with more that close ends with the one
  obtain ⟨m, hm⟩ : ∃ m, Nat.find hexists = m + 1 := by
    refine Nat.exists_eq_succ_of_ne_zero fun hzero => ?_
    have hspec : Exceeds (Nat.find hexists) := Nat.find_spec hexists
    simp [hzero, Exceeds] at hspec
  have hmore : Exceeds (m + 1) := hm ▸ Nat.find_spec hexists
  have hless (n : Nat) (hn : n ≤ m) : ¬ Exceeds n := Nat.find_min hexists (by omega)
  have hbefore := hless m (Nat.le_refl m)
  cases hk : kindAt ts m with
  | none =>
    have hend : ts.length ≤ m := by simpa [kindAt] using hk
    simp only [Exceeds, List.take_of_length_le hend,
      List.take_of_length_le (Nat.le_succ_of_le hend)] at hmore hbefore
    exact absurd hmore hbefore
  | some kind =>
    simp only [Exceeds, countKind_take_succ hk] at hmore hbefore
    by_cases hclose : kind = .closeParen
    · refine ⟨m, by rw [hk, hclose], fun n => ?_, ?_⟩
      · have hn := hless (min n m) (Nat.min_le_right n m)
        simp only [Exceeds] at hn
        rw [List.take_take]
        omega
      · simp only [hclose, if_true, reduceCtorEq, if_false] at hmore
        omega
    · rw [if_neg hclose] at hmore
      omega

/-- A partner closes balanced tokens behind the parenthesis. -/
theorem Partners.of_take (hk : kindAt tokens i = some .openParen)
    (hm : kindAt (tokens.drop (i + 1)) m = some .closeParen)
    (hb : Balanced ((tokens.drop (i + 1)).take m)) : Partners tokens i (i + 1 + m) := by
  refine ⟨hk, by rwa [kindAt_drop] at hm, by omega, ?_⟩
  rwa [Nat.add_sub_cancel_left]

theorem Partners.exists_take (h : Partners tokens i j) :
    ∃ m, j = i + 1 + m ∧ kindAt (tokens.drop (i + 1)) m = some .closeParen ∧
      Balanced ((tokens.drop (i + 1)).take m) := by
  have hlt := h.lt
  have hj : j = i + 1 + (j - (i + 1)) := by omega
  refine ⟨j - (i + 1), hj, ?_, h.balanced⟩
  rw [kindAt_drop, ← hj]
  exact h.closes

/-- An opening parenthesis among balanced tokens has a partner there. -/
theorem Balanced.exists_partner (h : Balanced ts) (hk : kindAt ts i = some .openParen) :
    ∃ j, Partners ts i j := by
  have hbehind : countKind .openParen (ts.drop (i + 1)) <
      countKind .closeParen (ts.drop (i + 1)) := by
    have hstart := h.starts i
    have hwhole := h.whole
    rw [← List.take_append_drop (i + 1) ts, countKind_append, countKind_append,
      countKind_take_succ hk, countKind_take_succ hk] at hwhole
    simp only [if_true, reduceCtorEq, if_false] at hwhole
    omega
  obtain ⟨m, hm, hb⟩ := exists_balanced_take hbehind
  exact ⟨i + 1 + m, .of_take hk hm hb⟩

/-- A parenthesis has one partner at most. -/
theorem Partners.unique (h : Partners tokens i j) (h' : Partners tokens i k) : j = k := by
  -- behind one partner, no other closes balanced tokens
  have hnot {m n : Nat} (hlt : m < n)
      (hm : kindAt (tokens.drop (i + 1)) m = some .closeParen)
      (hn : Balanced ((tokens.drop (i + 1)).take n)) :
      ¬ Balanced ((tokens.drop (i + 1)).take m) := by
    rw [← kindAt_take _ hlt] at hm
    have hbefore := hn.not_balanced_take hm
    rwa [List.take_take, Nat.min_eq_left (Nat.le_of_lt hlt)] at hbefore
  obtain ⟨m, rfl, hm, hb⟩ := h.exists_take
  obtain ⟨n, rfl, hn, hb'⟩ := h'.exists_take
  rcases Nat.lt_trichotomy m n with hlt | rfl | hlt
  · exact absurd hb (hnot hlt hm hb')
  · rfl
  · exact absurd hb' (hnot hlt hn hb)

/-- Tokens in front do not change what is matched behind them. -/
theorem Partners.append (us : List Token) (h : Partners ts i j) :
    Partners (us ++ ts) (us.length + i) (us.length + j) := by
  refine ⟨by rw [kindAt_append, h.opens], by rw [kindAt_append, h.closes],
    Nat.add_lt_add_left h.lt _, ?_⟩
  have hdrop : (us ++ ts).drop (us.length + i + 1) = ts.drop (i + 1) := by
    rw [Nat.add_assoc, List.drop_length_add_append]
  have htake : us.length + j - (us.length + i + 1) = j - (i + 1) := by omega
  rw [hdrop, htake]
  exact h.balanced

/-- **What the grammar derives is balanced.** -/
theorem Derives.balanced {leaf : Token → Expr → Prop} {N : Nonterminal} {e : Expr} {n : Nat}
    (hleaf : ∀ t e, leaf t e → t.kind ≠ .openParen ∧ t.kind ≠ .closeParen)
    (h : Derives leaf N ts e n) : Balanced ts := by
  induction h with
  | plain _ ih | operand _ ih | unsigned _ ih => exact ih
  | conditional _ hm _ hl _ ihc iht ihe =>
    have hmark : Balanced [_] := .plain hm nofun nofun
    have hcolon : Balanced [_] := .plain hl nofun nofun
    exact ihc.append (hmark.append (iht.append (hcolon.append ihe)))
  | operator _ hk _ _ ihl ihr =>
    have hoperator : Balanced [_] := .plain hk nofun nofun
    exact ihl.append (hoperator.append ihr)
  | negation hk _ ih =>
    have hsign : Balanced [_] := .plain hk nofun nofun
    exact hsign.append ih
  | leaf h => exact .plain rfl (hleaf _ _ h).1 (hleaf _ _ h).2
  | group ho _ hc ih => exact ih.enclose ho hc

end Formulary

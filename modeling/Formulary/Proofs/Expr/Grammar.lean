import Formulary.Expr.Parser

/-!
# The grammar of formulas

The grammar as a derivation relation, apart from the parser. A derivation says
which nonterminal derives which tokens, with which tree, and how many `ternary`
nonterminals stand above one another in it; operators associate to the left
because the left operand is derived by the level itself.

* `Derives`: the relation, over any reading of the single tokens as leaves.
* `Denotes`: the reading of number and name tokens over declared names.
* `Derives.map`: derivations along maps of the tokens and of the trees.
* `Derives.checkParens_append`: a derived sequence is balanced, and has no empty group.
-/

namespace Formulary

/-- The nonterminals of the grammar: a whole expression, a level of operators,
and their operands with and without a sign. -/
inductive Nonterminal
  | ternary
  | level (p : Precedence)
  | unary
  | primary

/-- The nonterminal of the operands of a level. -/
def Precedence.operand : Precedence → Nonterminal
  | .disjunction => .level .conjunction
  | .conjunction => .level .equality
  | .equality => .level .relation
  | .relation => .level .additive
  | .additive => .level .multiplicative
  | .multiplicative => .unary

/-- How tightly a level binds, the loosest as zero. -/
def Precedence.rank : Precedence → Nat
  | .disjunction => 0
  | .conjunction => 1
  | .equality => 2
  | .relation => 3
  | .additive => 4
  | .multiplicative => 5

/-- What a single token stands for over the declared names: a number for its
decimal, a name for the variable in the name's slot. -/
inductive Denotes (names : List String) : Token → Expr → Prop
  | number {t : Token} {d : Decimal} (hk : t.kind = .number)
      (hd : literal? t.text.toList = some d) : Denotes names t (.literal d)
  | name {t : Token} {slot : Nat} (hk : t.kind = .identifier)
      (hs : names.idxOf? t.text = some slot) : Denotes names t (.var t.text slot)

/-- **The grammar.** `Derives leaf N ts e n`: the nonterminal `N` derives the
tokens `ts` with the tree `e`, and `n` is the greatest number of nonterminals
`ternary` on a path of the derivation. -/
inductive Derives (leaf : Token → Expr → Prop) : Nonterminal → List Token → Expr → Nat → Prop
  | plain {ts : List Token} {e : Expr} {n : Nat} (h : Derives leaf (.level .disjunction) ts e n) :
      Derives leaf .ternary ts e (n + 1)
  | conditional {cs ts es : List Token} {mark colon : Token} {c t e : Expr} {k m n : Nat}
      (hc : Derives leaf (.level .disjunction) cs c k) (hm : mark.kind = .question)
      (ht : Derives leaf .ternary ts t m) (hl : colon.kind = .colon)
      (he : Derives leaf .ternary es e n) :
      Derives leaf .ternary (cs ++ mark :: (ts ++ colon :: es)) (.conditional c t e)
        (max k (max m n) + 1)
  | operand {p : Precedence} {ts : List Token} {e : Expr} {n : Nat}
      (h : Derives leaf p.operand ts e n) : Derives leaf (.level p) ts e n
  | operator {p : Precedence} {ls rs : List Token} {t : Token} {op : BinaryOp} {l r : Expr}
      {m n : Nat} (hl : Derives leaf (.level p) ls l m) (hk : t.kind = .operator op)
      (hp : op.precedence = p) (hr : Derives leaf p.operand rs r n) :
      Derives leaf (.level p) (ls ++ t :: rs) (.binary op l r) (max m n)
  | unsigned {ts : List Token} {e : Expr} {n : Nat} (h : Derives leaf .primary ts e n) :
      Derives leaf .unary ts e n
  | negation {ts : List Token} {t : Token} {e : Expr} {n : Nat} (hk : t.kind = .operator .sub)
      (h : Derives leaf .primary ts e n) : Derives leaf .unary (t :: ts) (.negate e) n
  | leaf {t : Token} {e : Expr} (h : leaf t e) : Derives leaf .primary [t] e 0
  | group {ts : List Token} {opening closing : Token} {e : Expr} {n : Nat}
      (ho : opening.kind = .openParen) (h : Derives leaf .ternary ts e n)
      (hc : closing.kind = .closeParen) :
      Derives leaf .primary (opening :: (ts ++ [closing])) e n

namespace Parser

variable {t : Token} {opened : List Nat} {rest : List Token}

theorem checkParens_skip (ho : t.kind ≠ .openParen) (hc : t.kind ≠ .closeParen) :
    checkParens opened (t :: rest) = checkParens opened rest := by
  conv => lhs; unfold checkParens
  split <;> simp_all

theorem checkParens_open (ho : t.kind = .openParen)
    (hne : rest.head?.any (·.kind = .closeParen) = false) :
    checkParens opened (t :: rest) = checkParens (t.position :: opened) rest := by
  conv => lhs; unfold checkParens
  simp [ho, hne]

theorem checkParens_close {position : Nat} (hc : t.kind = .closeParen) :
    checkParens (position :: opened) (t :: rest) = checkParens opened rest := by
  conv => lhs; unfold checkParens
  simp [hc]

end Parser

namespace Derives

variable {leaf : Token → Expr → Prop} {N : Nonterminal} {ts : List Token} {e : Expr} {n : Nat}

/-- The operand of any level derives what a unary expression does. -/
theorem loosen (h : Derives leaf .unary ts e n) (p : Precedence) :
    Derives leaf p.operand ts e n := by
  have h4 : Derives leaf (.level .multiplicative) ts e n := .operand h
  have h3 : Derives leaf (.level .additive) ts e n := .operand h4
  have h2 : Derives leaf (.level .relation) ts e n := .operand h3
  have h1 : Derives leaf (.level .equality) ts e n := .operand h2
  cases p with
  | disjunction => exact .operand h1
  | conjunction => exact h1
  | equality => exact h2
  | relation => exact h3
  | additive => exact h4
  | multiplicative => exact h

/-- A disjunction derives what any level does. -/
theorem disjunction {p : Precedence} (h : Derives leaf (.level p) ts e n) :
    Derives leaf (.level .disjunction) ts e n := by
  have h1 (h : Derives leaf (.level .conjunction) ts e n) :
      Derives leaf (.level .disjunction) ts e n := .operand h
  have h2 (h : Derives leaf (.level .equality) ts e n) :
      Derives leaf (.level .disjunction) ts e n := h1 (.operand h)
  have h3 (h : Derives leaf (.level .relation) ts e n) :
      Derives leaf (.level .disjunction) ts e n := h2 (.operand h)
  have h4 (h : Derives leaf (.level .additive) ts e n) :
      Derives leaf (.level .disjunction) ts e n := h3 (.operand h)
  cases p with
  | disjunction => exact h
  | conjunction => exact h1 h
  | equality => exact h2 h
  | relation => exact h3 h
  | additive => exact h4 h
  | multiplicative => exact h4 (.operand h)

/-- What is derived as a unary expression is a whole one. -/
theorem whole (h : Derives leaf .unary ts e n) : Derives leaf .ternary ts e (n + 1) :=
  .plain (h.loosen .disjunction).disjunction

theorem ternary_pos (h : Derives leaf .ternary ts e n) : 0 < n := by
  cases h <;> omega

/-- **A derivation is carried along by maps** of the tokens and of the trees that keep the kinds
of the one, the nodes of the other, and what stands at the leaves. -/
theorem map {leaf' : Token → Expr → Prop} (g : Token → Token) (f : Expr → Expr)
    (hkind : ∀ t, (g t).kind = t.kind) (hnegate : ∀ e, f (.negate e) = .negate (f e))
    (hbinary : ∀ op l r, f (.binary op l r) = .binary op (f l) (f r))
    (hconditional : ∀ c t e, f (.conditional c t e) = .conditional (f c) (f t) (f e))
    (hleaf : ∀ t e, leaf t e → leaf' (g t) (f e)) (h : Derives leaf N ts e n) :
    Derives leaf' N (ts.map g) (f e) n := by
  induction h with
  | plain _ ih => exact .plain ih
  | conditional _ hm _ hl _ ihc iht ihe =>
    rw [hconditional]
    simp only [List.map_append, List.map_cons]
    exact .conditional ihc ((hkind _).trans hm) iht ((hkind _).trans hl) ihe
  | operand _ ih => exact .operand ih
  | operator _ hk hp _ ihl ihr =>
    rw [hbinary]
    simp only [List.map_append, List.map_cons]
    exact .operator ihl ((hkind _).trans hk) hp ihr
  | unsigned _ ih => exact .unsigned ih
  | negation hk _ ih =>
    rw [hnegate]
    exact .negation ((hkind _).trans hk) ih
  | leaf h => exact .leaf (hleaf _ _ h)
  | group ho _ hc ih =>
    simp only [List.map_append, List.map_cons, List.map_nil]
    exact .group ((hkind _).trans ho) ih ((hkind _).trans hc)

/-- A derived sequence starts with a token that closes nothing. -/
theorem head (hleaf : ∀ t e, leaf t e → t.kind ≠ .closeParen) (h : Derives leaf N ts e n) :
    ∃ t us, ts = t :: us ∧ t.kind ≠ .closeParen := by
  induction h with
  | plain _ ih => exact ih
  | conditional _ _ _ _ _ ihc _ _ =>
    obtain ⟨t, us, rfl, ht⟩ := ihc
    exact ⟨t, _, rfl, ht⟩
  | operand _ ih => exact ih
  | operator _ _ _ _ ihl _ =>
    obtain ⟨t, us, rfl, ht⟩ := ihl
    exact ⟨t, _, rfl, ht⟩
  | unsigned _ ih => exact ih
  | negation hk _ _ => exact ⟨_, _, rfl, by simp [hk]⟩
  | leaf h => exact ⟨_, _, rfl, hleaf _ _ h⟩
  | group ho _ _ _ => exact ⟨_, _, rfl, by simp [ho]⟩

/-- **A derived sequence is balanced**: the check of parentheses passes over it and
goes on behind it with the same open ones. -/
theorem checkParens_append
    (hleaf : ∀ t e, leaf t e → t.kind ≠ .openParen ∧ t.kind ≠ .closeParen)
    (h : Derives leaf N ts e n) (opened : List Nat) (rest : List Token) :
    Parser.checkParens opened (ts ++ rest) = Parser.checkParens opened rest := by
  induction h generalizing opened rest with
  | plain _ ih => exact ih opened rest
  | conditional _ hm _ hl _ ihc iht ihe =>
    simp only [List.append_assoc, List.cons_append]
    rw [ihc, Parser.checkParens_skip (by simp [hm]) (by simp [hm]), iht,
      Parser.checkParens_skip (by simp [hl]) (by simp [hl]), ihe]
  | operand _ ih => exact ih opened rest
  | operator _ hk _ _ ihl ihr =>
    rw [List.append_assoc, List.cons_append, ihl,
      Parser.checkParens_skip (by simp [hk]) (by simp [hk]), ihr]
  | unsigned _ ih => exact ih opened rest
  | negation hk _ ih =>
    rw [List.cons_append, Parser.checkParens_skip (by simp [hk]) (by simp [hk]), ih]
  | leaf h => exact Parser.checkParens_skip (hleaf _ _ h).1 (hleaf _ _ h).2
  | @group ts opening closing e n ho h hc ih =>
    obtain ⟨t, us, rfl, ht⟩ := h.head fun t e hl => (hleaf t e hl).2
    -- the token behind the opening one closes nothing, so the group is not empty
    have hne : (t :: us ++ [closing] ++ rest).head?.any (·.kind = .closeParen) = false := by
      simp [ht]
    rw [List.cons_append, Parser.checkParens_open ho hne, List.append_assoc, ih,
      List.singleton_append, Parser.checkParens_close hc]

end Derives

/-- Numbers and names are no parentheses. -/
theorem Denotes.kind {names : List String} {t : Token} {e : Expr} (h : Denotes names t e) :
    t.kind ≠ .openParen ∧ t.kind ≠ .closeParen := by
  cases h with
  | number hk _ => simp [hk]
  | name hk _ => simp [hk]

end Formulary

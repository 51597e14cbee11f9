import Formulary.Proofs.Expr.RoundTrip

/-!
# How deep canonical text is

The canonical text of a formula can be too deep for the limit that its own text kept. A
conditional is printed in parentheses, and inside them each of its branches is one level
further down again, so that a branch costs a level more than it does in the tree. Nothing
else does: a formula without conditionals is printed as deep as its tree.

* `Expr.branching`: the conditionals around a leaf that have it in a branch.
* `nesting_lt`: the text is deeper than the tree by these at most, which is less than twice
  as deep.
* `compile_ladder`: a chain of conditionals as deep as the limit, for every limit, is
  printed almost twice as deep.
* `compile_text_depth`: **the canonical text compiles under the same limit on depth exactly
  when it nests less deeply**, and fails as too deep otherwise.
-/

namespace Formulary

namespace Expr

/-- The most conditionals around one leaf that have it in a branch. -/
def branching : Expr → Nat
  | literal _ => 0
  | var _ _ => 0
  | negate e => e.branching
  | binary _ l r => max l.branching r.branching
  | conditional c t e => max c.branching (max t.branching e.branching + 1)

theorem branching_lt_depth (e : Expr) : e.branching < e.depth := by
  induction e with
  | literal => exact Nat.zero_lt_one
  | var => exact Nat.zero_lt_one
  | negate e ih => simp only [branching, depth]; omega
  | binary op l r ihl ihr => simp only [branching, depth]; omega
  | conditional c t e ihc iht ihe => simp only [branching, depth]; omega

/-- **The canonical text is deeper than the tree by the branches it goes into**, at most. -/
theorem nesting_lt (e : Expr) : e.nesting < e.depth + e.branching := by
  induction e with
  | literal => exact Nat.zero_lt_one
  | var => exact Nat.zero_lt_one
  | negate e ih => simp only [nesting, branching, depth]; omega
  | binary op l r ihl ihr => simp only [nesting, branching, depth]; omega
  | conditional c t e ihc iht ihe => simp only [nesting, branching, depth]; omega

/-- A chain of `n` conditionals, each in the last branch of the one before. -/
def ladder : Nat → Expr
  | 0 => literal .one
  | n + 1 => conditional (literal .one) (literal .one) (ladder n)

/-- The chain without any parentheses. -/
def ladderText : Nat → List Char
  | 0 => ['1']
  | n + 1 => '1' :: '?' :: '1' :: ':' :: ladderText n

theorem depth_ladder (n : Nat) : (ladder n).depth = n + 1 := by
  induction n with
  | zero => rfl
  | succ n ih => simp only [ladder, depth]; omega

theorem nesting_ladder (n : Nat) : (ladder n).nesting = 2 * n := by
  induction n with
  | zero => rfl
  | succ n ih => simp only [ladder, nesting]; omega

end Expr

section Ladder

variable {cs : List Char} {Q : List Token → Prop}

/-- A digit in front of what belongs to no number is a literal of its own. -/
theorem Lexes.digit (hcs : Detached cs)
    (h : Lexes [] cs fun us => ∀ t : Token, Denotes [] t (.literal .one) → Q (t :: us)) :
    Lexes [] ('1' :: cs) Q := by
  have hread : literal? ['1'] = some .one := by decide +kernel
  have hdigits : IsNumeral ['1'] :=
    .whole (List.cons_ne_nil _ _) (List.forall_mem_singleton.2 rfl)
  have hlex : IsLexeme [] .number ['1'] := ⟨hdigits, Option.isSome_of_eq_some hread⟩
  refine .lexeme hlex hcs.number (h.imp fun us hq t hk ht => hq t ?_)
  exact .number hk (ht ▸ hread)

/-- The chain is cut into tokens that derive it, with a `ternary` for each conditional and
one for the last literal: by induction on the chain. -/
theorem lexes_ladderText (n : Nat) :
    Lexes [] (Expr.ladderText n) fun ts => Derives (Denotes []) .ternary ts (Expr.ladder n) (n + 1) := by
  have hdigit {t : Token} (ht : Denotes [] t (.literal .one)) :
      Derives (Denotes []) .unary [t] (.literal .one) 0 := .unsigned (.leaf ht)
  induction n with
  | zero =>
    refine .digit (by simp [Detached]) (.nil ?_)
    intro t ht
    exact (hdigit ht).whole
  | succ n ih =>
    have hmark : IsLexeme [] .question ['?'] := rfl
    have hcolon : IsLexeme [] .colon [':'] := rfl
    refine .digit (detached_cons (by decide) (by decide)) (.symbol hmark (fun _ _ => id) ?_)
    refine .digit (detached_cons (by decide) (by decide)) (.symbol hcolon (fun _ _ => id) ?_)
    refine ih.imp fun es he colon hcolon t ht mark hmark c hc => ?_
    have hderives := Derives.conditional ((hdigit hc).loosen .disjunction).disjunction hmark
      (hdigit ht).whole hcolon he
    have hlevels : max 0 (max (0 + 1) (n + 1)) + 1 = n + 1 + 1 := by omega
    rw [hlevels] at hderives
    simpa [Expr.ladder] using hderives

/-- **For every limit on depth there is a formula that keeps it and is printed almost twice as
deep**: a chain of conditionals. -/
theorem compile_ladder (n : Nat) :
    ∃ (source : String) (limits : Limits) (f : Formula), limits.maxTreeDepth = n + 1 ∧
      Formula.compile source [] limits = .ok f ∧ f.root.nesting + 1 = 2 * limits.maxTreeDepth - 1 := by
  obtain ⟨ts, hscan, hd⟩ := lexes_ladderText n 0
  let source := String.ofList (Expr.ladderText n)
  let limits : Limits :=
    { maxFormulaLength := source.length, maxTokenCount := ts.length, maxTreeDepth := n + 1 }
  have hnames : Parser.checkNames [] [] = .ok () := rfl
  have htokens : tokenize source [] limits = .ok ts := by
    rw [tokenize_eq, String.toList_ofList, hscan, if_neg (Nat.lt_irrefl _)]
    exact if_neg (Nat.lt_irrefl _)
  have hparse : parse ts [] limits = .ok (Expr.ladder n) := by
    rw [parse_of_derives hnames hd, Expr.depth_ladder, if_pos ⟨Nat.le_refl _, Nat.le_refl _⟩]
  refine ⟨source, limits, ⟨source, [], Expr.ladder n⟩, rfl, ?_, ?_⟩
  · rw [Formula.compile_eq, htokens]
    dsimp only
    rw [hparse]
    rfl
  · show (Expr.ladder n).nesting + 1 = 2 * (n + 1) - 1
    rw [Expr.nesting_ladder]
    omega

end Ladder

variable {source : String} {names : List String} {limits : Limits} {f : Formula}

/-- Limits that let the characters and the tokens of the canonical text through. -/
def Limits.Roomy (limits : Limits) (f : Formula) : Prop :=
  f.text.length ≤ limits.maxFormulaLength ∧ f.root.tokenCount ≤ limits.maxTokenCount

/-- The canonical text compiles, and to an equal tree. -/
def Formula.ReadsBack (f : Formula) (limits : Limits) : Prop :=
  ∃ g, compile f.text f.names limits = .ok g ∧ f.root.same g.root

/-- Under limits that are roomy enough, depth alone decides about the canonical text. -/
theorem compile_text_roomy (h : Formula.compile source names limits = .ok f) {limits' : Limits}
    (hroomy : limits'.Roomy f) :
    Formula.compile f.text f.names limits' =
      if f.root.nesting < limits'.maxTreeDepth then .ok ⟨f.text, names, f.root.normalize⟩
      else .error (.tooDeep limits'.maxTreeDepth) := by
  obtain ⟨hover, hnames, hw⟩ := writable_of_compile h
  have hlength : ¬ limits'.maxFormulaLength < f.root.text.length := Nat.not_lt.2 hroomy.1
  have hcount : ¬ limits'.maxTokenCount < f.root.tokenCount := Nat.not_lt.2 hroomy.2
  unfold Formula.text
  rw [hover, compile_text_eq hnames hw, if_neg hlength, if_neg hcount]
  rfl

/-- **When printing makes a formula too deep.** Under the limit on depth that a formula was
compiled under, and whatever room there is besides, its canonical text compiles to an equal
tree exactly when it nests less deeply than the limit; otherwise it is too deep under all
such limits. It nests less deeply than the tree does together with the conditionals around a
leaf that is in a branch, so always where there are none, and always less deeply than twice
the limit. -/
theorem compile_text_depth (h : Formula.compile source names limits = .ok f) :
    ((∀ limits' : Limits, limits'.maxTreeDepth = limits.maxTreeDepth → limits'.Roomy f →
        f.ReadsBack limits') ↔ f.root.nesting < limits.maxTreeDepth) ∧
    (¬ f.root.nesting < limits.maxTreeDepth →
      ∀ limits' : Limits, limits'.maxTreeDepth = limits.maxTreeDepth → limits'.Roomy f →
        Formula.compile f.text f.names limits' = .error (.tooDeep limits.maxTreeDepth)) ∧
    f.root.nesting < f.depth + f.root.branching ∧ f.root.nesting + 1 < 2 * limits.maxTreeDepth := by
  obtain ⟨-, -, -, hdepth, -⟩ := stages_of_compile h
  have hnesting := f.root.nesting_lt
  have hbranching := f.root.branching_lt_depth
  have hdeep (hn : ¬ f.root.nesting < limits.maxTreeDepth) (limits' : Limits)
      (hsame : limits'.maxTreeDepth = limits.maxTreeDepth) (hroomy : limits'.Roomy f) :
      Formula.compile f.text f.names limits' = .error (.tooDeep limits.maxTreeDepth) := by
    rw [compile_text_roomy h hroomy, hsame, if_neg hn]
  refine ⟨⟨fun hback => ?_, fun hn limits' hsame hroomy => ?_⟩, hdeep, hnesting, by omega⟩
  · by_contra hn
    let exact : Limits := ⟨f.text.length, f.root.tokenCount, limits.maxTreeDepth, 0⟩
    have hroomy : exact.Roomy f := ⟨Nat.le_refl _, Nat.le_refl _⟩
    obtain ⟨g, hg, -⟩ := hback exact rfl hroomy
    cases (hdeep hn exact rfl hroomy).symm.trans hg
  · refine ⟨⟨f.text, names, f.root.normalize⟩, ?_, f.root.same_normalize⟩
    rw [compile_text_roomy h hroomy, hsame, if_pos hn]

/-- A comparison that chooses between a negation and a quotient: four levels, one of them for
the branches, let the canonical text through that was compiled under four. -/
theorem compile_text_depth_comparison :
    ∃ f, Formula.compile "x < 1 ? -x : x / 2" ["x"] { maxTreeDepth := 4 } = .ok f ∧
      f.text = "((x < 1) ? -(x) : (x / 2))" ∧ f.root.nesting = 3 ∧ f.depth + f.root.branching = 4 ∧
      ∀ limits : Limits, limits.maxTreeDepth = 4 → limits.Roomy f → f.ReadsBack limits := by
  let x : Expr := .var "x" 0
  let f : Formula := ⟨"x < 1 ? -x : x / 2", ["x"], .conditional
    (.binary .less x (.literal ⟨false, 1, 0, by decide, by decide⟩)) (.negate x)
    (.binary .div x (.literal ⟨false, 2, 0, by decide, by decide⟩))⟩
  have hf : Formula.compile "x < 1 ? -x : x / 2" ["x"] { maxTreeDepth := 4 } = .ok f := by
    decide +kernel
  have hnesting : f.root.nesting < 4 := by decide
  exact ⟨f, hf, by decide +kernel, rfl, rfl, (compile_text_depth hf).1.2 hnesting⟩

/-- A conditional between literals keeps a limit of two levels, and its canonical text does
not, however much room there is besides. -/
theorem compile_text_conditional_tooDeep :
    ∃ f, Formula.compile "1 ? 2 : 3" [] { maxTreeDepth := 2 } = .ok f ∧ f.text = "(1 ? 2 : 3)" ∧
      ∀ limits : Limits, limits.maxTreeDepth = 2 → ¬ f.ReadsBack limits := by
  let f : Formula := ⟨"1 ? 2 : 3", [], .conditional (.literal .one)
    (.literal ⟨false, 2, 0, by decide, by decide⟩) (.literal ⟨false, 3, 0, by decide, by decide⟩)⟩
  have hf : Formula.compile "1 ? 2 : 3" [] { maxTreeDepth := 2 } = .ok f := by decide +kernel
  obtain ⟨-, hnames, hw⟩ := writable_of_compile hf
  refine ⟨f, hf, by decide +kernel, ?_⟩
  rintro limits hdepth ⟨g, hg, -⟩
  have hdeep : ¬ f.root.nesting + 1 ≤ limits.maxTreeDepth := by
    rw [hdepth]
    decide
  have hread : Formula.compile f.root.text [] limits = .ok g := hg
  rw [compile_text_eq hnames hw, if_neg hdeep] at hread
  split_ifs at hread

end Formulary

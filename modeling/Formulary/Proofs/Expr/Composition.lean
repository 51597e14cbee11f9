import Formulary.Proofs.Expr.RoundTrip
import Formulary.Proofs.Token.Forbidden

/-!
# Texts in parentheses compose as their trees do

A formula may stand in parentheses wherever an operand may. Its text is cut there as it is cut
alone, since no lexeme goes on with a parenthesis, at other positions; and the grammar derives
its tree there as it does alone, since a group is an operand of any operator.

* `scan_add` (every text): a text that starts elsewhere has the same tokens, but for their
  positions.
* `Groups`: a text that is cut in parentheses into tokens that derive a tree as an operand.
* `groups_of_compile`: the text of every formula is one of them.
* `CompilesWithin`: a text that compiles to a tree under all limits that are large enough.
* `compile_composed`: **texts in parentheses with operators between them compile to the trees
  of the texts with the operators above them.**
-/

namespace Formulary

open Lexer

/-- The token of a text that starts `k` characters later. -/
def Token.shift (k : Nat) (t : Token) : Token := { t with position := t.position + k }

/-- The tokens of the text of a formula. -/
def Formula.tokens (f : Formula) : List Token :=
  (scan (occursIn f.names) 0 f.source.toList).toOption.getD []

variable {names : List String} {start : Nat} {cs : List Char} {ts : List Token}

namespace Lexer

/-- **A text has the same tokens wherever it starts**, but for their positions. -/
theorem scan_add (k : Nat) (h : scan (occursIn names) start cs = .ok ts) :
    scan (occursIn names) (start + k) cs = .ok (ts.map (·.shift k)) := by
  induction start, cs using scan_induction names generalizing ts with
  | nil start =>
    obtain rfl : [] = ts := by simpa [scan] using h
    simp [scan]
  | blank start c cs hw ih =>
    rw [scan_blank hw] at h ⊢
    rw [Nat.add_right_comm]
    exact ih h
  | token start kind c more rest hw hlex hlongest ih =>
    obtain ⟨us, hrest, rfl⟩ := scan_token_eq_ok hw hlex hlongest h
    have hbehind : start + k + 1 + more.length = start + 1 + more.length + k := by omega
    rw [scan_token hw hlex hlongest, hbehind, ih hrest]
    rfl
  | stuck start c cs e hw hl => cases (scan_stuck hw hl).symm.trans h

end Lexer

/-- The tokens of a text derive the same trees wherever it starts. -/
theorem Derives.shift {N : Nonterminal} {e : Expr} {n : Nat} (k : Nat)
    (h : Derives (Denotes names) N ts e n) :
    Derives (Denotes names) N (ts.map (·.shift k)) e n := by
  have hleaf (t : Token) (e : Expr) (ht : Denotes names t e) : Denotes names (t.shift k) e := by
    cases ht with
    | number hk hd => exact .number hk hd
    | name hk hs => exact .name hk hs
  exact h.map (·.shift k) id (fun _ => rfl) (fun _ => rfl) (fun _ _ _ => rfl)
    (fun _ _ _ => rfl) hleaf

/-- No lexeme goes on with a parenthesis. -/
theorem not_extends_paren {c : Char} (hc : c = '(' ∨ c = ')') (kind : Token.Kind)
    (text : List Char) : ¬ Extends kind text c := by
  obtain rfl | rfl := hc <;> cases kind with
  | operator op => cases op <;> simp [Extends]
  | _ => simp [Extends, isNamePart]

/-- A text with tokens has the same ones in front of characters that extend no lexeme, but for
their positions. -/
theorem Lexes.of_scan {tail : List Char} {Q : List Token → Prop}
    (h : scan (occursIn names) 0 cs = .ok ts)
    (hseam : ∀ y ∈ tail.head?, ∀ kind text, ¬ Extends kind text y)
    (htail : Lexes names tail fun us => ∀ k, Q (ts.map (·.shift k) ++ us)) :
    Lexes names (cs ++ tail) Q := by
  intro start
  have hshift := scan_add start h
  rw [Nat.zero_add] at hshift
  obtain ⟨us, hus, hq⟩ := htail (start + cs.length)
  refine ⟨ts.map (·.shift start) ++ us, ?_, hq start⟩
  rw [scan_append hshift tail fun t _ _ y hy => hseam y hy t.kind t.text.toList, hus]
  rfl

/-! ### Formulas in parentheses -/

/-- **A text that is an operand in parentheses**: there it is cut into `count` tokens and the two
parentheses, which derive `e`, wherever it stands and whatever follows. Neither the `ternary`s
of the derivation nor the levels of the tree are more than `depth`. -/
structure Groups (names : List String) (text : String) (count depth : Nat) (e : Expr) : Prop where
  depth_le : e.depth ≤ depth
  lexes : ∀ (cs : List Char) (Q : List Token → Prop),
    Lexes names cs (fun us => ∀ (ts : List Token) (n : Nat), ts.length = count + 2 → n ≤ depth →
      Derives (Denotes names) .primary ts e n → Q (ts ++ us)) →
    Lexes names ('(' :: (text.toList ++ ')' :: cs)) Q

/-- **The text of a formula is an operand in parentheses.** -/
theorem groups_of_compile {source : String} {limits : Limits} {f : Formula} {depth : Nat}
    (h : Formula.compile source names limits = .ok f) (hlimit : limits.maxTreeDepth ≤ depth) :
    Groups names source f.tokens.length depth f.root := by
  obtain ⟨hsource, hnames, -, hdepth, ts, n, htokens, hd, hn⟩ := stages_of_compile h
  have hscan : scan (occursIn names) 0 source.toList = .ok ts :=
    (scan_eq_ok_iff names source.toList 0 ts).2 (segmentation_of_tokenize htokens).2.2
  have hcount : f.tokens = ts := by
    rw [Formula.tokens, hsource, hnames, hscan]
    rfl
  have hseam (cs : List Char) :
      ∀ y ∈ (')' :: cs).head?, ∀ kind text, ¬ Extends kind text y := by
    intro y hy
    exact not_extends_paren (.inr (by simpa using hy.symm))
  refine ⟨Nat.le_trans hdepth hlimit, fun cs Q hcs => ?_⟩
  refine .symbol isLexeme_openParen (fun _ _ => id) (.of_scan hscan (hseam cs) ?_)
  refine .symbol isLexeme_closeParen (fun _ _ => id) (hcs.imp ?_)
  intro us hq closing hclosing k opening hopening
  have hgroup : Derives (Denotes names) .primary (opening :: (ts.map (·.shift k) ++ [closing]))
      f.root n := .group hopening (hd.shift k) hclosing
  simpa using hq _ n (by simp [hcount]) (Nat.le_trans hn hlimit) hgroup

/-- **A text that compiles to a tree under all limits that are large enough**: on its characters,
on `count` tokens and on a depth of `depth`. -/
def CompilesWithin (names : List String) (text : String) (count depth : Nat) (e : Expr) : Prop :=
  ∀ limits : Limits, text.length ≤ limits.maxFormulaLength → count ≤ limits.maxTokenCount →
    depth ≤ limits.maxTreeDepth → Formula.compile text names limits = .ok ⟨text, names, e⟩

/-- A text compiles to the tree that its tokens derive. -/
theorem compilesWithin_of_lexes {text : String} {count depth : Nat} {e : Expr}
    (hdeclared : Parser.checkNames [] names = .ok ()) (hdepth : e.depth ≤ depth)
    (h : Lexes names text.toList fun ts => ts.length = count ∧
      ∃ n, n ≤ depth ∧ Derives (Denotes names) .ternary ts e n) :
    CompilesWithin names text count depth e := by
  intro limits hlength hcount hlevels
  obtain ⟨ts, hscan, rfl, n, hn, hd⟩ := h 0
  have hparse := parse_of_derives hdeclared hd limits
  rw [if_pos ⟨Nat.le_trans hn hlevels, Nat.le_trans hdepth hlevels⟩] at hparse
  rw [Formula.compile_eq, tokenize_of_scan hscan hlength hcount]
  dsimp only
  rw [hparse]
  rfl

namespace Groups

variable {first second third : String} {i j k depth : Nat} {c l r : Expr}

/-- Parentheses around a text change nothing. -/
theorem group (hdeclared : Parser.checkNames [] names = .ok ())
    (hl : Groups names first i depth l) :
    CompilesWithin names ("(" ++ first ++ ")") (i + 2) (depth + 2) l := by
  have hdepth : l.depth ≤ depth + 2 := by
    have hle := hl.depth_le
    omega
  have htext : ("(" ++ first ++ ")").toList = '(' :: (first.toList ++ [')']) := by simp
  refine compilesWithin_of_lexes hdeclared hdepth (htext ▸ hl.lexes [] _ (.nil ?_))
  intro ts n hcount hn hd
  have hderives : Derives (Denotes names) .ternary ts l (n + 1) := hd.unsigned.whole
  exact ⟨by simpa using hcount, n + 1, by omega, by simpa using hderives⟩

/-- A sign in front of a text in parentheses negates it. -/
theorem negate (hdeclared : Parser.checkNames [] names = .ok ())
    (hl : Groups names first i depth l) :
    CompilesWithin names ("-(" ++ first ++ ")") (i + 3) (depth + 2) (.negate l) := by
  have hdepth : (Expr.negate l).depth ≤ depth + 2 := by
    have hle := hl.depth_le
    simp only [Expr.depth]
    omega
  have hsub : IsLexeme names (.operator .sub) ['-'] := rfl
  have htext : ("-(" ++ first ++ ")").toList = '-' :: '(' :: (first.toList ++ [')']) := by simp
  refine compilesWithin_of_lexes hdeclared hdepth (htext ▸ ?_)
  refine .symbol hsub (fun _ _ => id) (hl.lexes [] _ (.nil ?_))
  intro ts n hcount hn hd sign hsign
  have hderives : Derives (Denotes names) .ternary (sign :: ts) (.negate l) (n + 1) :=
    (Derives.negation hsign hd).whole
  exact ⟨by simp [hcount], n + 1, by omega, by simpa using hderives⟩

/-- An operator between two texts in parentheses joins them. -/
theorem binary (hdeclared : Parser.checkNames [] names = .ok ()) (op : BinaryOp)
    (hl : Groups names first i depth l) (hr : Groups names second j depth r) :
    CompilesWithin names ("(" ++ first ++ ")" ++ op.symbol ++ "(" ++ second ++ ")") (i + j + 5)
      (depth + 2) (.binary op l r) := by
  have hdepth : (Expr.binary op l r).depth ≤ depth + 2 := by
    have hle := hl.depth_le
    have hre := hr.depth_le
    simp only [Expr.depth]
    omega
  have hop : IsLexeme names (.operator op) op.symbol.toList := rfl
  have hlongest (cs : List Char) :
      ∀ y ∈ ('(' :: cs).head?, ¬ Extends (.operator op) op.symbol.toList y := by
    intro y hy
    exact not_extends_paren (.inl (by simpa using hy.symm)) _ _
  have htext : ("(" ++ first ++ ")" ++ op.symbol ++ "(" ++ second ++ ")").toList =
      '(' :: (first.toList ++ ')' :: (op.symbol.toList ++ '(' :: (second.toList ++ [')']))) := by
    simp
  refine compilesWithin_of_lexes hdeclared hdepth (htext ▸ ?_)
  refine hl.lexes _ _ (.lexeme hop (hlongest _) (hr.lexes [] _ (.nil ?_)))
  intro rs n hrcount hn hr mid hmid _ ls m hlcount hm hl
  have hderives : Derives (Denotes names) .ternary (ls ++ mid :: rs) (.binary op l r)
      (max m n + 1) :=
    .plain (Derives.disjunction (.operator (.operand (hl.unsigned.loosen _)) hmid rfl
      (hr.unsigned.loosen _)))
  refine ⟨?_, max m n + 1, by omega, by simpa using hderives⟩
  simp only [List.length_append, List.length_cons, List.append_nil]
  omega

/-- The marks of a conditional between three texts in parentheses select of them. -/
theorem conditional (hdeclared : Parser.checkNames [] names = .ok ())
    (hc : Groups names first i depth c) (hl : Groups names second j depth l)
    (hr : Groups names third k depth r) :
    CompilesWithin names ("(" ++ first ++ ")?(" ++ second ++ "):(" ++ third ++ ")")
      (i + j + k + 8) (depth + 2) (.conditional c l r) := by
  have hdepth : (Expr.conditional c l r).depth ≤ depth + 2 := by
    have hce := hc.depth_le
    have hle := hl.depth_le
    have hre := hr.depth_le
    simp only [Expr.depth]
    omega
  have hmark : IsLexeme names .question ['?'] := rfl
  have hcolon : IsLexeme names .colon [':'] := rfl
  have htext : ("(" ++ first ++ ")?(" ++ second ++ "):(" ++ third ++ ")").toList =
      '(' :: (first.toList ++ ')' :: '?' :: '(' :: (second.toList ++ ')' :: ':' :: '(' ::
        (third.toList ++ [')']))) := by
    simp
  refine compilesWithin_of_lexes hdeclared hdepth (htext ▸ ?_)
  refine hc.lexes _ _ (.symbol hmark (fun _ _ => id) (hl.lexes _ _ ?_))
  refine .symbol hcolon (fun _ _ => id) (hr.lexes [] _ (.nil ?_))
  intro rs q hrcount hq hr colon hcolon ls n hlcount hn hl mark hmark cs m hccount hm hc
  have hderives : Derives (Denotes names) .ternary (cs ++ mark :: (ls ++ colon :: rs))
      (.conditional c l r) (max m (max (n + 1) (q + 1)) + 1) :=
    .conditional (hc.unsigned.loosen .disjunction).disjunction hmark hl.unsigned.whole hcolon
      hr.unsigned.whole
  refine ⟨?_, max m (max (n + 1) (q + 1)) + 1, by omega, by simpa using hderives⟩
  simp only [List.length_append, List.length_cons, List.append_nil]
  omega

end Groups

/-- **Texts in parentheses compose as their trees do.** Of texts that are formulas over the same
names, whatever stands in them, two in parentheses with an operator between them compile to the
operation on their trees, one behind a sign to the negation of its tree, three with the marks of
a conditional to the conditional of their trees, and one alone to its own tree. Two levels more
than the texts were allowed are deep enough for it. -/
theorem compile_composed {first second third : String} {limits₁ limits₂ limits₃ : Limits}
    {f g h : Formula} (hf : Formula.compile first names limits₁ = .ok f)
    (hg : Formula.compile second names limits₂ = .ok g)
    (hh : Formula.compile third names limits₃ = .ok h) :
    let depth :=
      max limits₁.maxTreeDepth (max limits₂.maxTreeDepth limits₃.maxTreeDepth) + 2
    (∀ op : BinaryOp,
      CompilesWithin names ("(" ++ first ++ ")" ++ op.symbol ++ "(" ++ second ++ ")")
        (f.tokens.length + g.tokens.length + 5) depth (.binary op f.root g.root)) ∧
    CompilesWithin names ("-(" ++ first ++ ")") (f.tokens.length + 3) depth (.negate f.root) ∧
    CompilesWithin names ("(" ++ first ++ ")?(" ++ second ++ "):(" ++ third ++ ")")
      (f.tokens.length + g.tokens.length + h.tokens.length + 8) depth
      (.conditional f.root g.root h.root) ∧
    CompilesWithin names ("(" ++ first ++ ")") (f.tokens.length + 2) depth f.root := by
  intro depth
  have hdeclared : Parser.checkNames [] names = .ok () := (writable_of_compile hf).2.1
  have hfirst := groups_of_compile hf (Nat.le_max_left _ (max limits₂.maxTreeDepth
    limits₃.maxTreeDepth))
  have hsecond := groups_of_compile hg (Nat.le_trans (Nat.le_max_left _ limits₃.maxTreeDepth)
    (Nat.le_max_right limits₁.maxTreeDepth _))
  have hthird := groups_of_compile hh (Nat.le_trans (Nat.le_max_right limits₂.maxTreeDepth _)
    (Nat.le_max_right limits₁.maxTreeDepth _))
  exact ⟨fun op => hfirst.binary hdeclared op hsecond, hfirst.negate hdeclared,
    hfirst.conditional hdeclared hsecond hthird, hfirst.group hdeclared⟩

/-- A conditional and a sum with white space at their ends, each read with three levels allowed:
with five, their product is read as the product of their trees. -/
theorem compile_composed_product :
    let c : Expr := .conditional (.var "a" 0) (.var "b" 1) (.var "a" 0)
    let s : Expr := .binary .add (.var "a" 0) (.var "b" 1)
    Formula.compile " a ? b : a" ["a", "b"] { maxTreeDepth := 3 } =
        .ok ⟨" a ? b : a", ["a", "b"], c⟩ ∧
      Formula.compile "a + b " ["a", "b"] { maxTreeDepth := 3 } = .ok ⟨"a + b ", ["a", "b"], s⟩ ∧
      Formula.compile "( a ? b : a)*(a + b )" ["a", "b"] { maxTreeDepth := 5 } =
        .ok ⟨"( a ? b : a)*(a + b )", ["a", "b"], .binary .mul c s⟩ := by
  intro c s
  have hc : Formula.compile " a ? b : a" ["a", "b"] { maxTreeDepth := 3 } =
      .ok ⟨" a ? b : a", ["a", "b"], c⟩ := by decide +kernel
  have hs : Formula.compile "a + b " ["a", "b"] { maxTreeDepth := 3 } =
      .ok ⟨"a + b ", ["a", "b"], s⟩ := by decide +kernel
  obtain ⟨hbinary, -, -, -⟩ := compile_composed hc hs hs
  exact ⟨hc, hs, hbinary .mul { maxTreeDepth := 5 } (by decide) (by decide +kernel) (by decide)⟩

end Formulary

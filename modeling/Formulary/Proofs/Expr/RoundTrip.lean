import Formulary.Formula
import Formulary.Proofs.Decimal.Reading
import Formulary.Proofs.Decimal.Value
import Formulary.Proofs.Expr.Language
import Formulary.Proofs.Token.Segmentation

/-!
# Canonical text reads back as its tree

The canonical text of a tree is cut into tokens that the grammar derives as an
operand of any operator, so the text reads back whatever stands around it. What
that costs is counted on the tree: its tokens, and its nesting.

* `Expr.tokenCount`, `Expr.nesting`: the number of tokens of the canonical text, and
  the groups and branches around its innermost leaf.
* `Expr.Writable`: what holds of the trees that are read, and what printing relies on.
* `printed_of_writable` (every tree): the canonical text is cut into tokens that derive
  the tree, case by case (`Printed`).
* `compile_text`: **the canonical text of a formula compiles exactly under the
  limits that its length, its tokens and its nesting keep**, and to the same tree.
-/

namespace Formulary

open Lexer

namespace Expr

/-- The number of tokens of the canonical text. -/
def tokenCount : Expr → Nat
  | literal _ => 1
  | var _ _ => 1
  | negate e => e.tokenCount + 3
  | binary _ l r => l.tokenCount + r.tokenCount + 3
  | conditional c t e => c.tokenCount + t.tokenCount + e.tokenCount + 4

/-- How many `ternary`s stand above one another in the canonical text. -/
def nesting : Expr → Nat
  | literal _ => 0
  | var _ _ => 0
  | negate e => e.nesting + 1
  | binary _ l r => max l.nesting r.nesting + 1
  | conditional c t e => max c.nesting (max (t.nesting + 1) (e.nesting + 1)) + 1

/-- The tree with its literals in their least forms. -/
def normalize : Expr → Expr
  | literal d => literal d.normalize
  | var name slot => var name slot
  | negate e => negate e.normalize
  | binary op l r => binary op l.normalize r.normalize
  | conditional c t e => conditional c.normalize t.normalize e.normalize

/-- **The trees of formulas over the names**: literals without a sign, and variables
in the slots of their names. -/
def Writable (names : List String) : Expr → Prop
  | literal d => d.negative = false
  | var name slot => names.idxOf? name = some slot
  | negate e => e.Writable names
  | binary _ l r => l.Writable names ∧ r.Writable names
  | conditional c t e => c.Writable names ∧ t.Writable names ∧ e.Writable names

theorem depth_le_nesting (e : Expr) : e.depth ≤ e.nesting + 1 := by
  induction e with
  | literal => simp [depth, nesting]
  | var => simp [depth, nesting]
  | negate e ih => simp only [depth, nesting]; omega
  | binary op l r ihl ihr => simp only [depth, nesting]; omega
  | conditional c t e ihc iht ihe => simp only [depth, nesting]; omega

@[simp] theorem depth_normalize (e : Expr) : e.normalize.depth = e.depth := by
  induction e with
  | literal => rfl
  | var => rfl
  | negate e ih => simp only [normalize, depth, ih]
  | binary op l r ihl ihr => simp only [normalize, depth, ihl, ihr]
  | conditional c t e ihc iht ihe => simp only [normalize, depth, ihc, iht, ihe]

theorem same_refl (e : Expr) : e.same e := by
  induction e with
  | literal d => exact Decimal.sameValue_iff.2 rfl
  | var => simp [same]
  | negate e ih => exact ih
  | binary op l r ihl ihr => simp [same, ihl, ihr]
  | conditional c t e ihc iht ihe => simp [same, ihc, iht, ihe]

/-- A tree is the same as the one in least forms, literals by their values. -/
theorem same_normalize (e : Expr) : e.same e.normalize := by
  induction e with
  | literal d => exact Decimal.sameValue_iff.2 d.value_normalize.symm
  | var => simp [same, normalize]
  | negate e ih => exact ih
  | binary op l r ihl ihr => simp [same, normalize, ihl, ihr]
  | conditional c t e ihc iht ihe => simp [same, normalize, ihc, iht, ihe]

/-- The canonical text shows the least forms only. -/
theorem chars_normalize (e : Expr) : e.normalize.chars = e.chars := by
  induction e with
  | literal d => simp [normalize, chars, Decimal.canonicalText]
  | var => rfl
  | negate e ih => simp only [normalize, chars, ih]
  | binary op l r ihl ihr => simp only [normalize, chars, ihl, ihr]
  | conditional c t e ihc iht ihe => simp only [normalize, chars, ihc, iht, ihe]

@[simp] theorem text_normalize (e : Expr) : e.normalize.text = e.text := by
  rw [← String.toList_inj, toList_text, toList_text, chars_normalize]

end Expr

variable {names : List String} {cs : List Char} {Q : List Token → Prop}

/-- Characters that are cut into tokens with a property, wherever they stand. -/
def Lexes (names : List String) (cs : List Char) (Q : List Token → Prop) : Prop :=
  ∀ start, ∃ ts, scan (occursIn names) start cs = .ok ts ∧ Q ts

namespace Lexes

theorem nil (h : Q []) : Lexes names [] Q := fun _ => ⟨[], by simp [scan], h⟩

theorem imp {Q' : List Token → Prop} (h : Lexes names cs Q) (hq : ∀ ts, Q ts → Q' ts) :
    Lexes names cs Q' := by
  intro start
  obtain ⟨ts, hts, hts'⟩ := h start
  exact ⟨ts, hts, hq ts hts'⟩

theorem space (h : Lexes names cs Q) : Lexes names (' ' :: cs) Q := by
  intro start
  rw [scan, if_pos (by decide)]
  exact h (start + 1)

/-- A lexeme that what comes next does not extend is a token of its own. -/
theorem lexeme {kind : Token.Kind} {text : List Char} (hlex : IsLexeme names kind text)
    (hlongest : ∀ c ∈ cs.head?, ¬ Extends kind text c)
    (h : Lexes names cs fun us => ∀ t : Token, t.kind = kind → t.text.toList = text → Q (t :: us)) :
    Lexes names (text ++ cs) Q := by
  intro start
  obtain ⟨c, more, rfl, hw⟩ := hlex.head
  obtain ⟨us, hus, hq⟩ := h (start + 1 + more.length)
  exact ⟨_, (scan_cons_eq_ok_iff hw).2 ⟨kind, more, cs, us, rfl, hlex, hlongest, hus, rfl⟩,
    hq _ rfl (by simp)⟩

theorem symbol {kind : Token.Kind} {c : Char} (hlex : IsLexeme names kind [c])
    (hlongest : ∀ y ∈ cs.head?, ¬ Extends kind [c] y)
    (h : Lexes names cs fun us => ∀ t : Token, t.kind = kind → Q (t :: us)) :
    Lexes names (c :: cs) Q := by
  exact lexeme hlex hlongest (h.imp fun us hq t ht _ => hq t ht)

end Lexes

/-- Characters whose first one belongs to no number and no name. -/
def Detached (cs : List Char) : Prop := ∀ c ∈ cs.head?, isNamePart c = false ∧ c ≠ '.'

theorem detached_cons {c : Char} (h : isNamePart c = false) (hp : c ≠ '.') :
    Detached (c :: cs) := by
  intro y hy
  obtain rfl : c = y := by simpa using hy
  exact ⟨h, hp⟩

theorem Detached.number (h : Detached cs) {text : List Char} :
    ∀ c ∈ cs.head?, ¬ Extends .number text c := by
  intro c hc hext
  obtain ⟨hpart, hpoint⟩ := h c hc
  rcases hext with hdigit | ⟨hp, -⟩
  · simp [isNamePart, Char.isAlphanum, hdigit] at hpart
  · exact hpoint hp

theorem Detached.identifier (h : Detached cs) {text : List Char} :
    ∀ c ∈ cs.head?, ¬ Extends .identifier text c := by
  intro c hc hext
  have hpart := (h c hc).1
  simp only [Extends, hpart] at hext
  cases hext

theorem isLexeme_openParen : IsLexeme names .openParen ['('] := rfl

theorem isLexeme_closeParen : IsLexeme names .closeParen [')'] := rfl

theorem detached_space : Detached (' ' :: cs) := detached_cons (by decide) (by decide)

theorem detached_closeParen : Detached (')' :: cs) := detached_cons (by decide) (by decide)

/-- **A tree whose canonical text is cut into tokens that derive it** as an operand of any
operator, wherever it stands and whatever follows it. -/
def Printed (names : List String) (e : Expr) : Prop :=
  ∀ (cs : List Char) (Q : List Token → Prop), Detached cs →
    Lexes names cs (fun us => ∀ ts : List Token, ts.length = e.tokenCount →
      Derives (Denotes names) .unary ts e.normalize e.nesting → Q (ts ++ us)) →
    Lexes names (e.chars ++ cs) Q

namespace Printed

theorem literal {d : Decimal} (hd : d.negative = false) : Printed names (.literal d) := by
  intro cs Q hcs h
  obtain ⟨hnumeral, hread⟩ := literal?_canonicalText hd
  have hlex : IsLexeme names .number d.canonicalText.toList :=
    ⟨hnumeral, Option.isSome_of_eq_some hread⟩
  refine .lexeme hlex hcs.number (h.imp fun us hq t hk ht => hq [t] rfl ?_)
  exact .unsigned (.leaf (.number hk (ht ▸ hread)))

theorem var {name : String} {slot : Nat} (hnames : ∀ name ∈ names, isIdentifier name)
    (hslot : names.idxOf? name = some slot) : Printed names (.var name slot) := by
  intro cs Q hcs h
  have hmem : name ∈ names := by
    have hsome := Option.isSome_of_eq_some hslot
    simpa using hsome
  have hlex : IsLexeme names .identifier name.toList :=
    ⟨by simpa using hnames name hmem, fun c hc => .inr ⟨name, hmem, hc⟩⟩
  refine .lexeme hlex hcs.identifier (h.imp fun us hq t hk ht => hq [t] rfl ?_)
  obtain rfl : t.text = name := String.toList_inj.1 ht
  exact .unsigned (.leaf (.name hk hslot))

theorem negate {e : Expr} (he : Printed names e) : Printed names (.negate e) := by
  intro cs Q hcs h
  have hsub : IsLexeme names (.operator .sub) ['-'] := rfl
  simp only [Expr.chars, List.cons_append, List.append_assoc, List.nil_append]
  -- what is cut last is derived first: the tokens come back from right to left
  refine .symbol hsub (fun _ _ => id) (.symbol isLexeme_openParen (fun _ _ => id) ?_)
  refine he _ _ detached_closeParen (.symbol isLexeme_closeParen (fun _ _ => id) (h.imp ?_))
  intro us hq closing hclosing ts hlen hd opening hopening sign hsign
  have hderives : Derives (Denotes names) .unary (sign :: opening :: (ts ++ [closing]))
      (Expr.negate e).normalize (Expr.negate e).nesting :=
    .negation hsign (.group hopening hd.whole hclosing)
  simpa using hq _ (by simp [hlen, Expr.tokenCount]) hderives

theorem binary {op : BinaryOp} {l r : Expr} (hl : Printed names l) (hr : Printed names r) :
    Printed names (.binary op l r) := by
  intro cs Q hcs h
  have hop : IsLexeme names (.operator op) op.symbol.toList := rfl
  -- no operator goes on with a space
  have hlongest (cs : List Char) :
      ∀ c ∈ (' ' :: cs).head?, ¬ Extends (.operator op) op.symbol.toList c := by
    intro c hc
    obtain rfl : ' ' = c := by simpa using hc
    cases op <;> simp [Extends]
  simp only [Expr.chars, List.cons_append, List.append_assoc, List.nil_append]
  refine .symbol isLexeme_openParen (fun _ _ => id) (hl _ _ detached_space (.space ?_))
  refine .lexeme hop (hlongest _) (.space (hr _ _ detached_closeParen ?_))
  refine .symbol isLexeme_closeParen (fun _ _ => id) (h.imp ?_)
  intro us hq closing hclosing rs hrlen hr mid hmid hmtext ls hllen hl opening hopening
  have hderives : Derives (Denotes names) .unary (opening :: ((ls ++ mid :: rs) ++ [closing]))
      (Expr.binary op l r).normalize (Expr.binary op l r).nesting :=
    .unsigned (.group hopening (.plain (Derives.disjunction
      (.operator (.operand (hl.loosen _)) hmid rfl (hr.loosen _)))) hclosing)
  simpa using hq _ (by simp [hllen, hrlen, Expr.tokenCount]; omega) hderives

theorem conditional {c t e : Expr} (hc : Printed names c) (ht : Printed names t)
    (he : Printed names e) : Printed names (.conditional c t e) := by
  intro cs Q hcs h
  have hmark : IsLexeme names .question ['?'] := rfl
  have hcolon : IsLexeme names .colon [':'] := rfl
  simp only [Expr.chars, List.cons_append, List.append_assoc, List.nil_append]
  refine .symbol isLexeme_openParen (fun _ _ => id) (hc _ _ detached_space (.space ?_))
  refine .symbol hmark (fun _ _ => id) (.space (ht _ _ detached_space (.space ?_)))
  refine .symbol hcolon (fun _ _ => id) (.space (he _ _ detached_closeParen ?_))
  refine .symbol isLexeme_closeParen (fun _ _ => id) (h.imp ?_)
  intro us hq closing hclosing es helen he colon hcolon ts htlen ht mark hmark cs hclen hc
    opening hopening
  have hderives : Derives (Denotes names) .unary
      (opening :: ((cs ++ mark :: (ts ++ colon :: es)) ++ [closing]))
      (Expr.conditional c t e).normalize (Expr.conditional c t e).nesting :=
    .unsigned (.group hopening (.conditional (hc.loosen .disjunction).disjunction hmark
      ht.whole hcolon he.whole) hclosing)
  simpa using hq _ (by simp [hclen, htlen, helen, Expr.tokenCount]; omega) hderives

end Printed

/-- **Every tree of a formula is printed as tokens that derive it**, by induction on the
tree. -/
theorem printed_of_writable (hnames : ∀ name ∈ names, isIdentifier name) (e : Expr)
    (hw : e.Writable names) : Printed names e := by
  induction e with
  | literal d => exact .literal hw
  | var name slot => exact .var hnames hw
  | negate e ih => exact (ih hw).negate
  | binary op l r ihl ihr => exact (ihl hw.1).binary (ihr hw.2)
  | conditional c t e ihc iht ihe => exact (ihc hw.1).conditional (iht hw.2.1) (ihe hw.2.2)

/-- The tokens of a derived tree account for its leaves. -/
theorem Derives.writable {N : Nonterminal} {ts : List Token} {e : Expr} {n : Nat}
    (h : Derives (Denotes names) N ts e n) (hts : ∀ t ∈ ts, IsLexeme names t.kind t.text.toList) :
    e.Writable names := by
  induction h with
  | plain _ ih | operand _ ih | unsigned _ ih => exact ih hts
  | conditional _ _ _ _ _ ihc iht ihe =>
    refine ⟨ihc fun t ht => hts t ?_, iht fun t ht => hts t ?_, ihe fun t ht => hts t ?_⟩ <;>
      simp [ht]
  | operator _ _ _ _ ihl ihr =>
    refine ⟨ihl fun t ht => hts t ?_, ihr fun t ht => hts t ?_⟩ <;> simp [ht]
  | negation _ _ ih => exact ih fun t ht => hts t (List.mem_cons_of_mem _ ht)
  | leaf hd =>
    have hlex := hts _ List.mem_cons_self
    cases hd with
    | number hk hd =>
      rw [hk] at hlex
      exact hlex.1.literal?_nonneg hd
    | name _ hs => exact hs
  | group _ _ _ ih => exact ih fun t ht => hts t (by simp [ht])

/-- Reading a formula, stage by stage: its tokens, and its tree. -/
theorem Formula.compile_eq (source : String) (names : List String) (limits : Limits) :
    compile source names limits =
      match tokenize source names limits with
      | .error e => .error (.lex e)
      | .ok tokens => (parse tokens names limits).map fun e => ⟨source, names, e⟩ := by
  unfold compile
  cases tokenize source names limits with
  | error e => rfl
  | ok tokens =>
    dsimp only
    cases parse tokens names limits <;> rfl

/-- **What compiling a formula has checked**: its text has tokens, its names are declared
well, and the grammar derives its tree from the tokens, with the `ternary`s and the levels
of the tree within the limit on depth. -/
theorem stages_of_compile {source : String} {limits : Limits} {f : Formula}
    (h : Formula.compile source names limits = .ok f) :
    f.source = source ∧ f.names = names ∧ Parser.checkNames [] names = .ok () ∧
      f.root.depth ≤ limits.maxTreeDepth ∧
      ∃ ts n, tokenize source names limits = .ok ts ∧
        Derives (Denotes names) .ternary ts f.root n ∧ n ≤ limits.maxTreeDepth := by
  rw [Formula.compile_eq] at h
  cases htokens : tokenize source names limits with
  | error e => simp [htokens] at h
  | ok ts =>
    cases hparse : parse ts names limits with
    | error e => simp [htokens, hparse, Except.map] at h
    | ok e =>
      simp only [htokens, hparse, Except.map] at h
      obtain rfl := Except.ok.inj h
      obtain ⟨hnames, n, hd⟩ := derives_of_parse hparse
      have hfit := parse_of_derives hnames hd limits
      rw [hparse] at hfit
      split at hfit
      · rename_i hle
        exact ⟨rfl, rfl, hnames, hle.2, ts, n, rfl, hd, hle.1⟩
      · cases hfit

/-- **Where a formula comes from**: its names are declared well, and the grammar derives
its tree from the tokens of its text. -/
theorem derives_of_compile {source : String} {limits : Limits} {f : Formula}
    (h : Formula.compile source names limits = .ok f) :
    f.source = source ∧ f.names = names ∧ Parser.checkNames [] names = .ok () ∧
      ∃ ts n, Segmentation names source.toList 0 ts ∧
        Derives (Denotes names) .ternary ts f.root n := by
  obtain ⟨hsource, hnames, hdeclared, -, ts, n, htokens, hd, -⟩ := stages_of_compile h
  exact ⟨hsource, hnames, hdeclared, ts, n, (segmentation_of_tokenize htokens).2.2, hd⟩

/-- A formula is over the names that it was read over, which are declared well, and
its tree is made of their variables and of literals without a sign. -/
theorem writable_of_compile {source : String} {limits : Limits} {f : Formula}
    (h : Formula.compile source names limits = .ok f) :
    f.names = names ∧ Parser.checkNames [] names = .ok () ∧ f.root.Writable names := by
  obtain ⟨-, hnames, hdeclared, ts, n, hseg, hd⟩ := derives_of_compile h
  exact ⟨hnames, hdeclared, hd.writable hseg.lexeme⟩

/-- **What the canonical text of a tree compiles to**, limit by limit. -/
theorem compile_text_eq {e : Expr} (hnames : Parser.checkNames [] names = .ok ())
    (hw : e.Writable names) (limits : Limits) :
    Formula.compile e.text names limits =
      if limits.maxFormulaLength < e.text.length then
        .error (.lex (.tooLong e.text.length limits.maxFormulaLength))
      else if limits.maxTokenCount < e.tokenCount then
        .error (.lex (.tooManyTokens e.tokenCount limits.maxTokenCount))
      else if e.nesting + 1 ≤ limits.maxTreeDepth then .ok ⟨e.text, names, e.normalize⟩
      else .error (.tooDeep limits.maxTreeDepth) := by
  have hids := ((Parser.checkNames_eq_ok_iff names).1 hnames).1
  obtain ⟨ts, hscan, hlen, hd⟩ : ∃ ts, scan (occursIn names) 0 (e.chars ++ []) = .ok ts ∧
      ts.length = e.tokenCount ∧ Derives (Denotes names) .unary ts e.normalize e.nesting :=
    printed_of_writable hids e hw [] _ (by simp [Detached])
      (.nil fun ts hlen hd => by simpa using ⟨hlen, hd⟩) 0
  have hdepth := e.depth_le_nesting
  rw [List.append_nil] at hscan
  rw [Formula.compile_eq, tokenize_eq, Expr.toList_text, hscan]
  dsimp only
  by_cases hlong : limits.maxFormulaLength < e.text.length
  · simp only [if_pos hlong]
  · by_cases hmany : limits.maxTokenCount < e.tokenCount
    · simp only [hlen, if_neg hlong, if_pos hmany]
    · have hparse := parse_of_derives hnames hd.whole limits
      rw [Expr.depth_normalize] at hparse
      simp only [hlen, if_neg hlong, if_neg hmany, hparse]
      by_cases hdeep : e.nesting + 1 ≤ limits.maxTreeDepth
      · rw [if_pos ⟨hdeep, Nat.le_trans hdepth hdeep⟩, if_pos hdeep]
        rfl
      · rw [if_neg fun h => hdeep h.1, if_neg hdeep]
        rfl

/-- **The canonical text of a formula compiles exactly under the limits that it keeps**:
on its characters, on the tokens and on the nesting of its tree. It compiles to the
same tree, slots included and literals by value, whose canonical text is the same
again; under other limits the error says which of them it is. -/
theorem compile_text {source : String} {names : List String} {limits : Limits} {f : Formula}
    (h : Formula.compile source names limits = .ok f) (limits' : Limits) :
    ((∃ g, Formula.compile f.text names limits' = .ok g) ↔
      f.text.length ≤ limits'.maxFormulaLength ∧ f.root.tokenCount ≤ limits'.maxTokenCount ∧
        f.root.nesting + 1 ≤ limits'.maxTreeDepth) ∧
    (∀ g, Formula.compile f.text names limits' = .ok g →
      f.root.same g.root ∧ g.text = f.text) ∧
    ∀ e, Formula.compile f.text names limits' = .error e →
      e.kind = .tooLong ∨ e.kind = .tooManyTokens ∨ e.kind = .tooDeep := by
  obtain ⟨-, hnames, hw⟩ := writable_of_compile h
  rw [Formula.text, compile_text_eq hnames hw limits']
  split_ifs with hlong hmany hdeep
  · refine ⟨iff_of_false nofun fun h => absurd h.1 (Nat.not_le.2 hlong), nofun, ?_⟩
    rintro e ⟨⟩
    exact .inl rfl
  · refine ⟨iff_of_false nofun fun h => absurd h.2.1 (Nat.not_le.2 hmany), nofun, ?_⟩
    rintro e ⟨⟩
    exact .inr (.inl rfl)
  · refine ⟨iff_of_true ⟨_, rfl⟩ ⟨Nat.not_lt.1 hlong, Nat.not_lt.1 hmany, hdeep⟩, ?_, nofun⟩
    rintro g ⟨⟩
    exact ⟨f.root.same_normalize, f.root.text_normalize⟩
  · refine ⟨iff_of_false nofun fun h => absurd h.2.2 hdeep, nofun, ?_⟩
    rintro e ⟨⟩
    exact .inr (.inr rfl)

/-- A conditional on a negation: the canonical text costs sixteen characters, ten
tokens and three levels. -/
theorem compile_text_conditional :
    ∃ f, Formula.compile "-x ? 1.50 : 2" ["x"] {} = .ok f ∧ f.text = "(-(x) ? 1.5 : 2)" ∧
      ∀ limits : Limits, (∃ g, Formula.compile "(-(x) ? 1.5 : 2)" ["x"] limits = .ok g) ↔
        16 ≤ limits.maxFormulaLength ∧ 10 ≤ limits.maxTokenCount ∧ 3 ≤ limits.maxTreeDepth := by
  let f : Formula := ⟨"-x ? 1.50 : 2", ["x"], .conditional (.negate (.var "x" 0))
    (.literal ⟨false, 150, 2, by decide, by decide⟩)
    (.literal ⟨false, 2, 0, by decide, by decide⟩)⟩
  have hcompile : Formula.compile "-x ? 1.50 : 2" ["x"] {} = .ok f := by decide +kernel
  have htext : f.text = "(-(x) ? 1.5 : 2)" := by decide +kernel
  have hcosts : f.text.length = 16 ∧ f.root.tokenCount = 10 ∧ f.root.nesting = 2 := by
    decide +kernel
  obtain ⟨hlength, htokens, hnesting⟩ := hcosts
  refine ⟨f, hcompile, htext, fun limits => ?_⟩
  rw [← htext, (compile_text hcompile limits).1, hlength, htokens, hnesting]

end Formulary

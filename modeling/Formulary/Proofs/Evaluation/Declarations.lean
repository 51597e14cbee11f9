import Formulary.Proofs.Evaluation.Resolution
import Formulary.Proofs.Token.Forbidden

/-!
# Declarations in another order, and more of them

The declared names act in three places: their letters may stand in the text, their places are
the slots of the variables, and all of them are resolved for an evaluation. A formula that is
read over some names is read over others that hold these, and stands for the same.

* `Expr.reslot`: the tree with its variables in the slots of their names among others.
* `tokenize_of_subset`: more names allow more letters, and change no token.
* `Derives.reslot` (every derivation): the same tokens derive the tree in its new slots.
* `compile_of_subset`: what is read over some names is read over more of them.
* `compile_redeclared`: **the meaning of a formula depends neither on the order of its
  declarations nor on those that it does not use.**
-/

namespace Formulary

open Lexer

/-- The tree with its variables in the slots of their names among the declared ones. -/
def Expr.reslot (names : List String) : Expr → Expr
  | literal d => literal d
  | var name _ => var name (names.idxOf name)
  | negate e => negate (e.reslot names)
  | binary op l r => binary op (l.reslot names) (r.reslot names)
  | conditional c t e => conditional (c.reslot names) (t.reslot names) (e.reslot names)

namespace Expr

@[simp] theorem depth_reslot (names : List String) (e : Expr) :
    (e.reslot names).depth = e.depth := by
  induction e with
  | literal => rfl
  | var => rfl
  | negate e ih => simp only [reslot, depth, ih]
  | binary op l r ihl ihr => simp only [reslot, depth, ihl, ihr]
  | conditional c t e ihc iht ihe => simp only [reslot, depth, ihc, iht, ihe]

@[simp] theorem nodeCount_reslot (names : List String) (e : Expr) :
    (e.reslot names).nodeCount = e.nodeCount := by
  induction e with
  | literal => rfl
  | var => rfl
  | negate e ih => simp only [reslot, nodeCount, ih]
  | binary op l r ihl ihr => simp only [reslot, nodeCount, ihl, ihr]
  | conditional c t e ihc iht ihe => simp only [reslot, nodeCount, ihc, iht, ihe]

/-- Slots do not matter where decimals stand in the places of the variables. -/
@[simp] theorem substitute_reslot (env : String → Decimal) (names : List String) (e : Expr) :
    (e.reslot names).substitute env = e.substitute env := by
  induction e with
  | literal => rfl
  | var => rfl
  | negate e ih => simp only [reslot, substitute, ih]
  | binary op l r ihl ihr => simp only [reslot, substitute, ihl, ihr]
  | conditional c t e ihc iht ihe => simp only [reslot, substitute, ihc, iht, ihe]

end Expr

variable {source : String} {names names' : List String} {limits : Limits} {ts : List Token}

/-! ### The text and its tree -/

/-- More names have more letters. -/
theorem IsLexeme.of_subset (hsub : ∀ name ∈ names, name ∈ names') {kind : Token.Kind}
    {cs : List Char} (h : IsLexeme names kind cs) : IsLexeme names' kind cs := by
  cases kind with
  | identifier =>
    refine ⟨h.1, fun c hc => (h.2 c hc).imp_right ?_⟩
    rintro ⟨name, hname, hletter⟩
    exact ⟨name, hsub name hname, hletter⟩
  | _ => exact h

/-- **More names change no token** of a text that has tokens without them. -/
theorem tokenize_of_subset (hsub : ∀ name ∈ names, name ∈ names')
    (h : tokenize source names limits = .ok ts) : tokenize source names' limits = .ok ts := by
  obtain ⟨hlength, hcount, hseg⟩ := segmentation_of_tokenize h
  have hseg' : Segmentation names' source.toList 0 ts :=
    { hseg with lexeme := fun t ht => (hseg.lexeme t ht).of_subset hsub }
  exact tokenize_of_scan ((scan_eq_ok_iff names' source.toList 0 ts).2 hseg') hlength hcount

/-- A name has a slot among others where it is one of them. -/
theorem idxOf?_of_mem {name : String} (h : name ∈ names) :
    names.idxOf? name = some (names.idxOf name) := by
  obtain ⟨slot, hslot⟩ : ∃ slot, names.idxOf? name = some slot := by
    rw [← Option.isSome_iff_exists]
    simpa using h
  rw [List.idxOf_eq_getD_idxOf?, hslot]
  rfl

/-- **The same tokens derive the tree in its new slots.** -/
theorem Derives.reslot (hsub : ∀ name ∈ names, name ∈ names') {N : Nonterminal} {e : Expr}
    {n : Nat} (h : Derives (Denotes names) N ts e n) :
    Derives (Denotes names') N ts (e.reslot names') n := by
  have hleaf (t : Token) (e : Expr) (ht : Denotes names t e) :
      Denotes names' t (e.reslot names') := by
    cases ht with
    | number hk hd => exact .number hk hd
    | name hk hs =>
      have hmem : t.text ∈ names := by
        have hsome := Option.isSome_of_eq_some hs
        simpa using hsome
      exact .name hk (idxOf?_of_mem (hsub _ hmem))
  have hmap := h.map id (Expr.reslot names') (fun _ => rfl) (fun _ => rfl) (fun _ _ _ => rfl)
    (fun _ _ _ => rfl) hleaf
  rwa [List.map_id] at hmap

/-- **The formula is read over more names**, with its variables in their new slots. -/
theorem compile_of_subset {f : Formula} (hdeclared : Parser.checkNames [] names' = .ok ())
    (hsub : ∀ name ∈ names, name ∈ names') (h : Formula.compile source names limits = .ok f) :
    Formula.compile source names' limits = .ok ⟨source, names', f.root.reslot names'⟩ := by
  obtain ⟨-, -, -, hdepth, ts, n, htokens, hd, hn⟩ := stages_of_compile h
  have hparse := parse_of_derives hdeclared (hd.reslot hsub) limits
  rw [Expr.depth_reslot, if_pos ⟨hn, hdepth⟩] at hparse
  rw [Formula.compile_eq, tokenize_of_subset hsub htokens]
  dsimp only
  rw [hparse]
  rfl

/-! ### The evaluation -/

/-- An evaluation whose names all resolve is that of the tree with their decimals in it. -/
theorem Formula.evaluate_eq_substitute {f : Formula} {b : Bindings} {env : String → Decimal}
    (h : Formula.compile source names limits = .ok f)
    (henv : ∀ name ∈ names, b.resolve name = .ok (env name)) (limits' : Limits) :
    f.evaluate b limits' = evaluateExpr (f.root.substitute env) [] limits' := by
  have hnames : f.names = names := (writable_of_compile h).1
  have hresolves : ∀ name ∈ f.names, b.Resolves name := fun name hname =>
    Bindings.resolves_iff.2 ⟨_, henv name (hnames ▸ hname)⟩
  obtain ⟨slots, heval, hget⟩ := Formula.evaluate_eq_evaluateExpr hresolves
  have hread (name : String) (slot : Nat) (hv : .var name slot ∈ f.root.nodes) :
      slots[slot]? = some (env name) := by
    have hslot : names[slot]? = some name := Formula.getElem?_of_var_mem h hv
    obtain ⟨d, hd, hname⟩ := hget slot name (hnames ▸ hslot)
    have hsame := hname.symm.trans (henv name (List.mem_of_getElem? hslot))
    rw [hd, Except.ok.inj hsame]
  rw [heval, evaluateExpr, evaluateExpr, runExpr, runExpr, evalNode_substitute f.root hread]

/-- **The meaning of a formula depends neither on the order of its declarations nor on those
that it does not use.** What is read over some names is read over all lists of distinct
identifiers that hold them, to the same tree with each variable in the slot of its name there.
Depth and number of nodes are the same, and wherever all of the names resolve, so is the value
or the error of every evaluation. -/
theorem compile_redeclared {f : Formula} (hids : ∀ name ∈ names', isIdentifier name)
    (hdistinct : names'.Nodup) (hsub : ∀ name ∈ names, name ∈ names')
    (h : Formula.compile source names limits = .ok f) :
    ∃ g, Formula.compile source names' limits = .ok g ∧ g.root = f.root.reslot names' ∧
      (∀ name slot, .var name slot ∈ g.root.nodes → names'[slot]? = some name) ∧
      g.depth = f.depth ∧ g.nodeCount = f.nodeCount ∧
      ∀ b : Bindings, (∀ name ∈ names', b.Resolves name) → ∀ limits' : Limits,
        g.evaluate b limits' = f.evaluate b limits' := by
  have hdeclared : Parser.checkNames [] names' = .ok () :=
    (Parser.checkNames_eq_ok_iff names').2 ⟨hids, hdistinct⟩
  have hcompile := compile_of_subset hdeclared hsub h
  refine ⟨_, hcompile, rfl, fun name slot => Formula.getElem?_of_var_mem hcompile,
    f.root.depth_reslot names', f.root.nodeCount_reslot names', fun b hresolves limits' => ?_⟩
  -- the decimals that the names resolve to stand in both trees in the places of the variables
  let env : String → Decimal := fun name => (b.resolve name).toOption.getD .zero
  have henv : ∀ name ∈ names', b.resolve name = .ok (env name) := by
    intro name hname
    obtain ⟨d, hd⟩ := Bindings.resolves_iff.1 (hresolves name hname)
    simp [env, hd, Except.toOption]
  rw [Formula.evaluate_eq_substitute hcompile henv, Expr.substitute_reslot,
    Formula.evaluate_eq_substitute h fun name hname => henv name (hsub name hname)]

/-- A difference over two names, and over three in another order: the variables move to other
slots, and the values stay. -/
theorem compile_redeclared_difference :
    ∃ f g, Formula.compile "a - b" ["a", "b"] {} = .ok f ∧
      f.root = .binary .sub (.var "a" 0) (.var "b" 1) ∧
      Formula.compile "a - b" ["b", "c", "a"] {} = .ok g ∧
      g.root = .binary .sub (.var "a" 2) (.var "b" 0) ∧
      ∀ a b c : Decimal, ∀ limits : Limits,
        let values := ((Bindings.empty.insert "a" (.decimal a)).insert "b" (.decimal b)).insert "c"
          (.decimal c)
        g.evaluate values limits = f.evaluate values limits := by
  let f : Formula := ⟨"a - b", ["a", "b"], .binary .sub (.var "a" 0) (.var "b" 1)⟩
  have hf : Formula.compile "a - b" ["a", "b"] {} = .ok f := by decide +kernel
  have hids : ∀ name ∈ ["b", "c", "a"], isIdentifier name := by decide
  obtain ⟨g, hg, hroot, -, -, -, heval⟩ := compile_redeclared hids (by decide) (by decide) hf
  refine ⟨f, g, hf, rfl, hg, hroot.trans (by decide), fun a b c limits => heval _ ?_ limits⟩
  intro name hname
  simp only [List.mem_cons, List.not_mem_nil, or_false] at hname
  obtain rfl | rfl | rfl := hname <;>
    simp [Bindings.Resolves, Bindings.get?_insert, BindingValue.toDecimal]

end Formulary

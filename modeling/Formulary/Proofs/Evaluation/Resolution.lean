import Formulary.Proofs.Evaluation.Congruence
import Formulary.Proofs.Evaluation.Ending

/-!
# Bindings are resolved first

An evaluation resolves the declared variables before it looks at the tree, each of them in
the order of declaration. The first that does not resolve is its error, and where all do,
the evaluation is that of the tree with their decimals in the places of the variables, so
that no binding can fail any more and nothing else of the bindings matters.

* `Bindings.Resolves`: whether a value that has a decimal is bound to a name.
* `exists_first_unresolved`: the first name that does not resolve.
* `Expr.substitute`: a tree with decimals in the places of its variables.
* `evalNode_substitute` (every tree): it runs as the tree does over its slots.
* `Formula.evaluate_first_unresolved`, `Formula.evaluate_eq_evaluateExpr`: an evaluation whose
  names do not all resolve, and one whose names do.
* `evaluate_resolution`: **failures of bindings come first, in the order of declaration,
  and never later.**
-/

namespace Formulary

namespace Bindings

/-- Whether a value that has a decimal is bound to the name. -/
def Resolves (b : Bindings) (name : String) : Prop :=
  ∃ value d, b.get? name = some value ∧ value.toDecimal name = .ok d

variable {b b' : Bindings} {name : String} {names : List String}

theorem resolves_iff : b.Resolves name ↔ ∃ d, b.resolve name = .ok d := by
  unfold Resolves resolve
  cases b.get? name with
  | none => simp
  | some value => simp

/-- A name that does not resolve is not bound, or to a value without a decimal. -/
theorem resolve_error {e : EvalError} (h : b.resolve name = .error e) :
    e = .missingBinding name ∨ ∃ text, e = .invalidBinding name text := by
  unfold resolve at h
  split at h
  · cases h
    exact .inl rfl
  · rename_i value _
    unfold BindingValue.toDecimal at h
    split at h
    · cases h
    · split at h
      · cases h
      · cases h
        exact .inr ⟨_, rfl⟩
    · cases h
      exact .inr ⟨_, rfl⟩

/-- **The first name that does not resolve** ends the resolution of all of them, by
induction on the names. -/
theorem exists_first_unresolved (h : ∃ name ∈ names, ¬ b.Resolves name) :
    ∃ before name after e, names = before ++ name :: after ∧ (∀ n ∈ before, b.Resolves n) ∧
      b.resolve name = .error e ∧ names.mapM b.resolve = .error e := by
  induction names with
  | nil => simp at h
  | cons name names ih =>
    rw [List.mapM_cons]
    cases hresolve : b.resolve name with
    | error e => exact ⟨[], name, names, e, rfl, by simp, hresolve, rfl⟩
    | ok d =>
      have hname : b.Resolves name := resolves_iff.2 ⟨d, hresolve⟩
      obtain ⟨n, hn, hnot⟩ := h
      have htail : ∃ n ∈ names, ¬ b.Resolves n := by
        rcases List.mem_cons.1 hn with rfl | hn
        · exact absurd hname hnot
        · exact ⟨n, hn, hnot⟩
      obtain ⟨before, first, after, e, rfl, hbefore, hfirst, hmap⟩ := ih htail
      refine ⟨name :: before, first, after, e, rfl, List.forall_mem_cons.2 ⟨hname, hbefore⟩,
        hfirst, ?_⟩
      rw [hmap]
      rfl

/-- Names that all resolve have a slot each, in their order. -/
theorem exists_slots (h : ∀ name ∈ names, b.Resolves name) :
    ∃ slots, names.mapM b.resolve = .ok slots ∧
      ∀ (slot : Nat) (name : String), names[slot]? = some name →
        ∃ d, slots[slot]? = some d ∧ b.resolve name = .ok d := by
  induction names with
  | nil => exact ⟨[], rfl, by simp⟩
  | cons name names ih =>
    obtain ⟨hname, hnames⟩ := List.forall_mem_cons.1 h
    obtain ⟨d, hd⟩ := resolves_iff.1 hname
    obtain ⟨slots, hslots, hget⟩ := ih hnames
    refine ⟨d :: slots, by rw [List.mapM_cons, hd, hslots]; rfl, ?_⟩
    rintro (_ | slot) n hn
    · obtain rfl : name = n := by simpa using hn
      exact ⟨d, rfl, hd⟩
    · exact hget slot n hn

/-- Bindings that resolve the names alike give them the same slots. -/
theorem mapM_resolve_congr (h : ∀ name ∈ names, b'.resolve name = b.resolve name) :
    names.mapM b'.resolve = names.mapM b.resolve := by
  induction names with
  | nil => rfl
  | cons name names ih =>
    obtain ⟨hname, hnames⟩ := List.forall_mem_cons.1 h
    rw [List.mapM_cons, List.mapM_cons, hname, ih hnames]

/-- Bindings that resolve the names to the same values give them slots of those values. -/
theorem exists_slots_sameValue
    (h : ∀ name ∈ names, ∃ d d', b.resolve name = .ok d ∧ b'.resolve name = .ok d' ∧
      d.sameValue d') :
    ∃ slots slots', names.mapM b.resolve = .ok slots ∧ names.mapM b'.resolve = .ok slots' ∧
      List.Forall₂ (Decimal.sameValue · ·) slots slots' := by
  induction names with
  | nil => exact ⟨[], [], rfl, rfl, .nil⟩
  | cons name names ih =>
    obtain ⟨⟨d, d', hd, hd', hsame⟩, hnames⟩ := List.forall_mem_cons.1 h
    obtain ⟨slots, slots', hslots, hslots', hrel⟩ := ih hnames
    refine ⟨d :: slots, d' :: slots', ?_, ?_, .cons hsame hrel⟩
    · rw [List.mapM_cons, hd, hslots]
      rfl
    · rw [List.mapM_cons, hd', hslots']
      rfl

end Bindings

/-- The tree with decimals in the places of its variables, by their names. -/
def Expr.substitute (env : String → Decimal) : Expr → Expr
  | literal d => literal d
  | var name _ => literal (env name)
  | negate e => negate (e.substitute env)
  | binary op l r => binary op (l.substitute env) (r.substitute env)
  | conditional c t e => conditional (c.substitute env) (t.substitute env) (e.substitute env)

variable {env : String → Decimal} {slots slots' : List Decimal} {budget : Nat}

/-- **A tree whose slots hold the decimals of their names runs as the tree with those
decimals in place of its variables**: by induction on the tree. -/
theorem evalNode_substitute (e : Expr)
    (h : ∀ name slot, .var name slot ∈ e.nodes → slots[slot]? = some (env name)) :
    evalNode slots budget e = evalNode slots' budget (e.substitute env) := by
  induction e with
  | literal d => rw [Expr.substitute, evalNode, evalNode]
  | var name slot =>
    rw [Expr.substitute, evalNode, evalNode, h name slot List.mem_cons_self]
  | negate e ih =>
    rw [Expr.substitute, evalNode, evalNode,
      ih fun name slot hv => h name slot (List.mem_cons_of_mem _ hv)]
  | binary op l r ihl ihr =>
    rw [Expr.substitute, evalNode, evalNode,
      ihl fun name slot hv => h name slot (by simp [Expr.nodes, hv]),
      ihr fun name slot hv => h name slot (by simp [Expr.nodes, hv])]
  | conditional c t e ihc iht ihe =>
    rw [Expr.substitute, evalNode, evalNode,
      ihc fun name slot hv => h name slot (by simp [Expr.nodes, hv]),
      iht fun name slot hv => h name slot (by simp [Expr.nodes, hv]),
      ihe fun name slot hv => h name slot (by simp [Expr.nodes, hv])]

namespace Formula

variable {source : String} {names : List String} {limits limits' : Limits} {f : Formula}
  {b b' : Bindings}

/-- **The first name that does not resolve is the error of the evaluation**, whatever the
tree. -/
theorem evaluate_first_unresolved (h : ∃ name ∈ f.names, ¬ b.Resolves name) (limits : Limits) :
    ∃ before name after e, f.names = before ++ name :: after ∧ (∀ n ∈ before, b.Resolves n) ∧
      b.resolve name = .error e ∧ f.evaluate b limits = .error e := by
  obtain ⟨before, name, after, e, hsplit, hbefore, hname, hmap⟩ := Bindings.exists_first_unresolved h
  refine ⟨before, name, after, e, hsplit, hbefore, hname, ?_⟩
  rw [evaluate, hmap]
  rfl

/-- An evaluation whose names all resolve is that of the tree over their slots. -/
theorem evaluate_eq_evaluateExpr (h : ∀ name ∈ f.names, b.Resolves name) :
    ∃ slots, (∀ limits, f.evaluate b limits = evaluateExpr f.root slots limits) ∧
      ∀ (slot : Nat) (name : String), f.names[slot]? = some name →
        ∃ d, slots[slot]? = some d ∧ b.resolve name = .ok d := by
  obtain ⟨slots, hslots, hget⟩ := Bindings.exists_slots h
  refine ⟨slots, fun limits => ?_, hget⟩
  rw [evaluate, hslots]
  rfl

/-- Bindings that resolve the names to the same values have the same outcome. -/
theorem evaluate_sameValue (h : ∀ name ∈ f.names, ∃ d d', b.resolve name = .ok d ∧
    b'.resolve name = .ok d' ∧ d.sameValue d') (limits : Limits) :
    Agree (Value.same · ·) (f.evaluate b limits) (f.evaluate b' limits) := by
  obtain ⟨slots, slots', hslots, hslots', hrel⟩ := Bindings.exists_slots_sameValue h
  rw [evaluate, evaluate, hslots, hslots']
  exact (evalNode_agrees hrel f.root f.root f.root.same_refl 0).1

/-- A variable in the tree of a formula is in the slot of its declaration. -/
theorem getElem?_of_var_mem (h : compile source names limits = .ok f) {name : String}
    {slot : Nat} (hv : .var name slot ∈ f.root.nodes) : names[slot]? = some name := by
  obtain ⟨-, -, hw⟩ := writable_of_compile h
  have hslot : names.idxOf? name = some slot := hw.of_mem hv
  obtain ⟨hlt, hname, -⟩ := List.idxOf?_eq_some_iff.1 hslot
  rw [List.getElem?_eq_getElem hlt, hname]

/-- **No evaluation misses a binding where the slots of the variables are filled.** -/
theorem evaluateExpr_ne_bindingError {e : Expr} {slots : List Decimal}
    (h : ∀ name slot, .var name slot ∈ e.nodes → ∃ d, slots[slot]? = some d) (limits : Limits) :
    (∀ name, evaluateExpr e slots limits ≠ .error (.missingBinding name)) ∧
      ∀ name text, evaluateExpr e slots limits ≠ .error (.invalidBinding name text) := by
  have hends : Run.Ends limits.maxEvalSteps e.nodeCount (fun _ => False)
      (evalNode slots limits.maxEvalSteps e) := by
    refine evalNode_ends slots _ e fun name slot hv hnone => ?_
    obtain ⟨d, hd⟩ := h name slot hv
    simp [hd] at hnone
  refine ⟨fun name he => ?_, fun name text he => ?_⟩
  · cases hends.fails 0 _ he with
    | missingBinding hfalse => exact hfalse
  · cases hends.fails 0 _ he

end Formula

/-- **Bindings fail first, in the order of declaration, and never later.** Where a declared
name does not resolve, used or not, the first such name is the error of the evaluation,
whatever the tree and the limits. Where all of them resolve, no binding fails any more:
every variable of the tree reads the decimal bound to its name, so that the evaluation is
that of the tree with these decimals in it; and other bindings that resolve the names to
the same decimals, or to others of the same values, have the same outcome. -/
theorem evaluate_resolution {source : String} {names : List String} {limits : Limits} {f : Formula}
    (h : Formula.compile source names limits = .ok f) (b : Bindings) (limits' : Limits) :
    ((∃ name ∈ names, ¬ b.Resolves name) →
      ∃ before name after e, names = before ++ name :: after ∧ (∀ n ∈ before, b.Resolves n) ∧
        b.resolve name = .error e ∧ f.evaluate b limits' = .error e) ∧
    ((∀ name ∈ names, b.Resolves name) →
      (∀ name, f.evaluate b limits' ≠ .error (.missingBinding name)) ∧
      (∀ name text, f.evaluate b limits' ≠ .error (.invalidBinding name text)) ∧
      (∃ slots, f.evaluate b limits' = evaluateExpr f.root slots limits' ∧
        ∀ name slot, .var name slot ∈ f.root.nodes →
          ∃ d, slots[slot]? = some d ∧ b.resolve name = .ok d) ∧
      (∀ env : String → Decimal, (∀ name ∈ names, b.resolve name = .ok (env name)) →
        f.evaluate b limits' = evaluateExpr (f.root.substitute env) [] limits') ∧
      (∀ b' : Bindings, (∀ name ∈ names, b'.resolve name = b.resolve name) →
        f.evaluate b' limits' = f.evaluate b limits') ∧
      ∀ b' : Bindings, (∀ name ∈ names, ∃ d d', b.resolve name = .ok d ∧
          b'.resolve name = .ok d' ∧ d.sameValue d') →
        Agree (Value.same · ·) (f.evaluate b limits') (f.evaluate b' limits')) := by
  have hnames : f.names = names := (writable_of_compile h).1
  have hslot {name : String} {slot : Nat} (hv : .var name slot ∈ f.root.nodes) :
      f.names[slot]? = some name := hnames ▸ Formula.getElem?_of_var_mem h hv
  rw [← hnames]
  refine ⟨fun hunresolved => Formula.evaluate_first_unresolved hunresolved limits',
    fun hresolves => ?_⟩
  obtain ⟨slots, heval, hget⟩ := Formula.evaluate_eq_evaluateExpr hresolves
  have hslots (name : String) (slot : Nat) (hv : .var name slot ∈ f.root.nodes) :
      ∃ d, slots[slot]? = some d ∧ b.resolve name = .ok d := hget slot name (hslot hv)
  have hnever := Formula.evaluateExpr_ne_bindingError
    (fun name slot hv => (hslots name slot hv).imp fun d hd => hd.1) limits'
  rw [← heval] at hnever
  refine ⟨hnever.1, hnever.2, ⟨slots, heval limits', hslots⟩, fun env henv => ?_,
    fun b' hb' => ?_, fun b' hb' => Formula.evaluate_sameValue hb' limits'⟩
  · have hread (name : String) (slot : Nat) (hv : .var name slot ∈ f.root.nodes) :
        slots[slot]? = some (env name) := by
      obtain ⟨d, hd, hname⟩ := hslots name slot hv
      have hsame := hname.symm.trans (henv name (List.mem_of_getElem? (hslot hv)))
      rw [hd, Except.ok.inj hsame]
    rw [heval, evaluateExpr, evaluateExpr, runExpr, runExpr, evalNode_substitute f.root hread]
  · rw [Formula.evaluate, Formula.evaluate, Bindings.mapM_resolve_congr hb']

/-- A variable in a branch that is not selected: without a binding it fails on a budget of
no steps, and with one it is read as the decimal bound to it. -/
theorem evaluate_resolution_unselected :
    ∃ f, Formula.compile "a ? 1 : b" ["a", "b"] {} = .ok f ∧
      (∃ before name after e, ["a", "b"] = before ++ name :: after ∧
        (∀ n ∈ before, (Bindings.empty.insert "a" (.decimal .one)).Resolves n) ∧
        (Bindings.empty.insert "a" (.decimal .one)).resolve name = .error e ∧
        f.evaluate (Bindings.empty.insert "a" (.decimal .one)) { maxEvalSteps := 0 } =
          .error e) ∧
      f.evaluate ((Bindings.empty.insert "a" (.decimal .one)).insert "b" (.decimal .one)) {} =
        evaluateExpr (.conditional (.literal .one) (.literal .one) (.literal .one)) [] {} := by
  let f : Formula := ⟨"a ? 1 : b", ["a", "b"],
    .conditional (.var "a" 0) (.literal .one) (.var "b" 1)⟩
  have hf : Formula.compile "a ? 1 : b" ["a", "b"] {} = .ok f := by decide +kernel
  let partly := Bindings.empty.insert "a" (.decimal .one)
  have hunbound : ¬ partly.Resolves "b" := by
    simp [partly, Bindings.Resolves, Bindings.get?_insert]
  have hbound : ∀ name ∈ ["a", "b"],
      (partly.insert "b" (.decimal .one)).resolve name = .ok .one := by
    simp [partly, Bindings.resolve, Bindings.get?_insert, BindingValue.toDecimal]
  have hresolves : ∀ name ∈ ["a", "b"], (partly.insert "b" (.decimal .one)).Resolves name :=
    fun name hname => Bindings.resolves_iff.2 ⟨_, hbound name hname⟩
  have hfirst := (evaluate_resolution hf partly { maxEvalSteps := 0 }).1 ⟨"b", by simp, hunbound⟩
  obtain ⟨-, -, -, hsubstitute, -⟩ := (evaluate_resolution hf _ {}).2 hresolves
  exact ⟨f, hf, hfirst, hsubstitute (fun _ => .one) hbound⟩

end Formulary

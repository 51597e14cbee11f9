import Formulary.Proofs.Expr.RoundTrip

/-!
# Trees as they are written

The tree of a formula holds the decimals that its literals were read as, which may be
rounded. The written tree holds their texts instead: it has the shape of the tree, and
its literals are the numbers of the text, from left to right.

* `Written`, `Written.literals`: written trees, and their literals in order.
* `Written.Reads`: the tree that a written one is read as.
* `Written.Writes`: how a formula is written; `existsUnique_writes`: **a compiled formula is
  written in exactly one way.**
-/

namespace Formulary

/-- A tree with its literals as texts. -/
inductive Written
  | literal (text : String)
  | var (name : String)
  | negate (operand : Written)
  | binary (op : BinaryOp) (left right : Written)
  | conditional (condition consequent alternative : Written)

/-- The texts of the numbers among tokens. -/
def numberTexts (ts : List Token) : List String := (ts.filter (·.kind = .number)).map Token.text

section NumberTexts

variable {t : Token} {ts us : List Token}

@[simp] theorem numberTexts_append (ts us : List Token) :
    numberTexts (ts ++ us) = numberTexts ts ++ numberTexts us := by
  simp [numberTexts]

theorem numberTexts_cons (h : t.kind = .number) :
    numberTexts (t :: ts) = t.text :: numberTexts ts := by
  simp [numberTexts, h]

theorem numberTexts_cons_of_ne (h : t.kind ≠ .number) : numberTexts (t :: ts) = numberTexts ts := by
  simp [numberTexts, h]

/-- The numbers among the tokens of a text are numerals. -/
theorem Segmentation.isNumeral {names : List String} {cs : List Char} {start : Nat}
    (h : Segmentation names cs start ts) : ∀ text ∈ numberTexts ts, IsNumeral text.toList := by
  intro text htext
  obtain ⟨t, ht, rfl⟩ := List.mem_map.1 htext
  obtain ⟨hmem, hkind⟩ := List.mem_filter.1 ht
  have hlex := h.lexeme t hmem
  rw [of_decide_eq_true hkind] at hlex
  exact hlex.1

end NumberTexts

namespace Written

/-- The literals, from left to right. -/
def literals : Written → List String
  | literal text => [text]
  | var _ => []
  | negate w => w.literals
  | binary _ l r => l.literals ++ r.literals
  | conditional c t e => c.literals ++ (t.literals ++ e.literals)

/-- **The tree that a written one is read as** over the declared names: a literal for its
decimal, a name for the variable in its slot. -/
inductive Reads (names : List String) : Written → Expr → Prop
  | literal {text : String} {d : Decimal} (h : literal? text.toList = some d) :
      Reads names (.literal text) (.literal d)
  | var {name : String} {slot : Nat} (h : names.idxOf? name = some slot) :
      Reads names (.var name) (.var name slot)
  | negate {w : Written} {e : Expr} (h : Reads names w e) : Reads names (.negate w) (.negate e)
  | binary {op : BinaryOp} {v w : Written} {l r : Expr} (hl : Reads names v l)
      (hr : Reads names w r) : Reads names (.binary op v w) (.binary op l r)
  | conditional {u v w : Written} {c t e : Expr} (hc : Reads names u c) (ht : Reads names v t)
      (he : Reads names w e) : Reads names (.conditional u v w) (.conditional c t e)

/-- **How a formula is written**: a tree that is read as its own, with the numbers of its
text as literals, in their order. -/
def Writes (w : Written) (f : Formula) : Prop :=
  ∃ ts, Segmentation f.names f.source.toList 0 ts ∧ w.literals = numberTexts ts ∧
    w.Reads f.names f.root

variable {names : List String} {w w' : Written} {e : Expr}

/-- Trees that are read alike have equally many literals. -/
theorem Reads.length_literals (h : w.Reads names e) (h' : w'.Reads names e) :
    w.literals.length = w'.literals.length := by
  induction h generalizing w' with
  | literal _ | var _ =>
    cases h'
    rfl
  | negate _ ih =>
    cases h' with
    | negate h' =>
      have hoperand := ih h'
      exact hoperand
  | binary _ _ ihl ihr =>
    cases h' with
    | binary hl' hr' =>
      have hl := ihl hl'
      have hr := ihr hr'
      simp only [literals, List.length_append]
      omega
  | conditional _ _ _ ihc iht ihe =>
    cases h' with
    | conditional hc' ht' he' =>
      have hc := ihc hc'
      have ht := iht ht'
      have he := ihe he'
      simp only [literals, List.length_append]
      omega

/-- **A tree that is read is known from its literals.** -/
theorem Reads.eq_of_literals (h : w.Reads names e) (h' : w'.Reads names e)
    (hl : w.literals = w'.literals) : w = w' := by
  induction h generalizing w' with
  | literal _ =>
    cases h' with
    | literal _ => rw [List.singleton_inj.1 hl]
  | var _ =>
    cases h' with
    | var _ => rfl
  | negate _ ih =>
    cases h' with
    | negate h' => rw [ih h' hl]
  | binary h₁ h₂ ih₁ ih₂ =>
    cases h' with
    | binary h₁' h₂' =>
      obtain ⟨hl₁, hl₂⟩ := List.append_inj hl (h₁.length_literals h₁')
      rw [ih₁ h₁' hl₁, ih₂ h₂' hl₂]
  | conditional h₁ h₂ h₃ ih₁ ih₂ ih₃ =>
    cases h' with
    | conditional h₁' h₂' h₃' =>
      obtain ⟨hl₁, hl⟩ := List.append_inj hl (h₁.length_literals h₁')
      obtain ⟨hl₂, hl₃⟩ := List.append_inj hl (h₂.length_literals h₂')
      rw [ih₁ h₁' hl₁, ih₂ h₂' hl₂, ih₃ h₃' hl₃]

end Written

open Written

/-- **Tokens that derive a tree write it**, by induction on the derivation. -/
theorem Derives.exists_reads {names : List String} {N : Nonterminal} {ts : List Token} {e : Expr}
    {n : Nat} (h : Derives (Denotes names) N ts e n) :
    ∃ w : Written, w.literals = numberTexts ts ∧ w.Reads names e := by
  induction h with
  | plain _ ih | operand _ ih | unsigned _ ih => exact ih
  | conditional _ hm _ hl _ ihc iht ihe =>
    obtain ⟨u, hu, hc⟩ := ihc
    obtain ⟨v, hv, ht⟩ := iht
    obtain ⟨w, hw, he⟩ := ihe
    refine ⟨.conditional u v w, ?_, .conditional hc ht he⟩
    rw [numberTexts_append, numberTexts_cons_of_ne (by simp [hm]), numberTexts_append,
      numberTexts_cons_of_ne (by simp [hl]), literals, hu, hv, hw]
  | operator _ hk _ _ ihl ihr =>
    obtain ⟨v, hv, hl⟩ := ihl
    obtain ⟨w, hw, hr⟩ := ihr
    refine ⟨.binary _ v w, ?_, .binary hl hr⟩
    rw [numberTexts_append, numberTexts_cons_of_ne (by simp [hk]), literals, hv, hw]
  | negation hk _ ih =>
    obtain ⟨w, hw, he⟩ := ih
    refine ⟨.negate w, ?_, .negate he⟩
    rw [numberTexts_cons_of_ne (by simp [hk]), literals, hw]
  | @leaf t e h =>
    cases h with
    | number hk hd =>
      refine ⟨.literal t.text, ?_, .literal hd⟩
      rw [numberTexts_cons hk]
      rfl
    | name hk hs =>
      refine ⟨.var t.text, ?_, .var hs⟩
      rw [numberTexts_cons_of_ne (by simp [hk])]
      rfl
  | group ho _ hc ih =>
    obtain ⟨w, hw, he⟩ := ih
    refine ⟨w, ?_, he⟩
    rw [numberTexts_cons_of_ne (by simp [ho]), numberTexts_append,
      numberTexts_cons_of_ne (by simp [hc]), hw]
    exact (List.append_nil _).symm

/-- **A compiled formula is written in exactly one way.** -/
theorem existsUnique_writes {source : String} {names : List String} {limits : Limits} {f : Formula}
    (hf : Formula.compile source names limits = .ok f) : ∃! w : Written, w.Writes f := by
  obtain ⟨hsource, hnames, -, ts, n, hseg, hd⟩ := derives_of_compile hf
  obtain ⟨w, hw, hr⟩ := hd.exists_reads
  subst hsource hnames
  refine ⟨w, ⟨ts, hseg, hw, hr⟩, ?_⟩
  rintro w' ⟨ts', hseg', hw', hr'⟩
  obtain rfl := hseg.unique hseg'
  exact hr'.eq_of_literals hr (hw'.trans hw.symm)

end Formulary

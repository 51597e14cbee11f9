/-!
# Limits

The four bounds that keep the reading and evaluation of a formula cheap. A limit
of zero lets nothing through, so limits are checked before they are put to use.

* `Limits.validate`: the first limit that is zero, in the order of the fields.
* `Limits.validate_eq_ok_iff`: limits are valid exactly when none is zero.
* `Limits.validate_eq_error_iff`: which limit is named otherwise.
-/

namespace Formulary

/-- Bounds on a formula: its characters, its tokens, the depth of its tree, and
the nodes that an evaluation visits. -/
structure Limits where
  maxFormulaLength : Nat := 500
  maxTokenCount : Nat := 256
  maxTreeDepth : Nat := 64
  maxEvalSteps : Nat := 10000
deriving DecidableEq

namespace Limits

/-- One of the four limits. -/
inductive Field
  | formulaLength
  | tokenCount
  | treeDepth
  | evalSteps
deriving DecidableEq

/-- The limits in their order. -/
def Field.all : List Field := [.formulaLength, .tokenCount, .treeDepth, .evalSteps]

/-- The name of a limit in messages and in stored limits. -/
def Field.name : Field → String
  | .formulaLength => "max_formula_length"
  | .tokenCount => "max_token_count"
  | .treeDepth => "max_tree_depth"
  | .evalSteps => "max_eval_steps"

/-- The limit of that name. -/
def Field.ofName? (name : String) : Option Field := Field.all.find? (·.name == name)

/-- The value of one limit. -/
def get (limits : Limits) : Field → Nat
  | .formulaLength => limits.maxFormulaLength
  | .tokenCount => limits.maxTokenCount
  | .treeDepth => limits.maxTreeDepth
  | .evalSteps => limits.maxEvalSteps

/-- The limits with one of them replaced. -/
def set (limits : Limits) (field : Field) (value : Nat) : Limits :=
  match field with
  | .formulaLength => { limits with maxFormulaLength := value }
  | .tokenCount => { limits with maxTokenCount := value }
  | .treeDepth => { limits with maxTreeDepth := value }
  | .evalSteps => { limits with maxEvalSteps := value }

@[simp] theorem get_set (limits : Limits) (f g : Field) (value : Nat) :
    (limits.set f value).get g = if g = f then value else limits.get g := by
  cases f <;> cases g <;> rfl

/-- Limits by their fields. -/
def ofFields (value : Field → Nat) : Limits where
  maxFormulaLength := value .formulaLength
  maxTokenCount := value .tokenCount
  maxTreeDepth := value .treeDepth
  maxEvalSteps := value .evalSteps

@[simp] theorem get_ofFields (value : Field → Nat) (field : Field) :
    (ofFields value).get field = value field := by
  cases field <;> rfl

/-- Limits are determined by their fields. -/
theorem eq_of_get {a b : Limits} (h : ∀ field, a.get field = b.get field) : a = b := by
  have h₁ := h .formulaLength
  have h₂ := h .tokenCount
  have h₃ := h .treeDepth
  have h₄ := h .evalSteps
  cases a
  cases b
  simp_all [get]

end Limits

/-- Why limits cannot be used. -/
inductive ConfigError
  | zeroLimit (field : Limits.Field)
deriving DecidableEq

/-- The wording of a configuration error. -/
def ConfigError.message : ConfigError → String
  | .zeroLimit field => "limit '" ++ field.name ++ "' must be greater than zero"

namespace Limits

/-- Refuses limits with a zero among them, and names the first. -/
def validate (limits : Limits) : Except ConfigError Unit :=
  match Field.all.find? (limits.get · == 0) with
  | some field => .error (.zeroLimit field)
  | none => .ok ()

/-- Limits are valid exactly when none of them is zero. -/
theorem validate_eq_ok_iff (limits : Limits) :
    limits.validate = .ok () ↔ ∀ field, limits.get field ≠ 0 := by
  have hall : ∀ field, field ∈ Field.all := fun field => by cases field <;> decide
  unfold validate
  split
  · rename_i field h
    have h0 := List.find?_some h
    simp only [reduceCtorEq, false_iff]
    exact fun hne => hne field (by simpa using h0)
  · rename_i h
    simp only [true_iff]
    exact fun field h0 => by simpa [h0] using List.find?_eq_none.1 h field (hall field)

/-- Limits are refused for the first that is zero, in the order of the fields. -/
theorem validate_eq_error_iff (limits : Limits) (field : Field) :
    limits.validate = .error (.zeroLimit field) ↔
      ∃ before after, Field.all = before ++ field :: after ∧ limits.get field = 0 ∧
        ∀ f ∈ before, limits.get f ≠ 0 := by
  have hfind : limits.validate = .error (.zeroLimit field) ↔
      Field.all.find? (limits.get · == 0) = some field := by
    unfold validate
    split
    · rename_i f h
      simp [h]
    · rename_i h
      simp [h]
  rw [hfind, List.find?_eq_some_iff_append]
  constructor
  · rintro ⟨hzero, before, after, hall, hbefore⟩
    exact ⟨before, after, hall, by simpa using hzero, fun f hf => by simpa using hbefore f hf⟩
  · rintro ⟨before, after, hall, hzero, hbefore⟩
    exact ⟨by simpa using hzero, before, after, hall, fun f hf => by simpa using hbefore f hf⟩

end Limits

end Formulary

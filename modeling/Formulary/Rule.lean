import Formulary.Cache
import Formulary.Evaluation

/-!
# Rules

A stored rule is a formula text with the keys of the data that it depends on. An
engine evaluates rules against a source of data, from which a rule gets the values
of its own keys and no others, and compiles each rule once.

* `Engine.evaluate`: the value of a rule.
* `BatchStats.count`: one more result.
* `Engine.evaluateAll`: the values of several rules, and a count of the outcomes.
-/

namespace Formulary

/-- A stored rule: its formula, and the keys that the formula may use as variables. -/
structure Record where
  formulaText : String
  dependentKeys : List String
deriving DecidableEq

/-- Data by key. -/
abbrev Source := String → Option BindingValue

namespace Source

/-- The data of bindings. -/
def ofBindings (b : Bindings) : Source := b.get?

/-- Floating-point data; of two values for one key, the last counts. -/
def ofFloats (pairs : List (String × Binary64)) : Source :=
  ofBindings (.ofList (pairs.map fun (key, x) => (key, .float x)))

/-- Decimal data; of two values for one key, the last counts. -/
def ofDecimals (pairs : List (String × Decimal)) : Source :=
  ofBindings (.ofList (pairs.map fun (key, d) => (key, .decimal d)))

end Source

/-- Binds the keys of a rule that the source has data for. -/
def Record.bindings (r : Record) (source : Source) : Bindings :=
  r.dependentKeys.foldl
    (fun b key => match source key with
      | some value => b.insert key value
      | none => b)
    .empty

/-- How the rules of a batch fared. -/
structure BatchStats where
  records : Nat := 0
  evaluated : Nat := 0
  parseErrors : Nat := 0
  evalErrors : Nat := 0
  cacheHits : Nat := 0
deriving DecidableEq

namespace BatchStats

/-- The number of rules without a value. -/
def failed (s : BatchStats) : Nat := s.parseErrors + s.evalErrors

/-- The same with one more result: a value, a formula without a tree, or a tree without a
value. -/
def count (s : BatchStats) : Except FormulaError Value → BatchStats
  | .ok _ => { s with evaluated := s.evaluated + 1 }
  | .error (.parse _) => { s with parseErrors := s.parseErrors + 1 }
  | .error (.eval _) => { s with evalErrors := s.evalErrors + 1 }

end BatchStats

/-- Evaluates rules under limits, with a cache for their formulas. -/
structure Engine where
  limits : Limits
  cache : Cache

namespace Engine

/-- An engine with an empty cache, if the limits are valid. -/
def ofLimits (limits : Limits) (capacity : Option Nat) : Except ConfigError Engine := do
  limits.validate
  return ⟨limits, .empty limits capacity⟩

/-- The formula of a rule. -/
def compile (engine : Engine) (r : Record) : Except ParseError Shared × Engine :=
  let (result, cache) := engine.cache.compile r.formulaText r.dependentKeys
  (result, { engine with cache := cache })

/-- The value of a rule. -/
def evaluate (engine : Engine) (r : Record) (source : Source) :
    Except FormulaError Value × Engine :=
  let (compiled, engine) := engine.compile r
  let result := match compiled with
    | .error e => .error (.parse e)
    | .ok shared =>
      match shared.formula.evaluate (r.bindings source) engine.limits with
      | .error e => .error (.eval e)
      | .ok v => .ok v
  (result, engine)

/-- The values of rules, one after the other, each counted as it comes. -/
def evaluateEach (engine : Engine) (source : Source) (stats : BatchStats) :
    List Record → (List (Except FormulaError Value) × BatchStats) × Engine
  | [] => (([], stats), engine)
  | r :: rs =>
    let (result, engine) := engine.evaluate r source
    let ((results, stats), engine) := engine.evaluateEach source (stats.count result) rs
    ((result :: results, stats), engine)

/-- The values of rules, one after the other, and how they fared. -/
def evaluateAll (engine : Engine) (records : List Record) (source : Source) :
    (List (Except FormulaError Value) × BatchStats) × Engine :=
  let ((results, stats), after) :=
    engine.evaluateEach source { records := records.length } records
  ((results, { stats with cacheHits := after.cache.hits - engine.cache.hits }), after)

/-- Forgets the compiled formulas. -/
def clear (engine : Engine) : Engine := { engine with cache := engine.cache.clear }

end Engine

end Formulary

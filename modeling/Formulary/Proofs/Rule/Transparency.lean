import Formulary.Proofs.Cache.Batch
import Formulary.Rule

/-!
# The engine shows through to the formulas

To its caller an engine is nothing but its limits: what was compiled or evaluated before,
and what the cache keeps of it, does not change the value of a rule, and neither does data
under keys that the rule does not declare.

* `Engine.Call`, `Engine.after`: calls, and an engine after calls.
* `Engine.after_eq`: the cache of an engine is a cache after the calls on it, so its entries
  are what their texts compile to.
* `Record.get?_bindings`: a rule's bindings are the source's data for its own keys.
* `Engine.evaluate_after`: after any history, a rule has the value of its text over
  those bindings.
* `Engine.evaluate_transparent`: **nothing but its limits and the data under declared keys
  decides what an engine answers.**
-/

namespace Formulary

/-- A key that the source has no data for leaves the bindings as they are. -/
theorem Record.bindings_eq (r : Record) (source : Source) :
    r.bindings source =
      r.dependentKeys.foldl (fun b key => (source key).elim b (b.insert key)) .empty := by
  refine congrArg (List.foldl · _ _) (funext fun b => funext fun key => ?_)
  cases source key with
  | none => rfl
  | some value => rfl

/-- The bindings of a rule are those of its keys that the source has data for. -/
theorem Record.get?_bindings (r : Record) (source : Source) (key : String) :
    (r.bindings source).get? key = if key ∈ r.dependentKeys then source key else none := by
  have hfold (keys : List String) (b : Bindings) :
      (keys.foldl (fun b key => (source key).elim b (b.insert key)) b).get? key =
        if key ∈ keys then (source key).or (b.get? key) else b.get? key := by
    induction keys generalizing b with
    | nil => simp
    | cons k keys ih =>
      rw [List.foldl_cons, ih]
      by_cases hk : k = key
      · subst hk
        cases source k with
        | none => simp
        | some value => simp [Bindings.get?_insert]
      · have hother : ((source k).elim b (b.insert k)).get? key = b.get? key := by
          cases source k with
          | none => rfl
          | some value =>
            show (b.insert k value).get? key = b.get? key
            rw [Bindings.get?_insert, if_neg hk]
        rw [hother]
        simp [Ne.symm hk]
  rw [r.bindings_eq, hfold, Bindings.get?_empty, Option.or_none]

/-- Bindings that hold the same values resolve alike. -/
theorem Formula.evaluate_congr (f : Formula) {b b' : Bindings} (h : ∀ key, b.get? key = b'.get? key)
    (limits : Limits) : f.evaluate b limits = f.evaluate b' limits := by
  have hresolve : b.resolve = b'.resolve := by
    funext name
    unfold Bindings.resolve
    rw [h name]
  unfold Formula.evaluate
  rw [hresolve]

theorem evaluateText_congr (source : String) (names : List String) {b b' : Bindings}
    (h : ∀ key, b.get? key = b'.get? key) (limits : Limits) :
    evaluateText source names b limits = evaluateText source names b' limits := by
  unfold evaluateText
  cases Formula.compile source names limits with
  | error e => rfl
  | ok f => simp only [f.evaluate_congr h limits]

/-- What a rule asks of the cache. -/
def Record.call (r : Record) : Cache.Call := .compile r.formulaText r.dependentKeys

namespace Engine

/-- A call on an engine. -/
inductive Call
  | compile (r : Record)
  | evaluate (r : Record) (source : Source)
  | evaluateAll (records : List Record) (source : Source)
  | clear

/-- The engine after a call. -/
def Call.apply (engine : Engine) : Call → Engine
  | compile r => (engine.compile r).2
  | evaluate r source => (engine.evaluate r source).2
  | evaluateAll records source => (engine.evaluateAll records source).2
  | clear => engine.clear

/-- The engine after calls, one after the other. -/
def after (engine : Engine) (calls : List Call) : Engine := calls.foldl Call.apply engine

/-- The calls on the cache that a call on the engine makes. -/
def Call.cacheCalls : Call → List Cache.Call
  | compile r => [r.call]
  | evaluate r _ => [r.call]
  | evaluateAll records _ => records.map Record.call
  | clear => [.clear]

variable {limits : Limits} {capacity : Option Nat} {source source' : Source}

theorem evaluate_snd (engine : Engine) (r : Record) (source : Source) :
    (engine.evaluate r source).2 = { engine with cache := r.call.apply engine.cache } := rfl

/-- Rules evaluated one after the other ask the cache one after the other. -/
theorem evaluateEach_snd (engine : Engine) (source : Source) (stats : BatchStats)
    (records : List Record) :
    (engine.evaluateEach source stats records).2 =
      { engine with cache := engine.cache.after (records.map Record.call) } := by
  induction records generalizing engine stats with
  | nil => rfl
  | cons r records ih =>
    show ((engine.evaluate r source).2.evaluateEach source
      (stats.count (engine.evaluate r source).1) records).2 = _
    rw [ih, evaluate_snd]
    rfl

/-- **A step asks the cache**, and changes nothing else. -/
theorem apply_eq (engine : Engine) (call : Call) :
    call.apply engine = { engine with cache := engine.cache.after call.cacheCalls } := by
  cases call with
  | compile r => rfl
  | evaluate r source => rfl
  | evaluateAll records source => exact engine.evaluateEach_snd source _ records
  | clear => rfl

/-- **A history asks the cache**, call by call. -/
theorem after_eq (engine : Engine) (calls : List Call) :
    engine.after calls =
      { engine with cache := engine.cache.after (calls.flatMap Call.cacheCalls) } := by
  induction calls generalizing engine with
  | nil => rfl
  | cons call calls ih =>
    show (call.apply engine).after calls = _
    rw [ih, apply_eq, List.flatMap_cons, Cache.after, Cache.after, Cache.after, List.foldl_append]

/-- The value of a rule is that of its text, if the cache keeps what it should. -/
theorem evaluate_fst {engine : Engine} (hlimits : engine.limits = limits)
    (hsound : Cache.Sound limits engine.cache) (r : Record) (source : Source) :
    (engine.evaluate r source).1 =
      evaluateText r.formulaText r.dependentKeys (r.bindings source) limits := by
  have hanswer := hsound.answer r.formulaText r.dependentKeys
  subst hlimits
  unfold evaluate compile evaluateText
  rw [← hanswer]
  rcases engine.cache.compile r.formulaText r.dependentKeys with ⟨result, cache⟩
  cases result with
  | error e => rfl
  | ok shared => rfl

/-- An engine of valid limits starts with an empty cache. -/
theorem ofLimits_eq_ok_iff {engine : Engine} :
    Engine.ofLimits limits capacity = .ok engine ↔
      limits.validate = .ok () ∧ engine = ⟨limits, .empty limits capacity⟩ := by
  unfold Engine.ofLimits
  cases limits.validate with
  | error e => simp [bind, Except.bind]
  | ok u => simp [bind, Except.bind, pure, Except.pure, eq_comm]

theorem evaluate_after {engine : Engine} (h : Engine.ofLimits limits capacity = .ok engine)
    (calls : List Call) (r : Record) (source : Source) :
    ((engine.after calls).evaluate r source).1 =
      evaluateText r.formulaText r.dependentKeys (r.bindings source) limits := by
  obtain ⟨-, rfl⟩ := ofLimits_eq_ok_iff.1 h
  have hempty : Cache.Sound limits (.empty limits capacity) := .of_entries_eq_empty rfl rfl
  rw [after_eq]
  exact evaluate_fst rfl (hempty.after _) r source

/-- **An engine shows through to the formulas, and undeclared data does not.** Under valid
limits there is an engine of any capacity, and after any history a rule has the value of
its text over its own keys, bound to the source's data for them. So the value is the same
for an engine of another capacity, after another history, and over another source with
the same data for those keys. -/
theorem evaluate_transparent {limits : Limits} (hvalid : limits.validate = .ok ())
    (capacity : Option Nat) :
    ∃ engine, Engine.ofLimits limits capacity = .ok engine ∧
      ∀ (calls : List Call) (r : Record) (source : Source),
        (∀ key, (r.bindings source).get? key =
          if key ∈ r.dependentKeys then source key else none) ∧
        (∀ b : Bindings,
          (∀ key, b.get? key = if key ∈ r.dependentKeys then source key else none) →
          ((engine.after calls).evaluate r source).1 =
            evaluateText r.formulaText r.dependentKeys b limits) ∧
        ∀ (capacity' : Option Nat) (engine' : Engine) (calls' : List Call) (source' : Source),
          Engine.ofLimits limits capacity' = .ok engine' →
          (∀ key ∈ r.dependentKeys, source' key = source key) →
          ((engine'.after calls').evaluate r source').1 =
            ((engine.after calls).evaluate r source).1 := by
  have hengine : Engine.ofLimits limits capacity = .ok ⟨limits, .empty limits capacity⟩ :=
    ofLimits_eq_ok_iff.2 ⟨hvalid, rfl⟩
  refine ⟨_, hengine, fun calls r source => ⟨r.get?_bindings source, ?_, ?_⟩⟩
  · intro b hb
    rw [evaluate_after hengine]
    exact evaluateText_congr _ _ (fun key => (r.get?_bindings source key).trans (hb key).symm) _
  · intro capacity' engine' calls' source' hengine' hsource
    rw [evaluate_after hengine, evaluate_after hengine']
    refine evaluateText_congr _ _ (fun key => ?_) _
    rw [r.get?_bindings, r.get?_bindings]
    by_cases hkey : key ∈ r.dependentKeys
    · rw [if_pos hkey, if_pos hkey, hsource key hkey]
    · rw [if_neg hkey, if_neg hkey]

/-- A rule that was evaluated, forgotten and compiled again, next to data that it does not
declare: its value is that of its text. -/
theorem evaluate_transparent_price :
    let r : Record := ⟨"price * 2", ["price"]⟩
    let source : Source := .ofDecimals [("price", .one), ("cost", .zero)]
    ∃ engine, Engine.ofLimits {} (some 1) = .ok engine ∧
      ((engine.after [.evaluate r source, .clear, .compile r]).evaluate r source).1 =
        .ok (.number ⟨false, 2, 0, by decide, by decide⟩) := by
  intro r source
  have hvalid : Limits.validate {} = .ok () := rfl
  obtain ⟨engine, hengine, hall⟩ := evaluate_transparent hvalid (some 1)
  have hvalue : evaluateText "price * 2" ["price"] (r.bindings source) {} =
      .ok (.number ⟨false, 2, 0, by decide, by decide⟩) := by decide +kernel
  obtain ⟨hbindings, htext, -⟩ := hall [.evaluate r source, .clear, .compile r] r source
  exact ⟨engine, hengine, (htext _ hbindings).trans hvalue⟩

end Engine

end Formulary

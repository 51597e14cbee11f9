import Mathlib.Data.List.FinRange
import Formulary.Proofs.Rule.Transparency

/-!
# A batch of rules

A batch is its rules: each of them has the value that it has alone, whatever stands next to
it, and the counts of the outcomes add up. Its order decides nothing but the hits of a cache
without room for all, and where there is room for all not even those.

* `Record.key`: what the formula of a rule is kept by.
* `Engine.Reached`: the engines that a history of calls and bounds on the cache leads to;
  `Reached.sound` (every history): by induction, with a step for each of them.
* `Engine.evaluateAll_fst`, `Engine.evaluateAll_snd`: what a batch answers, and what it asks
  of the cache.
* `BatchStats.Counts`: what stats have counted; `Engine.evaluateEach_counts` (every batch):
  by induction on the rules, with `Counts.cons` for each of them.
* `Engine.cacheHits_add_newKeys`, `Engine.mem_evaluateAll`: what a batch finds in a cache
  without a bound, and what that keeps.
* `Engine.evaluateAll_batch`: **a batch is its rules, in any order.**
-/

namespace Formulary

/-- What the formula of a rule is kept by. -/
def Record.key (r : Record) : Cache.Key := ⟨r.formulaText, r.dependentKeys⟩

namespace BatchStats

/-- **Stats that have counted these results** since others: each result by what it is, and
nothing else. -/
structure Counts (before after : BatchStats) (results : List (Except FormulaError Value)) :
    Prop where
  records : after.records = before.records
  evaluated : after.evaluated = before.evaluated + results.countP (· matches .ok _)
  parseErrors : after.parseErrors =
    before.parseErrors + results.countP (· matches .error (.parse _))
  evalErrors : after.evalErrors =
    before.evalErrors + results.countP (· matches .error (.eval _))

variable {before after : BatchStats} {result : Except FormulaError Value}
  {results : List (Except FormulaError Value)}

theorem Counts.nil (stats : BatchStats) : Counts stats stats [] := ⟨rfl, rfl, rfl, rfl⟩

/-- One more result is counted in one place. -/
theorem Counts.cons (h : Counts (before.count result) after results) :
    Counts before after (result :: results) := by
  obtain ⟨hrecords, hevaluated, hparse, heval⟩ := h
  constructor
  · rw [hrecords]
    rcases result with (e | e) | v <;> rfl
  · rw [hevaluated, List.countP_cons]
    rcases result with (e | e) | v <;> simp [count]
    omega
  · rw [hparse, List.countP_cons]
    rcases result with (e | e) | v <;> simp [count]
    omega
  · rw [heval, List.countP_cons]
    rcases result with (e | e) | v <;> simp [count]
    omega

/-- **Every result is counted once**: it is a value, a formula without a tree, or a tree
without a value. -/
theorem length_eq_outcomes (results : List (Except FormulaError Value)) :
    results.length = results.countP (· matches .ok _) +
      (results.countP (· matches .error (.parse _)) +
        results.countP (· matches .error (.eval _))) := by
  induction results with
  | nil => rfl
  | cons result results ih =>
    rw [List.length_cons, List.countP_cons, List.countP_cons, List.countP_cons, ih]
    rcases result with (e | e) | v <;> simp <;> omega

end BatchStats

namespace Engine

/-- Bounds the number of formulas that are kept, from now on. -/
def withCapacity (engine : Engine) (capacity : Nat) : Engine :=
  { engine with cache := { engine.cache with capacity := some capacity } }

/-- **The engines that a history leads to**, from an engine of these limits by calls and by
bounds on the cache. -/
inductive Reached (limits : Limits) : Engine → Prop
  | start {capacity : Option Nat} {engine : Engine}
      (h : Engine.ofLimits limits capacity = .ok engine) : Reached limits engine
  | call {engine : Engine} (h : Reached limits engine) (call : Call) :
      Reached limits (call.apply engine)
  | withCapacity {engine : Engine} (h : Reached limits engine) (capacity : Nat) :
      Reached limits (engine.withCapacity capacity)

variable {limits : Limits} {engine : Engine} {records permuted : List Record}

/-- **Every history keeps the limits and the entries sound**, step by step. -/
theorem Reached.sound (h : Reached limits engine) :
    engine.limits = limits ∧ Cache.Sound limits engine.cache := by
  induction h with
  | start h =>
    obtain ⟨-, rfl⟩ := ofLimits_eq_ok_iff.1 h
    exact ⟨rfl, .of_entries_eq_empty rfl rfl⟩
  | call _ call ih =>
    rw [apply_eq]
    exact ⟨ih.1, ih.2.after _⟩
  | withCapacity _ capacity ih => exact ⟨ih.1, ih.2.limits_eq, ih.2.compiled⟩

/-- A batch asks the cache for the formula of each rule. -/
theorem evaluateAll_snd (engine : Engine) (records : List Record) (source : Source) :
    (engine.evaluateAll records source).2 =
      { engine with
        cache := engine.cache.after ((records.map Record.key).map Cache.Key.call) } := by
  rw [List.map_map]
  exact engine.evaluateEach_snd source _ records

/-- **A batch answers the values that its rules have alone**: by induction on the rules,
where each call leaves the entries sound for the next. -/
theorem evaluateAll_fst (h : Reached limits engine) (records : List Record) (source : Source) :
    (engine.evaluateAll records source).1.1 =
      records.map fun r => (engine.evaluate r source).1 := by
  have heach (engine : Engine) (stats : BatchStats) (h : Reached limits engine) :
      (engine.evaluateEach source stats records).1.1 = records.map fun r =>
        evaluateText r.formulaText r.dependentKeys (r.bindings source) limits := by
    induction records generalizing engine stats with
    | nil => rfl
    | cons r records ih =>
      have hfirst := evaluate_fst h.sound.1 h.sound.2 r source
      have hrest := ih (engine.evaluate r source).2 (stats.count (engine.evaluate r source).1)
        (h.call (.evaluate r source))
      exact congrArg₂ List.cons hfirst hrest
  have halone (r : Record) := evaluate_fst h.sound.1 h.sound.2 r source
  exact (heach engine _ h).trans (List.map_congr_left fun r _ => (halone r).symm)

/-- **The results are counted as they come**: by induction on the rules, where each of them
counts the one result that it adds. -/
theorem evaluateEach_counts (engine : Engine) (source : Source) (stats : BatchStats)
    (records : List Record) :
    stats.Counts (engine.evaluateEach source stats records).1.2
      (engine.evaluateEach source stats records).1.1 := by
  induction records generalizing engine stats with
  | nil => exact .nil stats
  | cons r records ih =>
    exact .cons (ih (engine.evaluate r source).2 (stats.count (engine.evaluate r source).1))

/-- A batch counts its rules, and its results by what they are. -/
theorem evaluateAll_counts (engine : Engine) (records : List Record) (source : Source) :
    let results := (engine.evaluateAll records source).1.1
    let stats := (engine.evaluateAll records source).1.2
    stats.records = records.length ∧
      stats.evaluated = results.countP (· matches .ok _) ∧
      stats.parseErrors = results.countP (· matches .error (.parse _)) ∧
      stats.evalErrors = results.countP (· matches .error (.eval _)) := by
  intro results stats
  have hcounts := evaluateEach_counts engine source { records := records.length } records
  exact ⟨hcounts.records, hcounts.evaluated.trans (Nat.zero_add _),
    hcounts.parseErrors.trans (Nat.zero_add _), hcounts.evalErrors.trans (Nat.zero_add _)⟩

/-- In another order the results are counted alike. -/
theorem counts_of_perm (h : Reached limits engine) (hperm : permuted.Perm records)
    (source : Source) :
    (engine.evaluateAll permuted source).1.2.records =
        (engine.evaluateAll records source).1.2.records ∧
      (engine.evaluateAll permuted source).1.2.evaluated =
        (engine.evaluateAll records source).1.2.evaluated ∧
      (engine.evaluateAll permuted source).1.2.parseErrors =
        (engine.evaluateAll records source).1.2.parseErrors ∧
      (engine.evaluateAll permuted source).1.2.evalErrors =
        (engine.evaluateAll records source).1.2.evalErrors := by
  have hresults : (engine.evaluateAll permuted source).1.1.Perm
      (engine.evaluateAll records source).1.1 := by
    rw [evaluateAll_fst h, evaluateAll_fst h]
    exact hperm.map _
  obtain ⟨hlength, hvalues, hparse, heval⟩ := engine.evaluateAll_counts records source
  obtain ⟨hlength', hvalues', hparse', heval'⟩ := engine.evaluateAll_counts permuted source
  rw [hlength, hvalues, hparse, heval, hlength', hvalues', hparse', heval']
  exact ⟨hperm.length_eq, hresults.countP_eq _, hresults.countP_eq _, hresults.countP_eq _⟩

/-- The hits of a batch are the rules whose formula is kept when they are reached. -/
theorem evaluateAll_cacheHits (engine : Engine) (records : List Record) (source : Source) :
    (engine.evaluateAll records source).1.2.cacheHits =
      (List.range records.length).countP fun i => records[i]?.any fun r =>
        (engine.evaluateAll (records.take i) source).2.cache.entries.contains r.key := by
  have hkept : engine.cache.keptAt (records.map Record.key) = fun i => records[i]?.any fun r =>
      (engine.evaluateAll (records.take i) source).2.cache.entries.contains r.key := by
    funext i
    rw [Cache.keptAt, List.getElem?_map, Option.any_map, evaluateAll_snd, ← List.map_take]
  show (engine.evaluateAll records source).2.cache.hits - engine.cache.hits = _
  rw [evaluateAll_snd, Cache.hits_after, List.length_map, Nat.add_sub_cancel_left, hkept]

section Unbounded

variable (h : Reached limits engine) (hcapacity : engine.cache.capacity = none)
include h hcapacity

/-- **What a cache without a bound keeps after a batch.** -/
theorem mem_evaluateAll (records : List Record) (source : Source) (key : Cache.Key) :
    key ∈ (engine.evaluateAll records source).2.cache.entries ↔
      key ∈ engine.cache.entries ∨ (key ∈ records.map Record.key ∧ key.compiles limits) := by
  rw [evaluateAll_snd]
  exact h.sound.2.mem_after hcapacity _

/-- **What a batch finds in a cache without a bound**: of the rules whose formula compiles,
all but the first for each formula that is new. -/
theorem cacheHits_add_newKeys (records : List Record) (source : Source) :
    (engine.evaluateAll records source).1.2.cacheHits +
        (Cache.newKeys limits engine.cache (records.map Record.key)).card =
      records.countP fun r => (Formula.compile r.formulaText r.dependentKeys limits).isOk := by
  have hhits := h.sound.2.hits_after_unbounded hcapacity (records.map Record.key)
  have hafter := Cache.hits_after engine.cache (records.map Record.key)
  have hcount : (records.map Record.key).countP (·.compiles limits) =
      records.countP fun r => (Formula.compile r.formulaText r.dependentKeys limits).isOk :=
    List.countP_map
  have hstats : (engine.evaluateAll records source).1.2.cacheHits =
      (engine.evaluateAll records source).2.cache.hits - engine.cache.hits := rfl
  rw [hstats, evaluateAll_snd]
  dsimp only
  omega

/-- In another order a cache without a bound finds and keeps the same. -/
theorem cache_of_perm (hperm : permuted.Perm records) (source : Source) :
    (engine.evaluateAll permuted source).1.2.cacheHits =
        (engine.evaluateAll records source).1.2.cacheHits ∧
      ∀ key, key ∈ (engine.evaluateAll permuted source).2.cache.entries ↔
        key ∈ (engine.evaluateAll records source).2.cache.entries := by
  have hhits := cacheHits_add_newKeys h hcapacity records source
  have hhits' := cacheHits_add_newKeys h hcapacity permuted source
  have hnew : Cache.newKeys limits engine.cache (permuted.map Record.key) =
      Cache.newKeys limits engine.cache (records.map Record.key) := by
    rw [Cache.newKeys, Cache.newKeys, List.toFinset_eq_of_perm _ _ (hperm.map _)]
  rw [hnew, hperm.countP_eq] at hhits'
  refine ⟨Nat.add_right_cancel (hhits'.trans hhits.symm), fun key => ?_⟩
  rw [mem_evaluateAll h hcapacity, mem_evaluateAll h hcapacity, (hperm.map _).mem_iff]

end Unbounded

/-- **A batch is its rules, its counts add up, and its order does not matter.** For every
engine that a history leads to: a batch answers one result for each rule, the one that the
rule has alone; the rules are counted by their results, and as hits are counted those whose
formula is kept when they are reached. In another order the results are the same in that
order, and so are the counts of the results; and where the cache has no bound, so are the
hits and the formulas that are kept afterwards, the hits being the rules whose formula
compiles less the formulas among them that are new. -/
theorem evaluateAll_batch (h : Reached limits engine) (records : List Record) (source : Source) :
    let out := engine.evaluateAll records source
    let results := out.1.1
    let stats := out.1.2
    results = records.map (fun r => (engine.evaluate r source).1) ∧
    (stats.records = records.length ∧ stats.records = stats.evaluated + stats.failed ∧
      stats.evaluated = results.countP (· matches .ok _) ∧
      stats.parseErrors = results.countP (· matches .error (.parse _)) ∧
      stats.evalErrors = results.countP (· matches .error (.eval _)) ∧
      stats.cacheHits = (List.range records.length).countP fun i => records[i]?.any fun r =>
        (engine.evaluateAll (records.take i) source).2.cache.entries.contains r.key) ∧
    (∀ σ : Equiv.Perm (Fin records.length),
      let out' := engine.evaluateAll (List.ofFn fun i => records[σ i]) source
      let stats' := out'.1.2
      (out'.1.1.length = records.length ∧
        ∀ i : Fin records.length, out'.1.1[(i : Nat)]? = results[(σ i : Nat)]?) ∧
      (stats'.records = stats.records ∧ stats'.evaluated = stats.evaluated ∧
        stats'.parseErrors = stats.parseErrors ∧ stats'.evalErrors = stats.evalErrors) ∧
      (engine.cache.capacity = none → stats'.cacheHits = stats.cacheHits ∧
        ∀ key, key ∈ out'.2.cache.entries ↔ key ∈ out.2.cache.entries)) ∧
    (engine.cache.capacity = none →
      stats.cacheHits + (Cache.newKeys limits engine.cache (records.map Record.key)).card =
        records.countP fun r => (Formula.compile r.formulaText r.dependentKeys limits).isOk) := by
  intro out results stats
  have hresults : results = records.map fun r => (engine.evaluate r source).1 :=
    evaluateAll_fst h records source
  obtain ⟨hrecords, hvalues, hparse, heval⟩ := engine.evaluateAll_counts records source
  have hsum : stats.records = stats.evaluated + stats.failed := by
    have hlength : results.length = records.length := by rw [hresults, List.length_map]
    have honce := BatchStats.length_eq_outcomes results
    rw [hlength, ← hvalues, ← hparse, ← heval, ← hrecords] at honce
    exact honce
  refine ⟨hresults, ⟨hrecords, hsum, hvalues, hparse, heval,
    evaluateAll_cacheHits engine records source⟩, fun σ => ?_,
    fun hcapacity => cacheHits_add_newKeys h hcapacity records source⟩
  intro out' stats'
  have hperm : (List.ofFn fun i => records[σ i]).Perm records := by
    have hofFn := Equiv.Perm.ofFn_comp_perm σ records.get
    rw [List.ofFn_get] at hofFn
    exact hofFn
  have hresults' : out'.1.1 =
      (List.ofFn fun i => records[σ i]).map fun r => (engine.evaluate r source).1 :=
    evaluateAll_fst h _ source
  refine ⟨⟨?_, fun i => ?_⟩, counts_of_perm h hperm source,
    fun hcapacity => cache_of_perm h hcapacity hperm source⟩
  · rw [hresults', List.length_map, List.length_ofFn]
  · simp [hresults, hresults']

/-- A formula that comes twice, before and behind one that does not compile: one hit, and one
formula without a tree. -/
theorem evaluateAll_batch_reversed :
    let r : Record := ⟨"price * 2", ["price"]⟩
    let bad : Record := ⟨"price +", ["price"]⟩
    let source : Source := .ofDecimals [("price", .one)]
    ∃ engine, Engine.ofLimits {} none = .ok engine ∧
      (engine.evaluateAll [bad, r, r] source).1.2.cacheHits = 1 ∧
      (engine.evaluateAll [r, r, bad] source).1.2.cacheHits = 1 ∧
      (engine.evaluateAll [r, r, bad] source).1.2.parseErrors =
        (engine.evaluateAll [bad, r, r] source).1.2.parseErrors := by
  intro r bad source
  have hengine : Engine.ofLimits {} none = .ok ⟨{}, .empty {} none⟩ := rfl
  have hr : (Formula.compile "price * 2" ["price"] {}).isOk = true := by decide +kernel
  have hbad : (Formula.compile "price +" ["price"] {}).isOk = false := by decide +kernel
  have hnew : Cache.newKeys {} (.empty {} none) [bad.key, r.key, r.key] = {r.key} := by
    ext key
    have hcompiles : r.key.compiles {} = true := hr
    have hfails : bad.key.compiles {} = false := hbad
    simp only [Cache.newKeys, Finset.mem_filter, List.mem_toFinset, List.mem_cons,
      List.not_mem_nil, or_false, or_self, Finset.mem_singleton]
    constructor
    · rintro ⟨rfl | rfl, hkey, -⟩
      · simp [hfails] at hkey
      · rfl
    · rintro rfl
      exact ⟨.inr rfl, hcompiles, Std.HashMap.not_mem_empty⟩
  obtain ⟨-, -, horder, hhits⟩ := evaluateAll_batch (.start hengine) [bad, r, r] source
  obtain ⟨-, ⟨-, -, hparse, -⟩, hunbounded⟩ := horder Fin.revPerm
  have hreversed := (hunbounded rfl).1
  have hlist : (List.ofFn fun i => [bad, r, r][Fin.revPerm i]) = [r, r, bad] := rfl
  simp only [hlist] at hparse hreversed
  have hcount : ([bad, r, r].countP fun r =>
      (Formula.compile r.formulaText r.dependentKeys {}).isOk) = 2 := by
    simp [r, bad, hr, hbad]
  have hsum := (hhits rfl).trans hcount
  rw [List.map_cons, List.map_cons, List.map_cons, List.map_nil, hnew,
    Finset.card_singleton] at hsum
  have hone := Nat.add_right_cancel (hsum.trans (Nat.add_comm 1 1))
  exact ⟨_, hengine, hone, hreversed.trans hone, hparse⟩

end Engine

end Formulary

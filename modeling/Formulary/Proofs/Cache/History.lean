import Mathlib.Data.Finset.Card
import Mathlib.Data.Finset.Insert
import Formulary.Cache

/-!
# The history of a cache

A cache is measured against the set of keys that its calls say it keeps, from the empty
set on. The set decides everything that can be seen of the cache: its size, what counts
as a hit, and which answers are one formula.

* `Cache.Call`, `Cache.after`: calls, and a cache after calls.
* `Cache.kept`: the keys that are kept, told by the calls alone.
* `Cache.Keeps`: what holds of a cache that keeps those keys; `keeps_after` (every
  history): by induction, with a step for each call.
* `Cache.id_eq_iff`: when two answers are one formula.
* `Cache.history`: **the whole of it, after any calls.**
-/

namespace Formulary.Cache

/-- A call on a cache. -/
inductive Call
  | compile (source : String) (names : List String)
  | clear
deriving DecidableEq

/-- The cache after a call. -/
def Call.apply (c : Cache) : Call → Cache
  | compile source names => (c.compile source names).2
  | clear => c.clear

/-- The cache after calls, one after the other. -/
def after (c : Cache) (calls : List Call) : Cache := calls.foldl Call.apply c

/-- The keys kept after a call, where `S` were kept before it. A key joins them when it
is new, its text compiles, and there is room for it. -/
def keptAfter (limits : Limits) (capacity : Option Nat) (S : Finset Key) : Call → Finset Key
  | .compile source names =>
    if ⟨source, names⟩ ∉ S ∧ (Formula.compile source names limits).isOk ∧
        ∀ m ∈ capacity, S.card < m then
      insert ⟨source, names⟩ S
    else S
  | .clear => ∅

/-- **The keys kept after calls on an empty cache.** -/
def kept (limits : Limits) (capacity : Option Nat) (calls : List Call) : Finset Key :=
  calls.foldl (keptAfter limits capacity) ∅

variable {limits : Limits} {capacity : Option Nat} {c : Cache} {S : Finset Key}
  {source source' : String} {names names' : List String} {f : Formula} {shared shared' : Shared}
  {key : Key} {id : Nat}

/-- **What a cache does when it is asked for a formula**: it answers the kept one, or it
compiles the text, which fails or makes a formula with the number of earlier misses as
its identity, kept if there is room. -/
theorem compile_cases (c : Cache) (source : String) (names : List String) :
    (∃ shared, c.entries[(⟨source, names⟩ : Key)]? = some shared ∧
      c.compile source names = (.ok shared, { c with hits := c.hits + 1 })) ∨
    (c.entries[(⟨source, names⟩ : Key)]? = none ∧
      ∃ e, Formula.compile source names c.limits = .error e ∧
        c.compile source names = (.error e, { c with misses := c.misses + 1 })) ∨
    (c.entries[(⟨source, names⟩ : Key)]? = none ∧
      ∃ f, Formula.compile source names c.limits = .ok f ∧
        c.compile source names = (.ok ⟨c.misses, f⟩,
          { c with
            misses := c.misses + 1
            entries := if c.hasRoom then c.entries.insert ⟨source, names⟩ ⟨c.misses, f⟩
              else c.entries })) := by
  unfold compile
  cases c.entries[(⟨source, names⟩ : Key)]? with
  | some shared => exact .inl ⟨shared, rfl, rfl⟩
  | none =>
    cases Formula.compile source names c.limits with
    | error e => exact .inr (.inl ⟨rfl, e, rfl, rfl⟩)
    | ok f =>
      refine .inr (.inr ⟨rfl, f, rfl, ?_⟩)
      cases c.hasRoom <;> rfl

theorem hasRoom_iff (c : Cache) : c.hasRoom ↔ ∀ m ∈ c.capacity, c.size < m := by
  unfold hasRoom
  cases c.capacity with
  | none => simp
  | some m => simp

/-- **What holds of a cache** under limits and with a capacity that keeps the keys `S`. -/
structure Keeps (limits : Limits) (capacity : Option Nat) (c : Cache) (S : Finset Key) : Prop where
  limits_eq : c.limits = limits
  capacity_eq : c.capacity = capacity
  mem_iff : ∀ key, key ∈ c.entries ↔ key ∈ S
  size_eq : c.size = S.card
  room : ∀ m ∈ capacity, S.card ≤ m
  compiled : ∀ (key : Key) (shared : Shared), c.entries[key]? = some shared →
    Formula.compile key.source key.names limits = .ok shared.formula
  id_lt : ∀ (key : Key) (shared : Shared), c.entries[key]? = some shared → shared.id < c.misses
  id_injective : ∀ (key key' : Key) (shared shared' : Shared), c.entries[key]? = some shared →
    c.entries[key']? = some shared' → shared.id = shared'.id → key = key'

/-- A cache without entries keeps nothing. -/
theorem keeps_nothing (hl : c.limits = limits) (hc : c.capacity = capacity)
    (h : c.entries = ∅) : Keeps limits capacity c ∅ where
  limits_eq := hl
  capacity_eq := hc
  mem_iff := by simp [h]
  size_eq := by simp [h, size]
  room := by simp
  compiled := by simp [h]
  id_lt := by simp [h]
  id_injective := by simp [h]

namespace Keeps

theorem not_mem_iff (h : Keeps limits capacity c S) : c.entries[key]? = none ↔ key ∉ S := by
  rw [← h.mem_iff]
  exact getElem?_eq_none_iff (c := c.entries) (i := key)

theorem mem_of_some (h : Keeps limits capacity c S) (hentry : c.entries[key]? = some shared) :
    key ∈ S := by
  by_contra hkey
  rw [h.not_mem_iff.2 hkey] at hentry
  cases hentry

/-- Counting a hit or a miss changes nothing that is kept. -/
theorem count (h : Keeps limits capacity c S) (hits : Nat) {misses : Nat}
    (hm : c.misses ≤ misses) :
    Keeps limits capacity { c with hits := hits, misses := misses } S where
  limits_eq := h.limits_eq
  capacity_eq := h.capacity_eq
  mem_iff := h.mem_iff
  size_eq := h.size_eq
  room := h.room
  compiled := h.compiled
  id_lt key shared hs := Nat.lt_of_lt_of_le (h.id_lt key shared hs) hm
  id_injective := h.id_injective

/-- **A new formula may be kept** where there is room, under the next identity. -/
theorem insert (h : Keeps limits capacity c S) (hkey : key ∉ S) (hroom : ∀ m ∈ capacity, S.card < m)
    (hf : Formula.compile key.source key.names limits = .ok f) :
    Keeps limits capacity { c with
        misses := c.misses + 1
        entries := c.entries.insert key ⟨c.misses, f⟩ } (insert key S) := by
  have hnew : key ∉ c.entries := fun hmem => hkey ((h.mem_iff key).1 hmem)
  -- an entry is the new one, or it was there before
  have hentry {k : Key} {s : Shared} (hs : (c.entries.insert key ⟨c.misses, f⟩)[k]? = some s) :
      (k = key ∧ s = ⟨c.misses, f⟩) ∨ c.entries[k]? = some s := by
    rw [Std.HashMap.getElem?_insert] at hs
    split at hs
    · rename_i heq
      exact .inl ⟨(beq_iff_eq.1 heq).symm, (Option.some.inj hs).symm⟩
    · exact .inr hs
  refine ⟨h.limits_eq, h.capacity_eq, ?_, ?_, ?_, ?_, ?_, ?_⟩
  · intro k
    rw [Std.HashMap.mem_insert, Finset.mem_insert, h.mem_iff, beq_iff_eq, eq_comm]
  · have hsize : c.entries.size = S.card := h.size_eq
    rw [size, Std.HashMap.size_insert, if_neg hnew, Finset.card_insert_of_notMem hkey, hsize]
  · intro m hm
    rw [Finset.card_insert_of_notMem hkey]
    exact hroom m hm
  · intro k s hs
    rcases hentry hs with ⟨rfl, rfl⟩ | hs
    · exact hf
    · exact h.compiled k s hs
  · intro k s hs
    rcases hentry hs with ⟨rfl, rfl⟩ | hs
    · exact Nat.lt_succ_self _
    · exact Nat.lt_succ_of_lt (h.id_lt k s hs)
  · intro k k' s s' hs hs' hid
    rcases hentry hs with ⟨rfl, rfl⟩ | hold
    · rcases hentry hs' with ⟨rfl, -⟩ | hold'
      · rfl
      · exact absurd hid.symm (Nat.ne_of_lt (h.id_lt k' s' hold'))
    · rcases hentry hs' with ⟨rfl, rfl⟩ | hold'
      · exact absurd hid (Nat.ne_of_lt (h.id_lt k s hold))
      · exact h.id_injective k k' s s' hold hold' hid

/-- **A step keeps the invariant**, case by case of what the cache does. -/
theorem apply (h : Keeps limits capacity c S) (call : Call) :
    Keeps limits capacity (call.apply c) (keptAfter limits capacity S call) := by
  cases call with
  | clear => exact keeps_nothing h.limits_eq h.capacity_eq rfl
  | compile source names =>
    rw [keptAfter, Call.apply]
    obtain ⟨shared, hentry, hc⟩ | ⟨hentry, e, he, hc⟩ | ⟨hentry, f, hf, hc⟩ :=
      c.compile_cases source names
    · rw [hc, if_neg fun hnew => hnew.1 (h.mem_of_some hentry)]
      exact h.count _ (Nat.le_refl _)
    · rw [h.limits_eq] at he
      rw [hc, he, if_neg fun hnew => Bool.false_ne_true hnew.2.1]
      exact h.count _ (Nat.le_succ _)
    · have hkey := h.not_mem_iff.1 hentry
      have hroom := c.hasRoom_iff
      rw [h.capacity_eq, h.size_eq] at hroom
      rw [h.limits_eq] at hf
      rw [hc, hf]
      by_cases hfull : ∀ m ∈ capacity, S.card < m
      · rw [if_pos (hroom.2 hfull), if_pos ⟨hkey, rfl, hfull⟩]
        exact h.insert hkey hfull hf
      · rw [if_neg (mt hroom.1 hfull), if_neg fun hnew => hfull hnew.2.2]
        exact h.count _ (Nat.le_succ _)

/-- **Every history keeps the invariant**, by induction on the calls. -/
theorem after (h : Keeps limits capacity c S) (calls : List Call) :
    Keeps limits capacity (c.after calls) (calls.foldl (keptAfter limits capacity) S) := by
  induction calls generalizing c S with
  | nil => exact h
  | cons call calls ih => exact ih (h.apply call)

/-- **The answer is what compiling the text gives**, and it is a hit exactly when the key
was kept. -/
theorem answer (h : Keeps limits capacity c S) (source : String) (names : List String) :
    (c.compile source names).1.map Shared.formula = Formula.compile source names limits ∧
      (c.compile source names).2.hits = c.hits + (if ⟨source, names⟩ ∈ S then 1 else 0) ∧
      (c.compile source names).2.misses = c.misses + if ⟨source, names⟩ ∈ S then 0 else 1 := by
  obtain ⟨shared, hentry, hc⟩ | ⟨hentry, e, he, hc⟩ | ⟨hentry, f, hf, hc⟩ :=
    c.compile_cases source names
  · have hkey := h.mem_of_some hentry
    rw [hc, if_pos hkey, if_pos hkey]
    exact ⟨(h.compiled _ _ hentry).symm, rfl, rfl⟩
  · have hkey := h.not_mem_iff.1 hentry
    rw [hc, if_neg hkey, if_neg hkey, ← h.limits_eq, he]
    exact ⟨rfl, rfl, rfl⟩
  · have hkey := h.not_mem_iff.1 hentry
    rw [hc, if_neg hkey, if_neg hkey, ← h.limits_eq, hf]
    exact ⟨rfl, rfl, rfl⟩

end Keeps

theorem keeps_kept (limits : Limits) (capacity : Option Nat) (calls : List Call) :
    Keeps limits capacity ((empty limits capacity).after calls) (kept limits capacity calls) := by
  have hempty : Keeps limits capacity (empty limits capacity) ∅ := keeps_nothing rfl rfl rfl
  exact hempty.after calls

section Identity

theorem misses_le_apply (c : Cache) (call : Call) : c.misses ≤ (call.apply c).misses := by
  cases call with
  | clear => exact Nat.le_refl _
  | compile source names =>
    rw [Call.apply]
    obtain ⟨shared, -, hc⟩ | ⟨-, e, -, hc⟩ | ⟨-, f, -, hc⟩ := c.compile_cases source names
    · rw [hc]
    · rw [hc]
      exact Nat.le_succ _
    · rw [hc]
      exact Nat.le_succ _

/-- An entry after a call was there before it, or is what the call compiled. -/
theorem entry_of_apply (call : Call) (h : (call.apply c).entries[key]? = some shared) :
    c.entries[key]? = some shared ∨
      (call = .compile key.source key.names ∧ shared.id = c.misses) := by
  cases call with
  | clear => simp [Call.apply, clear] at h
  | compile source names =>
    rw [Call.apply] at h
    obtain ⟨kept, -, hc⟩ | ⟨-, e, -, hc⟩ | ⟨-, f, -, hc⟩ := c.compile_cases source names
    · rw [hc] at h
      exact .inl h
    · rw [hc] at h
      exact .inl h
    · rw [hc] at h
      dsimp only at h
      split at h
      · rw [Std.HashMap.getElem?_insert] at h
        split at h
        · rename_i heq
          obtain rfl := beq_iff_eq.1 heq
          cases h
          exact .inr ⟨rfl, rfl⟩
        · exact .inl h
      · exact .inl h

/-- What is kept stays until the cache is cleared. -/
theorem entry_apply (h : c.entries[key]? = some shared) (call : Call) (hcall : call ≠ .clear) :
    (call.apply c).entries[key]? = some shared := by
  cases call with
  | clear => exact absurd rfl hcall
  | compile source names =>
    rw [Call.apply]
    obtain ⟨kept, -, hc⟩ | ⟨-, e, -, hc⟩ | ⟨hentry, f, -, hc⟩ := c.compile_cases source names
    · rw [hc]
      exact h
    · rw [hc]
      exact h
    · rw [hc]
      dsimp only
      split
      · -- the key of a new entry had none
        have hne : (⟨source, names⟩ : Key) ≠ key := by
          rintro rfl
          rw [hentry] at h
          cases h
        rw [Std.HashMap.getElem?_insert, if_neg (by simpa using hne)]
        exact h
      · exact h

theorem entry_after (h : c.entries[key]? = some shared) {calls : List Call}
    (hcalls : .clear ∉ calls) : (c.after calls).entries[key]? = some shared := by
  induction calls generalizing c with
  | nil => exact h
  | cons call calls ih =>
    obtain ⟨hcall, hcalls⟩ := List.ne_and_not_mem_of_not_mem_cons hcalls
    exact ih (entry_apply h call hcall.symm) hcalls

/-- **An identity that is spent**: it was given, and no formula that is kept has it. -/
structure Spent (c : Cache) (id : Nat) : Prop where
  lt_misses : id < c.misses
  ne_id : ∀ (key : Key) (shared : Shared), c.entries[key]? = some shared → shared.id ≠ id

/-- An identity once spent is not given again, whatever is called. -/
theorem Spent.after (h : Spent c id) (calls : List Call) : Spent (c.after calls) id := by
  induction calls generalizing c with
  | nil => exact h
  | cons call calls ih =>
    refine ih ⟨Nat.lt_of_lt_of_le h.lt_misses (c.misses_le_apply call), fun key shared hs => ?_⟩
    rcases entry_of_apply call hs with hs | ⟨-, hs⟩
    · exact h.ne_id key shared hs
    · exact hs ▸ (Nat.ne_of_lt h.lt_misses).symm

theorem misses_le_after (c : Cache) (calls : List Call) : c.misses ≤ (c.after calls).misses := by
  induction calls generalizing c with
  | nil => exact Nat.le_refl _
  | cons call calls ih => exact Nat.le_trans (c.misses_le_apply call) (ih _)

/-- A formula that is answered is the kept one, or has the next identity. -/
theorem shared_of_compile (h : (c.compile source names).1 = .ok shared) :
    c.entries[(⟨source, names⟩ : Key)]? = some shared ∨
      (c.entries[(⟨source, names⟩ : Key)]? = none ∧ shared.id = c.misses) := by
  obtain ⟨kept, hentry, hc⟩ | ⟨-, e, -, hc⟩ | ⟨hentry, f, -, hc⟩ := c.compile_cases source names
  · rw [hc] at h
    cases h
    exact .inl hentry
  · rw [hc] at h
    cases h
  · rw [hc] at h
    cases h
    exact .inr ⟨hentry, rfl⟩

/-- A spent identity is not answered. -/
theorem Spent.ne (h : Spent c id) (hs : (c.compile source names).1 = .ok shared) :
    shared.id ≠ id := by
  rcases shared_of_compile hs with hs | ⟨-, hs⟩
  · exact h.ne_id _ _ hs
  · exact hs ▸ (Nat.ne_of_lt h.lt_misses).symm

/-- Clearing spends every identity that was given. -/
theorem spent_clear (h : id < c.misses) : Spent c.clear id where
  lt_misses := h
  ne_id := by simp [clear]

/-- The identity of an answered formula has been given. -/
theorem Keeps.id_lt_of_compile (h : Keeps limits capacity c S)
    (hs : (c.compile source names).1 = .ok shared) :
    shared.id < (c.compile source names).2.misses := by
  have hmisses := (h.answer source names).2.2
  rcases shared_of_compile hs with hentry | ⟨hentry, hid⟩
  · have hle : c.misses ≤ (c.compile source names).2.misses :=
      c.misses_le_apply (.compile source names)
    exact Nat.lt_of_lt_of_le (h.id_lt _ _ hentry) hle
  · rw [if_neg (h.not_mem_iff.1 hentry)] at hmisses
    omega

/-- An answered formula whose key is kept has the identity of the entry. -/
theorem Keeps.entry_of_compile (h : Keeps limits capacity c S)
    (hs : (c.compile source names).1 = .ok shared)
    (hkept : ⟨source, names⟩ ∈ keptAfter limits capacity S (.compile source names)) :
    ∃ kept, (c.compile source names).2.entries[(⟨source, names⟩ : Key)]? = some kept ∧
      kept.id = shared.id := by
  have hafter : Keeps limits capacity (c.compile source names).2 _ := h.apply (.compile source names)
  rcases shared_of_compile hs with hentry | ⟨hentry, hid⟩
  · exact ⟨shared, entry_apply hentry (.compile source names) (by simp), rfl⟩
  · obtain ⟨kept, hkept⟩ := Option.ne_none_iff_exists'.1 fun hnone =>
      hafter.not_mem_iff.1 hnone hkept
    refine ⟨kept, hkept, ?_⟩
    rcases entry_of_apply (.compile source names) hkept with hold | ⟨-, hnew⟩
    · rw [hentry] at hold
      cases hold
    · rw [hnew, hid]

/-- An answered formula that is not kept has spent its identity. -/
theorem Keeps.spent_of_compile (h : Keeps limits capacity c S)
    (hs : (c.compile source names).1 = .ok shared)
    (hkept : ⟨source, names⟩ ∉ keptAfter limits capacity S (.compile source names)) :
    Spent (c.compile source names).2 shared.id where
  lt_misses := h.id_lt_of_compile hs
  ne_id key other hother := by
    have hafter : Keeps limits capacity (c.compile source names).2 _ :=
      h.apply (.compile source names)
    have hnone := hafter.not_mem_iff.2 hkept
    rcases shared_of_compile hs with hentry | ⟨-, hid⟩
    · have hstays := entry_apply hentry (.compile source names) (by simp)
      rw [Call.apply, hnone] at hstays
      cases hstays
    · rcases entry_of_apply (.compile source names) hother with hold | ⟨hcall, -⟩
      · exact hid ▸ Nat.ne_of_lt (h.id_lt _ _ hold)
      · obtain ⟨rfl, rfl⟩ := Call.compile.inj hcall
        rw [hnone] at hother
        cases hother

/-- **When two answers are one formula**: they were given for one key, which was kept
right after the first of them, and the cache was not cleared between them. -/
theorem Keeps.id_eq_iff (h : Keeps limits capacity c S)
    (hs : (c.compile source names).1 = .ok shared) (calls : List Call)
    (hs' : (((c.compile source names).2.after calls).compile source' names').1 = .ok shared') :
    shared.id = shared'.id ↔
      (⟨source, names⟩ : Key) = ⟨source', names'⟩ ∧ .clear ∉ calls ∧
        ⟨source, names⟩ ∈ keptAfter limits capacity S (.compile source names) := by
  have hfirst : Keeps limits capacity (c.compile source names).2 _ :=
    h.apply (.compile source names)
  have hlast := hfirst.after calls
  by_cases hkept : ⟨source, names⟩ ∈ keptAfter limits capacity S (.compile source names)
  · by_cases hclear : .clear ∈ calls
    · obtain ⟨before, behind, rfl⟩ := List.append_of_mem hclear
      have hgiven := Nat.lt_of_lt_of_le (h.id_lt_of_compile hs) (misses_le_after _ before)
      have hspent := (spent_clear hgiven).after behind
      rw [Cache.after, List.foldl_append] at hs'
      exact iff_of_false (hspent.ne hs').symm fun hiff => hiff.2.1 hclear
    · obtain ⟨kept, hentry, hid⟩ := h.entry_of_compile hs hkept
      have hstays := entry_after hentry hclear
      refine Iff.trans ?_ (and_iff_left ⟨hclear, hkept⟩).symm
      rcases shared_of_compile hs' with hentry' | ⟨hentry', hid'⟩
      · constructor
        · intro heq
          exact hlast.id_injective _ _ _ _ hstays hentry' (hid.trans heq)
        · intro heq
          rw [heq, hentry'] at hstays
          cases hstays
          exact hid.symm
      · -- the second is a new formula, so its key is another one and so is its identity
        have hold := hlast.id_lt _ _ hstays
        refine iff_of_false (by omega) fun heq => ?_
        rw [heq, hentry'] at hstays
        cases hstays
  · have hspent := (h.spent_of_compile hs hkept).after calls
    exact iff_of_false (hspent.ne hs').symm fun hiff => hkept hiff.2.2

end Identity

/-- **The history of a cache.** After any calls on an empty cache, with `S` the keys that
the calls say it keeps: its size is that of `S`, within the capacity; a text is answered
with what compiling it gives, counted as a hit if its key is in `S` and as a miss
otherwise, failures included; clearing counts nothing; and two answers, with any calls
between them, are one formula exactly when they are for one key, kept right after the
first of them, and nothing was cleared between. -/
theorem history (limits : Limits) (capacity : Option Nat) (calls : List Call) :
    let c := (empty limits capacity).after calls
    let S := kept limits capacity calls
    (c.size = S.card ∧ ∀ m ∈ capacity, c.size ≤ m) ∧
    (∀ (source : String) (names : List String),
      (c.compile source names).1.map Shared.formula = Formula.compile source names limits ∧
        (c.compile source names).2.hits = c.hits + (if ⟨source, names⟩ ∈ S then 1 else 0) ∧
        (c.compile source names).2.misses = c.misses + if ⟨source, names⟩ ∈ S then 0 else 1) ∧
    (c.clear.hits = c.hits ∧ c.clear.misses = c.misses) ∧
    ∀ (source : String) (names : List String) (shared : Shared) (between : List Call)
      (source' : String) (names' : List String) (shared' : Shared),
      (c.compile source names).1 = .ok shared →
      (((c.compile source names).2.after between).compile source' names').1 = .ok shared' →
      (shared.id = shared'.id ↔
        (⟨source, names⟩ : Key) = ⟨source', names'⟩ ∧ .clear ∉ between ∧
          ⟨source, names⟩ ∈ keptAfter limits capacity S (.compile source names)) := by
  intro c S
  have h : Keeps limits capacity c S := keeps_kept limits capacity calls
  refine ⟨⟨h.size_eq, fun m hm => h.size_eq ▸ h.room m hm⟩, h.answer, ⟨rfl, rfl⟩, ?_⟩
  intro source names shared between source' names' shared' hs hs'
  exact h.id_eq_iff hs between hs'

/-- In a cache for one formula, the first text is answered with one formula when it comes
again behind another text, and that other text with two. -/
theorem history_one_formula :
    let c := empty {} (some 1)
    let full := c.after [.compile "1" []]
    ∃ one one' two two' : Shared,
      (c.compile "1" []).1 = .ok one ∧
      (((c.compile "1" []).2.after [.compile "2" []]).compile "1" []).1 = .ok one' ∧
      (full.compile "2" []).1 = .ok two ∧
      (((full.compile "2" []).2.after []).compile "2" []).1 = .ok two' ∧
      one.id = one'.id ∧ two.id ≠ two'.id := by
  intro c full
  have hfound {c : Cache} {source : String} {names : List String} {f : Formula}
      (h : (c.compile source names).1.map Shared.formula = Formula.compile source names {})
      (hf : Formula.compile source names {} = .ok f) :
      ∃ shared, (c.compile source names).1 = .ok shared := by
    rw [hf] at h
    cases hc : (c.compile source names).1 with
    | error e => simp [hc, Except.map] at h
    | ok shared => exact ⟨shared, rfl⟩
  have hone : Formula.compile "1" [] {} = .ok ⟨"1", [], .literal .one⟩ := by decide +kernel
  have htwo : Formula.compile "2" [] {} =
      .ok ⟨"2", [], .literal ⟨false, 2, 0, by decide, by decide⟩⟩ := by decide +kernel
  have answers (calls : List Call) := (history {} (some 1) calls).2.1
  obtain ⟨one, h1⟩ := hfound (answers [] "1" []).1 hone
  obtain ⟨one', h1'⟩ := hfound (answers [.compile "1" [], .compile "2" []] "1" []).1 hone
  obtain ⟨two, h2⟩ := hfound (answers [.compile "1" []] "2" []).1 htwo
  obtain ⟨two', h2'⟩ := hfound (answers [.compile "1" [], .compile "2" []] "2" []).1 htwo
  have hsame := (history {} (some 1) []).2.2.2 "1" [] one [.compile "2" []] "1" [] one' h1 h1'
  have hother := (history {} (some 1) [.compile "1" []]).2.2.2 "2" [] two [] "2" [] two' h2 h2'
  refine ⟨one, one', two, two', h1, h1', h2, h2', hsame.2 ?_, fun heq => ?_⟩
  · decide +kernel
  · exact absurd (hother.1 heq).2.2 (by decide +kernel)

end Formulary.Cache

import Mathlib.Data.Finset.Dedup
import Formulary.Proofs.Cache.History

/-!
# A cache that is asked for many formulas

What a cache keeps is what its texts compile to, whatever bound it has and however that was
changed. A cache without a bound keeps everything that compiles, so that what it keeps and
what it has found after many texts do not depend on their order.

* `Cache.Sound`: every entry is what its text compiles to; `Sound.answer`, `Sound.after`.
* `Cache.keptAt`, `Cache.hits_after`: the texts that are kept when they are reached.
* `Cache.newKeys`: the texts that are not kept yet, each of them once.
* `Cache.Sound.mem_after`, `Cache.Sound.hits_after_unbounded`: what a cache without a bound
  keeps and has found, told without an order.
-/

namespace Formulary.Cache

/-- Asking for the formula of a key. -/
def Key.call (key : Key) : Call := .compile key.source key.names

/-- Whether there is a formula for a key. -/
def Key.compiles (key : Key) (limits : Limits) : Bool :=
  (Formula.compile key.source key.names limits).isOk

/-- **Every entry is what its text compiles to**, whatever the capacity is. -/
structure Sound (limits : Limits) (c : Cache) : Prop where
  limits_eq : c.limits = limits
  compiled : ∀ (key : Key) (shared : Shared), c.entries[key]? = some shared →
    Formula.compile key.source key.names limits = .ok shared.formula

variable {limits : Limits} {c : Cache} {key k : Key} {keys : List Key}

namespace Sound

theorem of_entries_eq_empty (hl : c.limits = limits) (h : c.entries = ∅) : Sound limits c :=
  ⟨hl, by simp [h]⟩

theorem compiles_of_mem (h : Sound limits c) (hkey : key ∈ c.entries) : key.compiles limits := by
  have hentry := h.compiled key c.entries[key] (Std.HashMap.getElem?_eq_some_getElem hkey)
  rw [Key.compiles, hentry]
  rfl

/-- The answer is what compiling the text gives, kept or not. -/
theorem answer (h : Sound limits c) (source : String) (names : List String) :
    (c.compile source names).1.map Shared.formula = Formula.compile source names limits := by
  rw [← h.limits_eq]
  obtain ⟨shared, hentry, hc⟩ | ⟨-, e, he, hc⟩ | ⟨-, f, hf, hc⟩ := c.compile_cases source names
  · have hkept := h.compiled _ shared hentry
    rw [← h.limits_eq] at hkept
    rw [hc, hkept]
    rfl
  · rw [hc, he]
    rfl
  · rw [hc, hf]
    rfl

/-- **A step keeps the entries sound**, case by case of what the cache does. -/
theorem apply (h : Sound limits c) (call : Call) : Sound limits (call.apply c) := by
  cases call with
  | clear => exact of_entries_eq_empty h.limits_eq rfl
  | compile source names =>
    rw [Call.apply]
    obtain ⟨shared, -, hc⟩ | ⟨-, e, -, hc⟩ | ⟨-, f, hf, hc⟩ := c.compile_cases source names
    · rw [hc]
      exact ⟨h.limits_eq, h.compiled⟩
    · rw [hc]
      exact ⟨h.limits_eq, h.compiled⟩
    · rw [hc]
      refine ⟨h.limits_eq, fun key shared hs => ?_⟩
      dsimp only at hs
      split at hs
      · rw [Std.HashMap.getElem?_insert] at hs
        split at hs
        · rename_i heq
          obtain rfl := beq_iff_eq.1 heq
          cases hs
          exact h.limits_eq ▸ hf
        · exact h.compiled key shared hs
      · exact h.compiled key shared hs

theorem after (h : Sound limits c) (calls : List Call) : Sound limits (c.after calls) := by
  induction calls generalizing c with
  | nil => exact h
  | cons call calls ih => exact ih (h.apply call)

end Sound

theorem after_nil (c : Cache) : c.after [] = c := rfl

theorem after_cons (c : Cache) (call : Call) (calls : List Call) :
    c.after (call :: calls) = (call.apply c).after calls := rfl

theorem after_append (c : Cache) (calls calls' : List Call) :
    c.after (calls ++ calls') = (c.after calls).after calls' := List.foldl_append

/-- A key that is kept is found. -/
theorem hits_apply (c : Cache) (key : Key) :
    (key.call.apply c).hits = c.hits + if key ∈ c.entries then 1 else 0 := by
  rw [Key.call, Call.apply]
  obtain ⟨shared, hentry, hc⟩ | ⟨hentry, e, -, hc⟩ | ⟨hentry, f, -, hc⟩ :=
    c.compile_cases key.source key.names
  · obtain ⟨hkey, -⟩ := Std.HashMap.getElem?_eq_some_iff.1 hentry
    rw [hc, if_pos hkey]
  · rw [hc, if_neg ((getElem?_eq_none_iff _ _).1 hentry)]
    rfl
  · rw [hc, if_neg ((getElem?_eq_none_iff _ _).1 hentry)]
    rfl

/-- Whether the key at a place among others is kept when it is reached. -/
def keptAt (c : Cache) (keys : List Key) (i : Nat) : Bool :=
  keys[i]?.any fun key => (c.after ((keys.take i).map Key.call)).entries.contains key

/-- Keys behind a place do not matter there. -/
theorem keptAt_append {i : Nat} (c : Cache) (keys behind : List Key) (hi : i < keys.length) :
    c.keptAt (keys ++ behind) i = c.keptAt keys i := by
  rw [keptAt, keptAt, List.getElem?_append_left hi, List.take_append_of_le_length (Nat.le_of_lt hi)]

theorem keptAt_length (c : Cache) (keys : List Key) (key : Key) :
    c.keptAt (keys ++ [key]) keys.length =
      (c.after (keys.map Key.call)).entries.contains key := by
  rw [keptAt, List.getElem?_concat_length, List.take_left]
  rfl

/-- **The keys that are kept when they are reached** are found, and no others: by induction
on the keys from their end. -/
theorem hits_after (c : Cache) (keys : List Key) :
    (c.after (keys.map Key.call)).hits =
      c.hits + (List.range keys.length).countP (c.keptAt keys) := by
  induction keys using List.reverseRecOn with
  | nil => rfl
  | append_singleton keys key ih =>
    have hbefore : (List.range keys.length).countP (c.keptAt (keys ++ [key])) =
        (List.range keys.length).countP (c.keptAt keys) :=
      List.countP_congr fun i hi => by rw [c.keptAt_append keys [key] (List.mem_range.1 hi)]
    rw [List.map_append, List.map_singleton, after_append, after_cons, after_nil, hits_apply, ih,
      List.length_append, List.length_singleton, List.range_succ, List.countP_append,
      List.countP_singleton, hbefore, keptAt_length, Nat.add_assoc]
    simp only [Std.HashMap.contains_iff_mem]

/-- The keys of texts that compile and are not kept yet, each of them once. -/
def newKeys (limits : Limits) (c : Cache) (keys : List Key) : Finset Key :=
  keys.toFinset.filter fun key => key.compiles limits ∧ key ∉ c.entries

/-- A call changes no capacity. -/
theorem capacity_apply (c : Cache) (call : Call) : (call.apply c).capacity = c.capacity := by
  cases call with
  | clear => rfl
  | compile source names =>
    rw [Call.apply]
    obtain ⟨shared, -, hc⟩ | ⟨-, e, -, hc⟩ | ⟨-, f, -, hc⟩ := c.compile_cases source names
    · rw [hc]
    · rw [hc]
    · rw [hc]

namespace Sound

/-- **What a cache without a bound keeps after a text**: what it kept, and the text if it
compiles. -/
theorem mem_apply (h : Sound limits c) (hcapacity : c.capacity = none) (key : Key) :
    k ∈ (key.call.apply c).entries ↔ k ∈ c.entries ∨ (k = key ∧ k.compiles limits) := by
  have hroom : c.hasRoom := c.hasRoom_iff.2 (by simp [hcapacity])
  rw [Key.call, Call.apply]
  obtain ⟨shared, hentry, hc⟩ | ⟨-, e, he, hc⟩ | ⟨-, f, hf, hc⟩ :=
    c.compile_cases key.source key.names
  · obtain ⟨hkey, -⟩ := Std.HashMap.getElem?_eq_some_iff.1 hentry
    rw [hc]
    refine ⟨.inl, fun hk => hk.elim id ?_⟩
    rintro ⟨rfl, -⟩
    exact hkey
  · have hfails : ¬ key.compiles limits := by
      rw [h.limits_eq] at he
      rw [Key.compiles, he]
      exact Bool.false_ne_true
    rw [hc]
    refine ⟨.inl, fun hk => hk.elim id ?_⟩
    rintro ⟨rfl, hcompiles⟩
    exact absurd hcompiles hfails
  · have hcompiles : key.compiles limits := by
      rw [h.limits_eq] at hf
      rw [Key.compiles, hf]
      rfl
    rw [hc, if_pos hroom, Std.HashMap.mem_insert, beq_iff_eq]
    constructor
    · rintro (rfl | hk)
      · exact .inr ⟨rfl, hcompiles⟩
      · exact .inl hk
    · rintro (hk | ⟨rfl, -⟩)
      · exact .inr hk
      · exact .inl rfl

/-- What a cache without a bound keeps after many texts: what it kept, and those that
compile. -/
theorem mem_after (h : Sound limits c) (hcapacity : c.capacity = none) (keys : List Key) :
    k ∈ (c.after (keys.map Key.call)).entries ↔
      k ∈ c.entries ∨ (k ∈ keys ∧ k.compiles limits) := by
  induction keys generalizing c with
  | nil => simp [Cache.after]
  | cons key keys ih =>
    rw [List.map_cons, after_cons, ih (h.apply _) ((c.capacity_apply _).trans hcapacity),
      h.mem_apply hcapacity, List.mem_cons, or_assoc, or_and_right]

/-- The first of some keys is new if it compiles and was not kept, and the others are new if
they are after it. -/
theorem newKeys_cons (h : Sound limits c) (hcapacity : c.capacity = none) (key : Key)
    (keys : List Key) :
    newKeys limits c (key :: keys) =
      if key.compiles limits ∧ key ∉ c.entries then
        insert key (newKeys limits (key.call.apply c) keys)
      else newKeys limits (key.call.apply c) keys := by
  ext k
  by_cases hk : k = key
  · subst hk
    by_cases hnew : k.compiles limits ∧ k ∉ c.entries
    · simp [newKeys, hnew]
    · rw [if_neg hnew]
      simp only [newKeys, Finset.mem_filter, h.mem_apply hcapacity]
      tauto
  · split <;> simp [newKeys, h.mem_apply hcapacity, hk]

/-- A key that compiles is not new once it has been asked for. -/
theorem not_mem_newKeys_apply (h : Sound limits c) (hcapacity : c.capacity = none)
    (hkey : key.compiles limits) (keys : List Key) :
    key ∉ newKeys limits (key.call.apply c) keys := by
  simp [newKeys, h.mem_apply hcapacity, hkey]

/-- **What a cache without a bound finds**: of the texts that compile, all but the first of
each that is new. By induction on the texts. -/
theorem hits_after_unbounded (h : Sound limits c) (hcapacity : c.capacity = none)
    (keys : List Key) :
    (c.after (keys.map Key.call)).hits + (newKeys limits c keys).card =
      c.hits + keys.countP (·.compiles limits) := by
  induction keys generalizing c with
  | nil => simp [Cache.after, newKeys]
  | cons key keys ih =>
    have hrest := ih (h.apply key.call) ((c.capacity_apply _).trans hcapacity)
    rw [hits_apply] at hrest
    rw [List.map_cons, after_cons, List.countP_cons, h.newKeys_cons hcapacity]
    by_cases hkept : key ∈ c.entries
    · rw [if_pos hkept] at hrest
      rw [if_neg fun hnew => hnew.2 hkept, if_pos (h.compiles_of_mem hkept)]
      omega
    · rw [if_neg hkept] at hrest
      by_cases hcompiles : key.compiles limits
      · rw [if_pos ⟨hcompiles, hkept⟩, if_pos hcompiles,
          Finset.card_insert_of_notMem (h.not_mem_newKeys_apply hcapacity hcompiles keys)]
        omega
      · rw [if_neg fun hnew => hcompiles hnew.1, if_neg hcompiles]
        omega

end Sound

end Formulary.Cache

import Formulary.Formula
import Std.Data.HashMap

/-!
# A cache of formulas

Formulas that have been compiled are kept by their text and variables, so that
asking again answers the same formula without reading it again. Texts that do not
compile are not kept, and neither is a formula for which there is no room.

* `Cache.compile`: the formula of a text, kept or compiled now.
* `Shared`: a formula with the identity that it got when it was compiled.
-/

namespace Formulary

/-- What a formula is kept by: its text and its variables in their order. -/
structure Cache.Key where
  source : String
  names : List String
deriving DecidableEq, Hashable

/-- A compiled formula with its identity: two are one if they stem from the same
compilation. -/
structure Shared where
  id : Nat
  formula : Formula

/-- Kept formulas, and how often one was found and not found. -/
structure Cache where
  limits : Limits
  capacity : Option Nat
  entries : Std.HashMap Cache.Key Shared
  hits : Nat
  misses : Nat

namespace Cache

/-- A cache without formulas, whose formulas keep to these limits and are at most
as many as its capacity, if it has one. -/
def empty (limits : Limits) (capacity : Option Nat) : Cache := ⟨limits, capacity, ∅, 0, 0⟩

/-- The number of kept formulas. -/
def size (c : Cache) : Nat := c.entries.size

/-- Whether no formula is kept. -/
def isEmpty (c : Cache) : Bool := c.entries.isEmpty

/-- Whether there is room for one more formula. -/
def hasRoom (c : Cache) : Bool :=
  match c.capacity with
  | some capacity => c.size < capacity
  | none => true

/-- The formula of a text over declared names. It is compiled, under the limits of
the cache, unless it is kept, and it is kept from now on if there is room. The
number of earlier misses is the identity of a new compilation. -/
def compile (c : Cache) (source : String) (names : List String) :
    Except ParseError Shared × Cache :=
  match c.entries[(⟨source, names⟩ : Key)]? with
  | some shared => (.ok shared, { c with hits := c.hits + 1 })
  | none =>
    let missed := { c with misses := c.misses + 1 }
    match Formula.compile source names c.limits with
    | .error e => (.error e, missed)
    | .ok formula =>
      -- every compilation is a miss, so no two of them have one identity
      let shared : Shared := ⟨c.misses, formula⟩
      if c.hasRoom then
        (.ok shared, { missed with entries := c.entries.insert ⟨source, names⟩ shared })
      else (.ok shared, missed)

/-- Forgets all formulas, but not how often one was found. -/
def clear (c : Cache) : Cache := { c with entries := ∅ }

end Cache

end Formulary

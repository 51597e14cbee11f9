import Std.Data.TreeMap
import Formulary.Binary64.Shortest
import Formulary.Decimal.OfBinary64
import Formulary.Error

/-!
# Bindings

The values bound to variables, at most one to a name. A value is a decimal or a
binary floating-point number, which becomes a decimal only when it is asked for,
so that a binding that has none does no harm until then.

* `BindingValue.toDecimal`: the decimal of a bound value.
* `Bindings.resolve`: the decimal bound to a name, or why there is none.
-/

namespace Formulary

/-- A value bound to a variable. -/
inductive BindingValue
  | decimal (d : Decimal)
  | float (x : Binary64)
deriving DecidableEq

namespace BindingValue

/-- The printed value; a decimal shows its form. -/
def text : BindingValue → String
  | decimal d => d.text
  | float x => x.text

/-- The decimal of a value bound to `name`; a number that is not finite, or too
large, has none. -/
def toDecimal (name : String) : BindingValue → Except EvalError Decimal
  | decimal d => .ok d
  | float (.finite x) =>
    match Decimal.ofBinary64? x with
    | some d => .ok d
    | none => .error (.invalidBinding name (float (.finite x)).text)
  | float x => .error (.invalidBinding name (float x).text)

end BindingValue

/-- Values bound to names. -/
structure Bindings where
  entries : Std.TreeMap String BindingValue

namespace Bindings

/-- No bindings. -/
def empty : Bindings := ⟨∅⟩

/-- The value bound to a name. -/
def get? (b : Bindings) (name : String) : Option BindingValue := b.entries[name]?

/-- Binds a value to a name, in place of any earlier one. -/
def insert (b : Bindings) (name : String) (value : BindingValue) : Bindings :=
  ⟨b.entries.insert name value⟩

/-- Binds a value to a name, and also answers the value that it replaces. -/
def replace (b : Bindings) (name : String) (value : BindingValue) :
    Option BindingValue × Bindings :=
  (b.get? name, b.insert name value)

/-- Binds values in their order; of two for one name, the last stays. -/
def ofList (pairs : List (String × BindingValue)) : Bindings :=
  pairs.foldl (fun b pair => b.insert pair.1 pair.2) empty

/-- The bindings, sorted by name. -/
def toList (b : Bindings) : List (String × BindingValue) := b.entries.toList

/-- Whether a value is bound to a name. -/
def contains (b : Bindings) (name : String) : Bool := b.entries.contains name

/-- The number of bound names. -/
def size (b : Bindings) : Nat := b.entries.size

/-- Whether nothing is bound. -/
def isEmpty (b : Bindings) : Bool := b.entries.isEmpty

/-- The decimal bound to a name. -/
def resolve (b : Bindings) (name : String) : Except EvalError Decimal :=
  match b.get? name with
  | none => .error (.missingBinding name)
  | some value => value.toDecimal name

@[simp] theorem get?_empty (name : String) : empty.get? name = none := by
  simp [empty, get?]

theorem get?_insert (b : Bindings) (name key : String) (value : BindingValue) :
    (b.insert name value).get? key = if name = key then some value else b.get? key := by
  simp [insert, get?, Std.TreeMap.getElem?_insert]

end Bindings

end Formulary

import Formulary.Json.Number
import Formulary.Json.Reader
import Formulary.Json.Writer
import Formulary.Rule

/-!
# Stored limits, rules and values

Limits, rules and values are stored as JSON. Limits and rules are objects, or
arrays of the fields in their order; a value is a number or a truth value, where a
number is written as a string, to keep its form.

* `Limits.ofJson?`, `Limits.json`
* `Record.ofJson?`, `Record.json`
* `Value.ofJson?`, `Value.json`
-/

namespace Formulary

namespace Limits

/-- Replaces the limits that the members name. Other members are of no account, but
no limit may be named twice. -/
def ofMembers? (seen : List Field) (limits : Limits) :
    List (Option String × Json) → Option Limits
  | [] => some limits
  | (key, value) :: rest => do
    match Field.ofName? (← key) with
    | none => ofMembers? seen limits rest
    | some field =>
      if seen.contains field then none
      else ofMembers? (field :: seen) (limits.set field (← value.count?)) rest

/-- Replaces the limits from the first on by the items. -/
def ofItems? (limits : Limits) : List Field → List Json → Option Limits
  | _, [] => some limits
  | [], _ :: _ => none
  | field :: fields, value :: rest => do
    ofItems? (limits.set field (← value.count?)) fields rest

/-- The limits that a JSON value holds; what it does not mention is the default. -/
def ofJson? : Json → Option Limits
  | .object members => ofMembers? [] {} members
  | .array items => ofItems? {} Field.all items
  | _ => none

/-- The limits of a JSON text. -/
def ofJsonText? (text : String) : Option Limits := do ofJson? (← Json.ofText? text)

/-- The limits as JSON text. -/
def json (limits : Limits) : String :=
  String.ofList (Json.writeObject (Field.all.map fun f => (f.name, Json.writeNat (limits.get f))))

end Limits

namespace Record

/-- The texts of an array of strings. -/
def keys? : Json → Option (List String)
  | .array items => items.mapM Json.text?
  | _ => none

/-- Reads the members of a rule, of which each field must be there once. -/
def ofMembers? (text : Option String) (keys : Option (List String)) :
    List (Option String × Json) → Option Record
  | [] => do return ⟨← text, ← keys⟩
  | (key, value) :: rest => do
    match ← key with
    | "formulaText" =>
      if text.isSome then none else ofMembers? (some (← value.text?)) keys rest
    | "dependentKeys" =>
      if keys.isSome then none else ofMembers? text (some (← keys? value)) rest
    | _ => ofMembers? text keys rest

/-- The rule that a JSON value holds. -/
def ofJson? : Json → Option Record
  | .object members => ofMembers? none none members
  | .array [text, keys] => do return ⟨← text.text?, ← keys? keys⟩
  | _ => none

/-- The rule of a JSON text. -/
def ofJsonText? (text : String) : Option Record := do ofJson? (← Json.ofText? text)

/-- The rule as JSON text. -/
def json (r : Record) : String :=
  String.ofList (Json.writeObject
    [("formulaText", Json.writeText r.formulaText),
     ("dependentKeys", Json.writeArray (r.dependentKeys.map Json.writeText))])

end Record

namespace Value

/-- The value that a JSON value is; a string holds the text of a number. -/
def ofJson? : Json → Option Value
  | .boolean b => some (.boolean b)
  | .number n => n.decimal?.map .number
  | .string text => do return .number (← (Decimal.ofText (← text)).toOption)
  | _ => none

/-- The value of a JSON text. -/
def ofJsonText? (text : String) : Option Value := do ofJson? (← Json.ofText? text)

/-- The value as JSON text; a number shows its form. -/
def json : Value → String
  | number d => String.ofList (Json.writeText d.text)
  | boolean true => "true"
  | boolean false => "false"

end Value

end Formulary

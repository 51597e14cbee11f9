import Formulary.Error

/-!
# Diagnostics

An error as it is shown to the author of a formula: its code and wording, the
formula on one line with a caret under the place of the error, and advice.

* `ErrorKind.help`: the advice, for the causes that have one.
* `describe`: wording and advice.
* `render`: wording, the formula with the caret, and advice.
-/

namespace Formulary

/-- Advice on a cause. -/
def ErrorKind.help : ErrorKind → Option String
  | .unexpectedChar =>
    some ("formulas may only contain numbers, declared variables, parentheses, " ++
      "+ - * /, comparisons, && ||, and ? :")
  | .tooLong | .tooManyTokens => some "shorten the formula"
  | .emptyGroup => some "parentheses must contain an expression"
  | .tooDeep =>
    some ("reduce the nesting of parentheses and conditionals, " ++
      "or split long chains of operators")
  | .unknownVariable => some "add the variable to the formula's declared variables"
  | .unexpectedToken => some "check for a missing operator, operand, or ':' after '?'"
  | .budgetExceeded => some "simplify the formula"
  | .malformedNumber | .unbalancedParens | .emptyFormula | .invalidVariableName
  | .duplicateVariable | .missingBinding | .invalidBinding | .divisionByZero | .overflow => none

namespace FormulaError

/-- The first line of a diagnostic: code and wording. -/
def headline (e : FormulaError) : String := "error[" ++ e.kind.code ++ "]: " ++ e.message

/-- The last line of a diagnostic, if there is advice. -/
def helpLine (e : FormulaError) : String :=
  match e.kind.help with
  | some help => "\n  = help: " ++ help
  | none => ""

/-- Code, wording and advice. -/
def describe (e : FormulaError) : String := e.headline ++ e.helpLine

/-- A formula on one line: every white space character as a blank. -/
def sourceLine (source : String) : String :=
  source.map fun c => if Text.isWhiteSpace c then ' ' else c

/-- The formula on one line, and below it a caret under the character at `position`. -/
def caretLines (source : String) (position : Nat) : String :=
  "\n  | " ++ sourceLine source ++
    "\n  | " ++ String.ofList (List.replicate position ' ' ++ ['^'])

/-- Code, wording, the place in the formula, if there is one, and advice. -/
def render (e : FormulaError) (source : String) : String :=
  let place := match e.position with
    | some position => caretLines source position
    | none => ""
  e.headline ++ place ++ e.helpLine

end FormulaError

end Formulary

import Formulary.Token

/-!
# Errors

What can go wrong with a formula, stage by stage: cutting it into tokens, reading
the tokens as a tree, and evaluating the tree. An error is a cause with its data;
its wording, its code and its place in the formula are functions of it.

* `FormulaError.message`: the wording.
* `FormulaError.kind`, `ErrorKind.code`: the cause without its data, and its code.
* `FormulaError.position`: the place in the formula, for causes that have one.
-/

namespace Formulary

/-- Why a formula cannot be cut into tokens. -/
inductive LexError
  | unexpectedChar (ch : Char) (position : Nat)
  | tooLong (length max : Nat)
  | tooManyTokens (count max : Nat)
  | malformedNumber (text : String) (position : Nat)
deriving DecidableEq

/-- Why a formula has no tree. -/
inductive ParseError
  | lex (error : LexError)
  | unbalancedParens (position : Nat)
  | emptyGroup (position : Nat)
  | tooDeep (max : Nat)
  | unknownVariable (name : String) (position : Nat)
  | unexpectedToken (found : String) (position : Nat)
  | emptyFormula
  | invalidVariableName (name : String)
  | duplicateVariable (name : String)
deriving DecidableEq

/-- Why a tree has no value. -/
inductive EvalError
  | missingBinding (name : String)
  | invalidBinding (name value : String)
  | divisionByZero
  | overflow
  | budgetExceeded (max : Nat)
deriving DecidableEq

/-- Why a formula has no value: it has no tree, or its tree has none. -/
inductive FormulaError
  | parse (error : ParseError)
  | eval (error : EvalError)
deriving DecidableEq

/-- The cause of an error, without its data. -/
inductive ErrorKind
  | unexpectedChar
  | tooLong
  | tooManyTokens
  | malformedNumber
  | unbalancedParens
  | emptyGroup
  | tooDeep
  | unknownVariable
  | unexpectedToken
  | emptyFormula
  | invalidVariableName
  | duplicateVariable
  | missingBinding
  | invalidBinding
  | divisionByZero
  | overflow
  | budgetExceeded
deriving DecidableEq

/-- The code of a cause. -/
def ErrorKind.code : ErrorKind → String
  | .unexpectedChar => "unexpected-char"
  | .tooLong => "too-long"
  | .tooManyTokens => "too-many-tokens"
  | .malformedNumber => "malformed-number"
  | .unbalancedParens => "unbalanced-parens"
  | .emptyGroup => "empty-group"
  | .tooDeep => "too-deep"
  | .unknownVariable => "unknown-variable"
  | .unexpectedToken => "unexpected-token"
  | .emptyFormula => "empty-formula"
  | .invalidVariableName => "invalid-variable-name"
  | .duplicateVariable => "duplicate-variable"
  | .missingBinding => "missing-binding"
  | .invalidBinding => "invalid-binding"
  | .divisionByZero => "division-by-zero"
  | .overflow => "overflow"
  | .budgetExceeded => "budget-exceeded"

namespace LexError

/-- The cause of the error. -/
def kind : LexError → ErrorKind
  | unexpectedChar .. => .unexpectedChar
  | tooLong .. => .tooLong
  | tooManyTokens .. => .tooManyTokens
  | malformedNumber .. => .malformedNumber

/-- The place in the formula that the error is about. -/
def position : LexError → Option Nat
  | unexpectedChar _ position => some position
  | malformedNumber _ position => some position
  | tooLong .. | tooManyTokens .. => none

/-- The wording of the error. -/
def message : LexError → String
  | unexpectedChar ch position =>
    "unexpected character '" ++ String.singleton ch ++ "' at position " ++ Nat.repr position
  | tooLong length max =>
    "formula is " ++ Nat.repr length ++ " characters long (max: " ++ Nat.repr max ++ ")"
  | tooManyTokens count max =>
    "formula has " ++ Nat.repr count ++ " tokens (max: " ++ Nat.repr max ++ ")"
  | malformedNumber text position =>
    "malformed number '" ++ text ++ "' at position " ++ Nat.repr position

end LexError

namespace ParseError

/-- The cause of the error. -/
def kind : ParseError → ErrorKind
  | lex error => error.kind
  | unbalancedParens .. => .unbalancedParens
  | emptyGroup .. => .emptyGroup
  | tooDeep .. => .tooDeep
  | unknownVariable .. => .unknownVariable
  | unexpectedToken .. => .unexpectedToken
  | emptyFormula => .emptyFormula
  | invalidVariableName .. => .invalidVariableName
  | duplicateVariable .. => .duplicateVariable

/-- The place in the formula that the error is about. -/
def position : ParseError → Option Nat
  | lex error => error.position
  | unbalancedParens position => some position
  | emptyGroup position => some position
  | unknownVariable _ position => some position
  | unexpectedToken _ position => some position
  | tooDeep .. | emptyFormula | invalidVariableName .. | duplicateVariable .. => none

/-- The wording of the error. -/
def message : ParseError → String
  | lex error => error.message
  | unbalancedParens position => "unbalanced parentheses at position " ++ Nat.repr position
  | emptyGroup position => "empty parentheses at position " ++ Nat.repr position
  | tooDeep max => "formula nesting exceeds maximum depth of " ++ Nat.repr max
  | unknownVariable name position =>
    "unknown variable '" ++ name ++ "' at position " ++ Nat.repr position
  | unexpectedToken found position =>
    "unexpected " ++ found ++ " at position " ++ Nat.repr position
  | emptyFormula => "formula is empty"
  | invalidVariableName name => "invalid variable name '" ++ name ++ "'"
  | duplicateVariable name => "variable '" ++ name ++ "' is declared more than once"

end ParseError

namespace EvalError

/-- The cause of the error. -/
def kind : EvalError → ErrorKind
  | missingBinding .. => .missingBinding
  | invalidBinding .. => .invalidBinding
  | divisionByZero => .divisionByZero
  | overflow => .overflow
  | budgetExceeded .. => .budgetExceeded

/-- The wording of the error. -/
def message : EvalError → String
  | missingBinding name => "no value bound for variable '" ++ name ++ "'"
  | invalidBinding name value =>
    "invalid value " ++ value ++ " bound for variable '" ++ name ++ "'"
  | divisionByZero => "division by zero"
  | overflow => "arithmetic overflow"
  | budgetExceeded max => "evaluation exceeded the budget of " ++ Nat.repr max ++ " steps"

end EvalError

namespace FormulaError

/-- The cause of an error. -/
def kind : FormulaError → ErrorKind
  | parse error => error.kind
  | eval error => error.kind

/-- The place in the formula that an error is about. -/
def position : FormulaError → Option Nat
  | parse error => error.position
  | eval _ => none

/-- The wording of an error. -/
def message : FormulaError → String
  | parse error => error.message
  | eval error => error.message

end FormulaError

end Formulary

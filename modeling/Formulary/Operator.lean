/-!
# Operators

The twelve operators between two operands, and the six levels at which they bind.
-/

namespace Formulary

/-- An operator between two operands. -/
inductive BinaryOp
  | add
  | sub
  | mul
  | div
  | less
  | lessEq
  | greater
  | greaterEq
  | equal
  | notEqual
  | and
  | or
deriving DecidableEq

/-- How tightly an operator binds, from the loosest level on. -/
inductive Precedence
  | disjunction
  | conjunction
  | equality
  | relation
  | additive
  | multiplicative
deriving DecidableEq

namespace BinaryOp

/-- The operators, in the order of their levels from the tightest on. -/
def all : List BinaryOp :=
  [.add, .sub, .mul, .div, .less, .lessEq, .greater, .greaterEq, .equal, .notEqual, .and, .or]

/-- The written form of an operator. -/
def symbol : BinaryOp → String
  | .add => "+"
  | .sub => "-"
  | .mul => "*"
  | .div => "/"
  | .less => "<"
  | .lessEq => "<="
  | .greater => ">"
  | .greaterEq => ">="
  | .equal => "=="
  | .notEqual => "!="
  | .and => "&&"
  | .or => "||"

/-- The operator with that written form. -/
def ofSymbol? (symbol : String) : Option BinaryOp := all.find? (·.symbol == symbol)

/-- The level at which an operator binds. -/
def precedence : BinaryOp → Precedence
  | .add | .sub => .additive
  | .mul | .div => .multiplicative
  | .less | .lessEq | .greater | .greaterEq => .relation
  | .equal | .notEqual => .equality
  | .and => .conjunction
  | .or => .disjunction

end BinaryOp

end Formulary

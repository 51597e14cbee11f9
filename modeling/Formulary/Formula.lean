import Formulary.Expr.Parser
import Formulary.Expr.Printer
import Formulary.Token.Lexer

/-!
# Formulas

A formula is a text over declared variables together with its tree.

* `Formula.compile`: the formula of a text, if it has a tree.
* `Formula.text`: the canonical text.
* `Formula.same`: equality of text, variables and tree, literals by value.
-/

namespace Formulary

/-- A text with the variables it is over, in their order, and its tree. -/
structure Formula where
  source : String
  names : List String
  root : Expr
deriving DecidableEq

namespace Formula

/-- Reads a text over the declared names. -/
def compile (source : String) (names : List String) (limits : Limits) :
    Except ParseError Formula := do
  match tokenize source names limits with
  | .error e => throw (.lex e)
  | .ok tokens => return ⟨source, names, ← parse tokens names limits⟩

/-- The canonical text of the tree. -/
def text (f : Formula) : String := f.root.text

/-- The depth of the tree. -/
def depth (f : Formula) : Nat := f.root.depth

/-- The number of nodes of the tree. -/
def nodeCount (f : Formula) : Nat := f.root.nodeCount

/-- Equality of two formulas: of their texts, their variables and their trees. -/
def same (f g : Formula) : Bool :=
  f.source == g.source && f.names == g.names && f.root.same g.root

end Formula

end Formulary

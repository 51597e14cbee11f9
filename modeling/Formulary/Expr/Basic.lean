import Formulary.Operator
import Formulary.Decimal.Basic

/-!
# Expressions

The tree of a formula. A variable keeps its name for printing and its slot, the
place of the name among the declared ones, for evaluation.

* `Expr.depth`, `Expr.nodeCount`: the size of a tree.
* `Expr.same`: equality that takes literals by their values.
-/

namespace Formulary

/-- The tree of a formula. -/
inductive Expr
  | literal (value : Decimal)
  | var (name : String) (slot : Nat)
  | negate (operand : Expr)
  | binary (op : BinaryOp) (left right : Expr)
  | conditional (condition consequent alternative : Expr)
deriving DecidableEq

namespace Expr

/-- The number of nodes on the longest path from the root. -/
def depth : Expr → Nat
  | literal _ => 1
  | var _ _ => 1
  | negate e => e.depth + 1
  | binary _ l r => max l.depth r.depth + 1
  | conditional c t e => max c.depth (max t.depth e.depth) + 1

/-- The number of nodes. -/
def nodeCount : Expr → Nat
  | literal _ => 1
  | var _ _ => 1
  | negate e => e.nodeCount + 1
  | binary _ l r => l.nodeCount + r.nodeCount + 1
  | conditional c t e => c.nodeCount + t.nodeCount + e.nodeCount + 1

/-- Whether two trees are equal up to the forms of their literals. -/
def same : Expr → Expr → Bool
  | literal a, literal b => a.sameValue b
  | var a i, var b j => a == b && i == j
  | negate a, negate b => a.same b
  | binary op a b, binary op' a' b' => op == op' && a.same a' && b.same b'
  | conditional a b c, conditional a' b' c' => a.same a' && b.same b' && c.same c'
  | _, _ => false

/-- A tree is no deeper than it has nodes. -/
theorem depth_le_nodeCount (e : Expr) : e.depth ≤ e.nodeCount := by
  induction e with
  | literal => simp [depth, nodeCount]
  | var => simp [depth, nodeCount]
  | negate e ih => simp only [depth, nodeCount]; omega
  | binary op l r ihl ihr => simp only [depth, nodeCount]; omega
  | conditional c t e ihc iht ihe => simp only [depth, nodeCount]; omega

theorem depth_pos (e : Expr) : 0 < e.depth := by
  cases e <;> simp [depth]

end Expr

end Formulary
